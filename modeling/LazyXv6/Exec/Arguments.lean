import LazyXv6.Exec.Model

/-!
# The arguments of `exec`

`exec` pushes the argument strings and then the array of pointers to them downwards from the top of
the stack page, and rounds the stack pointer down to a multiple of 16 each time. `argDepth` and
`stackDepth` say how far down that is, without the machine's arithmetic.
-/

namespace LazyXv6.Exec

open Lib Lib.Shares Kernel

/-! ## The layout -/

/-- How far below the top of the stack `n` more bytes reach, at a multiple of 16. -/
def pushDepth (d n : ℕ) : ℕ := (d + n + 15) / 16 * 16

/-- How far below the top the argument strings reach. -/
def argDepth (argv : List (List UInt8)) : ℕ :=
  argv.foldl (fun d arg => pushDepth d (arg.length + 1)) 0

/-- How far below the top everything reaches. -/
def stackDepth (argv : List (List UInt8)) : ℕ := pushDepth (argDepth argv) ((argv.length + 1) * 8)

def argPtr (sz : ℕ) (argv : List (List UInt8)) (i : ℕ) : ℕ := sz - argDepth (argv.take (i + 1))

variable {d n sz i j : ℕ} {arg : List UInt8} {argv rest : List (List UInt8)}

theorem le_pushDepth (d n : ℕ) : d + n ≤ pushDepth d n := by
  unfold pushDepth
  omega

theorem pushDepth_mod (d n : ℕ) : pushDepth d n % 16 = 0 := by
  unfold pushDepth
  omega

theorem argDepth_snoc (argv : List (List UInt8)) (arg : List UInt8) :
    argDepth (argv ++ [arg]) = pushDepth (argDepth argv) (arg.length + 1) := by
  unfold argDepth
  rw [List.foldl_append]
  rfl

theorem argDepth_mod (argv : List (List UInt8)) : argDepth argv % 16 = 0 := by
  rcases List.eq_nil_or_concat argv with rfl | ⟨argv, arg, rfl⟩
  · rfl
  · rw [List.concat_eq_append, argDepth_snoc, pushDepth_mod]

theorem argDepth_le_append (argv rest : List (List UInt8)) :
    argDepth argv ≤ argDepth (argv ++ rest) := by
  induction rest generalizing argv with
  | nil => rw [List.append_nil]
  | cons arg rest ih =>
    have hstep := ih (argv ++ [arg])
    have hle := le_pushDepth (argDepth argv) (arg.length + 1)
    rw [argDepth_snoc, List.append_assoc] at hstep
    exact (Nat.le_add_right ..).trans (hle.trans hstep)

theorem argDepth_take_le (argv : List (List UInt8)) (h : i < j) :
    argDepth (argv.take (i + 1)) ≤ argDepth (argv.take j) := by
  have hle := argDepth_le_append ((argv.take j).take (i + 1)) ((argv.take j).drop (i + 1))
  rwa [List.take_append_drop, List.take_take, Nat.min_eq_left h] at hle

/-- String `i` takes its bytes from what is left below the strings before it. -/
theorem argDepth_take_succ (h : i < argv.length) :
    argDepth (argv.take i) + (argv[i].length + 1) ≤ argDepth (argv.take (i + 1)) := by
  rw [List.take_succ_eq_append_getElem h, argDepth_snoc]
  exact le_pushDepth ..

theorem argDepth_le_stackDepth (argv : List (List UInt8)) :
    argDepth argv + (argv.length + 1) * 8 ≤ stackDepth argv := le_pushDepth ..

/-- **No subtraction wraps**: as long as what is to be pushed is no more than what is there. -/
theorem pushDown_eq (hsz : sz % 16 = 0) (hd : d % 16 = 0) (hn : d + n ≤ sz) (hlt : sz < 2 ^ 64) :
    pushDown (sz - d) n = sz - pushDepth d n := by
  have hmod : (sz - d + 2 ^ 64 - n) % 2 ^ 64 = sz - (d + n) := by
    have he : sz - d + 2 ^ 64 - n = sz - (d + n) + 2 ^ 64 := by omega
    rw [he, Nat.add_mod_right, Nat.mod_eq_of_lt (by omega)]
  unfold pushDown pushDepth
  rw [hmod]
  omega

theorem foldl_pushDown (hsz : sz % 16 = 0) (hle : 2 * pgSize ≤ sz) (hlt : sz < 2 ^ 64)
    (hargs : ∀ arg ∈ argv, arg.length < pgSize) (hdepth : argDepth argv ≤ pgSize) :
    argv.foldl (fun sp arg => pushDown sp (arg.length + 1)) sz = sz - argDepth argv := by
  induction argv using List.reverseRecOn with
  | nil => rfl
  | append_singleton argv arg ih =>
    have hprev := argDepth_le_append argv [arg]
    have harg := hargs arg (by simp)
    rw [List.foldl_append, ih (fun a ha => hargs a (by simp [ha])) (by omega), argDepth_snoc,
      List.foldl_cons, List.foldl_nil]
    exact pushDown_eq hsz (argDepth_mod argv) (by omega) hlt

theorem stackPointer_eq (hsz : sz % 16 = 0) (hle : 2 * pgSize ≤ sz) (hlt : sz < 2 ^ 64)
    (hargs : ∀ arg ∈ argv, arg.length < pgSize) (hn : argv.length < maxArg)
    (hdepth : argDepth argv ≤ pgSize) : stackPointer sz argv = sz - stackDepth argv := by
  have hmax : maxArg = 32 := rfl
  have hpage : pgSize = 4096 := rfl
  unfold stackPointer
  rw [foldl_pushDown hsz hle hlt hargs hdepth]
  exact pushDown_eq hsz (argDepth_mod argv) (by omega) hlt

/-! ## The loop over the arguments -/

variable [Layout] {o : Shares ℕ} {tf a c len : ℕ} {k₀ k' : Kmem} {pt' : PageTable} {b : Building}
    {src : List UInt8}

theorem bytesAt_above {k : Kmem} {pt : PageTable} (hd : Delivered o tf k pt n a src k' pt')
    (habove : a + src.length ≤ c) (hpage : ∀ va, va < c + len → va / pgSize < n) :
    bytesAt k' pt' c len = bytesAt k pt c len := by
  refine List.map_congr_left fun va hva => ?_
  rw [List.mem_range'_1] at hva
  rw [hd.bytes va (hpage va hva.2), overwrite_of_ge (habove.trans hva.1)]

theorem Stack.kept (ok : Bool) (hst : b.Stack) (h : b.Private o tf k₀)
    (hd : Delivered o tf b.kmem b.pagetable (pagesOf b.sz) a src k' pt') :
    (⟨k', pt', b.sz, ok⟩ : Building).Stack := by
  have hsz : b.sz = b.sz / pgSize * pgSize :=
    (Nat.div_mul_cancel (Nat.dvd_of_mod_eq_zero hst.dvd)).symm
  have hpages : pagesOf b.sz = b.sz / pgSize := by
    rw [hsz, pagesOf_mul, Nat.mul_div_cancel _ (by decide)]
  have hle : 2 ≤ b.sz / pgSize := (Nat.le_div_iff_mul_le (by decide)).mpr hst.le
  refine ⟨hst.le, hst.dvd, ?_, ?_⟩
  · show (pt'.pte (b.sz / pgSize - 2)).u = false
    rw [h.entries hd _ (by omega)]
    exact hst.guard
  · show (pt'.pte (b.sz / pgSize - 1)).u = true
    rw [h.entries hd _ (by omega)]
    exact hst.stack

/-- The first `j` strings are on the stack. -/
structure Strings (argv : List (List UInt8)) (j : ℕ) (b : Building) : Prop where
  stack : b.Stack
  depth : argDepth (argv.take j) ≤ pgSize
  strings : ∀ i (h : i < argv.length), i < j →
    bytesAt b.kmem b.pagetable (argPtr b.sz argv i) (argv[i].length + 1) = argv[i] ++ [0]

omit [Layout] in
theorem argPtr_lt (hdepth : argDepth (argv.take j) ≤ sz) (h : i < argv.length) (hij : i < j) :
    argPtr sz argv i + (argv[i].length + 1) ≤ sz := by
  have hsucc := argDepth_take_succ h
  have hle := argDepth_take_le argv hij
  unfold argPtr
  omega

omit [Layout] in
theorem le_argPtr (hij : i < j) : sz - argDepth (argv.take j) ≤ argPtr sz argv i := by
  have hle := argDepth_take_le argv hij
  unfold argPtr
  omega

theorem Strings.kept (ok : Bool) (hs : Strings argv j b) (h : b.Private o tf k₀)
    (hd : Delivered o tf b.kmem b.pagetable (pagesOf b.sz) a src k' pt')
    (hbelow : a + src.length ≤ b.sz - argDepth (argv.take j)) :
    Strings argv j ⟨k', pt', b.sz, ok⟩ := by
  refine ⟨Stack.kept ok hs.stack h hd, hs.depth, fun i hi hij => ?_⟩
  have hsz : argDepth (argv.take j) ≤ b.sz := by
    have h1 := hs.depth
    have h2 := hs.stack.le
    omega
  have htop := argPtr_lt hsz hi hij
  refine Eq.trans (bytesAt_above hd (hbelow.trans (le_argPtr hij)) fun va hva => ?_)
    (hs.strings i hi hij)
  exact div_lt_pagesOf (Nat.lt_of_lt_of_le hva htop)

theorem Strings.push (hs : Strings argv j b) (h : b.Private o tf k₀) (hj : j < argv.length)
    (hfit : argDepth (argv.take (j + 1)) ≤ pgSize)
    (hd : Delivered o tf b.kmem b.pagetable (pagesOf b.sz) (argPtr b.sz argv j)
      (argv[j] ++ [0]) k' pt') : Strings argv (j + 1) ⟨k', pt', b.sz, true⟩ := by
  have hbelow : argPtr b.sz argv j + (argv[j] ++ [0]).length ≤ b.sz - argDepth (argv.take j) := by
    have hsucc := argDepth_take_succ hj
    have hle := hs.stack.le
    rw [List.length_append, List.length_singleton]
    unfold argPtr
    omega
  have hkept := hs.kept true h hd hbelow
  refine ⟨hkept.stack, hfit, fun i hi hij => ?_⟩
  rcases Nat.lt_succ_iff_lt_or_eq.mp hij with hlt | rfl
  · exact hkept.strings i hi hlt
  · have hbytes := hd.bytesAt
    rwa [List.length_append, List.length_singleton] at hbytes

/-- The arguments are pushed: the strings, and below them the array of pointers to them. -/
structure Pushed (argv : List (List UInt8)) (b : Building) : Prop where
  strings : Strings argv argv.length b
  depth : stackDepth argv ≤ pgSize
  words : bytesAt b.kmem b.pagetable (b.sz - stackDepth argv) ((argv.length + 1) * 8) =
    ((List.range argv.length).map (argPtr b.sz argv) ++ [0]).flatMap le64

omit [Layout] in
theorem length_flatMap_le64 (l : List ℕ) : (l.flatMap le64).length = l.length * 8 := by
  induction l with
  | nil => rfl
  | cons x l ih =>
    rw [List.flatMap_cons, List.length_append, ih, List.length_cons]
    simp [le64]
    omega

theorem pushUstack_spec (h : b.Private o tf k₀) (hlt : b.sz < 2 ^ 64) (hn : argv.length < maxArg)
    (hs : Strings argv argv.length b) :
    ∃ b' : Building, pushUstackBy pushDown b (b.sz - pgSize) (b.sz - argDepth argv)
        ((List.range argv.length).map (argPtr b.sz argv)) = .ok b' ∧
      b'.Private o tf k₀ ∧ b'.sz = b.sz ∧ (b'.ok = true → Pushed argv b') := by
  have hsz : b.sz % 16 = 0 := by
    have hdvd := hs.stack.dvd
    unfold pgSize at hdvd
    omega
  have hle := hs.stack.le
  have hdepth := hs.depth
  rw [List.take_length] at hdepth
  have hmax : maxArg = 32 := rfl
  have hpage : pgSize = 4096 := rfl
  have hdown : pushDown (b.sz - argDepth argv) ((argv.length + 1) * 8) = b.sz - stackDepth argv :=
    pushDown_eq hsz (argDepth_mod argv) (by omega) hlt
  unfold pushUstackBy
  rw [List.length_map, List.length_range, hdown]
  by_cases hfit : b.sz - stackDepth argv < b.sz - pgSize
  · exact ⟨{ b with ok := false }, if_pos hfit, ⟨h.userMem, h.fresh⟩, rfl, nofun⟩
  obtain ⟨k', pt', ok, m, he, hd, -, hdone, -⟩ :=
    copyout_spec h.userMem.self (b.sz - stackDepth argv)
      (((List.range argv.length).map (argPtr b.sz argv) ++ [0]).flatMap le64)
  refine ⟨⟨k', pt', b.sz, ok⟩, ?_, h.delivered ok hd, rfl, fun hok => ?_⟩
  · simp only [if_neg hfit]
    rw [he, ok_bind]
  · rw [hdone hok, List.take_length] at hd
    have hlen : (((List.range argv.length).map (argPtr b.sz argv) ++ [0]).flatMap le64).length =
        (argv.length + 1) * 8 := by
      rw [length_flatMap_le64, List.length_append, List.length_map, List.length_range,
        List.length_singleton]
    have hbytes := hd.bytesAt
    rw [hlen] at hbytes
    refine ⟨hs.kept ok h hd ?_, by omega, hbytes⟩
    have hstack := argDepth_le_stackDepth argv
    rw [hlen, List.take_length]
    omega

/-- **The arguments** are pushed, or the image is given up. -/
theorem pushArgs_spec (h : b.Private o tf k₀) (hlt : b.sz < 2 ^ 64) (hn : argv.length < maxArg)
    (hargs : ∀ arg ∈ argv, arg.length < pgSize) (hs : Strings argv j b) (hrest : argv.drop j = rest)
    (hj : j ≤ argv.length) :
    ∃ b' : Building, pushArgs b (b.sz - pgSize) (b.sz - argDepth (argv.take j))
        ((List.range j).map (argPtr b.sz argv)) rest = .ok b' ∧
      b'.Private o tf k₀ ∧ b'.sz = b.sz ∧ (b'.ok = true → Pushed argv b') := by
  induction rest generalizing b j with
  | nil =>
    obtain rfl : j = argv.length := by
      have hlen := congrArg List.length hrest
      rw [List.length_drop, List.length_nil] at hlen
      omega
    rw [pushArgs, pushArgsBy, List.take_length]
    exact pushUstack_spec h hlt hn hs
  | cons arg rest ih =>
    obtain ⟨hj, rfl, hnext⟩ : ∃ hj : j < argv.length, argv[j] = arg ∧ argv.drop (j + 1) = rest := by
      have hj : j < argv.length := by
        by_contra hge
        rw [List.drop_eq_nil_of_le (by omega)] at hrest
        cases hrest
      rw [List.drop_eq_getElem_cons hj, List.cons.injEq] at hrest
      exact ⟨hj, hrest⟩
    have hsz : b.sz % 16 = 0 := by
      have hdvd := hs.stack.dvd
      unfold pgSize at hdvd
      omega
    have hle := hs.stack.le
    have hdepth := hs.depth
    have harg := hargs _ (List.getElem_mem hj)
    have hdown : pushDown (b.sz - argDepth (argv.take j)) (argv[j].length + 1) =
      argPtr b.sz argv j := by
      rw [pushDown_eq hsz (argDepth_mod _) (by omega) hlt, ← argDepth_snoc]
      unfold argPtr
      rw [List.take_succ_eq_append_getElem hj]
    rw [pushArgs, pushArgsBy, List.length_map, List.length_range, if_neg (by omega), hdown]
    by_cases hfit : argPtr b.sz argv j < b.sz - pgSize
    · exact ⟨{ b with ok := false }, if_pos hfit, ⟨h.userMem, h.fresh⟩, rfl, by simp⟩
    obtain ⟨k', pt', ok, m, he, hd, -, hdone, -⟩ :=
      copyout_spec h.userMem.self (argPtr b.sz argv j) (argv[j] ++ [0])
    have hpriv := h.delivered ok hd
    simp only [if_neg hfit]
    rw [he, ok_bind]
    cases ok with
    | false => exact ⟨⟨k', pt', b.sz, false⟩, if_neg Bool.false_ne_true, hpriv, rfl, by simp⟩
    | true =>
      rw [hdone rfl, List.take_length] at hd
      have hpushed := hs.push h hj (by unfold argPtr at hfit; omega) hd
      have hih := ih (b := ⟨k', pt', b.sz, true⟩) hpriv hlt hpushed hnext hj
      rw [List.range_succ, List.map_append, List.map_singleton] at hih
      rw [if_pos rfl]
      exact hih

end LazyXv6.Exec
