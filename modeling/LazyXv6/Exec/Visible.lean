import LazyXv6.Exec.Outcome
import LazyXv6.Kernel.Invariant

/-!
# What a process sees of `exec`

If `exec` returns -1, nothing has changed (`Invisible`), whichever of the jumps to `bad` was taken.
If it returns the number of arguments, these are on the stack of the new image (`ArgvAt`).
-/

namespace LazyXv6.Exec

open Function Lib Lib.Shares Kernel
open FileTree (Inode Fs rootIno strncpy dirSiz dot dotdot)

section

variable [Layout] {N ninodes : ℕ} {s : State N} {p : Fin N} {o : Shares ℕ} {w w' : World}
  {b : Building} {argv : List (List UInt8)}

/-- Process `p` of a kernel that can be reached calls `exec`. -/
structure Caller (s : State N) (p : Fin N) (w : World) : Prop where
  reachable : s.Reachable
  kmem : w.kmem = s.kmem
  space : s.space p = some w.space
  files : FilesOk w

theorem Caller.spaceOk (h : Caller s p w) : SpaceOk (s.others {p}) w.kmem w.kmem w.space := by
  have hsp := h.reachable.inv.space h.space
  rwa [← h.kmem] at hsp

theorem Caller.returns (h : Caller s p w) (ninodes : ℕ) (path : List UInt8)
    (argv : List (List UInt8)) :
    Ensures (· = w) (exec ninodes path argv) (Returns (s.others {p}) w argv) IsFiles :=
  (exec_spec h.spaceOk h.files path argv).post fun _ _ hr => hr.1

/-- **The two models of `exec` agree**: the call has the outcome of `Kernel.exec` for the headers
that it reads, and leaves the process the same image. -/
theorem exec_agrees (h : Caller s p w) {path : List UInt8} {r : ℤ}
    (he : exec ninodes path argv w = .ok (r, w')) :
    ∃ elf : Elf, (elf.header = false ∨ ∃ ip, elf = parseElf (w.data ip)) ∧
      ∃ k ok, Kernel.exec w.kmem w.space elf argv = .ok (k, w'.space, ok) ∧
        (ok = true ↔ r ≠ -1) := by
  obtain ⟨-, elf, helf, hfollows⟩ := (exec_spec h.spaceOk h.files path argv).ok rfl he
  obtain ⟨k, sp, ok, hrun, -⟩ := exec_ok h.spaceOk elf argv
  obtain ⟨rfl, hok⟩ := hfollows k sp ok hrun
  exact ⟨elf, helf, k, ok, hrun, hok⟩

/-! ## A caller -/

def oneFile (i : ℕ) : Inode :=
  if i = rootIno then
    ⟨.dir, 0, 1, [⟨rootIno, strncpy dot dirSiz⟩, ⟨rootIno, strncpy dotdot dirSiz⟩,
      ⟨2, strncpy [102] dirSiz⟩]⟩
  else if i = 2 then ⟨.file, 0, 1, []⟩
  else .zero

/-- The bytes of a program whose only segment is readable and executable and holds one byte. -/
def oneByteElf : List UInt8 :=
  [0x7f, 0x45, 0x4c, 0x46] ++ List.replicate 20 0 ++ le64 0 ++ le64 64 ++
    List.replicate 16 0 ++ [1, 0] ++ List.replicate 6 0 ++
    [1, 0, 0, 0, 5, 0, 0, 0] ++ le64 120 ++ le64 0 ++ le64 0 ++ le64 1 ++ le64 1 ++ le64 0 ++
    [0x73]

/-- A process in the root directory, where `f` is that program. -/
def world (k : Kmem) (sp : Space) : World where
  kmem := k
  space := sp
  name := []
  cwd := rootIno
  fs := ⟨oneFile, update (fun _ => 0) rootIno 1, fun _ => false, []⟩
  data := fun _ => oneByteElf
  locks := []
  outstanding := 0

omit [Layout] in
theorem filesOk_world (k : Kmem) (sp : Space) : FilesOk (world k sp) := by
  have hroot : (world k sp).fs.ref rootIno = 1 := rfl
  have hother : ∀ i, i ≠ rootIno → (world k sp).fs.ref i = 0 := fun i hi => by
    show update (fun _ => (0 : ℤ)) rootIno 1 i = 0
    exact update_of_ne hi ..
  refine ⟨⟨fun i => ?_, fun _ _ => nofun, fun i hi hn => ?_⟩, nofun, ?_, nofun⟩
  · by_cases hi : i = rootIno
    · rw [hi, hroot]
      decide
    · exact (hother i hi).ge
  · by_cases hi' : i = rootIno
    · rw [hi', hroot]
      decide
    · replace hn : (oneFile i).nlink = 0 := hn
      replace hi : (oneFile i).type ≠ .free := hi
      unfold oneFile at hn hi
      rw [if_neg hi'] at hn hi
      split at hn
      · exact absurd hn (by decide)
      · rw [if_neg ‹_›] at hi
        exact absurd rfl hi
  · show 0 < (world k sp).fs.ref rootIno
    rw [hroot]
    decide

omit [Layout] in
theorem caller_world {s : State 2} {sp : Space} :
    let _ := smallLayout
    smallRun [.userinit [0]] = some s → s.space 0 = some sp → Caller s 0 (world s.kmem sp) := by
  intro _ hs hsp
  exact ⟨State.Reachable.of_runActs hs, rfl, hsp, filesOk_world ..⟩

/-! ## Failure -/

/-- **Nothing has changed**: neither what the process has, nor the reference counts and the free
pages, nor the inodes and what is held of them, nor the log. -/
structure Invisible (w w' : World) : Prop where
  space : w'.space = w.space
  name : w'.name = w.name
  trapframe : w'.kmem.mem w.space.trapframe = w.kmem.mem w.space.trapframe
  memory : ∀ va < w.space.sz, userBytes w'.kmem w.space.pagetable va =
    userBytes w.kmem w.space.pagetable va
  counts : ∀ f, IsPage f → w'.kmem.referenceCounter f = w.kmem.referenceCounter f
  free : w'.kmem.freelist.length = w.kmem.freelist.length
  inodes : w'.fs.inode = w.fs.inode
  refs : w'.fs.ref = w.fs.ref
  locks : w'.locks = w.locks
  outstanding : w'.outstanding = w.outstanding

theorem Unseen.invisible (hsp : SpaceOk o w.kmem w.kmem w.space) (h : Unseen o w w') :
    Invisible w w' := by
  obtain ⟨hrest, hk⟩ := h
  have hall : all (frame o w.space + 0) = all (o + w.space.own) := by
    unfold frame Space.own
    rw [add_zero, add_assoc]
  obtain ⟨hcounts, hfree⟩ := hsp.framed.acct.same hk.acct hall
  refine ⟨hrest.space, hrest.name, hk.mem _ ?_, fun va hva => ?_, hcounts, hfree.length_eq,
    hrest.fs.inode, funext fun i => ?_, hrest.locks, hrest.outstanding⟩
  · unfold frame
    simp
  · have hown := mem_all_owned (div_lt_pagesOf hva) (hsp.wf.leaf _ (div_lt_pagesOf hva)).valid
    refine congrFun (hk.mem _ ?_) _
    unfold frame
    rw [all_add]
    exact Multiset.mem_add.mpr (.inr hown)
  · simpa using hrest.fs.ref i

/-- **An `exec` that fails is invisible**, for every file and every list of arguments. The
virtual-memory code never panics in it. -/
theorem exec_failure_invisible (h : Caller s p w) (path : List UInt8) (argv : List (List UInt8)) :
    (∀ e, exec ninodes path argv w ≠ .error (.memory e)) ∧
      ∀ w', exec ninodes path argv w = .ok (-1, w') → Invisible w w' := by
  have hspec := h.returns ninodes path argv
  refine ⟨fun e he => ?_, fun w' he => ?_⟩
  · obtain ⟨e', he'⟩ := hspec.error rfl he
    exact nomatch he'
  · rcases hspec.ok rfl he with ⟨-, hunseen⟩ | ⟨hr, -⟩
    · exact hunseen.invisible h.spaceOk
    · omega

omit [Layout] in
/-- Two strings that do not fit on the stack together. -/
theorem exec_failure_invisible_long :
    let _ := smallLayout
    ∃ (s : State 2) (w w' : World), Caller s 0 w ∧
      exec 200 [102] [[102], List.replicate 4090 97] w = .ok (-1, w') ∧ Invisible w w' := by
  let _ := smallLayout
  obtain ⟨s, hs, sp, hsp, ⟨r, w'⟩, hr, hret⟩ : ∃ s ∈ smallRun [.userinit [0]], ∃ sp ∈ s.space 0,
      ∃ r ∈ (exec 200 [102] [[102], List.replicate 4090 97] (world s.kmem sp)).toOption, r.1 = -1 := by
    decide +kernel
  obtain rfl : r = -1 := hret
  have hcall : Caller s 0 (world s.kmem sp) := caller_world hs hsp
  exact ⟨s, _, w', hcall, eq_ok_of_toOption hr,
    (exec_failure_invisible hcall ..).2 w' (eq_ok_of_toOption hr)⟩

/-! ## The arguments -/

/-- **The arguments on the stack of a process**: `sp` is in the registers `sp` and `a1` of the
trapframe, and the words from there on are the pointers `ptr` to the strings, with a 0 behind
them. -/
structure ArgvAt (w : World) (argv : List (List UInt8)) (sp : ℕ) (ptr : ℕ → ℕ) : Prop where
  regSp : wordAt w.kmem w.space.trapframe spOffset = le64 sp
  regA1 : wordAt w.kmem w.space.trapframe a1Offset = le64 sp
  words : bytesAt w.kmem w.space.pagetable sp ((argv.length + 1) * 8) =
    ((List.range argv.length).map ptr ++ [0]).flatMap le64
  strings : ∀ i (h : i < argv.length),
    bytesAt w.kmem w.space.pagetable (ptr i) (argv[i].length + 1) = argv[i] ++ [0]
  aligned : sp % 16 = 0
  -- The page that they lie in is the last one, and user code has no access to the one below it.
  size : 2 * pgSize ≤ w.space.sz ∧ w.space.sz % pgSize = 0 ∧ w.space.sz < 2 ^ 64
  stack : (w.space.pagetable.pte (w.space.sz / pgSize - 1)).u = true
  guard : (w.space.pagetable.pte (w.space.sz / pgSize - 2)).u = false
  base : w.space.sz - pgSize ≤ sp
  above : ∀ i < argv.length, sp + (argv.length + 1) * 8 ≤ ptr i
  apart : ∀ i j (_ : i < j) (h : j < argv.length), ptr j + (argv[j].length + 1) ≤ ptr i
  top : ∀ i (h : i < argv.length), ptr i + (argv[i].length + 1) ≤ w.space.sz

theorem Replaced.bytesAt_eq {w₀ : World} (h : Replaced o w₀ argv b w) {a len : ℕ}
    (hle : a + len ≤ b.sz) : bytesAt w.kmem w.space.pagetable a len =
    bytesAt b.kmem b.pagetable a len := by
  rw [h.space]
  refine List.map_congr_left fun va hva => ?_
  rw [List.mem_range'_1] at hva
  exact h.bytes va (div_lt_pagesOf (by omega))

omit [Layout] in
theorem argPtr_apart {sz i j : ℕ} (hdepth : argDepth argv ≤ sz) (hij : i < j)
    (hj : j < argv.length) : argPtr sz argv j + (argv[j].length + 1) ≤ argPtr sz argv i := by
  have hsucc := argDepth_take_succ hj
  have hlast : argDepth (argv.take (j + 1)) ≤ argDepth argv := by
    have hle := argDepth_take_le argv hj
    rwa [List.take_length] at hle
  have hle : sz - argDepth (argv.take j) ≤ argPtr sz argv i := le_argPtr hij
  unfold argPtr at *
  omega

theorem Pushed.argvAt {w₀ : World} (h : Pushed argv b) (hlt : b.sz < 2 ^ 64)
    (hn : argv.length < maxArg) (hargs : ∀ arg ∈ argv, arg.length < pgSize)
    (hw : Replaced o w₀ argv b w) : ArgvAt w argv (b.sz - stackDepth argv) (argPtr b.sz argv) := by
  obtain ⟨⟨hst, -, hstrings⟩, hdepth, hwords⟩ := h
  have hsz : w.space.sz = b.sz := by rw [hw.space]
  have hpt : w.space.pagetable = b.pagetable := by rw [hw.space]
  have hle := hst.le
  have hsub := argDepth_le_stackDepth argv
  have hmod : b.sz % 16 = 0 := by
    have hdvd : b.sz % 4096 = 0 := hst.dvd
    omega
  have hsp : stackPointer b.sz argv = b.sz - stackDepth argv :=
    stackPointer_eq hmod hle hlt hargs hn (by omega)
  have htop : ∀ i (h : i < argv.length), argPtr b.sz argv i + (argv[i].length + 1) ≤ b.sz :=
    fun i hi => argPtr_lt (by rw [List.take_length]; omega) hi hi
  constructor
  case regSp => rw [hw.sp, hsp]
  case regA1 => rw [hw.a1, hsp]
  case words => rw [hw.bytesAt_eq (by omega), hwords]
  case strings => exact fun i hi => (hw.bytesAt_eq (htop i hi)).trans (hstrings i hi hi)
  case aligned =>
    have hsd : stackDepth argv % 16 = 0 := pushDepth_mod ..
    omega
  case size =>
    rw [hsz]
    exact ⟨hle, hst.dvd, hlt⟩
  case stack =>
    rw [hsz, hpt]
    exact hst.stack
  case guard =>
    rw [hsz, hpt]
    exact hst.guard
  case base =>
    rw [hsz]
    omega
  case above =>
    intro i hi
    have hge : b.sz - argDepth (argv.take argv.length) ≤ argPtr b.sz argv i := le_argPtr hi
    rw [List.take_length] at hge
    omega
  case apart => exact fun i j hij hj => argPtr_apart (by omega) hij hj
  case top =>
    rw [hsz]
    exact htop

/-- The subtractions `sp -= n` of `exec`, for the sizes that it pushes: `sp`, and `n`. The last one
is that after which `sp` is below `stackbase`. -/
def subtractions (stackbase sp : ℕ) : List ℕ → List (ℕ × ℕ)
  | [] => []
  | n :: ns =>
    (sp, n) :: if pushDown sp n < stackbase then [] else subtractions stackbase (pushDown sp n) ns

/-- What `exec` pushes: each string with its NUL, and the array of pointers. -/
def pushSizes (argv : List (List UInt8)) : List ℕ :=
  argv.map (fun arg => arg.length + 1) ++ [(argv.length + 1) * 8]

/-- **What `pushArgs` subtracts**: a way to take `sp` down that agrees with the machine's on the
subtractions leads to the same. -/
theorem pushArgsBy_congr {push : ℕ → ℕ → ℕ} {stackbase sp : ℕ} {ustack : List ℕ}
    (h : ∀ x ∈ subtractions stackbase sp (argv.map (fun arg => arg.length + 1) ++
      [(ustack.length + argv.length + 1) * 8]), push x.1 x.2 = pushDown x.1 x.2) :
    pushArgsBy push b stackbase sp ustack argv = pushArgsBy pushDown b stackbase sp ustack argv := by
  induction argv generalizing b sp ustack with
  | nil =>
    have hlast := h (sp, (ustack.length + 1) * 8) (List.mem_cons_self ..)
    simp only [pushArgsBy, pushUstackBy, hlast]
  | cons arg argv ih =>
    have hfirst := h (sp, arg.length + 1) (List.mem_cons_self ..)
    simp only [pushArgsBy, hfirst]
    by_cases hlt : pushDown sp (arg.length + 1) < stackbase
    · simp [hlt]
    · have hrest : ∀ b, pushArgsBy push b stackbase (pushDown sp (arg.length + 1))
          (ustack ++ [pushDown sp (arg.length + 1)]) argv = pushArgsBy pushDown b _ _ _ argv :=
          fun b => by
        refine ih fun x hx => h x (List.mem_cons_of_mem _ ?_)
        rw [if_neg hlt]
        rw [List.length_append, List.length_singleton] at hx
        rwa [List.length_cons, ← Nat.add_assoc, Nat.add_right_comm ustack.length]
      simp only [hrest]

omit [Layout] in
/-- Above a page and more, `sp` does not go below 0 before the check. -/
theorem subtractions_le {stackbase sp : ℕ} {ns : List ℕ} (hns : ∀ n ∈ ns, n ≤ pgSize)
    (hbase : pgSize ≤ stackbase) (hsp : stackbase ≤ sp) (hlt : sp < 2 ^ 64) :
    ∀ x ∈ subtractions stackbase sp ns, x.2 ≤ x.1 ∧ x.1 < 2 ^ 64 := by
  induction ns generalizing sp with
  | nil => exact fun x hx => nomatch hx
  | cons n ns ih =>
    have hn := hns n (List.mem_cons_self ..)
    have hle : pushDown sp n ≤ sp := by
      unfold pushDown
      omega
    intro x hx
    rcases List.mem_cons.mp hx with rfl | hx
    · exact ⟨by omega, hlt⟩
    · split at hx
      · exact nomatch hx
      · exact ih (fun m hm => hns m (List.mem_cons_of_mem _ hm)) (by omega) (by omega) x hx

omit [Layout] in
theorem pushSizes_le (hn : argv.length < maxArg) (hargs : ∀ arg ∈ argv, arg.length < pgSize) :
    ∀ n ∈ pushSizes argv, n ≤ pgSize := by
  intro n hmem
  have hmax : maxArg = 32 := rfl
  rcases List.mem_append.mp hmem with hmem | hmem
  · obtain ⟨arg, harg, rfl⟩ := List.mem_map.mp hmem
    exact hargs arg harg
  · rw [List.mem_singleton.mp hmem]
    unfold pgSize
    omega

/-- **`exec` builds `argv`** on the stack of the new image, or fails. It fails if the strings and
the pointers, each rounded up to 16 bytes, take more than a page; and whatever the size of the image
is, `sp` does not wrap around, so that `exec` pushes them as it would with unbounded numbers. -/
theorem exec_builds_argv (h : Caller s p w) (ninodes : ℕ) (path : List UInt8)
    (argv : List (List UInt8)) (hn : argv.length < maxArg)
    (hargs : ∀ arg ∈ argv, arg.length < pgSize) :
    (∀ r w', exec ninodes path argv w = .ok (r, w') → r ≠ -1 →
      r = argv.length ∧ ∃ sp ptr, ArgvAt w' argv sp ptr) ∧
    (pgSize < stackDepth argv → ∀ r w', exec ninodes path argv w = .ok (r, w') → r = -1) ∧
    ∀ sz, sz % pgSize = 0 → 2 * pgSize ≤ sz → sz < 2 ^ 64 →
      (∀ x ∈ subtractions (sz - pgSize) sz (pushSizes argv), x.2 ≤ x.1) ∧
      ∀ b, pushArgsBy (fun sp n => (sp - n) / 16 * 16) b (sz - pgSize) sz [] argv =
        pushArgs b (sz - pgSize) sz [] argv := by
  have hspec := h.returns ninodes path argv
  have hpushed : ∀ r w', exec ninodes path argv w = .ok (r, w') → r ≠ -1 →
      r = argv.length ∧ ∃ b : Building, b.sz < 2 ^ 64 ∧ Pushed argv b ∧
      Replaced (s.others {p}) w argv b w' := by
    intro r w' he hr
    rcases hspec.ok rfl he with ⟨hr', -⟩ | ⟨hr', b, hlt, hp, hw⟩
    · exact absurd hr' hr
    · exact ⟨hr', b, hlt, hp hn hargs, hw⟩
  refine ⟨fun r w' he hr => ?_, fun hfit r w' he => ?_, fun sz _ hle hlt => ?_⟩
  · obtain ⟨hr', b, hlt, hp, hw⟩ := hpushed r w' he hr
    exact ⟨hr', _, _, hp.argvAt hlt hn hargs hw⟩
  · by_contra hr
    obtain ⟨-, b, -, hp, -⟩ := hpushed r w' he hr
    exact absurd hp.depth (not_le.mpr hfit)
  · have hle := subtractions_le (pushSizes_le hn hargs) (by omega : pgSize ≤ sz - pgSize) (by omega) hlt
    refine ⟨fun x hx => (hle x hx).1, fun b => pushArgsBy_congr fun x hx => ?_⟩
    obtain ⟨h1, h2⟩ := hle x (by simpa [pushSizes] using hx)
    unfold pushDown
    omega

omit [Layout] in
theorem exec_builds_argv_two :
    let _ := smallLayout
    ∃ (s : State 2) (w w' : World), Caller s 0 w ∧
      exec 200 [102] [[102], [104, 105]] w = .ok (2, w') ∧
      ∃ sp ptr, ArgvAt w' [[102], [104, 105]] sp ptr := by
  let _ := smallLayout
  obtain ⟨s, hs, sp, hsp, ⟨r, w'⟩, hr, hret⟩ : ∃ s ∈ smallRun [.userinit [0]], ∃ sp ∈ s.space 0,
      ∃ r ∈ (exec 200 [102] [[102], [104, 105]] (world s.kmem sp)).toOption,
      r.1 = 2 := by decide +kernel
  obtain rfl : r = 2 := hret
  have hcall : Caller s 0 (world s.kmem sp) := caller_world hs hsp
  obtain ⟨hargv, -⟩ := exec_builds_argv hcall 200 [102] [[102], [104, 105]] (by decide) (by decide)
  exact ⟨s, _, w', hcall, eq_ok_of_toOption hr, (hargv 2 w' (eq_ok_of_toOption hr) (by decide)).2⟩

end

end LazyXv6.Exec
