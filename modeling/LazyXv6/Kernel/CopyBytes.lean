import LazyXv6.Kernel.CopyOnWrite

/-!
# `copyout` and `copyin`, byte by byte

`copyout` copies page by page and may resolve a page on the way. `copyout_cons` says that it might
as well copy byte by byte: a page that has been resolved stays so. From that, `copyout_spec` says
what it does to the bytes of the process (`userBytes`); `copyin_spec` reads them back.
-/

namespace LazyXv6.Kernel

open Function Lib Lib.Shares

/-- The byte at a virtual address, whatever the flags of its page. -/
def userBytes (k : Kmem) (pt : PageTable) (va : ℕ) : UInt8 :=
  k.mem (pt.pte (va / pgSize)).ppn (va % pgSize)

variable [Layout] {k k₀ k' k1 : Kmem} {pt pt' pt1 : PageTable} {o : Shares ℕ}
    {n tf v va a pa off : ℕ}
  {c : UInt8} {src : List UInt8}

omit [Layout] in
theorem Kmem.write_write (k : Kmem) (pa off : ℕ) (c : UInt8) (src : List UInt8) :
    (k.write pa off [c]).write pa (off + 1) src = k.write pa off (c :: src) := by
  unfold Kmem.write
  simp only [update_self, update_idem]
  rw [← overwrite_cons]

theorem copyoutLoop_fuel {fuel fuel' : ℕ} (h : src.length ≤ fuel) (h' : src.length ≤ fuel') :
    copyoutLoop fuel k pt a src = copyoutLoop fuel' k pt a src := by
  induction fuel generalizing fuel' k pt a src with
  | zero =>
    obtain rfl := List.eq_nil_of_length_eq_zero (Nat.le_zero.mp h)
    cases fuel' <;> rfl
  | succ fuel ih =>
    cases src with
    | nil => cases fuel' <;> rfl
    | cons c src =>
      cases fuel' with
      | zero => exact absurd h' (by simp)
      | succ fuel' =>
        have hlen : ((c :: src).drop (pgSize - a % pgSize)).length ≤ src.length := by
          rw [List.length_drop, List.length_cons]
          unfold pgSize
          omega
        rw [List.length_cons] at h h'
        simp only [copyoutLoop]
        refine if_congr Iff.rfl rfl (if_congr Iff.rfl rfl ?_)
        congr
        funext r
        split
        · congr
          funext addr
          cases addr with
          | none => rfl
          | some pa0 => exact ih (by omega) (by omega)
        · rfl

namespace PageOpen

theorem walkaddr (h : PageOpen o tf k pt n v k' pt') :
    walkaddr pt' v = .ok (some (pt'.pte v).ppn) := h.userMem.walkaddr h.lt h.flags.1

theorem shared (h : PageOpen o tf k pt n v k' pt') (hpa : (pt'.pte v).ppn ∈ all o) : pt' = pt := by
  cases hc : (pt.pte v).cow with
  | false => exact (h.plain hc).2
  | true =>
    have hw : (pt'.pte v).w = true := congrArg Perm.w (h.cow hc)
    exact absurd hpa (h.userMem.exclusive h.lt hw)

theorem write (h : PageOpen o tf k pt n v k' pt') (off : ℕ) (bytes : List UInt8) :
    UserMem o tf (k'.write (pt'.pte v).ppn off bytes) (k'.write (pt'.pte v).ppn off bytes) pt' n :=
  ⟨Framed.refl h.userMem.framed.acct, h.userMem.wf⟩

theorem again (h : PageOpen o tf k pt n v k' pt') (off : ℕ) (bytes : List UInt8) :
    copyoutPage (k'.write (pt'.pte v).ppn off bytes) pt' v =
    .ok (k'.write (pt'.pte v).ppn off bytes, pt', true) :=
  copyoutPage_plain (h.write off bytes) h.lt h.flags.1 h.flags.2

end PageOpen

theorem copyoutLoop_turn {fuel : ℕ} (hmax : a / pgSize < maxPage)
    (he : copyoutPage k pt (a / pgSize) = .ok (k1, pt1, true))
    (haddr : walkaddr pt1 (a / pgSize) = .ok (some pa)) :
    copyoutLoop (fuel + 1) k pt a (c :: src) =
      copyoutLoop fuel (k1.write pa (a % pgSize) ((c :: src).take (pgSize - a % pgSize))) pt1
        ((a / pgSize + 1) * pgSize) ((c :: src).drop (pgSize - a % pgSize)) := by
  rw [copyoutLoop, if_neg (List.cons_ne_nil c src)]
  simp only [if_neg (Nat.not_le_of_lt hmax), he, ok_bind, if_true, haddr]

theorem copyoutLoop_stop {fuel : ℕ} (hmax : a / pgSize < maxPage)
    (he : copyoutPage k pt (a / pgSize) = .ok (k1, pt, false)) :
    copyoutLoop (fuel + 1) k pt a (c :: src) = .ok (k1, pt, false) := by
  rw [copyoutLoop, if_neg (List.cons_ne_nil c src)]
  simp only [if_neg (Nat.not_le_of_lt hmax), he, ok_bind, Bool.false_eq_true, if_false]

theorem copyoutLoop_beyond {fuel : ℕ} (hmax : maxPage ≤ a / pgSize) :
    copyoutLoop (fuel + 1) k pt a (c :: src) = .ok (k, pt, false) := by
  rw [copyoutLoop, if_neg (List.cons_ne_nil c src)]
  simp only [if_pos hmax]

theorem copyout_cons (h : UserMem o tf k k pt n) (a : ℕ) (c : UInt8) (src : List UInt8) :
    copyout k pt a (c :: src) = (do
      let r ← copyout k pt a [c]
      if r.2.2 then copyout r.1 r.2.1 (a + 1) src else .ok r) := by
  unfold copyout
  rw [List.length_cons, List.length_singleton]
  by_cases hmax : maxPage ≤ a / pgSize
  · rw [copyoutLoop_beyond hmax, copyoutLoop_beyond hmax]
    rfl
  rw [not_le] at hmax
  rcases copyoutPage_cases h hmax with ⟨k1, pt1, he, hopen⟩ | ⟨k1, he, -⟩
  swap
  · rw [copyoutLoop_stop hmax he, copyoutLoop_stop hmax he]
    rfl
  have hmod : a % pgSize < pgSize := Nat.mod_lt _ (by decide)
  have hone : [c].take (pgSize - a % pgSize) = [c] := List.take_of_length_le (by simp; omega)
  have hnone : [c].drop (pgSize - a % pgSize) = [] := List.drop_of_length_le (by simp; omega)
  rw [copyoutLoop_turn hmax he hopen.walkaddr, copyoutLoop_turn hmax he hopen.walkaddr, hone, hnone]
  show _ = copyoutLoop src.length (k1.write (pt1.pte (a / pgSize)).ppn (a % pgSize) [c]) pt1
    (a + 1) src
  by_cases hend : pgSize - a % pgSize = 1
  · -- the byte is the last one of its page
    have hnext : (a / pgSize + 1) * pgSize = a + 1 := by
      unfold pgSize at *
      omega
    rw [hend, hnext]
    rfl
  obtain ⟨m, hm⟩ : ∃ m, pgSize - a % pgSize = m + 2 := ⟨pgSize - a % pgSize - 2, by omega⟩
  have hdiv : (a + 1) / pgSize = a / pgSize := by
    unfold pgSize at *
    omega
  have hoff : (a + 1) % pgSize = a % pgSize + 1 := by
    unfold pgSize at *
    omega
  cases src with
  | nil =>
    rw [hone, hnone]
    rfl
  | cons d src =>
    have hagain := hopen.again (a % pgSize) [c]
    have haddr := hopen.walkaddr
    generalize (pt1.pte (a / pgSize)).ppn = pa at hagain haddr ⊢
    rw [← hdiv] at hagain haddr hmax
    rw [List.length_cons, copyoutLoop_turn hmax hagain haddr, hdiv, hoff, Kmem.write_write, hm,
      show pgSize - (a % pgSize + 1) = m + 1 by omega]
    exact copyoutLoop_fuel (by simp; omega) (by simp)

/-! ## What is delivered -/

omit [Layout] in
theorem userBytes_of_image (h : image k' pt'.pte n = image k pt.pte n) (hv : va / pgSize < n) :
    userBytes k' pt' va = userBytes k pt va := by
  have hpage := congrFun h (va / pgSize)
  rw [image_of_lt hv, image_of_lt hv, Option.some.injEq] at hpage
  exact congrFun (congrArg Page.bytes hpage) (va % pgSize)

/-- The bytes `src` have been copied to `a`. -/
structure Delivered (o : Shares ℕ) (tf : ℕ) (k : Kmem) (pt : PageTable) (n a : ℕ) (src : List UInt8)
    (k' : Kmem) (pt' : PageTable) : Prop where
  userMem : UserMem o tf k' k' pt' n
  bytes : ∀ va, va / pgSize < n → userBytes k' pt' va = overwrite (userBytes k pt) a src va
  /-- The pages that were copied to are open to user code. -/
  pages : ∀ va, a ≤ va → va < a + src.length → va / pgSize < n ∧ (pt.pte (va / pgSize)).u = true
  /-- The other entries are as before, and so are these, up to copy-on-write. -/
  entries : ∀ v, pt'.pte v = pt.pte v ∨
    ((pt.pte v).cow = true ∧ (pt'.pte v).toPerm = (pt.pte v).toPerm.uncow ∧
      ∃ va, a ≤ va ∧ va < a + src.length ∧ va / pgSize = v)
  /-- A frame that others hold has changed only where it was copied to. -/
  frames : ∀ pa ∈ all o, ∀ off, k'.mem pa off ≠ k.mem pa off →
    ∃ va, a ≤ va ∧ va < a + src.length ∧ va % pgSize = off ∧ (pt.pte (va / pgSize)).ppn = pa
  failures : k.failures ≤ k'.failures

theorem Delivered.nil (h : UserMem o tf k k' pt n) (him : image k' pt.pte n = image k pt.pte n) :
    Delivered o tf k pt n a [] k' pt where
  userMem := h.self
  bytes va hv := by
    rw [overwrite_nil]
    exact userBytes_of_image him hv
  pages va h1 h2 := absurd h2 (by simp; omega)
  entries _ := .inl rfl
  frames pa hpa off hne := absurd (congrFun (h.framed.mem pa hpa) off) hne
  failures := h.framed.failures

theorem PageOpen.delivered (h : PageOpen o tf k pt n (a / pgSize) k' pt') (c : UInt8) :
    Delivered o tf k pt n a [c] (k'.write (pt'.pte (a / pgSize)).ppn (a % pgSize) [c]) pt' where
  userMem := h.write _ _
  bytes va hv := by
    rw [overwrite_singleton]
    rcases eq_or_ne va a with rfl | hne
    · unfold userBytes
      rw [Kmem.write_mem_self, overwrite_singleton, update_self, update_self]
    rw [update_of_ne hne, ← userBytes_of_image h.image hv]
    unfold userBytes
    rcases eq_or_ne (va / pgSize) (a / pgSize) with hpage | hpage
    · have hoff : va % pgSize ≠ a % pgSize := by
        intro hmod
        apply hne
        rw [← Nat.div_add_mod va pgSize, hpage, hmod, Nat.div_add_mod]
      rw [hpage, Kmem.write_mem_self, overwrite_singleton, update_of_ne hoff]
    · have hframe : (pt'.pte (va / pgSize)).ppn ≠ (pt'.pte (a / pgSize)).ppn := fun he =>
        hpage (h.userMem.wf.inj _ hv _ h.lt he)
      rw [Kmem.write_mem_of_ne hframe]
  pages va h1 h2 := by
    obtain rfl : va = a := by
      rw [List.length_singleton] at h2
      omega
    exact ⟨h.lt, h.u⟩
  entries v := by
    rcases eq_or_ne v (a / pgSize) with rfl | hne
    · cases hc : (pt.pte (a / pgSize)).cow with
      | false => exact .inl (by rw [(h.plain hc).2])
      | true => exact .inr ⟨rfl, h.cow hc, a, le_rfl, by simp, rfl⟩
    · exact .inl (h.others v hne)
  frames pa hpa off hne := by
    rcases eq_or_ne pa (pt'.pte (a / pgSize)).ppn with rfl | hpa'
    · refine ⟨a, le_rfl, by simp, ?_, by rw [h.shared hpa]⟩
      by_contra hoff
      apply hne
      rw [Kmem.write_mem_self, overwrite_singleton, update_of_ne (Ne.symm hoff)]
      exact congrFun (h.userMem.framed.mem _ hpa) off
    · rw [Kmem.write_mem_of_ne hpa'] at hne
      exact absurd (congrFun (h.userMem.framed.mem pa hpa) off) hne
  failures := h.userMem.framed.failures

theorem Delivered.cons (h1 : Delivered o tf k pt n a [c] k1 pt1)
    (h2 : Delivered o tf k1 pt1 n (a + 1) src k' pt') :
    Delivered o tf k pt n a (c :: src) k' pt' where
  userMem := h2.userMem
  bytes va hv := by
    rw [h2.bytes va hv, overwrite_cons]
    exact overwrite_congr (h1.bytes va hv)
  pages va hle hlt := by
    rw [List.length_cons] at hlt
    rcases eq_or_ne va a with rfl | hne
    · exact h1.pages va le_rfl (by simp)
    · obtain ⟨hv, hu⟩ := h2.pages va (by omega) (by omega)
      refine ⟨hv, ?_⟩
      rcases h1.entries (va / pgSize) with he | ⟨-, hperm, -⟩
      · rwa [he] at hu
      · exact (congrArg Perm.u hperm).symm.trans hu
  entries v := by
    rw [List.length_cons]
    rcases h1.entries v with he | ⟨hc, hperm, va, hle, hlt, hv⟩
    · rw [← he]
      refine (h2.entries v).imp_right fun ⟨hc, hperm, va, hle, hlt, hv⟩ => ?_
      exact ⟨hc, hperm, va, by omega, by omega, hv⟩
    · -- once resolved, the entry stays
      rcases h2.entries v with he | ⟨hc', -⟩
      · rw [List.length_singleton] at hlt
        exact .inr ⟨hc, he ▸ hperm, va, hle, by omega, hv⟩
      · rw [show (pt1.pte v).cow = _ from congrArg Perm.cow hperm] at hc'
        exact nomatch hc'
  frames pa hpa off hne := by
    rw [List.length_cons]
    by_cases hfirst : k1.mem pa off = k.mem pa off
    · rw [← hfirst] at hne
      obtain ⟨va, hle, hlt, hoff, hppn⟩ := h2.frames pa hpa off hne
      refine ⟨va, by omega, by omega, hoff, ?_⟩
      rcases h1.entries (va / pgSize) with he | ⟨-, hperm, -⟩
      · rw [← he, hppn]
      · have hv := (h2.pages va hle hlt).1
        have hw : (pt1.pte (va / pgSize)).w = true := congrArg Perm.w hperm
        exact absurd (hppn ▸ hpa) (h1.userMem.exclusive hv hw)
    · obtain ⟨va, hle, hlt, hrest⟩ := h1.frames pa hpa off hfirst
      rw [List.length_singleton] at hlt
      exact ⟨va, hle, by omega, hrest⟩
  failures := h1.failures.trans h2.failures

/-- `copyout` can write to the page of `a`: it is open to user code, and if it is copy-on-write, a
page is free. -/
def Opens (k : Kmem) (pt : PageTable) (n a : ℕ) : Prop :=
  a / pgSize < n ∧ (pt.pte (a / pgSize)).u = true ∧
    ((pt.pte (a / pgSize)).cow = true → 0 < k.freelist.length)

theorem copyout_byte (h : UserMem o tf k k pt n) (a : ℕ) (c : UInt8) :
    (Opens k pt n a ∧ ∃ (k' : Kmem) (pt' : PageTable), copyout k pt a [c] = .ok (k', pt', true) ∧
      Delivered o tf k pt n a [c] k' pt') ∨
    (¬Opens k pt n a ∧ ∃ k', copyout k pt a [c] = .ok (k', pt, false) ∧ UserMem o tf k k' pt n ∧
      image k' pt.pte n = image k pt.pte n ∧
      (k.failures < k'.failures ∨ ¬(a / pgSize < n ∧ (pt.pte (a / pgSize)).u = true))) := by
  unfold copyout
  rw [List.length_singleton]
  by_cases hmax : maxPage ≤ a / pgSize
  · have hlt := h.lt_maxPage
    exact .inr ⟨fun ho => absurd ho.1 (by omega), k, copyoutLoop_beyond hmax, h, rfl,
      .inr fun hv => by omega⟩
  rw [not_le] at hmax
  rcases copyoutPage_cases h hmax with ⟨k1, pt1, he, hopen⟩ | ⟨k1, he, h1, him, hwhy⟩
  · left
    have hmod : a % pgSize < pgSize := Nat.mod_lt _ (by decide)
    have hone : [c].take (pgSize - a % pgSize) = [c] := List.take_of_length_le (by simp; omega)
    refine ⟨⟨hopen.lt, hopen.u, hopen.room⟩, _, pt1, ?_, hopen.delivered c⟩
    rw [copyoutLoop_turn hmax he hopen.walkaddr, hone]
    rfl
  · refine .inr ⟨?_, k1, copyoutLoop_stop hmax he, h1, him, hwhy.imp_left And.left⟩
    rintro ⟨hv, hu, hroom⟩
    rcases hwhy with ⟨-, hc, hnone⟩ | hnot
    · exact absurd (hroom hc) (by omega)
    · exact hnot ⟨hv, hu⟩

/-- **What `copyout` does**: it copies the bytes up to one whose page it cannot open, and says
so. -/
theorem copyout_spec (h : UserMem o tf k k pt n) (a : ℕ) (src : List UInt8) :
    ∃ (k' : Kmem) (pt' : PageTable) (ok : Bool) (j : ℕ), copyout k pt a src = .ok (k', pt', ok) ∧
      Delivered o tf k pt n a (src.take j) k' pt' ∧
      (src ≠ [] → (0 < j ↔ Opens k pt n a)) ∧
      (ok = true → j = src.length) ∧
      (ok = false → j < src.length ∧
        (k.failures < k'.failures ∨
        ¬((a + j) / pgSize < n ∧ (pt.pte ((a + j) / pgSize)).u = true))) := by
  induction src generalizing k pt a with
  | nil => exact ⟨k, pt, true, 0, rfl, .nil h rfl, fun hne => absurd rfl hne, fun _ => rfl, nofun⟩
  | cons c src ih =>
    rw [copyout_cons h]
    rcases copyout_byte h a c with ⟨hopen, k1, pt1, he, hbyte⟩ | ⟨hclosed, k1, he, h1, him, hwhy⟩
    · obtain ⟨k', pt', ok, j, he', hrest, -, hdone, hstop⟩ := ih hbyte.userMem (a + 1)
      rw [he]
      refine ⟨k', pt', ok, j + 1, he', hbyte.cons hrest, fun _ => iff_of_true (by omega) hopen,
        fun hok => ?_, fun hok => ?_⟩
      · rw [hdone hok, List.length_cons]
      · obtain ⟨hj, hwhy⟩ := hstop hok
        rw [List.length_cons, show a + (j + 1) = a + 1 + j by omega]
        refine ⟨by omega, hwhy.imp (fun hlt => ?_) fun hnot hv => hnot ⟨hv.1, ?_⟩⟩
        · exact hbyte.failures.trans_lt hlt
        · rcases hbyte.entries ((a + 1 + j) / pgSize) with he | ⟨-, hperm, -⟩
          · rw [he]
            exact hv.2
          · exact (congrArg Perm.u hperm).trans hv.2
    · rw [he]
      exact ⟨k1, pt, false, 0, rfl, .nil h1 him, fun _ => iff_of_false (by omega) hclosed, nofun,
        fun _ => ⟨by simp, hwhy⟩⟩

/-! ## A few bytes -/

/-- The copies of the pages of `a` and `b` find free pages. -/
def Room (k : Kmem) (pt : PageTable) (a b : ℕ) : Prop :=
  ((pt.pte (a / pgSize)).cow = true → 0 < k.freelist.length) ∧
  (b / pgSize ≠ a / pgSize → (pt.pte (b / pgSize)).cow = true →
    (pt.pte (a / pgSize)).copyCost k < k.freelist.length)

omit [Layout] in
theorem Pte.copyCost_le (k : Kmem) (p : Pte) : p.copyCost k ≤ 1 := by
  unfold copyCost
  split <;> omega

/-- Four bytes go to two pages at most. -/
theorem copyout_four (h : UserMem o tf k k pt n) (hlen : src.length = 4)
    (ha : a / pgSize < n ∧ (pt.pte (a / pgSize)).u = true)
    (hb : (a + 3) / pgSize < n ∧ (pt.pte ((a + 3) / pgSize)).u = true) :
    (Room k pt a (a + 3) ∧ ∃ (k' : Kmem) (pt' : PageTable),
      copyout k pt a src = .ok (k', pt', true) ∧
      k.freelist.length ≤ k'.freelist.length + 2) ∨
    (¬Room k pt a (a + 3) ∧ ∃ (k' : Kmem) (pt' : PageTable), copyout k pt a src =
      .ok (k', pt', false)) := by
  have hmax := h.lt_maxPage
  obtain ⟨c, src, rfl⟩ := List.exists_cons_of_length_pos (l := src) (by omega)
  rw [copyout, hlen]
  rw [List.length_cons] at hlen
  rcases copyoutPage_cases h (ha.1.trans hmax) with ⟨k1, pt1, he, hopen⟩ | ⟨k1, he, -, -, hwhy⟩
  swap
  · obtain ⟨-, hc, hnone⟩ := hwhy.resolve_right fun hnot => hnot ha
    exact .inr ⟨fun hroom => absurd (hroom.1 hc) (by omega), k1, pt,
      copyoutLoop_stop (ha.1.trans hmax) he⟩
  have hcost := hopen.cost
  have hle := Pte.copyCost_le k (pt.pte (a / pgSize))
  rw [copyoutLoop_turn (ha.1.trans hmax) he hopen.walkaddr]
  by_cases hsame : (a + 3) / pgSize = a / pgSize
  · have hdrop : (c :: src).drop (pgSize - a % pgSize) = [] :=
      List.drop_of_length_le (by rw [List.length_cons]; unfold pgSize at *; omega)
    rw [hdrop]
    exact .inl ⟨⟨hopen.room, fun hne => absurd hsame hne⟩, _, _, rfl, show _ ≤
      k1.freelist.length + 2 by omega⟩
  -- the rest goes to the next page
  obtain ⟨d, rest, hdrop⟩ :=
    List.exists_cons_of_length_pos (l := (c :: src).drop (pgSize - a % pgSize))
    (by rw [List.length_drop, List.length_cons]; unfold pgSize at *; omega)
  have hrest : (d :: rest).drop (pgSize - (a / pgSize + 1) * pgSize % pgSize) = [] := by
    have hl := congrArg List.length hdrop
    rw [List.length_drop, List.length_cons] at hl
    exact List.drop_of_length_le (by unfold pgSize at *; omega)
  have hdiv : (a / pgSize + 1) * pgSize / pgSize = (a + 3) / pgSize := by unfold pgSize at *; omega
  have hpte := hopen.others _ hsame
  rw [hdrop]
  generalize (c :: src).take (pgSize - a % pgSize) = bytes
  have h1 := hopen.write (a % pgSize) bytes
  rw [← hdiv] at hb hpte hsame
  rcases copyoutPage_cases h1 (hb.1.trans hmax) with ⟨k2, pt2, he2, hopen2⟩ | ⟨k2, he2, -, -, hwhy⟩
  · have hcost2 : k2.freelist.length + _ = k1.freelist.length := hopen2.cost
    have hle2 := Pte.copyCost_le (k1.write (pt1.pte (a / pgSize)).ppn (a % pgSize) bytes)
      (pt1.pte ((a / pgSize + 1) * pgSize / pgSize))
    rw [copyoutLoop_turn (hb.1.trans hmax) he2 hopen2.walkaddr, hrest]
    refine .inl ⟨⟨hopen.room, fun _ hc => ?_⟩, _, _, rfl, show _ ≤ k2.freelist.length + 2 by omega⟩
    rw [← hdiv, ← hpte] at hc
    have hpos : 0 < k1.freelist.length := hopen2.room hc
    omega
  · rw [hpte] at hwhy
    obtain ⟨-, hc, hnone⟩ := hwhy.resolve_right fun hnot => hnot hb
    have hnone : k1.freelist.length = 0 := hnone
    refine .inr ⟨fun hroom => ?_, k2, pt1, copyoutLoop_stop (hb.1.trans hmax) he2⟩
    rw [Room, ← hdiv] at hroom
    have := hroom.2 hsame hc
    omega

/-! ## `copyin` -/

def bytesAt (k : Kmem) (pt : PageTable) (a len : ℕ) : List UInt8 :=
  (List.range' a len).map (userBytes k pt)

omit [Layout] in
@[simp] theorem length_bytesAt (k : Kmem) (pt : PageTable) (a len : ℕ) :
    (bytesAt k pt a len).length = len := by
  simp [bytesAt]

omit [Layout] in
theorem bytesAt_append (k : Kmem) (pt : PageTable) (a m len : ℕ) :
    bytesAt k pt a m ++ bytesAt k pt (a + m) len = bytesAt k pt a (m + len) := by
  unfold bytesAt
  rw [← List.map_append, List.range'_append_1]

omit [Layout] in
theorem bytesAt_page {m : ℕ} (hm : 0 < m) (hle : m ≤ pgSize - a % pgSize) :
    slice (k.mem (pt.pte (a / pgSize)).ppn) (a % pgSize) (a % pgSize + m - 1) =
    bytesAt k pt a m := by
  unfold slice bytesAt
  refine List.ext_getElem (by simp; omega) fun i h1 h2 => ?_
  rw [List.length_map, List.length_range'] at h2
  have hdiv : (a + i) / pgSize = a / pgSize := by
    unfold pgSize at *
    omega
  have hmod : (a + i) % pgSize = a % pgSize + i := by
    unfold pgSize at *
    omega
  simp [userBytes, hdiv, hmod]

theorem copyinLoop_spec {fuel len : ℕ} (h : UserMem o tf k₀ k pt n) (hfuel : len ≤ fuel)
    (hpages : ∀ va, a ≤ va → va < a + len → va / pgSize < n ∧ (pt.pte (va / pgSize)).u = true) :
    copyinLoop k pt fuel a len = .ok (bytesAt k pt a len, true) := by
  induction fuel generalizing a len with
  | zero =>
    obtain rfl := Nat.le_zero.mp hfuel
    rfl
  | succ fuel ih =>
    rw [copyinLoop]
    by_cases hlen : len = 0
    · rw [if_pos hlen, hlen]
      rfl
    obtain ⟨hv, hu⟩ := hpages a le_rfl (by omega)
    have haddr := h.walkaddr hv hu
    have hmod : a % pgSize < pgSize := Nat.mod_lt _ (by decide)
    have hchunk : 0 < min (pgSize - a % pgSize) len := by omega
    rw [if_neg hlen, haddr, ok_bind]
    simp only
    by_cases hlast : len ≤ pgSize - a % pgSize
    · -- the rest is in this page
      have hmin : min (pgSize - a % pgSize) len = len := by omega
      have hdone : ∀ b, copyinLoop k pt fuel b 0 = .ok ([], true) := fun b => by
        cases fuel <;> rfl
      rw [hmin, Nat.sub_self, hdone, ok_bind, bytesAt_page (by omega) hlast, List.append_nil]
    · have hmin : min (pgSize - a % pgSize) len = pgSize - a % pgSize := by omega
      have hnext : (a / pgSize + 1) * pgSize = a + (pgSize - a % pgSize) := by
        unfold pgSize at *
        omega
      rw [hmin, hnext, ih (by omega) fun va h1 h2 => hpages va (by omega) (by omega), ok_bind,
        bytesAt_page (by omega) le_rfl, bytesAt_append, Nat.add_sub_cancel' (by omega)]

theorem copyin_spec {len : ℕ} (h : UserMem o tf k₀ k pt n)
    (hpages : ∀ va, a ≤ va → va < a + len → va / pgSize < n ∧ (pt.pte (va / pgSize)).u = true) :
    copyin k pt a len = .ok (bytesAt k pt a len, true) :=
  copyinLoop_spec h le_rfl hpages

theorem Delivered.user (h : Delivered o tf k pt n a src k' pt') (v : ℕ) :
    (pt'.pte v).u = (pt.pte v).u := by
  rcases h.entries v with he | ⟨-, hperm, -⟩
  · rw [he]
  · have hu := congrArg Perm.u hperm
    exact hu

theorem Delivered.pages_after (h : Delivered o tf k pt n a src k' pt') (h1 : a ≤ va)
    (h2 : va < a + src.length) : va / pgSize < n ∧ (pt'.pte (va / pgSize)).u = true := by
  rw [h.user]
  exact h.pages va h1 h2

theorem Delivered.bytesAt (h : Delivered o tf k pt n a src k' pt') :
    bytesAt k' pt' a src.length = src := by
  refine List.ext_getElem (by simp) fun i h1 h2 => ?_
  have hv := (h.pages (a + i) (by omega) (by omega)).1
  simp only [Kernel.bytesAt, List.getElem_map, List.getElem_range', Nat.one_mul]
  rw [h.bytes _ hv]
  simp [overwrite, h2]

end LazyXv6.Kernel
