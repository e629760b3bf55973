import LazyXv6.Kernel.UserMemory

/-!
# Rules for copy-on-write

A copy-on-write page is resolved on a private copy (`UserMem.cow_copy`) or, by the last process that
maps it, in place (`UserMem.cow_in_place`). Either way `Resolved` holds: the page may now be
written, its frame is held by nobody else, and no page looks different.
-/

namespace LazyXv6.Kernel

open Function Lib Lib.Shares

variable [Layout] {k k₀ k' k1 : Kmem} {pt pt' : PageTable} {o q r : Shares ℕ} {g : ℕ → Pte}
  {n tf u v va sz pa off : ℕ} {p : Pte} {bytes : List UInt8}

/-- Page `v` is resolved: `pt'` in `k'` differs from `pt` in `k` by a private, writable page. -/
structure Resolved (o : Shares ℕ) (tf : ℕ) (k₀ k : Kmem) (pt : PageTable) (n v : ℕ) (k' : Kmem)
    (pt' : PageTable) : Prop where
  userMem : UserMem o tf k₀ k' pt' n
  image : image k' pt'.pte n = image k pt.pte n
  others : ∀ u, u ≠ v → pt'.pte u = pt.pte u
  perm : (pt'.pte v).toPerm = (pt.pte v).toPerm.uncow

omit [Layout] in
theorem Pte.page_uncow (hc : p.cow = true) (hm : k'.mem pa = k.mem p.ppn) :
    (⟨p.toPerm.uncow, pa⟩ : Pte).page k' = p.page k := by
  unfold page Perm.uncow
  simp [hc, hm]

theorem UserMem.cow_copy (h : UserMem o tf k₀ k pt n) (hv : v < n) (hc : (pt.pte v).cow = true)
    (hk : kalloc k = (k1, some pa)) :
    ∃ (k2 : Kmem) (pt' : PageTable), cowRemap k1 pt (v * pgSize) v pa (pt.pte v) =
      .ok (k2, pt', true) ∧ Resolved o tf k₀ k pt n v k2 pt' ∧
      k2.referenceCounter (pt.pte v).ppn = k.referenceCounter (pt.pte v).ppn - 1 ∧
      pt'.tabs = pt.tabs ∧ (pt'.pte v).ppn = pa ∧
      k2.freelist.length + (if k.referenceCounter (pt.pte v).ppn = 1 then 0 else 1) =
      k.freelist.length := by
  have hleaf := h.wf.leaf v hv
  have hvm : v < maxPage := hv.trans h.lt_maxPage
  obtain ⟨hf, hpa⟩ := kalloc_some h.acct hk
  obtain ⟨m, hm, hm', hmem'⟩ := maps_update pt.pte hv
  have hppn : (pt.pte v).ppn ∈ all (o + pt.owned n) := by
    rw [all_add]
    exact Multiset.mem_add.mpr (.inr (mem_all_owned hv hleaf.valid))
  have hf1 : Framed (o + pt.tabs + m) ((pt.pte v).own + ({pa}, 0)) k
    (k1.copyPage pa (pt.pte v).ppn) :=
    ((hf.write hpa _).congrFrame (by unfold PageTable.owned; rw [hm]; abel)).unframe
  obtain ⟨k2, pt2, he2, hf2, ht2, hp2, hs2⟩ := uvmunmap_ok pt (v := v) (n := 1)
    (k := k1.copyPage pa (pt.pte v).ppn) (o := o + pt.tabs + m + ({pa}, 0)) hvm
    (fun u h1 h2 => by
      obtain rfl : u = v := by omega
      exact ⟨hleaf.valid, hleaf.readable⟩)
    (acct_congr hf1.acct (by rw [maps_one]; abel))
  have hclear : pt2.pte v = default := by
    rw [hp2]
    exact if_pos (by omega)
  have hother : ∀ u, u ≠ v → pt2.pte u = pt.pte u := by
    intro u hu
    rw [hp2]
    exact if_neg (by omega)
  have hsome : (Radix.lookup 512 pt2 v).isSome := by
    rw [hs2]
    exact PageTable.isSome_of_v hleaf.valid
  have hf12 : Framed (o + pt.tabs + m) ({pa}, 0) k k2 :=
    hf1.trans (hf2.unframe.congr (add_zero _))
  have hcount : k2.referenceCounter (pt.pte v).ppn = k.referenceCounter (pt.pte v).ppn - 1 := by
    have hne : (pt.pte v).ppn ≠ pa := fun he => hpa (he ▸ hppn)
    rw [hf12.acct.count_eq _ (h.acct.valid_of_mem _ hppn), h.acct.count_eq_of_mem hppn]
    unfold PageTable.owned
    rw [hm]
    simp only [all_add, Multiset.count_add, Pte.all_own hleaf.valid,
      Multiset.count_singleton_self, all_mk, add_zero, Multiset.count_singleton, if_neg hne]
    push_cast
    omega
  have hset : (pt2.set v ((pt.pte v).toPerm.uncow.entry pa)).pte =
    update pt.pte v ⟨(pt.pte v).toPerm.uncow, pa⟩ := by
    rw [PageTable.pte_set hvm hsome, Perm.entry_of_v (pt.pte v).toPerm.uncow hleaf.valid]
    funext u
    by_cases hu : u = v
    · rw [hu, update_self, update_self]
    · rw [update_of_ne hu, update_of_ne hu, hother u hu]
  have hfree := Accounts.exchange (acct_congr h.acct (q := o + pt.tabs + m + (pt.pte v).own)
    (by unfold PageTable.owned; rw [hm]; abel)) (Pte.all_own hleaf.valid) hf12.acct
  refine ⟨k2, pt2.set v ((pt.pte v).toPerm.uncow.entry pa), ?_, ?_, hcount, ?_, ?_, hfree⟩
  rotate_left 2
  · rw [PageTable.tabs_set, ht2]
  · rw [hset, update_self]
  · have hmap := mappages_present k2 pa (pt.pte v).toPerm.uncow hvm hsome (by rw [hclear]; rfl)
    unfold cowRemap
    rw [he2, ok_bind, hmap, ok_bind, if_pos rfl]
  refine ⟨⟨h.framed.trans (((hf12.congrFrame (add_assoc ..)).unframe).congr ?_), ?_⟩, ?_, ?_, ?_⟩
  · unfold PageTable.owned
    rw [hset, hm', PageTable.tabs_set, ht2, add_assoc,
      Pte.own_of_w (p := ⟨(pt.pte v).toPerm.uncow, pa⟩) hleaf.valid rfl]
  · rw [hset]
    refine h.wf.update hv ⟨hleaf.valid, hleaf.readable, nofun⟩ fun u hu _ he => hpa ?_
    rw [← show (pt.pte u).ppn = pa from he, all_add]
    exact Multiset.mem_add.mpr (.inr (mem_all_owned hu (h.wf.leaf u hu).valid))
  · refine image_congr fun u hu => ?_
    rw [hset]
    by_cases huv : u = v
    · subst huv
      rw [update_self]
      refine Pte.page_uncow hc ?_
      calc k2.mem pa = (k1.copyPage pa (pt.pte u).ppn).mem pa := hf2.mem pa (by simp)
        _ = k1.mem (pt.pte u).ppn := update_self ..
        _ = k.mem (pt.pte u).ppn := hf.mem _ hppn
    · rw [update_of_ne huv]
      have hmem : (pt.pte u).ppn ∈ all (o + pt.tabs + m) := by
        rw [all_add]
        exact Multiset.mem_add.mpr (.inr (hmem' u hu huv (h.wf.leaf u hu).valid))
      unfold Pte.page
      rw [hf12.mem _ hmem]
  · intro u hu
    rw [hset, update_of_ne hu]
  · rw [hset, update_self]

theorem UserMem.cow_in_place (h : UserMem o tf k₀ k pt n) (hv : v < n)
    (hc : (pt.pte v).cow = true) (hr : k.referenceCounter (pt.pte v).ppn = 1) :
    Resolved o tf k₀ k pt n v k (pt.set v ⟨(pt.pte v).toPerm.uncow, (pt.pte v).ppn⟩) := by
  have hleaf := h.wf.leaf v hv
  have hvm : v < maxPage := hv.trans h.lt_maxPage
  obtain ⟨m, hm, hm', _⟩ := maps_update pt.pte hv
  have hset := PageTable.pte_set (p := ⟨(pt.pte v).toPerm.uncow, (pt.pte v).ppn⟩) hvm
    (PageTable.isSome_of_v hleaf.valid)
  have hown := Pte.own_of_not_w hleaf.valid (hleaf.cow hc)
  have hown' := Pte.own_of_w (p := ⟨(pt.pte v).toPerm.uncow, (pt.pte v).ppn⟩) hleaf.valid rfl
  refine ⟨⟨h.framed.move fun ha => ?_, ?_⟩, ?_, ?_, ?_⟩
  · have hp := Accounts.promote (acct_congr ha (q := o + pt.tabs + m + (0, {(pt.pte v).ppn}))
      (by unfold PageTable.owned; rw [hm, hown]; abel)) hr
    refine acct_congr hp ?_
    unfold PageTable.owned
    rw [hset, hm', PageTable.tabs_set, hown']
    abel
  · rw [hset]
    refine h.wf.update hv ⟨hleaf.valid, hleaf.readable, nofun⟩ fun u hu hne he => hne ?_
    exact h.wf.inj u hu v hv he
  · refine image_congr fun u _ => ?_
    rw [hset]
    by_cases huv : u = v
    · rw [huv, update_self]
      exact Pte.page_uncow hc rfl
    · rw [update_of_ne huv]
  · intro u hu
    rw [hset, update_of_ne hu]
  · rw [hset, update_self]

/-! ## `usertrap` -/

theorem UserMem.out_of_memory (h : UserMem o tf k₀ k pt n) (hk : kalloc k = (k1, none)) :
    UserMem o tf k₀ k1 pt n ∧ image k1 pt.pte n = image k pt.pte n ∧ k₀.failures < k1.failures := by
  have hacct : Acct k (o + maps pt.pte 0 n + pt.tabs) :=
    acct_congr h.acct (by unfold PageTable.owned; abel)
  obtain ⟨hf, hlt⟩ := kalloc_none (Framed.refl hacct) hk
  obtain ⟨h1, him⟩ := h.of_framed hf rfl
  exact ⟨h1, him, h.framed.failures.trans_lt hlt⟩

theorem UserMem.count_pos (h : UserMem o tf k₀ k pt n) (hv : v < n) :
    0 < k.referenceCounter (pt.pte v).ppn := by
  refine h.acct.count_pos ?_
  rw [all_add]
  exact Multiset.mem_add.mpr (.inr (mem_all_owned hv (h.wf.leaf v hv).valid))

theorem iscowpage_eq (h : UserMem o tf k₀ k pt (pagesOf sz)) (va : ℕ) :
    iscowpage pt sz va = .ok (decide (va < sz) && (pt.pte (va / pgSize)).cow) := by
  unfold iscowpage
  by_cases hsz : sz ≤ va
  · rw [if_pos hsz]
    simp [show ¬va < sz by omega]
  · have hv := div_lt_pagesOf (Nat.lt_of_not_le hsz)
    have hval := (h.wf.leaf _ hv).valid
    rw [if_neg hsz, walk_of_v (hv.trans h.lt_maxPage) hval, ok_bind]
    simp [hval, show va < sz by omega]

theorem usertrapCow_eq (h : UserMem o tf k₀ k pt n) (hv : v < n) : usertrapCow k pt v =
      if 1 < k.referenceCounter (pt.pte v).ppn then
        match kalloc k with
        | (k, none) => .ok (k, pt, false)
        | (k, some newPage) => cowRemap k pt (v * pgSize) v newPage (pt.pte v)
      else .ok (k, pt.set v ⟨(pt.pte v).toPerm.uncow, (pt.pte v).ppn⟩, true) := by
  have hval := (h.wf.leaf v hv).valid
  have hpos := h.count_pos hv
  have hcheck : (!(pt.pte v).v || decide ((pt.pte v).ppn = 0)) = false := by
    simp [hval, h.ppn_ne_zero hv]
  unfold usertrapCow
  rw [walk_of_v (hv.trans h.lt_maxPage) hval, ok_bind]
  simp only [hcheck, Bool.false_eq_true, if_false]
  by_cases hr : 1 < k.referenceCounter (pt.pte v).ppn
  · exact (if_pos hr).trans (if_pos hr).symm
  · have hone : k.referenceCounter (pt.pte v).ppn = 1 := by omega
    simp only [if_neg hr, if_pos hone]

theorem usertrapCow_ok (h : UserMem o tf k₀ k pt n) (hv : v < n) (hc : (pt.pte v).cow = true) :
    (∃ (k' : Kmem) (pt' : PageTable), usertrapCow k pt v = .ok (k', pt', true) ∧
      Resolved o tf k₀ k pt n v k' pt') ∨
    (∃ k', usertrapCow k pt v = .ok (k', pt, false) ∧ UserMem o tf k₀ k' pt n ∧
      image k' pt.pte n = image k pt.pte n ∧ k₀.failures < k'.failures) := by
  rw [usertrapCow_eq h hv]
  by_cases hr : 1 < k.referenceCounter (pt.pte v).ppn
  · rw [if_pos hr]
    rcases hk : kalloc k with ⟨k1, _ | pa⟩
    · exact .inr ⟨k1, rfl, h.out_of_memory hk⟩
    · obtain ⟨k2, pt', he, hres, -⟩ := h.cow_copy hv hc hk
      exact .inl ⟨k2, pt', he, hres⟩
  · have hpos := h.count_pos hv
    have hone : k.referenceCounter (pt.pte v).ppn = 1 := by omega
    rw [if_neg hr]
    exact .inl ⟨k, _, rfl, h.cow_in_place hv hc hone⟩

/-- **A page fault** below the size on a copy-on-write page is resolved, unless memory is out; on
any other page it kills the process. User code sees no page change. -/
theorem usertrap_ok (h : UserMem o tf k₀ k pt (pagesOf sz)) (va : ℕ) :
    (∃ (k' : Kmem) (pt' : PageTable), usertrap k pt sz va = .ok (k', pt', true) ∧
      (va < sz ∧ (pt.pte (va / pgSize)).cow = true) ∧
      Resolved o tf k₀ k pt (pagesOf sz) (va / pgSize) k' pt') ∨
    (∃ k', usertrap k pt sz va = .ok (k', pt, false) ∧ UserMem o tf k₀ k' pt (pagesOf sz) ∧
      image k' pt.pte (pagesOf sz) = image k pt.pte (pagesOf sz) ∧
      (k₀.failures < k'.failures ∨ ¬(va < sz ∧ (pt.pte (va / pgSize)).cow = true))) := by
  by_cases hcow : va < sz ∧ (pt.pte (va / pgSize)).cow = true
  · have he : usertrap k pt sz va = usertrapCow k pt (va / pgSize) := by
      unfold usertrap
      rw [iscowpage_eq h va, ok_bind, hcow.2, decide_eq_true hcow.1, if_pos (by decide)]
    rw [he]
    rcases usertrapCow_ok h (div_lt_pagesOf hcow.1) hcow.2 with ⟨k', pt', he, hres⟩ |
      ⟨k', he, hum, him, hlt⟩
    · exact .inl ⟨k', pt', he, hcow, hres⟩
    · exact .inr ⟨k', he, hum, him, .inl hlt⟩
  · have hnot : (decide (va < sz) && (pt.pte (va / pgSize)).cow) = false := by
      rw [Bool.and_eq_false_iff, decide_eq_false_iff_not, ← Bool.not_eq_true]
      exact not_and_or.mp hcow
    refine .inr ⟨k, ?_, h, rfl, .inr hcow⟩
    unfold usertrap
    rw [iscowpage_eq h va, ok_bind, hnot, if_neg (by decide)]

/-! ## User accesses -/

/-- Whether user code may make the access, after a page fault if need be. -/
def Pte.mayAccess (may : Perm → Bool) (below : Prop) (p : Pte) : Prop :=
  p.u = true ∧ (may p.toPerm = true ∨ (below ∧ p.cow = true ∧ may p.toPerm.uncow = true))

theorem access_done {may : Perm → Bool} {i : ℕ} (h : UserMem o tf k₀ k pt (pagesOf sz))
    (ha : (pt.pte (va / pgSize)).allows may = true) :
    access may (i + 1) k pt sz va = .ok (k, pt, .done (pt.pte (va / pgSize)).ppn) ∧
    va / pgSize < pagesOf sz := by
  have hv : va / pgSize < pagesOf sz := by
    by_contra hge
    have hnot := h.wf.not_user (v := va / pgSize) (by omega)
    unfold Pte.allows at ha
    rw [hnot, Bool.false_and] at ha
    exact absurd ha (by decide)
  rw [access, if_pos ⟨hv.trans h.lt_maxPage, ha⟩]
  exact ⟨rfl, hv⟩

theorem access_trap {may : Perm → Bool} {i : ℕ} {r : Kmem × PageTable × Bool}
    (ha : (pt.pte (va / pgSize)).allows may = false) (he : usertrap k pt sz va = .ok r) :
    access may (i + 1) k pt sz va =
      if r.2.2 then access may i r.1 r.2.1 sz va else .ok (r.1, r.2.1, .killed) := by
  rw [access, if_neg (by simp [ha]), he, ok_bind]

/-- **A user access** ends, after at most two page faults: with the access made, if the entry allows
it or is a copy-on-write entry that will, and with the process killed otherwise or for want of
memory. No page looks different. -/
theorem access_ok (h : UserMem o tf k₀ k pt (pagesOf sz)) (may : Perm → Bool) (va i : ℕ) :
    ∃ (k' : Kmem) (pt' : PageTable) (a : Access), access may (i + 2) k pt sz va = .ok (k', pt', a) ∧
      UserMem o tf k₀ k' pt' (pagesOf sz) ∧
      image k' pt'.pte (pagesOf sz) = image k pt.pte (pagesOf sz) ∧
      ((a = .done (pt'.pte (va / pgSize)).ppn ∧ va / pgSize < pagesOf sz ∧
          (pt'.pte (va / pgSize)).u = true ∧ may (pt'.pte (va / pgSize)).toPerm = true) ∨
        (a = .killed ∧ (k₀.failures < k'.failures ∨ pagesOf sz ≤ va / pgSize ∨
          ¬(pt.pte (va / pgSize)).mayAccess may (va < sz)))) := by
  have hallow : ∀ p : Pte, p.allows may = true → p.u = true ∧ may p.toPerm = true := by
    intro p hp
    unfold Pte.allows at hp
    simp only [Bool.and_eq_true] at hp
    exact ⟨hp.1.2, hp.2⟩
  have hdeny : ∀ p : Pte, p.v = true → p.allows may = false → p.u = true →
    may p.toPerm = false := by
    intro p hv hp hu
    unfold Pte.allows at hp
    rwa [hv, hu, Bool.true_and, Bool.true_and] at hp
  cases ha : (pt.pte (va / pgSize)).allows may with
  | true =>
    obtain ⟨he, hv⟩ := access_done (i := i + 1) h ha
    obtain ⟨hu, hm⟩ := hallow _ ha
    exact ⟨k, pt, _, he, h, rfl, .inl ⟨rfl, hv, hu, hm⟩⟩
  | false =>
    rcases usertrap_ok h va with ⟨k1, pt1, he, hcow, hres⟩ | ⟨k1, he, h1, him, hwhy⟩
    · have hv := div_lt_pagesOf hcow.1
      have hval := (h.wf.leaf _ hv).valid
      have hval1 := (hres.userMem.wf.leaf _ hv).valid
      rw [access_trap ha he, if_pos rfl]
      cases ha1 : (pt1.pte (va / pgSize)).allows may with
      | true =>
        obtain ⟨he1, hv⟩ := access_done (i := i) hres.userMem ha1
        obtain ⟨hu, hm⟩ := hallow _ ha1
        exact ⟨k1, pt1, _, he1, hres.userMem, hres.image, .inl ⟨rfl, hv, hu, hm⟩⟩
      | false =>
        have hcow1 : (pt1.pte (va / pgSize)).cow = false := congrArg Perm.cow hres.perm
        rcases usertrap_ok hres.userMem va with ⟨_, _, _, hcow', _⟩ | ⟨k2, he2, h2, him2, _⟩
        · rw [hcow1] at hcow'
          exact absurd hcow'.2 (by decide)
        · refine ⟨k2, pt1, .killed, ?_, h2, him2.trans hres.image, .inr ⟨rfl, .inr (.inr ?_)⟩⟩
          · rw [access_trap ha1 he2, if_neg Bool.false_ne_true]
          · rintro ⟨hu, hmay | ⟨_, _, hmay⟩⟩
            · rw [hdeny _ hval ha hu] at hmay
              exact absurd hmay (by decide)
            · have hu1 : (pt1.pte (va / pgSize)).u = true := by
                rw [show (pt1.pte (va / pgSize)).u = _ from congrArg Perm.u hres.perm]
                exact hu
              rw [← hres.perm, hdeny _ hval1 ha1 hu1] at hmay
              exact absurd hmay (by decide)
    · refine ⟨k1, pt, .killed, ?_, h1, him, .inr ⟨rfl, ?_⟩⟩
      · rw [access_trap ha he, if_neg Bool.false_ne_true]
      · refine hwhy.imp_right fun hnot => ?_
        by_cases hv : pagesOf sz ≤ va / pgSize
        · exact .inl hv
        · refine .inr ?_
          rintro ⟨hu, hmay | ⟨h1, h2, _⟩⟩
          · rw [hdeny _ (h.wf.leaf _ (by omega)).valid ha hu] at hmay
            exact absurd hmay (by decide)
          · exact hnot ⟨h1, h2⟩

/-! ## Writing -/

theorem UserMem.exclusive (h : UserMem o tf k₀ k pt n) (hv : v < n) (hw : (pt.pte v).w = true) :
    (pt.pte v).ppn ∉ all o := by
  obtain ⟨m, hm, _, _⟩ := maps_update pt.pte hv
  have hacct := acct_congr h.acct (q := o + pt.tabs + m + ({(pt.pte v).ppn}, 0)) (by
    unfold PageTable.owned
    rw [hm, Pte.own_of_w (h.wf.leaf v hv).valid hw]
    abel)
  intro hmem
  refine Accounts.not_mem_of_exclusive hacct ?_
  rw [all_add, all_add]
  exact Multiset.mem_add.mpr (.inl (Multiset.mem_add.mpr (.inl hmem)))

/-- An image with bytes stored in page `v` from offset `off` on. -/
def stored (img : ℕ → Option Page) (v off : ℕ) (bytes : List UInt8) : ℕ → Option Page :=
  update img v ((img v).map fun p => { p with bytes := overwrite p.bytes off bytes })

theorem UserMem.image_write (h : UserMem o tf k₀ k pt n) (hv : v < n) :
    image (k.write (pt.pte v).ppn off bytes) pt.pte n = stored (image k pt.pte n) v off bytes := by
  funext u
  unfold stored
  by_cases huv : u = v
  · subst huv
    rw [update_self, image_of_lt hv, image_of_lt hv, Option.map_some]
    unfold Pte.page
    rw [Kmem.write_mem_self]
  · rw [update_of_ne huv]
    by_cases hu : u < n
    · have hne : (pt.pte u).ppn ≠ (pt.pte v).ppn := fun he => huv (h.wf.inj u hu v hv he)
      rw [image_of_lt hu, image_of_lt hu]
      unfold Pte.page
      rw [Kmem.write_mem_of_ne hne]
    · rw [image_of_ge (by omega), image_of_ge (by omega)]

theorem UserMem.write (h : UserMem o tf k₀ k pt n) (hp : pa ∉ all o) :
    UserMem o tf k₀ (k.write pa off bytes) pt n :=
  ⟨h.framed.write hp _, h.wf⟩

/-! ## `copyout` -/

theorem copyoutPage_plain (h : UserMem o tf k₀ k pt n) (hv : v < n) (hu : (pt.pte v).u = true)
    (hc : (pt.pte v).cow = false) : copyoutPage k pt v = .ok (k, pt, true) := by
  have hval := (h.wf.leaf v hv).valid
  have hcheck : (!(pt.pte v).v || !(pt.pte v).u) = false := by simp [hval, hu]
  unfold copyoutPage
  rw [walk_of_v (hv.trans h.lt_maxPage) hval, ok_bind]
  simp only [hcheck, Bool.false_eq_true, if_false, hc]

theorem copyoutPage_cow (h : UserMem o tf k₀ k pt n) (hv : v < n) (hu : (pt.pte v).u = true)
    (hc : (pt.pte v).cow = true) :
    copyoutPage k pt v =
      match kalloc k with
      | (k, none) => .ok (k, pt, false)
      | (k, some newPage) => cowRemap k pt (v * pgSize) v newPage (pt.pte v) := by
  have hval := (h.wf.leaf v hv).valid
  have hpos := h.count_pos hv
  have hmax := hv.trans h.lt_maxPage
  have hcheck : (!(pt.pte v).v || !(pt.pte v).u) = false := by simp [hval, hu]
  have hround : pgRoundUp (v * pgSize) = v * pgSize := by
    rw [pgRoundUp_eq (by have : maxPage = 0x4000000 := rfl; unfold pgSize; omega), pagesOf_mul]
  unfold copyoutPage
  rw [walk_of_v hmax hval, ok_bind]
  refine (if_neg (Bool.eq_false_iff.mp hcheck)).trans
    ((if_pos hc).trans ((if_neg (by omega)).trans ?_))
  exact congrArg (fun va => match kalloc k with
    | (k, none) => Except.ok (k, pt, false)
    | (k, some newPage) => cowRemap k pt va v newPage (pt.pte v)) hround

/-- How many pages a private copy of the page costs; none if nobody else owns its frame, which is
then freed. -/
def Pte.copyCost (k : Kmem) (p : Pte) : ℕ :=
  if p.cow = true ∧ k.referenceCounter p.ppn ≠ 1 then 1 else 0

/-- The checks of `copyout` are passed, and the page is not copy-on-write any more. -/
structure PageOpen (o : Shares ℕ) (tf : ℕ) (k : Kmem) (pt : PageTable) (n v : ℕ) (k' : Kmem)
    (pt' : PageTable) : Prop where
  lt : v < n
  u : (pt.pte v).u = true
  userMem : UserMem o tf k k' pt' n
  image : image k' pt'.pte n = image k pt.pte n
  others : ∀ w, w ≠ v → pt'.pte w = pt.pte w
  plain : (pt.pte v).cow = false → k' = k ∧ pt' = pt
  cow : (pt.pte v).cow = true → (pt'.pte v).toPerm = (pt.pte v).toPerm.uncow
  room : (pt.pte v).cow = true → 0 < k.freelist.length
  cost : k'.freelist.length + (pt.pte v).copyCost k = k.freelist.length

theorem copyoutPage_cases (h : UserMem o tf k k pt n) (hv : v < maxPage) :
    (∃ (k' : Kmem) (pt' : PageTable), copyoutPage k pt v = .ok (k', pt', true) ∧
      PageOpen o tf k pt n v k' pt') ∨ (∃ k', copyoutPage k pt v = .ok (k', pt, false) ∧
      UserMem o tf k k' pt n ∧ image k' pt.pte n = image k pt.pte n ∧
      ((k.failures < k'.failures ∧ (pt.pte v).cow = true ∧ k.freelist.length = 0) ∨
        ¬(v < n ∧ (pt.pte v).u = true))) := by
  by_cases hu : v < n ∧ (pt.pte v).u = true
  · cases hc : (pt.pte v).cow with
    | true =>
      rw [copyoutPage_cow h hu.1 hu.2 hc]
      rcases hk : kalloc k with ⟨k1, _ | pa⟩
      · obtain ⟨h1, him, hlt⟩ := h.out_of_memory hk
        exact .inr ⟨k1, rfl, h1, him, .inl ⟨hlt, rfl, by rw [kalloc_eq_none hk, List.length_nil]⟩⟩
      · obtain ⟨k2, pt', he, hres, -, -, -, hfree⟩ := h.cow_copy hu.1 hc hk
        exact .inl ⟨k2, pt', he, hu.1, hu.2, hres.userMem, hres.image, hres.others,
          fun hf => by simp [hf] at hc, fun _ => hres.perm,
          fun _ => List.length_pos_of_mem (mem_freelist_of_kalloc hk),
          by simpa [Pte.copyCost, hc] using hfree⟩
    | false =>
      exact .inl ⟨k, pt, copyoutPage_plain h hu.1 hu.2 hc, hu.1, hu.2, h, rfl, fun _ _ => rfl,
        fun _ => ⟨rfl, rfl⟩, by simp [hc], by simp [hc],
        by simp [Pte.copyCost, hc]⟩
  · refine .inr ⟨k, ?_, h, rfl, .inr hu⟩
    have hcheck : ((pt.pte v).v && (pt.pte v).u) = false := by
      by_cases hvn : v < n
      · have hu' : (pt.pte v).u = false := by simpa [hvn] using hu
        rw [hu', Bool.and_false]
      · exact h.wf.not_user (by omega)
    unfold copyoutPage
    rcases walk_cases hv pt with he | ⟨he, _⟩
    · rw [he, ok_bind]
      simp only [← Bool.not_and, hcheck, Bool.not_false, if_true]
    · rw [he, ok_bind]

theorem PageOpen.flags (h : PageOpen o tf k pt n v k' pt') :
    (pt'.pte v).u = true ∧ (pt'.pte v).cow = false := by
  cases hc : (pt.pte v).cow with
  | false => exact ⟨(h.plain hc).2 ▸ h.u, (h.plain hc).2 ▸ hc⟩
  | true =>
    have hperm := h.cow hc
    exact ⟨(congrArg Perm.u hperm).trans h.u, congrArg Perm.cow hperm⟩

/-- `copyout` through the entry leaves the frame `pa` alone, if somebody else holds that frame: the
entry is writable, or will be on a private copy, or it maps another frame. -/
def Pte.Spares (pa : ℕ) (p : Pte) : Prop :=
  p.v = true → p.u = true → p.w = true ∨ p.cow = true ∨ p.ppn ≠ pa

/-- `copyout` on an image, in which every page is private and no memory is needed. -/
def copyoutImage : ℕ → (ℕ → Option Page) → ℕ → List UInt8 → (ℕ → Option Page) × Bool
  | 0, img, _, _ => (img, true)
  | fuel + 1, img, dstva, src =>
    if src = [] then (img, true)
    else if ((img (dstva / pgSize)).any fun p => p.u) then
      copyoutImage fuel (stored img (dstva / pgSize) (dstva % pgSize)
        (src.take (pgSize - dstva % pgSize))) ((dstva / pgSize + 1) * pgSize)
        (src.drop (pgSize - dstva % pgSize))
    else (img, false)

omit [Layout] in
theorem image_any_u : ((image k g n v).any fun p => p.u) = (decide (v < n) && (g v).u) := by
  by_cases hv : v < n
  · rw [image_of_lt hv, decide_eq_true hv]
    rfl
  · rw [image_of_ge (by omega), decide_eq_false hv]
    rfl

omit [Layout] in
theorem next_range {dstva : ℕ} {src : List UInt8} (h1 : dstva / pgSize + 1 ≤ u)
    (h2 : u * pgSize < (dstva / pgSize + 1) * pgSize +
      (src.drop (pgSize - dstva % pgSize)).length) : dstva / pgSize ≤ u ∧
    u * pgSize < dstva + src.length := by
  rw [List.length_drop] at h2
  unfold pgSize at *
  omega

theorem copyoutLoop_ok (fuel dstva : ℕ) (src : List UInt8) (h : UserMem o tf k k pt n) :
    ∃ (k' : Kmem) (pt' : PageTable) (ok : Bool),
      copyoutLoop fuel k pt dstva src = .ok (k', pt', ok) ∧ UserMem o tf k' k' pt' n ∧
      k.failures ≤ k'.failures ∧
      (∀ pa ∈ all o, (∀ v, dstva / pgSize ≤ v → v * pgSize < dstva + src.length →
        (pt.pte v).Spares pa) → k'.mem pa = k.mem pa) ∧
      (k'.failures = k.failures →
        (image k' pt'.pte n, ok) = copyoutImage fuel (image k pt.pte n) dstva src) := by
  induction fuel generalizing k pt dstva src with
  | zero => exact ⟨k, pt, true, rfl, h, le_rfl, fun _ _ _ => rfl, fun _ => rfl⟩
  | succ fuel ih =>
    rw [copyoutLoop, copyoutImage]
    by_cases hsrc : src = []
    · rw [if_pos hsrc, if_pos hsrc]
      exact ⟨k, pt, true, rfl, h, le_rfl, fun _ _ _ => rfl, fun _ => rfl⟩
    rw [if_neg hsrc, if_neg hsrc, image_any_u]
    by_cases hmax : maxPage ≤ dstva / pgSize
    · have hv : ¬dstva / pgSize < n := by have := h.lt_maxPage; omega
      simp only [if_pos hmax, decide_eq_false hv, Bool.false_and, Bool.false_eq_true, if_false]
      exact ⟨k, pt, false, rfl, h, le_rfl, fun _ _ _ => rfl, fun _ => rfl⟩
    simp only [if_neg hmax]
    rcases copyoutPage_cases h (Nat.lt_of_not_le hmax) with
      ⟨k1, pt1, he, hopen⟩ | ⟨k1, he, h1, him, hwhy⟩
    · have hv := hopen.lt
      have h1 := hopen.userMem
      have haddr := h1.walkaddr hv hopen.flags.1
      have h2 : UserMem o tf (k1.write (pt1.pte (dstva / pgSize)).ppn (dstva % pgSize)
          (src.take (pgSize - dstva % pgSize))) _ pt1 n := ⟨Framed.refl h1.acct, h1.wf⟩
      obtain ⟨k', pt', ok, he', h', hle, hmem, hres⟩ := ih
        ((dstva / pgSize + 1) * pgSize) (src.drop (pgSize - dstva % pgSize)) h2
      have hle1 := h1.framed.failures
      refine ⟨k', pt', ok, ?_, h', hle1.trans hle, fun pa hpa hspare => ?_, fun hfail => ?_⟩
      · rw [he, ok_bind, if_pos rfl, haddr, ok_bind]
        exact he'
      · -- the page written to is not `pa`, and so are the remaining ones
        have hne : pa ≠ (pt1.pte (dstva / pgSize)).ppn := by
          cases hc : (pt.pte (dstva / pgSize)).cow with
          | true => exact fun he => h1.exclusive hv (congrArg Perm.w (hopen.cow hc)) (he ▸ hpa)
          | false =>
            obtain ⟨rfl, rfl⟩ := hopen.plain hc
            have hrange : dstva / pgSize * pgSize < dstva + src.length := by
              have hlen := List.length_pos_iff.mpr hsrc
              unfold pgSize
              omega
            rcases hspare _ le_rfl hrange (h.wf.leaf _ hv).valid hopen.u with hw | hc' | hp
            · exact fun he => h1.exclusive hv hw (he ▸ hpa)
            · rw [hc] at hc'
              exact absurd hc' Bool.false_ne_true
            · exact hp.symm
        rw [hmem pa hpa fun u hu1 hu2 => ?_, Kmem.write_mem_of_ne hne, h1.framed.mem pa hpa]
        rw [Nat.mul_div_cancel _ (by decide)] at hu1
        obtain ⟨hu1', hu2'⟩ := next_range hu1 hu2
        rw [hopen.others u (by omega)]
        exact hspare u hu1' hu2'
      · rw [decide_eq_true hv, hopen.u, Bool.and_true, if_pos rfl, ← hopen.image, ← h1.image_write hv]
        exact hres (le_antisymm (hfail.trans_le hle1) hle)
    · rw [he, ok_bind, if_neg Bool.false_ne_true]
      refine ⟨k1, pt, false, rfl, h1.self, h1.framed.failures, fun pa hpa _ => h1.framed.mem pa hpa,
        fun hfail => ?_⟩
      have hnot := hwhy.resolve_left fun hlt => absurd hlt.1 (by omega)
      rw [not_and, Bool.not_eq_true] at hnot
      have hany : (decide (dstva / pgSize < n) && (pt.pte (dstva / pgSize)).u) = false := by
        by_cases hv : dstva / pgSize < n
        · rw [hnot hv, Bool.and_false]
        · rw [decide_eq_false hv, Bool.false_and]
      rw [hany, if_neg Bool.false_ne_true, him]

omit [Layout] in
theorem copyinLoop_ok (k : Kmem) (pt : PageTable) (fuel srcva len : ℕ) :
    ∃ r, copyinLoop k pt fuel srcva len = .ok r := by
  induction fuel generalizing srcva len with
  | zero => exact ⟨_, rfl⟩
  | succ fuel ih =>
    rw [copyinLoop]
    by_cases hlen : len = 0
    · exact ⟨_, by rw [if_pos hlen]⟩
    rw [if_neg hlen]
    obtain ⟨a, ha⟩ := walkaddr_ok pt (srcva / pgSize)
    rw [ha, ok_bind]
    cases a with
    | none => exact ⟨_, rfl⟩
    | some pa0 =>
      obtain ⟨r, hr⟩ := ih ((srcva / pgSize + 1) * pgSize) (len - min (pgSize - srcva % pgSize) len)
      simp only [hr, ok_bind]
      exact ⟨_, rfl⟩

end LazyXv6.Kernel
