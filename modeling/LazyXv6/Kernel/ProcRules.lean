import LazyXv6.Kernel.Proc
import LazyXv6.Kernel.CopyOnWrite

/-!
# Rules for processes

`SpaceOk o k₀ k sp`: the memory of the process `sp` is well formed in `k` and accounted for next to
the frame `o`.
-/

namespace LazyXv6.Kernel

open Function Lib Lib.Shares

variable [Layout] {k k₀ k' k1 : Kmem} {pt pt' : PageTable} {o q r : Shares ℕ} {g : ℕ → Pte}
  {n tf u v va sz pa : ℕ} {sp np : Space}

def Space.own (sp : Space) : Shares ℕ :=
  ({sp.trapframe}, 0) + sp.pagetable.owned (pagesOf sp.sz)

structure SpaceOk (o : Shares ℕ) (k₀ k : Kmem) (sp : Space) : Prop where
  framed : Framed o sp.own k₀ k
  wf : Wf sp.pagetable.pte (pagesOf sp.sz) sp.trapframe

/-- To work on the user memory of a process, the trapframe page is added to the frame. -/
theorem SpaceOk.userMem (h : SpaceOk o k₀ k sp) :
    UserMem (o + ({sp.trapframe}, 0)) sp.trapframe k k sp.pagetable (pagesOf sp.sz) :=
  ⟨Framed.refl (acct_congr h.framed.acct (add_assoc ..).symm), h.wf⟩

theorem SpaceOk.of_userMem (h : SpaceOk o k₀ k sp)
    (h' : UserMem (o + ({sp.trapframe}, 0)) sp.trapframe k k' pt (pagesOf sz)) (z : Bool) :
    SpaceOk o k₀ k' ⟨pt, sz, sp.trapframe, z⟩ :=
  ⟨h.framed.trans h'.framed.unframe, h'.wf⟩

def Space.image (k : Kmem) (sp : Space) : ℕ → Option Page :=
  Kernel.image k sp.pagetable.pte (pagesOf sp.sz)

theorem SpaceOk.image_eq (h : SpaceOk o k₀ k sp) (hf : Framed (q + sp.own) r k k') :
    sp.image k' = sp.image k := by
  refine image_congr fun v hv => ?_
  have hmem : (sp.pagetable.pte v).ppn ∈ all (q + sp.own) := by
    unfold Space.own
    rw [all_add, all_add]
    exact Multiset.mem_add.mpr
      (.inr (Multiset.mem_add.mpr (.inr (mem_all_owned hv (h.wf.leaf v hv).valid))))
  unfold Pte.page
  rw [hf.mem _ hmem]

/-! ## Freeing -/

theorem uvmfree_ok (pt : PageTable) (sz : ℕ) (hsz : sz < 2 ^ 63) (hmax : pagesOf sz ≤ maxPage)
    (hleaf : ∀ v < pagesOf sz, (pt.pte v).Leaf)
    (hrest : ∀ v, pagesOf sz ≤ v → (pt.pte v).v = false)
    (h : Acct k (o + pt.owned (pagesOf sz))) :
    ∃ k', uvmfree k pt sz = .ok k' ∧ Framed o 0 k k' := by
  unfold PageTable.owned at h
  have hunmap : ∃ (k1 : Kmem) (pt1 : PageTable),
      (if 0 < sz then uvmunmap k pt 0 (pgRoundUp sz / pgSize) true else .ok (k, pt)) = .ok (k1, pt1) ∧
      Framed (o + pt.tabs) 0 k k1 ∧ pt1.tabs = pt.tabs ∧ ∀ v, (pt1.pte v).v = false := by
    by_cases h0 : 0 < sz
    · obtain ⟨k1, pt1, he, hf, ht, hp, _⟩ := uvmunmap_ok pt (k := k) (v := 0)
        (n := pagesOf sz) (o := o + pt.tabs) (by omega)
        (fun u _ hu => ⟨(hleaf u (by omega)).valid, (hleaf u (by omega)).readable⟩)
        (by rw [Nat.zero_add]; exact acct_congr h (by abel))
      rw [Nat.zero_mul] at he
      rw [if_pos h0, pgRoundUp_eq hsz, Nat.mul_div_cancel _ (by decide)]
      refine ⟨k1, pt1, he, hf, ht, fun v => ?_⟩
      rw [hp]
      unfold cleared
      by_cases hv : 0 ≤ v ∧ v < 0 + pagesOf sz
      · rw [if_pos hv]
        rfl
      · rw [if_neg hv]
        exact hrest v (by omega)
    · obtain rfl : sz = 0 := by omega
      rw [if_neg h0]
      refine ⟨k, pt, rfl, Framed.refl ?_, rfl, fun v => hrest v (Nat.zero_le v)⟩
      refine acct_congr h ?_
      rw [pagesOf_zero, maps_self]
      abel
  obtain ⟨k1, pt1, he, hf, ht, hp⟩ := hunmap
  obtain ⟨k2, hk2, hf2⟩ := freewalk_ok pt1 (k := k1) (o := o) (by rw [ht]; simpa using hf.acct) hp
  have hf1 : Framed o pt.tabs k k1 := hf.unframe.congr (add_zero _)
  refine ⟨k2, ?_, hf1.trans hf2⟩
  unfold uvmfree
  rw [he, ok_bind]
  exact hk2

/-- **`proc_freepagetable`** gives back everything the page table holds. -/
theorem procFreepagetable_ok (h : UserMem o tf k₀ k pt (pagesOf sz)) :
    ∃ k', procFreepagetable k pt sz = .ok k' ∧ Framed o 0 k₀ k' := by
  have hle := h.wf.le
  have hlt : trampolinePage < maxPage := by decide
  have hne : trapframePage ≠ trampolinePage := by decide
  have hv1 : (pt.pte trampolinePage).v = true := by rw [h.wf.trampoline]
  have h1 := uvmunmap_keep k pt hlt hv1 (by rw [h.wf.trampoline])
  have hp1 := PageTable.pte_set (p := default) hlt (PageTable.isSome_of_v hv1)
  have htf : (pt.set trampolinePage default).pte trapframePage = pt.pte trapframePage := by
    rw [hp1, update_of_ne hne]
  have hv2 : ((pt.set trampolinePage default).pte trapframePage).v = true := by
    rw [htf, h.wf.trapframe]
  have h2 := uvmunmap_keep k (pt.set trampolinePage default) trapframePage_lt hv2
    (by rw [htf, h.wf.trapframe])
  have hp2 := PageTable.pte_set (p := default) trapframePage_lt (PageTable.isSome_of_v hv2)
  have hlow : ∀ v < pagesOf sz, ((pt.set trampolinePage default).set trapframePage default).pte v =
    pt.pte v := by
    intro v hv
    rw [hp2, update_of_ne (by omega), hp1, update_of_ne (trampolinePage_ne (by omega))]
  have hmax : pagesOf sz ≤ maxPage := hle.trans trapframePage_lt.le
  obtain ⟨k', hk', hf⟩ := uvmfree_ok ((pt.set trampolinePage default).set trapframePage default) sz
    (k := k) (o := o) (lt_of_pagesOf_le h.bound) hmax
    (fun v hv => by rw [hlow v hv]; exact h.wf.leaf v hv)
    (fun v hv => by
      rw [hp2, hp1]
      by_cases h3 : v = trapframePage
      · rw [h3, update_self]
        rfl
      · rw [update_of_ne h3]
        by_cases h4 : v = trampolinePage
        · rw [h4, update_self]
          rfl
        · rw [update_of_ne h4]
          exact h.wf.rest v hv h3 h4)
    (by
      unfold PageTable.owned
      rw [PageTable.tabs_set, PageTable.tabs_set, maps_congr pt.pte fun v _ hv => hlow v hv]
      exact h.acct)
  refine ⟨k', ?_, h.framed.trans hf⟩
  unfold procFreepagetable
  rw [h1, ok_bind, h2, ok_bind]
  exact hk'

/-- **`freeproc`** gives back everything the process holds. -/
theorem freeproc_ok (h : SpaceOk o k₀ k sp) : ∃ k', freeproc k sp = .ok k' ∧ Framed o 0 k₀ k' := by
  obtain ⟨k1, hk1, hf1⟩ := kfree_ok sp.trapframe (k := k)
    (o := o + sp.pagetable.owned (pagesOf sp.sz)) (r := ({sp.trapframe}, 0))
    (acct_congr h.framed.acct (by unfold Space.own; abel)) rfl
  have h1 : UserMem o sp.trapframe k₀ k1 sp.pagetable (pagesOf sp.sz) :=
    ⟨h.framed.trans (hf1.unframe.congr (add_zero _)), h.wf⟩
  obtain ⟨k2, hk2, hf2⟩ := procFreepagetable_ok h1
  refine ⟨k2, ?_, hf2⟩
  unfold freeproc
  rw [hk1, ok_bind]
  exact hk2

/-- The trapframe and the three tables on the way to it are free again. -/
theorem SpaceOk.four_freed {k' : Kmem} (h : SpaceOk o k₀ k sp) (hk' : Acct k' o) :
    4 ≤ k'.freelist.length := by
  have htables : 2 < sp.pagetable.tables.card := Radix.lt_card_pages (by decide)
    (PageTable.isSome_of_v (v := trapframePage) (by rw [h.wf.trapframe]))
  have hcard := h.framed.acct.card_exclusive_le hk'
  simp only [Space.own, PageTable.owned, PageTable.tabs, Prod.fst_add, Multiset.card_add,
    Multiset.card_singleton] at hcard
  omega

/-! ## Creating -/

theorem uvmfree_empty (pt : PageTable) (hn : ∀ v, (pt.pte v).v = false) (h : Framed o pt.tabs k₀ k)
    (hlt : k₀.failures < k.failures) :
    ∃ k', uvmfree k pt 0 = .ok k' ∧ Framed o 0 k₀ k' ∧ k₀.failures < k'.failures := by
  obtain ⟨k', hk', hf⟩ := uvmfree_ok pt 0 (k := k) (o := o) (by decide) (by decide)
    (fun v hv => absurd hv (Nat.not_lt_zero v)) (fun v _ => hn v) (by
      refine acct_congr h.acct ?_
      unfold PageTable.owned
      rw [pagesOf_zero, maps_self, add_zero])
  exact ⟨k', hk', h.trans hf, hlt.trans_le hf.failures⟩

/-- A page table without user pages, or nothing for want of memory. -/
def MakesTable (o : Shares ℕ) (tf : ℕ) (k₀ : Kmem) (res : Except Panic (Kmem × Option PageTable)) :
    Prop :=
  (∃ (k : Kmem) (pt : PageTable), res = .ok (k, some pt) ∧ UserMem o tf k₀ k pt 0) ∨
    (∃ k : Kmem, res = .ok (k, none) ∧ Framed o 0 k₀ k ∧ k₀.failures < k.failures)

def trampolinePte : Pte := { v := true, r := true, x := true, ppn := Layout.trampoline }

theorem mapTrapframe_ok (h : Framed o pt.tabs k₀ k) (hne : pt ≠ .absent)
    (hp : pt.pte = update (fun _ => default) trampolinePage trampolinePte) (tf : ℕ) :
    MakesTable o tf k₀ (mapTrapframe k pt tf) := by
  have htr : trapframePage ≠ trampolinePage := by decide
  have hfree : (pt.pte trapframePage).v = false := by
    rw [hp, update_of_ne htr]
    rfl
  obtain ⟨k1, pt1, hf1, hne1, hmap⟩ :=
    mappages_page tf { r := true, w := true } trapframePage_lt hne hfree h.acct
  unfold mapTrapframe
  rcases hmap with ⟨he, hp1⟩ | ⟨he, hp1, hlt⟩
  · refine .inl ⟨k1, pt1, ?_, ?_, ?_⟩
    · rw [he, ok_bind, if_pos rfl]
    · refine (h.trans hf1).congr ?_
      unfold PageTable.owned
      rw [maps_self, add_zero]
    · rw [hp1, hp]
      refine ⟨nofun, nofun, update_self .., ?_, fun v _ h1 h2 => ?_, Nat.zero_le _⟩
      · rw [update_of_ne htr.symm, update_self]
        rfl
      · rw [update_of_ne h1, update_of_ne h2]
        rfl
  · have hv : (pt1.pte trampolinePage).v = true := by
      rw [hp1, hp, update_self]
      rfl
    have hr : (pt1.pte trampolinePage).r = true := by
      rw [hp1, hp, update_self]
      rfl
    have hkeep := uvmunmap_keep k1 _ (by decide) hv hr
    have hpte := PageTable.pte_set (p := default)
      (by decide : trampolinePage < maxPage) (PageTable.isSome_of_v hv)
    obtain ⟨k2, hk2, hf2, hlt2⟩ := uvmfree_empty (pt1.set trampolinePage default) (k := k1)
      (fun v => by rw [hpte, hp1, hp, update_idem, update_apply]; split <;> rfl)
      (by rw [PageTable.tabs_set]; exact h.trans hf1) (h.failures.trans_lt hlt)
    refine .inr ⟨k2, ?_, hf2, hlt2⟩
    rw [he, ok_bind, if_neg Bool.false_ne_true, hkeep, ok_bind, hk2, ok_bind]

/-- **`proc_pagetable`** makes a page table without user pages, or nothing for want of memory. -/
theorem procPagetable_ok (h : Acct k o) (tf : ℕ) : MakesTable o tf k (procPagetable k tf) := by
  unfold procPagetable
  rcases hc : uvmcreate k with ⟨k1, _ | pt⟩
  · obtain ⟨hf, hlt⟩ := uvmcreate_none (Framed.refl (r := 0) (by simpa using h)) hc
    exact .inr ⟨k1, rfl, hf, hlt⟩
  obtain ⟨hf1, hne1, hp1⟩ := uvmcreate_some h hc
  obtain ⟨k2, pt2, hf2, hne2, hmap⟩ := mappages_page Layout.trampoline
    { r := true, x := true } (by decide : trampolinePage < maxPage) hne1
    (by rw [hp1]; rfl) hf1.acct
  show MakesTable o tf k (mapTrampoline k1 pt tf)
  unfold mapTrampoline
  rcases hmap with ⟨he, hp2⟩ | ⟨he, hp2, hlt⟩
  · rw [he, ok_bind, if_pos rfl]
    refine mapTrapframe_ok (hf1.trans hf2) hne2 ?_ tf
    rw [hp2, hp1]
    rfl
  · obtain ⟨k3, hk3, hf3, hlt3⟩ := uvmfree_empty pt2 (k := k2)
      (fun v => by rw [hp2, hp1]; rfl) (hf1.trans hf2) (hf1.failures.trans_lt hlt)
    refine .inr ⟨k3, ?_, hf3, hlt3⟩
    rw [he, ok_bind, if_neg Bool.false_ne_true, hk3, ok_bind]

def MakesSpace (o : Shares ℕ) (k₀ : Kmem) (res : Except Panic (Kmem × Option Space)) : Prop :=
  (∃ (k : Kmem) (sp : Space), res = .ok (k, some sp) ∧ SpaceOk o k₀ k sp ∧ sp.sz = 0 ∧
    sp.zombie = false) ∨ (∃ k : Kmem, res = .ok (k, none) ∧ Framed o 0 k₀ k ∧
    k₀.failures < k.failures)

/-- **`allocproc`** makes a process without user pages, or nothing for want of memory. -/
theorem allocproc_ok (h : Acct k o) : MakesSpace o k (allocproc k) := by
  unfold allocproc
  rcases hk : kalloc k with ⟨k1, _ | tf⟩
  · obtain ⟨hf, hlt⟩ := kalloc_none (Framed.refl (r := 0) (by simpa using h)) hk
    exact .inr ⟨k1, rfl, hf, hlt⟩
  obtain ⟨hf, _⟩ := kalloc_some h hk
  show MakesSpace o k (allocprocTable k1 tf)
  unfold allocprocTable
  rcases procPagetable_ok hf.acct tf with ⟨k2, pt, he, hum⟩ | ⟨k2, he, hf2, hlt⟩
  · have hum0 : UserMem (o + ({tf}, 0)) tf k1 k2 pt (pagesOf 0) := by
      rw [pagesOf_zero]
      exact hum
    refine .inl ⟨k2, ⟨pt, 0, tf, false⟩, ?_, ⟨hf.trans hum0.framed.unframe, hum0.wf⟩, rfl, rfl⟩
    rw [he, ok_bind]
  · obtain ⟨k3, hk3, hf3⟩ :=
      kfree_ok tf (k := k2) (o := o) (r := ({tf}, 0)) (by simpa using hf2.acct) rfl
    refine .inr ⟨k3, ?_, ?_, ?_⟩
    · rw [he, ok_bind]
      show (kfree k2 tf).map _ = _
      rw [hk3]
      rfl
    · exact (hf.trans (hf2.unframe.congr (add_zero _))).trans hf3
    · have h1 := hf.failures
      have h2 := hf3.failures
      omega

/-- **`userinit`**, if it does not panic, makes a process of one page. -/
theorem firstSpace_ok {initcode : List UInt8} (h : Acct k o)
    (he : firstSpace k initcode = .ok (k', sp)) : SpaceOk o k k' sp := by
  unfold firstSpace at he
  rcases allocproc_ok h with ⟨k1, sp1, he1, h1, hsz, _⟩ | ⟨k1, he1, _, _⟩
  swap
  · rw [he1, ok_bind] at he
    exact nomatch he
  rw [he1, ok_bind] at he
  have he' : (uvmfirst k1 sp1.pagetable initcode).map
      (fun t => (t.1, { sp1 with pagetable := t.2, sz := pgSize })) = .ok (k', sp) := he
  unfold uvmfirst at he'
  by_cases hlen : pgSize ≤ initcode.length
  · rw [if_pos hlen] at he'
    exact nomatch he'
  rw [if_neg hlen] at he'
  have hum := h1.userMem
  rw [hsz, pagesOf_zero] at hum
  rcases hk : kalloc k1 with ⟨k2, _ | pa⟩
  · rw [hk] at he'
    exact nomatch he'
  obtain ⟨k3, pt3, ⟨hmap, h3, _⟩ | ⟨hmap, _⟩⟩ := hum.grow_page
    { w := true, r := true, x := true, u := true } 0 hk rfl rfl
  · rw [Nat.zero_mul] at hmap
    rw [hk] at he'
    simp only [hmap, ok_bind, if_true] at he'
    obtain ⟨rfl, rfl⟩ : k3.write pa 0 initcode = k' ∧
      ({ sp1 with pagetable := pt3, sz := pgSize } : Space) = sp := by
      simpa [Except.map] using he'
    have hpa : pa ∉ all (o + ({sp1.trapframe}, 0)) := by
      have hfresh := (kalloc_some hum.acct hk).2
      rw [all_add] at hfresh
      exact fun hm => hfresh (Multiset.mem_add.mpr (.inl hm))
    have h4 : UserMem _ _ k1 (k3.write pa 0 initcode) pt3 (pagesOf pgSize) := h3.write hpa
    exact h1.of_userMem h4 sp1.zombie
  · rw [Nat.zero_mul] at hmap
    rw [hk] at he'
    simp only [hmap, ok_bind] at he'
    exact nomatch he'

/-! ## Growing -/

/-- An image of `a` pages cut or extended to `b` pages. -/
def resized (img : ℕ → Option Page) (a b : ℕ) (page : Page) : ℕ → Option Page :=
  fun v => if v < b then if v < a then img v else some page else none

omit [Layout] in
theorem extended_image {a b : ℕ} {page : Page} (h : a ≤ b) :
    extended (Kernel.image k g a) a b page = resized (Kernel.image k g a) a b page := by
  funext v
  unfold extended resized
  by_cases hb : v < b
  · by_cases ha : v < a
    · rw [if_neg (by omega), if_pos hb, if_pos ha]
    · rw [if_pos (by omega), if_pos hb, if_neg ha]
  · rw [if_neg (by omega), if_neg hb, image_of_ge (by omega)]

omit [Layout] in
theorem shrunk_image {a b : ℕ} (page : Page) (h : b ≤ a) :
    Kernel.image k g b = resized (Kernel.image k g a) a b page := by
  funext v
  unfold resized
  by_cases hb : v < b
  · rw [if_pos hb, if_pos (by omega), image_of_lt hb, image_of_lt (by omega)]
  · rw [if_neg hb, image_of_ge (by omega)]

/-- The size after `growproc`, when memory does not run out. -/
def grownSize (sz : ℕ) (n : Int32) : ℕ := if sz + n.toInt < 0 then sz else (sz + n.toInt).toNat

/-- **`growproc`** changes the size by `n`, unless that would be below 0 or memory is out. -/
theorem growproc_ok (h : SpaceOk o k k sp) (n : Int32) :
    ∃ (k' : Kmem) (sp' : Space) (ok : Bool), growproc k sp n = .ok (k', sp', ok) ∧
      SpaceOk o k k' sp' ∧ sp'.zombie = sp.zombie ∧
      ((ok = true ∧ sp'.sz = grownSize sp.sz n ∧
          sp'.image k' = resized (sp.image k) (pagesOf sp.sz) (pagesOf sp'.sz)
          (zeroPage { w := true })) ∨
      (ok = false ∧ k.failures < k'.failures)) := by
  have hum := h.userMem
  have hb := lt_of_pagesOf_le hum.bound
  have hsz : sp.sz ≤ 0x8000 * 4096 := by
    have := hum.bound
    unfold pagesOf pgSize at this
    omega
  have hn1 := n.toInt_lt
  have hn2 := n.le_toInt
  unfold growproc grownSize
  by_cases hpos : 0 < n.toInt
  · have hnew : ((sp.sz + n.toInt) % 2 ^ 64).toNat = (sp.sz + n.toInt).toNat := by
      rw [Int.emod_eq_of_lt (by omega) (by omega)]
    have hmax : max sp.sz (sp.sz + n.toInt).toNat = (sp.sz + n.toInt).toNat := by omega
    rw [if_pos hpos, hnew]
    obtain ⟨k', pt', ⟨he, hum', him, -⟩ | ⟨he, hum', him, hlt, -⟩⟩ :=
      uvmalloc_ok { w := true } rfl hum (sp.sz + n.toInt).toNat
    · rw [hmax] at he hum' him
      refine ⟨k', ⟨pt', (sp.sz + n.toInt).toNat, sp.trapframe, sp.zombie⟩, true, ?_,
        h.of_userMem hum' _, rfl, .inl ⟨rfl, ?_, ?_⟩⟩
      · rw [he, ok_bind, if_neg (show ¬(sp.sz + n.toInt).toNat = 0 by omega)]
      · rw [if_neg (by omega)]
      · exact him.trans (extended_image (pagesOf_mono (by omega)))
    · refine ⟨k', ⟨pt', sp.sz, sp.trapframe, sp.zombie⟩, false, ?_, h.of_userMem hum' _, rfl,
        .inr ⟨rfl, hlt⟩⟩
      rw [he, ok_bind, if_pos rfl]
  · rw [if_neg hpos]
    by_cases hneg : n.toInt < 0
    · have hmin : min sp.sz ((sp.sz + n.toInt) % 2 ^ 64).toNat =
          if sp.sz + n.toInt < 0 then sp.sz else (sp.sz + n.toInt).toNat := by
        by_cases hlow : sp.sz + n.toInt < 0
        · have hmod : (sp.sz + n.toInt) % 2 ^ 64 = sp.sz + n.toInt + 2 ^ 64 := by omega
          rw [if_pos hlow, hmod]
          omega
        · rw [if_neg hlow, Int.emod_eq_of_lt (by omega) (by omega)]
          omega
      obtain ⟨k', pt', he, hum', him, -⟩ := uvmdealloc_ok _ hum ((sp.sz + n.toInt) % 2 ^ 64).toNat
      have hle := pagesOf_mono (Nat.min_le_left sp.sz ((sp.sz + n.toInt) % 2 ^ 64).toNat)
      rw [if_pos hneg]
      refine ⟨k', ⟨pt', min sp.sz ((sp.sz + n.toInt) % 2 ^ 64).toNat, sp.trapframe, sp.zombie⟩,
        true, ?_, h.of_userMem hum' _, rfl, .inl ⟨rfl, hmin, ?_⟩⟩
      · rw [he, ok_bind]
      · exact him.trans (shrunk_image _ hle)
    · rw [if_neg hneg]
      refine ⟨k, sp, true, rfl, h, rfl, .inl ⟨rfl, ?_, shrunk_image _ le_rfl⟩⟩
      rw [if_neg (by omega)]
      omega

/-! ## Forking -/

/-- **`fork`** makes a child that looks like the parent, or nothing for want of memory; the parent
looks as before. -/
theorem forkSpace_ok (h : SpaceOk o k k sp) :
    ∃ (k' : Kmem) (pt : PageTable), Wf pt.pte (pagesOf sp.sz) sp.trapframe ∧
      ({ sp with pagetable := pt } : Space).image k' = sp.image k ∧ CowOf sp.pagetable pt ∧
      ((∃ np : Space, forkSpace k sp = .ok (k', { sp with pagetable := pt }, some np) ∧
        Framed o (({ sp with pagetable := pt } : Space).own + np.own) k k' ∧
        Wf np.pagetable.pte (pagesOf np.sz) np.trapframe ∧ np.sz = sp.sz ∧ np.zombie = false ∧
        np.image k' = sp.image k) ∨
      (forkSpace k sp = .ok (k', { sp with pagetable := pt }, none) ∧
        Framed o ({ sp with pagetable := pt } : Space).own k k' ∧ k.failures < k'.failures)) := by
  unfold forkSpace
  rcases allocproc_ok h.framed.acct with ⟨k1, np, he1, h1, hsz, hz⟩ | ⟨k1, he1, hf1, hlt⟩
  swap
  · have hf : Framed o sp.own k k1 := hf1.unframe.congr (add_zero _)
    refine ⟨k1, sp.pagetable, h.wf, h.image_eq hf1, .refl _, .inr ⟨?_, hf, hlt⟩⟩
    rw [he1, ok_bind]
  have him1 : sp.image k1 = sp.image k := h.image_eq h1.framed
  have hnp : np.own = ({np.trapframe}, 0) + np.pagetable.owned 0 := by
    unfold Space.own
    rw [hsz, pagesOf_zero]
  have hold : UserMem (o + ({sp.trapframe}, 0) + ({np.trapframe}, 0) + np.pagetable.owned 0)
      sp.trapframe k1 k1 sp.pagetable (pagesOf sp.sz) := by
    refine ⟨Framed.refl (acct_congr h1.framed.acct ?_), h.wf⟩
    rw [hnp]
    unfold Space.own
    abel
  have hwf := h1.wf
  rw [hsz, pagesOf_zero] at hwf
  obtain ⟨k2, old2, new2, him2, hwf2, hcow, hres⟩ := uvmcopy_ok hold hwf
  have hf1 : Framed o (sp.own + np.own) k k1 := h1.framed.unframe
  rw [he1, ok_bind]
  show ∃ (k' : Kmem) (pt : PageTable), Wf pt.pte (pagesOf sp.sz) sp.trapframe ∧ _ ∧ _ ∧
    ((∃ np' : Space, forkCopy k1 sp np = .ok (k', { sp with pagetable := pt }, some np') ∧ _) ∨
      (forkCopy k1 sp np = .ok (k', { sp with pagetable := pt }, none) ∧ _))
  unfold forkCopy
  rcases hres with ⟨he2, hf2, hnew, himnew⟩ | ⟨he2, hf2, hnew, hlt⟩
  · refine ⟨k2, old2, hwf2, him2.trans him1, hcow, .inl ⟨⟨new2, sp.sz, np.trapframe, np.zombie⟩, ?_, ?_,
      hnew, rfl, hz, himnew.trans him1⟩⟩
    · rw [he2, ok_bind, if_pos rfl]
    · refine hf1.trans ((hf2.congrFrame (add_assoc ..)).unframe.congr ?_)
      unfold Space.own
      abel
  · -- the child is freed again
    have h2 : SpaceOk (o + ({ sp with pagetable := old2 } : Space).own) k2 k2
      { np with pagetable := new2 } := by
      refine ⟨Framed.refl (acct_congr hf2.acct ?_), ?_⟩
      · unfold Space.own
        rw [hsz, pagesOf_zero]
        abel
      · show Wf new2.pte (pagesOf np.sz) np.trapframe
        rw [hsz, pagesOf_zero]
        exact hnew
    obtain ⟨k3, hk3, hf3⟩ := freeproc_ok h2
    have hp : SpaceOk (o + ({ np with pagetable := new2 } : Space).own) k2 k2
      { sp with pagetable := old2 } :=
      ⟨Framed.refl (acct_congr h2.framed.acct (by abel)), hwf2⟩
    refine ⟨k3, old2, hwf2, ?_, hcow, .inr ⟨?_, ?_, ?_⟩⟩
    · exact (hp.image_eq hf3).trans (him2.trans him1)
    · rw [he2, ok_bind, if_neg Bool.false_ne_true, hk3, ok_bind]
    · have hf12 := hf1.trans (hf2.congrFrame (add_assoc ..)).unframe
      exact hf12.trans (hf3.unframe.congr (add_zero _))
    · have h1' := hf1.failures
      have h3' := hf3.failures
      omega

/-! ## `exec` -/

theorem uvmclear_ok (h : UserMem o tf k₀ k pt n) (hv : va / pgSize < n) :
    ∃ pt' : PageTable, uvmclear pt va = .ok pt' ∧ UserMem o tf k₀ k pt' n ∧
      pt'.pte = update pt.pte (va / pgSize) { pt.pte (va / pgSize) with u := false } := by
  have hleaf := h.wf.leaf _ hv
  have hvm := hv.trans h.lt_maxPage
  have hset := PageTable.pte_set (p := { pt.pte (va / pgSize) with u := false }) hvm
    (PageTable.isSome_of_v hleaf.valid)
  obtain ⟨m, hm, hm', _⟩ := maps_update pt.pte hv
  refine ⟨pt.set (va / pgSize) { pt.pte (va / pgSize) with u := false }, ?_,
    ⟨h.framed.congr ?_, ?_⟩, hset⟩
  · unfold uvmclear
    rw [walk_of_v hvm hleaf.valid, ok_bind]
  · unfold PageTable.owned
    rw [hset, hm', hm, PageTable.tabs_set]
    rfl
  · rw [hset]
    refine h.wf.update hv ⟨hleaf.valid, hleaf.readable, hleaf.cow⟩ fun u hu hne he => hne ?_
    exact h.wf.inj u hu _ hv he

end LazyXv6.Kernel
