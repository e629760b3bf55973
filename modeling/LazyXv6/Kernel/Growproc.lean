import LazyXv6.Kernel.ReferenceCounts

/-!
# `growproc` (`proc.c`)

`growproc(n)` adds the `int` `n` to the size of the process, a `uint64`. If that would be negative,
the sum wraps to a large number, which `uvmdealloc` takes for no request to shrink: `growproc`
returns 0 and changes nothing (`growproc_ignores_shrink`).
-/

namespace LazyXv6.Kernel

open Lib Lib.Shares

namespace State

variable [Layout] {N : ℕ} {s : State N} {p : Fin N} {sp sp' : Space} {k' : Kmem} {n : Int32} {v : ℕ}

/-- The size has changed by `n`, and the pages with it. -/
structure Resized (s : State N) (p : Fin N) (sp : Space) (n : Int32) (k' : Kmem) (sp' : Space) :
    Prop where
  size : (sp'.sz : ℤ) = sp.sz + n.toInt
  mapped : ∀ v, (sp'.pagetable.pte v).v = true ↔ v < pagesOf sp'.sz ∨ v = trapframePage ∨
    v = trampolinePage
  survive : ∀ v, v < pagesOf sp.sz → v < pagesOf sp'.sz → sp'.pagetable.pte v = sp.pagetable.pte v ∧
      k'.mem (sp.pagetable.pte v).ppn = s.kmem.mem (sp.pagetable.pte v).ppn
  added : ∀ v, pagesOf sp.sz ≤ v → v < pagesOf sp'.sz →
    (sp'.pagetable.pte v).toPerm = { v := true, r := true, w := true, u := true } ∧
      k'.mem (sp'.pagetable.pte v).ppn = fun _ => 0
  /-- The pages of other processes are still theirs, and hold what they held. -/
  others : ∀ q sq, q ≠ p → s.space q = some sq →
    ∀ v < pagesOf sq.sz, (sq.pagetable.pte v).ppn ∉ k'.freelist ∧
      k'.mem (sq.pagetable.pte v).ppn = s.kmem.mem (sq.pagetable.pte v).ppn

/-- The size, the leaf mappings, and the counts and contents of all leaf frames are as before. -/
structure NotResized (s : State N) (sp : Space) (k' : Kmem) (sp' : Space) : Prop where
  size : sp'.sz = sp.sz
  entries : ∀ v, (sp'.pagetable.pte v).v = true ∨ (sp.pagetable.pte v).v = true →
    sp'.pagetable.pte v = sp.pagetable.pte v
  frames : ∀ q sq, s.space q = some sq → ∀ v < pagesOf sq.sz,
    k'.referenceCounter (sq.pagetable.pte v).ppn =
      s.kmem.referenceCounter (sq.pagetable.pte v).ppn ∧
      k'.mem (sq.pagetable.pte v).ppn = s.kmem.mem (sq.pagetable.pte v).ppn

def GrowsExactly (s : State N) (p : Fin N) (sp : Space) (n : Int32) (r : Kmem × Space × Bool) :
    Prop :=
  if r.2.2 then s.Resized p sp n r.1 r.2.1 else s.NotResized sp r.1 r.2.1

/-! ## Frames -/

theorem Inv.mem_own (h : s.Inv) (hp : s.space p = some sp) (hv : v < pagesOf sp.sz) :
    (sp.pagetable.pte v).ppn ∈ all sp.own := by
  unfold Space.own
  rw [all_add]
  exact Multiset.mem_add.mpr (.inr (mem_all_owned hv ((h.wf p sp hp).leaf v hv).valid))

theorem Inv.mem_others (h : s.Inv) {q : Fin N} {sq : Space} (hne : q ≠ p) (hq : s.space q = some sq)
    (hv : v < pagesOf sq.sz) : (sq.pagetable.pte v).ppn ∈ all (s.others {p}) := by
  rw [others_pair hne.symm, hq, all_add]
  exact Multiset.mem_add.mpr (.inr (h.mem_own hq hv))

theorem Inv.others_kept (h : s.Inv) (h' : SpaceOk (s.others {p}) s.kmem k' sp') :
    ∀ q sq, q ≠ p → s.space q = some sq →
        ∀ v < pagesOf sq.sz, (sq.pagetable.pte v).ppn ∉ k'.freelist ∧
        k'.mem (sq.pagetable.pte v).ppn = s.kmem.mem (sq.pagetable.pte v).ppn := by
  intro q sq hne hq v hv
  have hmem := h.mem_others hne hq hv
  refine ⟨fun hfree => ?_, h'.framed.mem _ hmem⟩
  refine ((h'.framed.acct.mem_free _).mp hfree).2 ?_
  rw [all_add]
  exact Multiset.mem_add.mpr (.inl hmem)

omit [Layout] in
theorem mem_of_image {k : Kmem} {g g' : ℕ → Pte} {m m' : ℕ} (hv : v < m) (hv' : v < m')
    (h : image k' g' m' v = image k g m v) : k'.mem (g' v).ppn = k.mem (g v).ppn := by
  rw [image_of_lt hv', image_of_lt hv, Option.some.injEq] at h
  exact congrArg Page.bytes h

theorem Inv.notResized (h : s.Inv) (hp : s.space p = some sp)
    (h' : SpaceOk (s.others {p}) s.kmem k' sp') (hsz : sp'.sz = sp.sz)
    (htf : sp'.trapframe = sp.trapframe)
    (hkept : ∀ v < pagesOf sp.sz, sp'.pagetable.pte v = sp.pagetable.pte v)
    (him : image k' sp'.pagetable.pte (pagesOf sp.sz) =
      image s.kmem sp.pagetable.pte (pagesOf sp.sz)) : s.NotResized sp k' sp' where
  size := hsz
  entries v hv := by
    have hwf := h.wf p sp hp
    have hwf' := h'.wf
    rw [hsz, htf] at hwf'
    by_cases hlt : v < pagesOf sp.sz
    · exact hkept v hlt
    by_cases h1 : v = trapframePage
    · rw [h1, hwf.trapframe, hwf'.trapframe]
    by_cases h2 : v = trampolinePage
    · rw [h2, hwf.trampoline, hwf'.trampoline]
    · rw [hwf.rest v (by omega) h1 h2, hwf'.rest v (by omega) h1 h2] at hv
      simp at hv
  frames q sq hq v hv := by
    have hmaps : maps sp'.pagetable.pte 0 (pagesOf sp.sz) = maps sp.pagetable.pte 0 (pagesOf sp.sz) :=
      maps_congr _ fun v _ hv => hkept v hv
    -- all leaf frames are among these holdings
    obtain ⟨leaves, hleaves⟩ : ∃ leaves, leaves =
        s.others {p} + ({sp.trapframe}, 0) + maps sp.pagetable.pte 0 (pagesOf sp.sz) := ⟨_, rfl⟩
    have hacct : Acct s.kmem (leaves + (sp.pagetable.tables, 0)) := by
      refine acct_congr (h.space hp).framed.acct ?_
      rw [hleaves]
      unfold Space.own PageTable.owned PageTable.tabs
      abel
    have hacct' : Acct k' (leaves + (sp'.pagetable.tables, 0)) := by
      refine acct_congr h'.framed.acct ?_
      rw [hleaves]
      unfold Space.own PageTable.owned PageTable.tabs
      rw [hsz, htf, hmaps]
      abel
    have hmem : (sq.pagetable.pte v).ppn ∈ all leaves ∧
        k'.mem (sq.pagetable.pte v).ppn = s.kmem.mem (sq.pagetable.pte v).ppn := by
      rw [hleaves]
      rcases eq_or_ne q p with rfl | hne
      · obtain rfl : sp = sq := Option.some.inj (hp.symm.trans hq)
        refine ⟨?_, ?_⟩
        · rw [all_add]
          exact Multiset.mem_add.mpr (.inr (mem_all_maps hv ((h.wf q sp hp).leaf v hv).valid))
        · have hbytes := mem_of_image hv hv (congrFun him v)
          rwa [hkept v hv] at hbytes
      · have hmem := h.mem_others hne hq hv
        refine ⟨?_, h'.framed.mem _ hmem⟩
        rw [all_add, all_add]
        exact Multiset.mem_add.mpr (.inl (Multiset.mem_add.mpr (.inl hmem)))
    exact ⟨(hacct'.count_eq_of_exclusive hmem.1).trans (hacct.count_eq_of_exclusive hmem.1).symm,
      hmem.2⟩

/-! ## Growing and shrinking -/

theorem Inv.grown (h : s.Inv) (h' : SpaceOk (s.others {p}) s.kmem k' sp')
    (hsz : (sp'.sz : ℤ) = sp.sz + n.toInt) (hgrown : Grown { w := true } sp.pagetable.pte
      sp'.pagetable.pte (pagesOf sp.sz) (pagesOf sp'.sz))
    (him : image k' sp'.pagetable.pte (pagesOf sp'.sz) = extended
      (image s.kmem sp.pagetable.pte (pagesOf sp.sz)) (pagesOf sp.sz) (pagesOf sp'.sz)
      (zeroPage { w := true })) :
    s.Resized p sp n k' sp' where
  size := hsz
  mapped v := (h'.wf.mapped v).1
  survive v hv hv' := by
    have hpage := congrFun him v
    rw [show extended _ _ _ _ v = _ from if_neg (by omega)] at hpage
    have hbytes := mem_of_image hv hv' hpage
    rw [hgrown.kept v hv] at hbytes
    exact ⟨hgrown.kept v hv, hbytes⟩
  added v hv hv' := by
    have hpage := congrFun him v
    rw [show extended _ _ _ _ v = _ from if_pos ⟨hv, hv'⟩, image_of_lt hv', Option.some.injEq] at hpage
    exact ⟨hgrown.added v hv hv', congrArg Page.bytes hpage⟩
  others := h.others_kept h'

theorem Inv.shrunk (h : s.Inv) (h' : SpaceOk (s.others {p}) s.kmem k' sp')
    (hsz : (sp'.sz : ℤ) = sp.sz + n.toInt) (hle : sp'.sz ≤ sp.sz)
    (hkept : ∀ v < pagesOf sp'.sz, sp'.pagetable.pte v = sp.pagetable.pte v)
    (him : image k' sp'.pagetable.pte (pagesOf sp'.sz) =
      image s.kmem sp.pagetable.pte (pagesOf sp'.sz)) : s.Resized p sp n k' sp' where
  size := hsz
  mapped v := (h'.wf.mapped v).1
  survive v _ hv' := by
    have hbytes := mem_of_image hv' hv' (congrFun him v)
    rw [hkept v hv'] at hbytes
    exact ⟨hkept v hv', hbytes⟩
  added v hv hv' := by
    have hpages := pagesOf_mono hle
    omega
  others := h.others_kept h'

theorem Inv.sz_le (h : s.Inv) (hp : s.space p = some sp) : sp.sz ≤ 0x8000 * 4096 := by
  have hb := (h.space hp).userMem.bound
  unfold pagesOf pgSize at hb
  omega

theorem Inv.growproc_negative (h : s.Inv) (hp : s.space p = some sp) (hneg : sp.sz + n.toInt < 0) :
    growproc s.kmem sp n = .ok (s.kmem, sp, true) := by
  have hsz := h.sz_le hp
  have hn := n.le_toInt
  have hwrap : sp.sz ≤ ((sp.sz + n.toInt) % 2 ^ 64).toNat := by
    have hmod : (sp.sz + n.toInt) % 2 ^ 64 = sp.sz + n.toInt + 2 ^ 64 := by omega
    rw [hmod]
    omega
  unfold growproc uvmdealloc
  rw [if_neg (by omega), if_pos (by omega), if_pos hwrap]
  rfl

theorem Inv.growproc_exact (h : s.Inv) (hp : s.space p = some sp) (hnew : 0 ≤ sp.sz + n.toInt) :
    ∃ r, growproc s.kmem sp n = .ok r ∧ s.GrowsExactly p sp n r := by
  have hsp := h.space hp
  have hum := hsp.userMem
  have hsz := h.sz_le hp
  have hn := n.toInt_lt
  have hmod : ((sp.sz + n.toInt) % 2 ^ 64).toNat = (sp.sz + n.toInt).toNat := by
    rw [Int.emod_eq_of_lt hnew (by omega)]
  unfold growproc GrowsExactly
  rw [hmod]
  by_cases hpos : 0 < n.toInt
  · have hmax : max sp.sz (sp.sz + n.toInt).toNat = (sp.sz + n.toInt).toNat := by omega
    rw [if_pos hpos]
    obtain ⟨k', pt', ⟨he, hum', him, hgrown, -⟩ | ⟨he, hum', him, -, hkept⟩⟩ :=
      uvmalloc_ok { w := true } rfl hum (sp.sz + n.toInt).toNat
    · rw [hmax] at he hum' him hgrown
      refine ⟨(k', ⟨pt', (sp.sz + n.toInt).toNat, sp.trapframe, sp.zombie⟩, true), ?_, ?_⟩
      · rw [he, ok_bind, if_neg (show ¬(sp.sz + n.toInt).toNat = 0 by omega)]
      · exact h.grown (hsp.of_userMem hum' sp.zombie) (Int.toNat_of_nonneg hnew) hgrown him
    · refine ⟨(k', ⟨pt', sp.sz, sp.trapframe, sp.zombie⟩, false), ?_, ?_⟩
      · rw [he, ok_bind, if_pos rfl]
      · exact h.notResized hp (hsp.of_userMem hum' sp.zombie) rfl rfl hkept him
  rw [if_neg hpos]
  by_cases hneg : n.toInt < 0
  · have hmin : min sp.sz (sp.sz + n.toInt).toNat = (sp.sz + n.toInt).toNat := by omega
    obtain ⟨k', pt', he, hum', him, hkept⟩ := uvmdealloc_ok _ hum (sp.sz + n.toInt).toNat
    rw [hmin] at he hum' him hkept
    rw [if_pos hneg]
    refine ⟨(k', ⟨pt', (sp.sz + n.toInt).toNat, sp.trapframe, sp.zombie⟩, true), ?_, ?_⟩
    · rw [he, ok_bind]
    · exact h.shrunk (hsp.of_userMem hum' sp.zombie) (Int.toNat_of_nonneg hnew)
        (by simp; omega) hkept him
  · rw [if_neg hneg]
    have hsame : (sp.sz : ℤ) = sp.sz + n.toInt := by omega
    exact ⟨(s.kmem, sp, true), rfl, h.shrunk hsp hsame le_rfl (fun _ _ => rfl) rfl⟩

/-- **`growproc` changes the size by exactly `n` or not at all**, exactly if the new size is not
negative. -/
theorem growproc_exact_iff (h : s.Inv) (hp : s.space p = some sp) (n : Int32) :
    (∃ r, growproc s.kmem sp n = .ok r ∧ s.GrowsExactly p sp n r) ↔ 0 ≤ sp.sz + n.toInt := by
  refine ⟨fun ⟨r, he, hr⟩ => ?_, h.growproc_exact hp⟩
  by_contra hneg
  rw [h.growproc_negative hp (by omega)] at he
  cases he
  have hsize : (sp.sz : ℤ) = sp.sz + n.toInt := Resized.size hr
  omega

omit [Layout] in
/-- The first process grows by three pages and gives up one and a half of them, with its first page
shared. -/
theorem growproc_exact_iff_shared :
    let _ := smallLayout
    ∃ (s : State 2) (sp : Space), s.space 0 = some sp ∧ sp.sz = 4 * 4096 ∧
      (sp.pagetable.pte 0).cow = true ∧
      ∃ r, growproc s.kmem sp (-6144) = .ok r ∧ s.GrowsExactly 0 sp (-6144) r := by
  let _ := smallLayout
  obtain ⟨s, hs, sp, hsp, hsz, hcow⟩ :
      ∃ s ∈ smallRun [.userinit [0x73], .user (.fork 0), .user (.sbrk 0 12288)], ∃ sp ∈ s.space 0,
      sp.sz = 4 * 4096 ∧ (sp.pagetable.pte 0).cow = true := by decide +kernel
  have hinv : s.Inv := Reachable.inv (Reachable.of_runActs hs)
  refine ⟨s, sp, hsp, hsz, hcow, (growproc_exact_iff hinv hsp (-6144)).mpr ?_⟩
  rw [hsz]
  decide

omit [Layout] in
/-- **A request is ignored**: the first process has one page, and asks to give up two. `growproc`
returns 0, and the size is what it was. -/
theorem growproc_ignores_shrink :
    let _ := smallLayout
    ∃ (s : State 2) (sp : Space), smallRun [.userinit [0x73]] = some s ∧ s.space 0 = some sp ∧
      sp.sz = 4096 ∧ ∃ (k' : Kmem) (sp' : Space),
        growproc s.kmem sp (-8192) = .ok (k', sp', true) ∧ sp'.sz = 4096 ∧
        ¬s.GrowsExactly 0 sp (-8192) (k', sp', true) := by
  let _ := smallLayout
  obtain ⟨s, hs, sp, hsp, hsz, ⟨k', sp', ok⟩, hr, hok, hsz'⟩ :
      ∃ s ∈ smallRun [.userinit [0x73]], ∃ sp ∈ s.space 0, sp.sz = 4096 ∧
      ∃ r ∈ (growproc s.kmem sp (-8192)).toOption, r.2.2 = true ∧ r.2.1.sz = 4096 := by decide +kernel
  obtain rfl : ok = true := hok
  have hsz' : sp'.sz = 4096 := hsz'
  refine ⟨s, sp, hs, hsp, hsz, k', sp', eq_ok_of_toOption hr, hsz', fun hg => ?_⟩
  have hsize : (sp'.sz : ℤ) = sp.sz + (-8192 : Int32).toInt := Resized.size hg
  rw [hsz, hsz'] at hsize
  exact absurd hsize (by decide)

end State

end LazyXv6.Kernel
