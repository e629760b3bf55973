import LazyXv6.Kernel.ProcRules
import LazyXv6.Kernel.CopyBytes

/-!
# Rules for `exec`

`exec` builds the new image next to the old one. As long as it builds, the image is well formed and
on frames of its own, so that nothing that is in other hands changes (`Building.Private`); in the
end one of the two images is freed.
-/

namespace LazyXv6.Kernel

open Function Lib Lib.Shares

variable [Layout] {k k₀ k' k1 : Kmem} {pt pt' : PageTable} {o q r : Shares ℕ}
    {n tf u v va sz pa : ℕ} {sp : Space}

/-- The image under construction is well formed, and not yet part of any process. -/
def Building.Ok (o : Shares ℕ) (tf : ℕ) (b : Building) : Prop :=
  UserMem o tf b.kmem b.kmem b.pagetable (pagesOf b.sz)

def Building.Open (b : Building) : Prop :=
  ∀ v < pagesOf b.sz, (b.pagetable.pte v).u = true

variable {b : Building} {contents : List UInt8}

/-- The first `n` pages are on frames that are in nobody else's hands, and not copy-on-write. -/
def Fresh (o : Shares ℕ) (g : ℕ → Pte) (n : ℕ) : Prop :=
  ∀ v < n, (g v).ppn ∉ all o ∧ (g v).cow = false

omit [Layout] in
theorem Fresh.congr {g g' : ℕ → Pte} (h : Fresh o g n) (he : ∀ v < n, g' v = g v) :
    Fresh o g' n := by
  intro v hv
  rw [he v hv]
  exact h v hv

omit [Layout] in
theorem Fresh.grown {g g' : ℕ → Pte} {xperm : Perm} {a b : ℕ} (h : Fresh o g a)
    (hx : xperm.cow = false) (hg : Grown xperm g g' a b)
    (hnew : ∀ v, a ≤ v → v < b → (g' v).ppn ∉ all o) : Fresh o g' b := by
  intro v hv
  by_cases ha : v < a
  · rw [hg.kept v ha]
    exact h v ha
  · exact ⟨hnew v (by omega) hv, (congrArg Perm.cow (hg.added v (by omega) hv)).trans hx⟩

omit [Layout] in
theorem Fresh.clear {g g' : ℕ → Pte} (h : Fresh o g n)
    (hg : g' = update g v { g v with u := false }) : Fresh o g' n := by
  intro u hu
  rw [hg]
  by_cases huv : u = v
  · rw [huv, update_self]
    exact h v (huv ▸ hu)
  · rw [update_of_ne huv]
    exact h u hu

/-- The image is well formed and on frames of its own, and nothing in other hands has changed since
`k₀`. -/
structure Building.Private (o : Shares ℕ) (tf : ℕ) (k₀ : Kmem) (b : Building) : Prop where
  userMem : UserMem o tf k₀ b.kmem b.pagetable (pagesOf b.sz)
  fresh : Fresh o b.pagetable.pte (pagesOf b.sz)

theorem Building.Private.ok (h : b.Private o tf k₀) : b.Ok o tf := h.userMem.self

omit [Layout] in
theorem Building.Open.empty (k : Kmem) (pt : PageTable) : (⟨k, pt, 0, true⟩ : Building).Open := by
  intro v hv
  rw [pagesOf_zero] at hv
  exact absurd hv (Nat.not_lt_zero v)

theorem Building.Private.empty (h : UserMem o tf k₀ k pt 0) :
    (⟨k, pt, 0, true⟩ : Building).Private o tf k₀ := by
  refine ⟨by rw [pagesOf_zero]; exact h, fun v hv => ?_⟩
  rw [pagesOf_zero] at hv
  exact absurd hv (Nat.not_lt_zero v)

theorem loadsegLoop_ok (contents : List UInt8) (offset len : ℕ) {i j : ℕ}
    (h : UserMem o tf k₀ k pt n) (hn : v + (i + j) ≤ n) (hu : ∀ v < n, (pt.pte v).u = true)
      (hfresh : Fresh o pt.pte n) : ∃ (k' : Kmem) (ok : Bool),
      loadsegLoop pt contents v offset len j k i = .ok (k', ok) ∧ UserMem o tf k₀ k' pt n := by
  induction j generalizing k i with
  | zero => exact ⟨k, true, rfl, h⟩
  | succ j ih =>
    have hv : v + i < n := by omega
    have haddr := h.walkaddr hv (hu _ hv)
    have hwrite : ∀ bytes, UserMem o tf k₀ (k.write (pt.pte (v + i)).ppn 0 bytes) pt n := fun _ =>
      h.write (hfresh _ hv).1
    rw [loadsegLoop, haddr, ok_bind]
    simp only
    split
    · exact ih (hwrite _) (by omega)
    · exact ⟨_, _, rfl, hwrite _⟩

omit [Layout] in
theorem uvmalloc_open {xperm : Perm} {a b : ℕ} (hu : ∀ v < a, (pt.pte v).u = true)
    (him : Kernel.image k' pt'.pte b =
      extended (Kernel.image k pt.pte a) a b (zeroPage xperm)) :
    ∀ v < b, (pt'.pte v).u = true := by
  intro v hv
  have hpage := congrFun him v
  rw [image_of_lt hv] at hpage
  unfold extended at hpage
  by_cases ha : v < a
  · rw [if_neg (by omega), image_of_lt ha, Option.some.injEq] at hpage
    exact (congrArg Page.u hpage).trans (hu v ha)
  · rw [if_pos (by omega), Option.some.injEq] at hpage
    exact congrArg Page.u hpage

omit [Layout] in
theorem image_open {a : ℕ} (hu : ∀ v < a, (pt.pte v).u = true)
    (him : Kernel.image k' pt'.pte a = Kernel.image k pt.pte a) :
    ∀ v < a, (pt'.pte v).u = true := by
  intro v hv
  have hpage := congrFun him v
  rw [image_of_lt hv, image_of_lt hv, Option.some.injEq] at hpage
  exact (congrArg Page.u hpage).trans (hu v hv)

theorem execSegment_ok (contents : List UInt8) (h : b.Private o tf k₀) (hu : b.Open)
    (ph : Option Proghdr) : ∃ b' : Building, execSegment contents b ph = .ok b' ∧
    b'.Private o tf k₀ ∧ b'.Open := by
  have hbad : ({ b with ok := false } : Building).Private o tf k₀ := ⟨h.userMem, h.fresh⟩
  cases ph with
  | none => exact ⟨_, rfl, hbad, hu⟩
  | some ph =>
    rw [execSegment]
    by_cases h1 : (!ph.load) = true
    · exact ⟨b, by rw [if_pos h1], h, hu⟩
    rw [if_neg h1]
    by_cases h2 : ph.memsz < ph.filesz
    · exact ⟨_, by rw [if_pos h2], hbad, hu⟩
    rw [if_neg h2]
    by_cases h3 : 2 ^ 64 ≤ ph.vaddr + ph.memsz
    · exact ⟨_, by rw [if_pos h3], hbad, hu⟩
    rw [if_neg h3]
    by_cases h4 : ph.vaddr % pgSize ≠ 0
    · exact ⟨_, by rw [if_pos h4], hbad, hu⟩
    rw [if_neg h4]
    obtain ⟨k', pt', ⟨he, hum, him, hgrown, hnew⟩ | ⟨he, hum, him, -, hkept⟩⟩ :=
      uvmalloc_ok (flags2perm ph.flags) rfl h.userMem (ph.vaddr + ph.memsz)
    · have hopen := uvmalloc_open hu him
      have hfresh := h.fresh.grown rfl hgrown hnew
      rw [he, ok_bind]
      by_cases h5 : max b.sz (ph.vaddr + ph.memsz) = 0
      · have hsz : b.sz = max b.sz (ph.vaddr + ph.memsz) := by omega
        rw [← hsz] at hum hfresh hopen
        exact ⟨⟨k', pt', b.sz, false⟩, by rw [if_pos h5], ⟨hum, hfresh⟩, hopen⟩
      · have hfit : ph.vaddr / pgSize + (0 + (ph.filesz % 2 ^ 32 + pgSize - 1) / pgSize) ≤
            pagesOf (max b.sz (ph.vaddr + ph.memsz)) := by
          have hle := Nat.mod_le ph.filesz (2 ^ 32)
          unfold pagesOf pgSize at *
          omega
        obtain ⟨k2, ok, hload, hum2⟩ := loadsegLoop_ok contents
          (ph.off % 2 ^ 32) (ph.filesz % 2 ^ 32) hum hfit hopen hfresh
        refine ⟨⟨k2, pt', max b.sz (ph.vaddr + ph.memsz), ok⟩, ?_, ⟨hum2, hfresh⟩, hopen⟩
        rw [if_neg h5, loadseg, hload, ok_bind]
    · refine ⟨⟨k', pt', b.sz, false⟩, ?_, ⟨hum, h.fresh.congr hkept⟩, image_open hu him⟩
      rw [he, ok_bind, if_pos rfl]

theorem execSegments_ok (contents : List UInt8) (h : b.Private o tf k₀) (hu : b.Open)
    (phs : List (Option Proghdr)) : ∃ b' : Building, execSegments contents b phs = .ok b' ∧
    b'.Private o tf k₀ := by
  induction phs generalizing b with
  | nil => exact ⟨b, rfl, h⟩
  | cons ph phs ih =>
    obtain ⟨b1, he, h1, hu1⟩ := execSegment_ok contents h hu ph
    rw [execSegments, he, ok_bind]
    cases hok : b1.ok with
    | true =>
      rw [if_pos rfl]
      exact ih h1 hu1
    | false => exact ⟨b1, by rw [if_neg Bool.false_ne_true], h1⟩

/-- Two more pages, of which user code may use the upper one. -/
structure Building.Stack (b : Building) : Prop where
  le : 2 * pgSize ≤ b.sz
  dvd : b.sz % pgSize = 0
  guard : (b.pagetable.pte (b.sz / pgSize - 2)).u = false
  stack : (b.pagetable.pte (b.sz / pgSize - 1)).u = true

theorem execStack_ok (h : b.Private o tf k₀) :
    ∃ b' : Building, execStack b = .ok b' ∧ b'.Private o tf k₀ ∧ (b'.ok = true → b'.Stack) := by
  have hround := pgRoundUp_eq (lt_of_pagesOf_le h.userMem.bound)
  have hum : UserMem o tf k₀ b.kmem b.pagetable (pagesOf (pgRoundUp b.sz)) := by
    rw [hround, pagesOf_mul]
    exact h.userMem
  have hfresh : Fresh o b.pagetable.pte (pagesOf (pgRoundUp b.sz)) := by
    rw [hround, pagesOf_mul]
    exact h.fresh
  unfold execStack
  obtain ⟨k', pt', ⟨he, hum', -, hgrown, hnew⟩ | ⟨he, hum', -, -, hkept⟩⟩ :=
    uvmalloc_ok { w := true } rfl hum (pgRoundUp b.sz + 2 * pgSize)
  · have hmax : max (pgRoundUp b.sz) (pgRoundUp b.sz + 2 * pgSize) = pgRoundUp b.sz + 2 * pgSize :=
      Nat.max_eq_right (Nat.le_add_right ..)
    rw [hmax] at he hum' hgrown hnew
    have hfresh' := hfresh.grown rfl hgrown hnew
    have hv : (pgRoundUp b.sz + 2 * pgSize - 2 * pgSize) / pgSize <
        pagesOf (pgRoundUp b.sz + 2 * pgSize) := div_lt_pagesOf (by unfold pgSize; omega)
    obtain ⟨pt2, he2, hum2, hpte⟩ := uvmclear_ok hum' hv
    refine ⟨⟨k', pt2, pgRoundUp b.sz + 2 * pgSize, true⟩, ?_, ⟨hum2, hfresh'.clear hpte⟩, fun _ => ?_⟩
    · rw [he, ok_bind, if_neg (show ¬pgRoundUp b.sz + 2 * pgSize = 0 by unfold pgSize; omega), he2,
        ok_bind]
    · -- The stack page is the last one, the guard page the one before it.
      have hsz : pgRoundUp b.sz + 2 * pgSize = (pagesOf b.sz + 2) * pgSize := by
        rw [hround, Nat.add_mul]
      have hguard : (pgRoundUp b.sz + 2 * pgSize - 2 * pgSize) / pgSize = pagesOf b.sz := by
        rw [Nat.add_sub_cancel, hround, Nat.mul_div_cancel _ (by decide)]
      have hadded := hgrown.added (pagesOf b.sz + 1) (by rw [hround, pagesOf_mul]; omega)
        (by rw [hsz, pagesOf_mul]; omega)
      rw [hguard] at hpte
      rw [hsz]
      refine ⟨?_, ?_, ?_, ?_⟩
      · exact Nat.mul_le_mul_right _ (Nat.le_add_left ..)
      · exact Nat.mul_mod_left ..
      · show (pt2.pte ((pagesOf b.sz + 2) * pgSize / pgSize - 2)).u = false
        rw [Nat.mul_div_cancel _ (by decide), Nat.add_sub_cancel, hpte, update_self]
      · show (pt2.pte ((pagesOf b.sz + 2) * pgSize / pgSize - 1)).u = true
        rw [Nat.mul_div_cancel _ (by decide), hpte, update_of_ne (by omega)]
        exact congrArg Perm.u hadded
  · refine ⟨⟨k', pt', pgRoundUp b.sz, false⟩, ?_, ⟨hum', hfresh.congr hkept⟩, nofun⟩
    rw [he, ok_bind, if_pos rfl]

theorem Building.Private.entries {src : List UInt8} {a : ℕ} (h : b.Private o tf k₀)
    (hd : Delivered o tf b.kmem b.pagetable (pagesOf b.sz) a src k' pt') :
    ∀ v < pagesOf b.sz, pt'.pte v = b.pagetable.pte v := by
  refine fun v hv => (hd.entries v).resolve_right ?_
  rintro ⟨hcow, -⟩
  exact absurd ((h.fresh v hv).2.symm.trans hcow) (by decide)

theorem Building.Private.delivered {src : List UInt8} {a : ℕ} (ok : Bool) (h : b.Private o tf k₀)
    (hd : Delivered o tf b.kmem b.pagetable (pagesOf b.sz) a src k' pt') :
    (⟨k', pt', b.sz, ok⟩ : Building).Private o tf k₀ := by
  refine ⟨⟨⟨hd.userMem.acct, fun pa hpa => ?_, h.userMem.framed.failures.trans hd.failures⟩,
    hd.userMem.wf⟩, ?_⟩
  · -- The frame of a byte that changed would be one of the image.
    refine Eq.trans (funext fun off => ?_) (h.userMem.framed.mem pa hpa)
    by_contra hne
    obtain ⟨va, h1, h2, -, he⟩ := hd.frames pa hpa off hne
    exact (h.fresh _ (hd.pages va h1 h2).1).1 (he ▸ hpa)
  · exact h.fresh.congr (h.entries hd)

theorem copyout_private (h : b.Private o tf k₀) (dstva : ℕ) (src : List UInt8) :
    ∃ (k' : Kmem) (pt' : PageTable) (ok : Bool), copyout b.kmem b.pagetable dstva src =
      .ok (k', pt', ok) ∧ (⟨k', pt', b.sz, ok⟩ : Building).Private o tf k₀ := by
  obtain ⟨k', pt', ok, j, he, hd, -⟩ := copyout_spec h.userMem.self dstva src
  exact ⟨k', pt', ok, he, h.delivered ok hd⟩

theorem pushUstack_ok (h : b.Private o tf k₀) (base stack : ℕ) (ustack : List ℕ) :
    ∃ b' : Building, pushUstackBy pushDown b base stack ustack = .ok b' ∧ b'.Private o tf k₀ ∧
    b'.sz = b.sz := by
  unfold pushUstackBy
  by_cases hlt : pushDown stack ((ustack.length + 1) * 8) < base
  · exact ⟨{ b with ok := false }, by simp only [if_pos hlt], ⟨h.userMem, h.fresh⟩, rfl⟩
  · obtain ⟨k', pt', ok, he, h'⟩ := copyout_private h (pushDown stack ((ustack.length + 1) * 8))
      ((ustack ++ [0]).flatMap le64)
    refine ⟨⟨k', pt', b.sz, ok⟩, ?_, h', rfl⟩
    simp only [if_neg hlt]
    rw [he, ok_bind]

theorem pushArgs_ok (h : b.Private o tf k₀) (base stack : ℕ) (ustack : List ℕ)
    (argv : List (List UInt8)) : ∃ b' : Building, pushArgs b base stack ustack argv = .ok b' ∧
    b'.Private o tf k₀ ∧ b'.sz = b.sz := by
  induction argv generalizing b stack ustack with
  | nil => exact pushUstack_ok h base stack ustack
  | cons arg argv ih =>
    have hbad : ({ b with ok := false } : Building).Private o tf k₀ := ⟨h.userMem, h.fresh⟩
    rw [pushArgs, pushArgsBy]
    by_cases hmax : maxArg ≤ ustack.length
    · exact ⟨{ b with ok := false }, by rw [if_pos hmax], hbad, rfl⟩
    rw [if_neg hmax]
    by_cases hlt : pushDown stack (arg.length + 1) < base
    · exact ⟨{ b with ok := false }, by simp only [if_pos hlt], hbad, rfl⟩
    obtain ⟨k', pt', ok, he, h'⟩ := copyout_private h (pushDown stack (arg.length + 1)) (arg ++ [0])
    simp only [if_neg hlt]
    rw [he, ok_bind]
    cases ok with
    | true =>
      rw [if_pos rfl]
      exact ih h' _ _
    | false => exact ⟨⟨k', pt', b.sz, false⟩, by rw [if_neg Bool.false_ne_true], h', rfl⟩

theorem execImage_ok (h : b.Private o tf k₀) (hu : b.Open) (elf : Elf) (argv : List (List UInt8)) :
    ∃ b' : Building, execImage b elf argv = .ok b' ∧ b'.Private o tf k₀ := by
  obtain ⟨b1, he1, h1⟩ := execSegments_ok elf.contents h hu elf.phdrs
  unfold execImage
  rw [he1, ok_bind]
  cases hok1 : b1.ok with
  | false => exact ⟨b1, by rw [if_neg Bool.false_ne_true], h1⟩
  | true =>
    obtain ⟨b2, he2, h2, -⟩ := execStack_ok h1
    rw [if_pos rfl, he2, ok_bind]
    cases hok2 : b2.ok with
    | false => exact ⟨b2, by rw [if_neg Bool.false_ne_true], h2⟩
    | true =>
      obtain ⟨b3, he3, h3, -⟩ := pushArgs_ok h2 (b2.sz - pgSize) b2.sz [] argv
      rw [if_pos rfl]
      exact ⟨b3, he3, h3⟩

theorem execCommit_ok (h : b.Ok (o + ({sp.trapframe}, 0) + sp.pagetable.owned (pagesOf sp.sz))
    sp.trapframe) (hwf : Wf sp.pagetable.pte (pagesOf sp.sz) sp.trapframe) :
    ∃ (k' : Kmem) (sp' : Space) (ok : Bool), execCommit sp b = .ok (k', sp', ok) ∧
      SpaceOk o k' k' sp' ∧ sp'.zombie = sp.zombie := by
  unfold execCommit
  cases hok : b.ok with
  | true =>
    have hold : UserMem (o + ({sp.trapframe}, 0) + b.pagetable.owned (pagesOf b.sz)) sp.trapframe
        b.kmem b.kmem sp.pagetable (pagesOf sp.sz) :=
      ⟨Framed.refl (acct_congr h.acct (by abel)), hwf⟩
    obtain ⟨k', hk', hf⟩ := procFreepagetable_ok hold
    refine ⟨k', { sp with pagetable := b.pagetable, sz := b.sz }, true, ?_,
      ⟨Framed.refl (acct_congr hf.acct ?_), h.wf⟩, rfl⟩
    · rw [if_pos rfl, hk', ok_bind]
    · unfold Space.own
      abel
  | false =>
    obtain ⟨k', hk', hf⟩ := procFreepagetable_ok h
    refine ⟨k', sp, false, ?_, ⟨Framed.refl (acct_congr hf.acct ?_), hwf⟩, rfl⟩
    · rw [if_neg Bool.false_ne_true, hk', ok_bind]
    · unfold Space.own
      abel

/-- **`exec`** never panics, whatever the file, and leaves the process with the old or a new image
that is well formed. -/
theorem exec_ok (h : SpaceOk o k k sp) (elf : Elf) (argv : List (List UInt8)) :
    ∃ (k' : Kmem) (sp' : Space) (ok : Bool), exec k sp elf argv = .ok (k', sp', ok) ∧
      SpaceOk o k' k' sp' ∧ sp'.zombie = sp.zombie := by
  unfold exec
  by_cases hheader : (!elf.header) = true
  · exact ⟨k, sp, false, by rw [if_pos hheader], h, rfl⟩
  rw [if_neg hheader]
  have hacct := acct_congr h.framed.acct
    (q := o + ({sp.trapframe}, 0) + sp.pagetable.owned (pagesOf sp.sz)) (add_assoc ..).symm
  rcases procPagetable_ok hacct sp.trapframe with ⟨k1, pt, he, hum⟩ | ⟨k1, he, hf, _⟩
  · obtain ⟨b', he', hb'⟩ := execImage_ok (.empty hum) (.empty k1 pt) elf argv
    obtain ⟨k', sp', ok, hc, h', hz⟩ := execCommit_ok hb'.ok h.wf
    refine ⟨k', sp', ok, ?_, h', hz⟩
    rw [he, ok_bind]
    show (execImage ⟨k1, pt, 0, true⟩ elf argv >>= execCommit sp) = _
    rw [he', ok_bind, hc]
  · refine ⟨k1, sp, false, ?_, ⟨Framed.refl (acct_congr hf.acct ?_), h.wf⟩, rfl⟩
    · rw [he, ok_bind]
    · unfold Space.own
      abel

end LazyXv6.Kernel
