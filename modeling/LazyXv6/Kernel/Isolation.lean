import LazyXv6.Kernel.Invariant

/-!
# Kernel writes to user memory

`copyout` checks that a page is open to user code, and resolves it if it is copy-on-write, but not
that user code may write it. A page that was not writable when its process forked (the text of a
program) is shared without the copy-on-write flag, so `copyout` to it writes the page of all
processes that share it.
-/

namespace LazyXv6.Kernel

open Lib Lib.Shares

/-- The byte that user code of the process reads at `va`, if its page table lets it. -/
def Space.visible (k : Kmem) (sp : Space) (va : ℕ) : Option UInt8 :=
  if va / pgSize < maxPage ∧ (sp.pagetable.pte (va / pgSize)).allows (·.r) then
    some (k.mem (sp.pagetable.pte (va / pgSize)).ppn (va % pgSize))
  else none

/-- A page that user code may read, and neither write nor get a writable copy of. -/
def Pte.ReadOnly (p : Pte) : Prop := p.v = true ∧ p.u = true ∧ p.w = false ∧ p.cow = false

namespace State

variable [Layout] {N : ℕ} {s : State N} {p q : Fin N} {sp sq : Space} {v va : ℕ}

/-- Whatever `copyout` writes for one process, no other process sees. -/
def CopyoutIsolated (s : State N) : Prop :=
  ∀ p q sp sq, p ≠ q → s.space p = some sp → s.space q = some sq →
    ∀ dstva src k' pt' ok, copyout s.kmem sp.pagetable dstva src = .ok (k', pt', ok) →
      ∀ va, sq.visible k' va = sq.visible s.kmem va

omit [Layout] in
/-- No page that is read-only for one process is mapped for user code by another. -/
def ReadOnlyPrivate (s : State N) : Prop :=
  ∀ p q sp sq, p ≠ q → s.space p = some sp → s.space q = some sq →
    ∀ v u, (sp.pagetable.pte v).ReadOnly → (sq.pagetable.pte u).v = true →
      (sq.pagetable.pte u).u = true → (sp.pagetable.pte v).ppn ≠ (sq.pagetable.pte u).ppn

theorem Inv.lt_pagesOf (h : s.Inv) (hp : s.space p = some sp)
    (hv : (sp.pagetable.pte v).v = true) (hu : (sp.pagetable.pte v).u = true) :
    v < pagesOf sp.sz := by
  by_contra hge
  have hnot := (h.wf p sp hp).not_user (v := v) (by omega)
  rw [hv, hu] at hnot
  exact absurd hnot (by decide)

theorem Inv.isolated (h : s.Inv) (hpriv : s.ReadOnlyPrivate) : s.CopyoutIsolated := by
  intro p q sp sq hne hp hq dstva src k' pt' ok he va
  unfold Space.visible
  by_cases hvis : va / pgSize < maxPage ∧ (sq.pagetable.pte (va / pgSize)).allows (·.r)
  swap
  · rw [if_neg hvis, if_neg hvis]
  rw [if_pos hvis, if_pos hvis]
  obtain ⟨⟨hval, hu⟩, _⟩ : ((sq.pagetable.pte (va / pgSize)).v = true ∧
      (sq.pagetable.pte (va / pgSize)).u = true) ∧ _ := by
    simpa [Pte.allows] using hvis.2
  obtain ⟨k₁, pt₁, ok₁, he₁, _, _, hmem, _⟩ :=
    copyoutLoop_ok src.length dstva src (h.space hp).userMem
  obtain rfl : k₁ = k' := by
    have := he₁.symm.trans he
    simp only [Except.ok.injEq, Prod.mk.injEq] at this
    exact this.1
  have hin : (sq.pagetable.pte (va / pgSize)).ppn ∈ all (s.others {p} + ({sp.trapframe}, 0)) := by
    rw [others_pair hne, hq, all_add, all_add]
    refine Multiset.mem_add.mpr (.inl (Multiset.mem_add.mpr (.inr ?_)))
    show _ ∈ all sq.own
    unfold Space.own
    rw [all_add]
    exact Multiset.mem_add.mpr (.inr (mem_all_owned (h.lt_pagesOf hq hval hu) hval))
  rw [hmem _ hin fun v _ _ hv hu' => ?_]
  by_contra hnot
  simp only [not_or, Bool.not_eq_true, not_not] at hnot
  exact hpriv p q sp sq hne hp hq v (va / pgSize) ⟨hv, hu', hnot.1, hnot.2.1⟩ hval hu hnot.2.2

theorem Inv.copyout_readOnly (h : s.Inv) (hp : s.space p = some sp)
    (hro : (sp.pagetable.pte v).ReadOnly) (b : UInt8) :
    Kernel.copyout s.kmem sp.pagetable (v * pgSize) [b] =
      .ok (s.kmem.write (sp.pagetable.pte v).ppn 0 [b], sp.pagetable, true) := by
  obtain ⟨hv, hu, _, hc⟩ := hro
  have hum := (h.space hp).userMem
  have hlt := h.lt_pagesOf hp hv hu
  have hmax := hlt.trans hum.lt_maxPage
  have haddr := hum.walkaddr hlt hu
  have hdiv : v * pgSize / pgSize = v := Nat.mul_div_cancel v (by decide)
  have hmod : v * pgSize % pgSize = 0 := Nat.mul_mod_left v pgSize
  unfold Kernel.copyout
  rw [List.length_singleton, copyoutLoop, if_neg (List.cons_ne_nil b [])]
  simp only [hdiv, hmod, if_neg (Nat.not_le_of_lt hmax)]
  rw [copyoutPage_plain hum hlt hu hc, ok_bind, if_pos rfl, haddr, ok_bind]
  rfl

theorem Inv.readOnlyPrivate (h : s.Inv) (hiso : s.CopyoutIsolated) : s.ReadOnlyPrivate := by
  intro p q sp sq hne hp hq v u hro hval hu heq
  have hlt := h.lt_pagesOf hq hval hu
  have hmax := hlt.trans (h.space hq).userMem.lt_maxPage
  have hr := ((h.wf q sq hq).leaf u hlt).readable
  have hdiv : u * pgSize / pgSize = u := Nat.mul_div_cancel u (by decide)
  have hmod : u * pgSize % pgSize = 0 := Nat.mul_mod_left u pgSize
  have hvis : ∀ k, sq.visible k (u * pgSize) = some (k.mem (sq.pagetable.pte u).ppn 0) := by
    intro k
    unfold Space.visible
    rw [hdiv, hmod, if_pos ⟨hmax, by simp [Pte.allows, hval, hu, hr]⟩]
  -- write something else than what is there
  have hsame := hiso p q sp sq hne hp hq _ _ _ _ _
    (h.copyout_readOnly hp hro (s.kmem.mem (sq.pagetable.pte u).ppn 0 + 1)) (u * pgSize)
  rw [hvis, hvis, Option.some.injEq, heq, Kmem.write_mem_self] at hsame
  have hbyte : s.kmem.mem (sq.pagetable.pte u).ppn 0 + 1 = s.kmem.mem (sq.pagetable.pte u).ppn 0 :=
    hsame
  exact absurd hbyte (by simp)

/-- **`copyout` is isolated** in a reachable state exactly if no page that is read-only for one
process is mapped for user code by another. -/
theorem copyout_isolated_iff (h : s.Reachable) : s.CopyoutIsolated ↔ s.ReadOnlyPrivate :=
  ⟨h.inv.readOnlyPrivate, h.inv.isolated⟩

omit [Layout] in
/-- After a `fork`, the page of the first process, which is writable, is copy-on-write. -/
theorem copyout_isolated_iff_fork :
    let _ := smallLayout
    ∃ s : State 2, s.Reachable ∧ s.ReadOnlyPrivate ∧ s.CopyoutIsolated := by
  let _ := smallLayout
  obtain ⟨s, hs, hcow⟩ : ∃ s ∈ smallRun [.userinit [0x73], .user (.fork 0)],
      ∀ p, ∀ sp ∈ s.space p, sp.sz = pgSize ∧ (sp.pagetable.pte 0).cow = true := by decide +kernel
  have hreach : s.Reachable := Reachable.of_runActs hs
  have hpriv : s.ReadOnlyPrivate := by
    rintro p q sp sq _ hp _ v _ ⟨hv, hu, _, hc⟩ _ _ _
    obtain ⟨hsz, hcow⟩ := hcow p sp hp
    have hlt := hreach.inv.lt_pagesOf hp hv hu
    have hone : pagesOf pgSize = 1 := rfl
    obtain rfl : v = 0 := by
      rw [hsz, hone] at hlt
      omega
    rw [hc] at hcow
    exact absurd hcow Bool.false_ne_true
  exact ⟨s, hreach, hpriv, (copyout_isolated_iff hreach).mpr hpriv⟩

/-- A program whose only segment is readable and executable, and holds one byte. -/
def textOnly : Elf where
  header := true
  phdrs := [some ⟨true, 5, 0, 0, 1, 1⟩]
  contents := [0x73]

omit [Layout] in
/-- The first process runs a program and forks, and a `copyout` to the text of the child changes
what the parent reads. -/
theorem copyout_reaches_parent :
    let _ := smallLayout
    ∃ s : State 2, smallRun [.userinit [0], .exec 0 textOnly [], .user (.fork 0)] = some s ∧
      ∃ sp sq, s.space 1 = some sp ∧ s.space 0 = some sq ∧
        ∃ k' pt', copyout s.kmem sp.pagetable 0 [0x99] = .ok (k', pt', true) ∧
          sq.visible s.kmem 0 = some 0x73 ∧ sq.visible k' 0 = some 0x99 := by
  let _ := smallLayout
  obtain ⟨s, hs, sp, hsp, sq, hsq, ⟨k', pt', ok⟩, hcopy, hok, h1, h2⟩ :
      ∃ s ∈ smallRun [.userinit [0], .exec 0 textOnly [], .user (.fork 0)], ∃ sp ∈ s.space 1,
      ∃ sq ∈ s.space 0, ∃ r ∈ (copyout s.kmem sp.pagetable 0 [0x99]).toOption,
        r.2.2 = true ∧ sq.visible s.kmem 0 = some 0x73 ∧
        sq.visible r.1 0 = some 0x99 := by decide +kernel
  obtain rfl : ok = true := hok
  exact ⟨s, hs, sp, sq, hsp, hsq, k', pt', eq_ok_of_toOption hcopy, h1, h2⟩

end State

end LazyXv6.Kernel
