import LazyXv6.Kernel.Isolation

/-!
# From `copyout` to `copyin`

`RoundTrip` says what it means that bytes have been copied to a process: `copyin` reads them back,
no other byte that user code sees has changed, and no other frame.
-/

namespace LazyXv6.Kernel

open Lib Lib.Shares

variable [Layout]

namespace State

variable {N : ℕ} {s : State N} {p : Fin N} {sp : Space}

/-- `src` has been copied to `dstva`, can be read back, and nothing else has changed. -/
structure RoundTrip (s : State N) (p : Fin N) (sp : Space) (dstva : ℕ) (src : List UInt8)
    (k' : Kmem) (pt' : PageTable) : Prop where
  copyin : Kernel.copyin k' pt' dstva src.length = .ok (src, true)
  visible : ∀ va, ¬(dstva ≤ va ∧ va < dstva + src.length) →
    { sp with pagetable := pt' }.visible k' va = sp.visible s.kmem va
  range : src ≠ [] → dstva + src.length ≤ maxPage * pgSize
  /-- Only bytes of open pages are written, in the user pages of the process, -/
  writes : ∀ va, va / pgSize < pagesOf sp.sz →
    userBytes k' pt' va ≠ userBytes s.kmem sp.pagetable va → dstva ≤ va ∧ va < dstva + src.length ∧
      (sp.pagetable.pte (va / pgSize)).v = true ∧ (sp.pagetable.pte (va / pgSize)).u = true
  /-- and in all frames that are in other hands, its trapframe included. -/
  frames : ∀ pa ∈ all (s.others {p} + ({sp.trapframe}, 0)), ∀ off, k'.mem pa off ≠
    s.kmem.mem pa off → ∃ va, dstva ≤ va ∧ va < dstva + src.length ∧ va % pgSize = off ∧
      (sp.pagetable.pte (va / pgSize)).ppn = pa ∧
      (sp.pagetable.pte (va / pgSize)).v = true ∧ (sp.pagetable.pte (va / pgSize)).u = true

theorem Inv.roundTrip (h : s.Inv) (hp : s.space p = some sp) {dstva : ℕ}
    (hd : Delivered (s.others {p} + ({sp.trapframe}, 0)) sp.trapframe s.kmem sp.pagetable
      (pagesOf sp.sz) dstva src k' pt') : s.RoundTrip p sp dstva src k' pt' where
  copyin := by
    rw [copyin_spec hd.userMem fun va h1 h2 => hd.pages_after h1 h2, hd.bytesAt]
  visible va hva := by
    have hflags : (pt'.pte (va / pgSize)).allows (·.r) =
      (sp.pagetable.pte (va / pgSize)).allows (·.r) := by
      rcases hd.entries (va / pgSize) with he | ⟨-, hperm, -⟩
      · rw [he]
      · unfold Pte.allows
        rw [hperm]
        rfl
    unfold Space.visible
    simp only [hflags]
    split
    · rename_i hvis
      obtain ⟨⟨hv, hu⟩, -⟩ : ((sp.pagetable.pte (va / pgSize)).v = true ∧
          (sp.pagetable.pte (va / pgSize)).u = true) ∧ _ := by
        simpa [Pte.allows] using hvis.2
      have hbyte := hd.bytes va (h.lt_pagesOf hp hv hu)
      refine congrArg some (hbyte.trans ?_)
      rw [not_and_or, not_le, not_lt] at hva
      exact hva.elim overwrite_of_lt overwrite_of_ge
    · rfl
  range hne := by
    have hlen := List.length_pos_iff.mpr hne
    have hlast := (hd.pages (dstva + src.length - 1) (by omega) (by omega)).1
    have hmax := hd.userMem.lt_maxPage
    have hle : (dstva + src.length - 1) / pgSize + 1 ≤ maxPage := by omega
    have hmul := Nat.mul_le_mul_right pgSize hle
    unfold pgSize at *
    omega
  writes va hv hne := by
    rw [hd.bytes va hv] at hne
    by_cases hva : dstva ≤ va ∧ va < dstva + src.length
    · exact ⟨hva.1, hva.2, ((h.wf p sp hp).leaf _ hv).valid, (hd.pages va hva.1 hva.2).2⟩
    · rw [not_and_or, not_le, not_lt] at hva
      exact absurd (hva.elim overwrite_of_lt overwrite_of_ge) hne
  frames pa hpa off hne := by
    obtain ⟨va, h1, h2, hoff, hppn⟩ := hd.frames pa hpa off hne
    obtain ⟨hv, hu⟩ := hd.pages va h1 h2
    exact ⟨va, h1, h2, hoff, hppn, ((h.wf p sp hp).leaf _ hv).valid, hu⟩

/-- **What `copyout` copies, `copyin` reads back**, and every other byte stays; if a page of the
range is not open to user code, `copyout` returns -1. -/
theorem copyout_copyin (h : s.Reachable) (hp : s.space p = some sp) (dstva : ℕ) (src : List UInt8) :
    ∃ (k' : Kmem) (pt' : PageTable) (ok : Bool),
      copyout s.kmem sp.pagetable dstva src = .ok (k', pt', ok) ∧
      (ok = true → s.RoundTrip p sp dstva src k' pt') ∧
      ((∃ va, dstva ≤ va ∧ va < dstva + src.length ∧
        ¬((sp.pagetable.pte (va / pgSize)).v = true ∧ (sp.pagetable.pte (va / pgSize)).u = true)) →
        ok = false) := by
  have hi := h.inv
  obtain ⟨k', pt', ok, j, he, hd, -, hdone, -⟩ := copyout_spec (hi.space hp).userMem dstva src
  have hall : ok = true → src.take j = src := fun hok => by rw [hdone hok, List.take_length]
  refine ⟨k', pt', ok, he, fun hok => ?_, ?_⟩
  · rw [hall hok] at hd
    exact hi.roundTrip hp hd
  · rintro ⟨va, h1, h2, hclosed⟩
    by_contra hok
    rw [Bool.not_eq_false] at hok
    rw [hall hok] at hd
    obtain ⟨hv, hu⟩ := hd.pages va h1 h2
    exact hclosed ⟨((hi.wf p sp hp).leaf _ hv).valid, hu⟩

omit [Layout] in
/-- After a `fork` and an `sbrk`, four bytes are copied across a page boundary, into a page that is
copy-on-write and one that is not. -/
theorem copyout_copyin_cow :
    let _ := smallLayout
    ∃ (s : State 2) (sp : Space) (k' : Kmem) (pt' : PageTable), s.space 0 = some sp ∧
      (sp.pagetable.pte 0).cow = true ∧ (sp.pagetable.pte 1).cow = false ∧
      copyout s.kmem sp.pagetable 4094 [1, 2, 3, 4] = .ok (k', pt', true) ∧
      copyin k' pt' 4094 4 = .ok ([1, 2, 3, 4], true) := by
  let _ := smallLayout
  obtain ⟨s, hs, sp, hsp, h0, h1, r, hr, hok⟩ :
      ∃ s ∈ smallRun [.userinit [0x73], .user (.fork 0), .user (.sbrk 0 4096)], ∃ sp ∈ s.space 0,
      (sp.pagetable.pte 0).cow = true ∧ (sp.pagetable.pte 1).cow = false ∧
      ∃ r ∈ (copyout s.kmem sp.pagetable 4094 [1, 2, 3, 4]).toOption, r.2.2 = true := by decide +kernel
  obtain ⟨k', pt', ok, he, hround, -⟩ :=
    copyout_copyin (Reachable.of_runActs hs) hsp 4094 [1, 2, 3, 4]
  obtain rfl : (k', pt', ok) = r := Except.ok.inj (he.symm.trans (eq_ok_of_toOption hr))
  obtain rfl : ok = true := hok
  exact ⟨s, sp, k', pt', hsp, h0, h1, he, (hround rfl).copyin⟩

end State

end LazyXv6.Kernel
