import LazyXv6.Kernel.Invariant

/-!
# Reference counts

The counter of a page is the number of its owners: the user entries that map it, in all page tables,
and the kernel, if it uses the page itself.
-/

namespace LazyXv6.Kernel

open Lib Lib.Shares

variable {N : ℕ} {s : State N} {p : Fin N} {sp : Space} {f v : ℕ}

/-- The user entries of a process that map page `f`. -/
def Space.mappings (sp : Space) (f : ℕ) : Finset ℕ :=
  (Finset.range (pagesOf sp.sz)).filter fun v =>
    (sp.pagetable.pte v).v = true ∧ (sp.pagetable.pte v).ppn = f

/-- The pages that the kernel uses for a process: its trapframe and its page table. -/
def Space.kernelPages (sp : Space) : Multiset ℕ := {sp.trapframe} + sp.pagetable.tables

namespace State

def userOwners (s : State N) (f : ℕ) : ℕ := ∑ p, (s.space p).elim 0 fun sp => (sp.mappings f).card

/-- The kernel uses page `f`, for itself or for a process. -/
def KernelHolds (s : State N) (f : ℕ) : Prop :=
  f ∈ s.holders ∨ ∃ p, ∃ sp ∈ s.space p, f ∈ sp.kernelPages

instance (s : State N) (f : ℕ) : Decidable (s.KernelHolds f) :=
  inferInstanceAs (Decidable (_ ∨ _))

end State

/-! ## Counting holdings -/

theorem Pte.count_own (p : Pte) (f : ℕ) :
    (all p.own).count f = if p.v = true ∧ p.ppn = f then 1 else 0 := by
  by_cases hv : p.v = true
  · rw [Pte.all_own hv, Multiset.count_singleton]
    exact if_congr (by simp [hv, eq_comm]) rfl rfl
  · have hown : p.own = 0 := if_neg hv
    rw [hown, if_neg fun h => hv h.1]
    rfl

theorem count_maps (g : ℕ → Pte) (n f : ℕ) : (all (maps g 0 n)).count f =
    ((Finset.range n).filter fun v => (g v).v = true ∧ (g v).ppn = f).card := by
  unfold maps
  rw [all_sum, Multiset.count_sum', Finset.card_filter, Finset.range_eq_Ico]
  exact Finset.sum_congr rfl fun v _ => Pte.count_own (g v) f

theorem Space.count_own (sp : Space) (f : ℕ) :
    (all sp.own).count f = sp.kernelPages.count f + (sp.mappings f).card := by
  unfold Space.own PageTable.owned Space.kernelPages Space.mappings
  rw [← count_maps, all_add, all_add, ← add_assoc, Multiset.count_add]
  unfold PageTable.tabs
  rw [all_mk, all_mk, add_zero, add_zero]

namespace State

theorem count_owned (s : State N) (f : ℕ) : (all s.owned).count f =
    s.userOwners f + ((s.holders : Multiset ℕ).count f +
      ∑ p, (s.space p).elim 0 fun sp => sp.kernelPages.count f) := by
  have hslot : ∀ p, (all (held (s.space p))).count f =
    ((s.space p).elim 0 fun sp => sp.kernelPages.count f) +
        (s.space p).elim 0 fun sp => (sp.mappings f).card := by
    intro p
    rcases s.space p with _ | sp
    · rfl
    · exact sp.count_own f
  unfold owned others userOwners
  rw [all_add, all_sum, Multiset.count_add, Multiset.count_sum', Finset.compl_empty,
    Finset.sum_congr rfl fun p _ => hslot p, Finset.sum_add_distrib, all_mk, add_zero]
  omega

theorem mem_owned_of_held (h : f ∈ (held (s.space p)).1) : f ∈ s.owned.1 := by
  rw [owned_eq s p, Prod.fst_add]
  exact Multiset.mem_add.mpr (.inr h)

theorem KernelHolds.exclusive (h : s.KernelHolds f) : f ∈ s.owned.1 := by
  rcases h with hf | ⟨p, sp, hp, hf⟩
  · unfold owned others
    rw [Prod.fst_add]
    exact Multiset.mem_add.mpr (.inl hf)
  · refine mem_owned_of_held (p := p) ?_
    rw [Option.mem_def.mp hp]
    show f ∈ sp.own.1
    unfold Space.own PageTable.owned PageTable.tabs
    rw [← add_assoc, Prod.fst_add]
    exact Multiset.mem_add.mpr (.inl hf)

theorem kernel_count_eq_zero : (s.holders : Multiset ℕ).count f +
    (∑ p, (s.space p).elim 0 fun sp => sp.kernelPages.count f) = 0 ↔ ¬s.KernelHolds f := by
  unfold KernelHolds
  rw [Nat.add_eq_zero_iff, Multiset.count_eq_zero, Finset.sum_eq_zero_iff, not_or, not_exists]
  refine and_congr_right fun _ => ⟨fun h p => ?_, fun h p _ => ?_⟩
  · rintro ⟨sp, hp, hf⟩
    have h0 := h p (Finset.mem_univ p)
    rw [Option.mem_def.mp hp] at h0
    exact Multiset.count_eq_zero.mp h0 hf
  · rcases hp : s.space p with _ | sp
    · rfl
    · exact Multiset.count_eq_zero.mpr fun hf => h p ⟨sp, hp, hf⟩

variable [Layout]

theorem Inv.exclusive_of_w (h : s.Inv) (hp : s.space p = some sp)
    (hv : (sp.pagetable.pte v).v = true) (hw : (sp.pagetable.pte v).w = true) :
    (sp.pagetable.pte v).ppn ∈ s.owned.1 := by
  have hwf := h.wf p sp hp
  refine mem_owned_of_held (p := p) ?_
  rw [hp]
  show _ ∈ sp.own.1
  unfold Space.own
  rw [Prod.fst_add, Multiset.mem_add]
  by_cases hn : v < pagesOf sp.sz
  · obtain ⟨m, hm, _, _⟩ := maps_update sp.pagetable.pte hn
    refine .inr ?_
    unfold PageTable.owned
    rw [hm, Pte.own_of_w hv hw]
    simp
  · refine .inl ?_
    by_cases h1 : v = trapframePage
    · rw [h1, hwf.trapframe]
      exact Multiset.mem_singleton_self _
    · by_cases h2 : v = trampolinePage
      · rw [h2, hwf.trampoline] at hw
        exact absurd hw Bool.false_ne_true
      · rw [hwf.rest v (by omega) h1 h2] at hv
        exact absurd hv Bool.false_ne_true

/-- **The reference counts are exact** in every reachable state: the counter of a page is the number
of its owners; the free list holds the page once if it has none, and not at all otherwise; and a
page with more than one owner is nowhere mapped writable. -/
theorem reference_counts_exact (h : s.Reachable) (hf : endPage ≤ f ∧ f < physPages) :
    s.kmem.referenceCounter f = s.userOwners f + (if s.KernelHolds f then 1 else 0) ∧
    s.kmem.freelist.count f = (if s.kmem.referenceCounter f = 0 then 1 else 0) ∧
    (1 < s.kmem.referenceCounter f → ∀ p sp v, s.space p = some sp →
      (sp.pagetable.pte v).v = true → (sp.pagetable.pte v).ppn = f →
      (sp.pagetable.pte v).w = false) := by
  have hinv := h.inv
  have hcount := hinv.acct.count_eq f hf
  refine ⟨?_, ?_, fun hone p sp v hp hv hppn => ?_⟩
  · by_cases hk : s.KernelHolds f
    · have hex := hinv.acct.exclusive f hk.exclusive
      have hpos := mt kernel_count_eq_zero.mp (not_not.mpr hk)
      rw [if_pos hk, hcount, hex]
      rw [count_owned] at hex
      omega
    · rw [if_neg hk, hcount, count_owned, kernel_count_eq_zero.mpr hk]
      simp
  · rw [hinv.acct.nodup.count]
    refine if_congr ?_ rfl rfl
    rw [hinv.acct.mem_free f, hcount, Nat.cast_eq_zero, Multiset.count_eq_zero]
    exact and_iff_right hf
  · by_contra hw
    have hex := hinv.acct.exclusive _ (hinv.exclusive_of_w hp hv (by simpa using hw))
    rw [hppn, ← Nat.cast_inj (R := ℤ), ← hcount] at hex
    omega

omit [Layout] in
/-- After a `fork` by the first process, its page has two owners. -/
theorem reference_counts_exact_fork :
    letI := smallLayout
    ∃ s : State 2, s.userOwners 0x87ffb = 2 ∧ s.kmem.referenceCounter 0x87ffb =
        s.userOwners 0x87ffb + (if s.KernelHolds 0x87ffb then 1 else 0) ∧
      s.kmem.freelist.count 0x87ffb = (if s.kmem.referenceCounter 0x87ffb = 0 then 1 else 0) ∧
      (1 < s.kmem.referenceCounter 0x87ffb → ∀ p sp v, s.space p = some sp →
        (sp.pagetable.pte v).v = true → (sp.pagetable.pte v).ppn = 0x87ffb →
        (sp.pagetable.pte v).w = false) := by
  obtain ⟨s, hs, howners⟩ : ∃ s ∈ smallRun [.userinit [0x73], .user (.fork 0)],
      s.userOwners 0x87ffb = 2 := by decide +kernel
  let _ := smallLayout
  exact ⟨s, howners, reference_counts_exact (Reachable.of_runActs hs) (by decide)⟩

end State

end LazyXv6.Kernel
