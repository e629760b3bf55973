import LazyXv6.Kernel.Invariant

/-!
# The two ways to resolve a copy-on-write page

A page fault in `usertrap` and a `copyout` resolve a copy-on-write page by separate code. A page
that several processes map is copied by both, and in the same way. The last process that maps a page
is given it in place by `usertrap`; `copyout` copies it all the same, so it needs a free page, and
the frame it leaves behind has no owner.
-/

namespace LazyXv6.Kernel

open Lib.SmallFin

/-- Page `v` is resolved, and user code sees the contents and may do what it could before. -/
structure Broken (k : Kmem) (pt : PageTable) (n v : ℕ) (r : Kmem × PageTable × Bool) : Prop where
  image : image r.1 r.2.1.pte n = image k pt.pte n
  others : ∀ u, u ≠ v → r.2.1.pte u = pt.pte u
  perm : (r.2.1.pte v).toPerm = (pt.pte v).toPerm.uncow

def ownersLeft (pt : PageTable) (v : ℕ) (r : Kmem × PageTable × Bool) : ℤ :=
  r.1.referenceCounter (pt.pte v).ppn

/-- Both succeed or both fail, and if they succeed they leave the same. -/
structure PathsAgree (k : Kmem) (pt : PageTable) (n v : ℕ) (r r' : Kmem × PageTable × Bool) :
    Prop where
  ok : r.2.2 = r'.2.2
  broken : r.2.2 = true → Broken k pt n v r ∧ Broken k pt n v r'
  owners : r.2.2 = true → ownersLeft pt v r = ownersLeft pt v r'

namespace State

variable [Layout] {N : ℕ} {s : State N} {p : Fin N} {sp : Space} {va : ℕ}

def CowPaths (s : State N) (sp : Space) (va : ℕ) (r r' : Kmem × PageTable × Bool) : Prop :=
  usertrap s.kmem sp.pagetable sp.sz va = .ok r ∧
    copyoutPage s.kmem sp.pagetable (va / pgSize) = .ok r'

/-- A user page below the size that is copy-on-write. -/
structure CowPage (s : State N) (p : Fin N) (sp : Space) (va : ℕ) : Prop where
  space : s.space p = some sp
  lt : va < sp.sz
  u : (sp.pagetable.pte (va / pgSize)).u = true
  cow : (sp.pagetable.pte (va / pgSize)).cow = true

def owners (s : State N) (sp : Space) (va : ℕ) : ℤ :=
  s.kmem.referenceCounter (sp.pagetable.pte (va / pgSize)).ppn

theorem usertrap_eq (h : s.Inv) (hc : s.CowPage p sp va) :
    usertrap s.kmem sp.pagetable sp.sz va = usertrapCow s.kmem sp.pagetable (va / pgSize) := by
  unfold usertrap
  rw [iscowpage_eq (h.space hc.space).userMem va, ok_bind, hc.cow, decide_eq_true hc.lt,
    if_pos (by decide)]

theorem copies_ok (h : s.Inv) (hc : s.CowPage p sp va) :
    ∃ r, copyoutPage s.kmem sp.pagetable (va / pgSize) = .ok r ∧
      (r.2.2 = true ↔ s.kmem.freelist ≠ []) ∧
      (r.2.2 = true → Broken s.kmem sp.pagetable (pagesOf sp.sz) (va / pgSize) r ∧
        ownersLeft sp.pagetable (va / pgSize) r = s.owners sp va - 1) := by
  have hum := (h.space hc.space).userMem
  have hv := div_lt_pagesOf hc.lt
  rw [copyoutPage_cow hum hv hc.u hc.cow]
  cases hfree : s.kmem.freelist with
  | nil =>
    obtain ⟨k1, hk⟩ : ∃ k1, kalloc s.kmem = (k1, none) := by
      unfold kalloc
      rw [hfree]
      exact ⟨_, rfl⟩
    rw [hk]
    exact ⟨_, rfl, ⟨nofun, fun hne => absurd rfl hne⟩, nofun⟩
  | cons a rest =>
    obtain ⟨k1, hk⟩ : ∃ k1, kalloc s.kmem = (k1, some a) := by
      unfold kalloc
      rw [hfree]
      exact ⟨_, rfl⟩
    rw [hk]
    obtain ⟨k2, pt', he, hres, hcount, -⟩ := hum.cow_copy hv hc.cow hk
    exact ⟨_, he, ⟨fun _ => List.cons_ne_nil a rest, fun _ => rfl⟩,
      fun _ => ⟨⟨hres.image, hres.others, hres.perm⟩, hcount⟩⟩

/-- **The two paths compared.** A page with several owners is resolved by both in the same way. One
with a single owner is resolved by `usertrap` in any case, in place, and keeps its owner; `copyout`
fails if there is no free page, and otherwise leaves the same contents and flags and the frame
without owners. -/
theorem cow_paths_compare (h : s.Reachable) (hc : s.CowPage p sp va) :
    ∃ r r', s.CowPaths sp va r r' ∧
      (r'.2.2 = true ↔ s.kmem.freelist ≠ []) ∧
      (1 < s.owners sp va ∧ PathsAgree s.kmem sp.pagetable (pagesOf sp.sz) (va / pgSize) r r' ∧
          (r.2.2 = true → ownersLeft sp.pagetable (va / pgSize) r = s.owners sp va - 1) ∨
        s.owners sp va = 1 ∧ r.2.2 = true ∧ r.1 = s.kmem ∧
          (r.2.1.pte (va / pgSize)).ppn = (sp.pagetable.pte (va / pgSize)).ppn ∧
          Broken s.kmem sp.pagetable (pagesOf sp.sz) (va / pgSize) r ∧
          ownersLeft sp.pagetable (va / pgSize) r = 1 ∧
          (r'.2.2 = true → Broken s.kmem sp.pagetable (pagesOf sp.sz) (va / pgSize) r' ∧
            ownersLeft sp.pagetable (va / pgSize) r' = 0)) := by
  have hi := h.inv
  have hum := (hi.space hc.space).userMem
  have hv := div_lt_pagesOf hc.lt
  have hpos : 0 < s.owners sp va := hum.count_pos hv
  obtain ⟨r', he', hok, hbroken⟩ := copies_ok hi hc
  have heq := usertrapCow_eq hum hv
  by_cases hone : 1 < s.owners sp va
  · unfold owners at hone
    rw [if_pos hone, ← copyoutPage_cow hum hv hc.u hc.cow] at heq
    refine ⟨r', r', ⟨?_, he'⟩, hok,
      .inl ⟨hone, ⟨rfl, fun ht => ?_, fun _ => rfl⟩, fun ht => (hbroken ht).2⟩⟩
    · rw [usertrap_eq hi hc, heq, he']
    · exact ⟨(hbroken ht).1, (hbroken ht).1⟩
  · have hcount : s.owners sp va = 1 := by omega
    have hres := hum.cow_in_place hv hc.cow hcount
    rw [if_neg (by exact hone)] at heq
    refine ⟨_, r', ⟨(usertrap_eq hi hc).trans heq, he'⟩, hok,
      .inr ⟨hcount, rfl, rfl, ?_, ?_, hcount, fun ht => ?_⟩⟩
    · rw [PageTable.pte_set (hv.trans hum.lt_maxPage) (PageTable.isSome_of_v (hum.wf.leaf _ hv).valid),
        Function.update_self]
    · exact ⟨hres.image, hres.others, hres.perm⟩
    · refine ⟨(hbroken ht).1, ?_⟩
      rw [(hbroken ht).2, hcount]
      rfl

/-- A process has forked, and the child is gone. -/
def soleOwner : List (Op 2) :=
  [.userinit [0x73], .user (.fork 0), .user (.exit 1), .user (.reap 1)]

omit [Layout] in
/-- The last owner of a page writes to it, after a fork and with memory left. -/
theorem cow_paths_compare_soleOwner :
    let _ := smallLayout
    ∃ (s : State 2) (sp : Space) (r r' : Kmem × PageTable × Bool), s.CowPaths sp 0 r r' ∧
      r.2.2 = true ∧ r'.2.2 = true ∧ ownersLeft sp.pagetable 0 r = 1 ∧
      ownersLeft sp.pagetable 0 r' = 0 := by
  let _ := smallLayout
  obtain ⟨s, hs, sp, hsp, hsz, hu, hc, hone, hfree⟩ : ∃ s ∈ smallRun soleOwner, ∃ sp ∈ s.space 0,
      0 < sp.sz ∧ (sp.pagetable.pte 0).u = true ∧ (sp.pagetable.pte 0).cow = true ∧
        s.owners sp 0 = 1 ∧ s.kmem.freelist ≠ [] := by decide +kernel
  obtain ⟨r, r', hp, hok, ⟨hlt, -⟩ | ⟨-, ht, -, -, -, hr, hr'⟩⟩ :=
    cow_paths_compare (Reachable.of_runActs hs) ⟨hsp, hsz, hu, hc⟩
  · omega
  · exact ⟨s, sp, r, r', hp, ht, hok.mpr hfree, hr, (hr' (hok.mpr hfree)).2⟩

omit [Layout] in
/-- The same with memory used up: `usertrap` goes through, `copyout` does not. -/
theorem cow_paths_disagree :
    let _ := smallLayout
    ∃ s : State 2, s.Reachable ∧ ∃ (sp : Space) (r r' : Kmem × PageTable × Bool), s.CowPage 0 sp 0 ∧
      s.CowPaths sp 0 r r' ∧ ¬PathsAgree s.kmem sp.pagetable (pagesOf sp.sz) 0 r r' := by
  let _ := smallLayout
  obtain ⟨s, hs, sp, hsp, ⟨hsz, hu, hc⟩, r, hr, r', hr', ht, hf⟩ :
      ∃ s ∈ smallRun (soleOwner ++ List.replicate 57 .kalloc), ∃ sp ∈ s.space 0,
      (0 < sp.sz ∧ (sp.pagetable.pte 0).u = true ∧ (sp.pagetable.pte 0).cow = true) ∧
      ∃ r ∈ (usertrap s.kmem sp.pagetable sp.sz 0).toOption,
        ∃ r' ∈ (copyoutPage s.kmem sp.pagetable 0).toOption, r.2.2 = true ∧ r'.2.2 = false := by
    decide +kernel
  refine ⟨s, Reachable.of_runActs hs, sp, r, r', ⟨hsp, hsz, hu, hc⟩,
    ⟨eq_ok_of_toOption hr, eq_ok_of_toOption hr'⟩, fun ha => ?_⟩
  rw [ha.ok, hf] at ht
  cases ht

end State

end LazyXv6.Kernel
