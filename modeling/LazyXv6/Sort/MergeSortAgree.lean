import LazyXv6.Sort.MergeSortCorrect

/-!
# The two merge sorts on ids

The leaves of the thread tree are sorted by `compareById`, which subtracts and wraps; `merge` and
`merge_sort_non_distributed` compare with `<=`. What `qsort` leaves out of order stays so through
every `merge` above it.
-/

namespace LazyXv6.Sort

open Lib

variable {Ptr : Type} {q : Qsort Ptr} {deref : Ptr → File} {maxLevel : ℤ} {files : ℕ → Ptr}
  {s e n : ℕ} {level : ℤ} {xs ys zs : List Ptr}

theorem sublist_merge {α : Type} (le : α → α → Bool) (xs ys : List α) :
    xs.Sublist (List.merge xs ys le) ∧ ys.Sublist (List.merge xs ys le) := by
  induction xs generalizing ys with
  | nil => simp
  | cons x xs ihx =>
    induction ys with
    | nil => simp
    | cons y ys ihy =>
      by_cases h : le x y
      · rw [List.cons_merge_cons_pos _ _ _ h]
        exact ⟨(ihx (y :: ys)).1.cons_cons x, (ihx (y :: ys)).2.cons x⟩
      · rw [List.cons_merge_cons_neg _ _ _ h]
        exact ⟨ihy.1.cons y, ihy.2.cons_cons y⟩

theorem Ends.leaf_sublist {c : Column} (h : Ends q deref c c maxLevel (.start s e level) files ys n)
    {r : ℕ × ℕ} (hr : r ∈ leaves (maxLevel - level).toNat s e) :
    ∃ zs m, Stores (q.next (comparator deref c)) q.entry (slice files r.1 r.2) zs m ∧
      zs.Sublist ys := by
  induction hk : (maxLevel - level).toNat generalizing s e level ys n with
  | zero =>
    rw [hk] at hr
    cases h with
    | single => simp [leaves] at hr
    | @leaf _ _ _ n _ _ hse hl hq =>
      rw [leaves, if_neg hse.ne, List.mem_singleton] at hr
      exact ⟨ys, n, hr ▸ hq, .refl ys⟩
    | fork hse hl => omega
  | succ k ih =>
    rw [hk] at hr
    cases h with
    | single => simp [leaves] at hr
    | leaf hse hl => omega
    | @fork _ _ _ _ _ _ ys zs hse hl hy hz =>
      rw [leaves, if_neg hse.ne] at hr
      have hk' : (maxLevel - (level + 1)).toNat = k := by omega
      rcases List.mem_append.mp hr with hr | hr
      · obtain ⟨ws, m, hws, hsub⟩ := ih hy (hk'.symm ▸ hr) hk'
        exact ⟨ws, m, hws, hsub.trans (sublist_merge _ ys zs).1⟩
      · obtain ⟨ws, m, hws, hsub⟩ := ih hz (hk'.symm ▸ hr) hk'
        exact ⟨ws, m, hws, hsub.trans (sublist_merge _ ys zs).2⟩

/-! ## Sorted by both orders -/

theorem Sorted.rel_of_lt {R : Ptr → Ptr → Prop} {x y : Ptr} (hs : Sorted deref .id xs)
    (hR : xs.Pairwise R) (hx : x ∈ xs) (hy : y ∈ xs)
    (hlt : (deref x).id.toInt < (deref y).id.toInt) : R x y := by
  let S : Ptr → Ptr → Prop := fun a b => KeyLe .id (deref a) (deref b) ∧ R a b
  have : Std.Symm fun a b => S a b ∨ S b a := ⟨fun _ _ => Or.symm⟩
  have hor : xs.Pairwise fun a b => S a b ∨ S b a := (hs.and hR).imp .inl
  have hne : x ≠ y := by
    rintro rfl
    omega
  rcases hor.forall hx hy hne with h | h
  · exact h.2
  · have : (deref y).id.toInt ≤ (deref x).id.toInt := h.1
    omega

/-- Two ids that are far apart: sorted by a consistent `compareById` they are not sorted. -/
theorem not_sorted_of_consistent {x y : Ptr} (hcons : Consistent (comparator deref .id) xs)
    (hR : xs.Pairwise fun a b => comparator deref .id a b ≤ 0) (hx : x ∈ xs) (hy : y ∈ xs)
    (hfar : ¬IdsClose (deref x) (deref y)) : ¬Sorted deref .id xs := by
  intro hs
  wlog hlt : (deref x).id.toInt < (deref y).id.toInt generalizing x y with H
  · exact H hy hx (fun h => hfar h.symm) (by simp only [IdsClose] at hfar; omega)
  · have hxy := hs.rel_of_lt hR hx hy hlt
    have hsign := hcons.sign x hx y hy
    have h1 := compareById_cases (deref x) (deref y)
    have h2 := compareById_cases (deref y) (deref x)
    have hx' := (deref x).id.le_toInt
    have hy' := (deref y).id.toInt_lt
    simp only [comparator, getComparisonFunction, IdsClose] at hxy hsign hfar h1 h2
    omega

theorem map_id_eq_iff (hperm : xs.Perm ys) (hy : Sorted deref .id ys) :
    xs.map (fun p => (deref p).id) = ys.map (fun p => (deref p).id) ↔ Sorted deref .id xs := by
  have hpw : ∀ zs, Sorted deref .id zs ↔
      (zs.map fun p => (deref p).id).Pairwise fun a b => a.toInt ≤ b.toInt := fun zs => by
    rw [List.pairwise_map]; rfl
  refine ⟨fun h => ?_, fun h => ?_⟩
  · rw [hpw, h, ← hpw]
    exact hy
  · refine List.Perm.eq_of_pairwise (fun a b _ _ h1 h2 => ?_) ((hpw _).mp h) ((hpw _).mp hy)
      (hperm.map _)
    exact Int32.toInt_inj.mp (Int.le_antisymm h1 h2)

/-! ## When the sorts agree -/

/-- Every interleaving of `merge_sort` ends with the ids that `merge_sort_non_distributed`
leaves. -/
def AgreesOnIds (q : Qsort Ptr) (deref : Ptr → File) (maxLevel : ℤ) (files : ℕ → Ptr) (n : ℕ) :
    Prop :=
  AlwaysEnds (State.step deref .id .id maxLevel) (fun st =>
    st.thread = .done 0 (n - 1) ∧
    (slice st.files 0 (n - 1)).map (fun p => (deref p).id) =
      (slice (mergeSortNonDistributed deref .id 0 (n - 1) files) 0 (n - 1)).map
        fun p => (deref p).id) (initial q n files)

/-- The sorts agree if the tree leaves a sorted list, and only then. -/
theorem agreesOnIds_iff {m : ℕ} (hE : Ends q deref .id .id maxLevel (.start 0 (n - 1) 0) files ys m)
    (hperm : ys.Perm (slice files 0 (n - 1))) :
    AgreesOnIds q deref maxLevel files n ↔ Sorted deref .id ys := by
  obtain ⟨hp, hs, -⟩ := mergeSortNonDistributed_sorts deref .id (Nat.zero_le (n - 1)) files
  have hiff := map_id_eq_iff (hperm.trans hp.symm) hs
  constructor
  · intro h
    obtain ⟨st, -, -, ⟨-, hys, -⟩, -, hids⟩ := (hE.alwaysEnds.and h).exists_end
    simp only [Thread.range] at hys
    rw [hys] at hids
    exact hiff.mp hids
  · intro h
    refine hE.alwaysEnds.mono fun st hst => ⟨hst.1, ?_⟩
    have := hst.2.1
    simp only [Thread.range] at this
    rw [this]
    exact hiff.mpr h

theorem not_agreesOnIds {r : ℕ × ℕ} (hr : r ∈ leaves maxLevel.toNat 0 (n - 1))
    (hleaf : ∀ zs m, Stores (q.next (comparator deref .id)) q.entry (slice files r.1 r.2) zs m →
      ¬Sorted deref .id zs) : ¬AgreesOnIds q deref maxLevel files n := by
  obtain ⟨ys, m, hE, hperm, -⟩ := exists_ends q deref .id maxLevel files (Nat.zero_le (n - 1)) 0
  rw [agreesOnIds_iff hE hperm]
  intro hs
  obtain ⟨zs, k, hzs, hsub⟩ := hE.leaf_sublist (by rwa [Int.sub_zero])
  exact hleaf zs k hzs (hs.sublist hsub)

/-- Sorts by a consistent comparison function, and to descending ids otherwise. -/
noncomputable def spitefulSort (deref : Ptr → File) (cmp : Ptr → Ptr → Int) (xs : List Ptr) :
    List Ptr :=
  open Classical in
  if Consistent cmp xs then sortBy cmp xs
  else xs.mergeSort fun a b => decide ((deref b).id ≤ (deref a).id)

theorem spitefulSort_perm (deref : Ptr → File) (cmp : Ptr → Ptr → Int) (xs : List Ptr) :
    (spitefulSort deref cmp xs).Perm xs := by
  unfold spitefulSort
  split
  · exact sortBy_perm cmp xs
  · exact List.mergeSort_perm _ _

/-- The C standard allows it. -/
noncomputable def spitefulQsort (deref : Ptr → File) : Qsort Ptr :=
  .ofFun (spitefulSort deref) (spitefulSort_perm deref) (fun cmp xs h => by
      rw [spitefulSort, if_pos h]
      exact sortBy_sorts cmp xs h)

theorem not_sorted_spitefulSort {x y : Ptr} (hx : x ∈ xs) (hy : y ∈ xs)
    (hfar : ¬IdsClose (deref x) (deref y)) :
    ¬Sorted deref .id (spitefulSort deref (comparator deref .id) xs) := by
  unfold spitefulSort
  split
  · next hcons =>
    have hperm := sortBy_perm (comparator deref .id) xs
    exact not_sorted_of_consistent (hcons.of_perm hperm) (sortBy_sorts _ xs hcons)
      (hperm.mem_iff.mpr hx) (hperm.mem_iff.mpr hy) hfar
  · intro hs
    have hdesc : (xs.mergeSort fun a b => decide ((deref b).id ≤ (deref a).id)).Pairwise
        fun a b => (deref b).id ≤ (deref a).id := by
      refine (List.pairwise_mergeSort (fun a b c h1 h2 => ?_) (fun a b => ?_) xs).imp
        fun h => of_decide_eq_true h
      · simp only [decide_eq_true_eq, Int32.le_iff_toInt_le] at *
        omega
      · simp only [Bool.or_eq_true, decide_eq_true_eq, Int32.le_iff_toInt_le]
        omega
    wlog hlt : (deref x).id.toInt < (deref y).id.toInt generalizing x y with H
    · exact H hy hx (fun h => hfar h.symm) (by simp only [IdsClose] at hfar; omega)
    · have := hs.rel_of_lt hdesc (List.mem_mergeSort.mpr hx) (List.mem_mergeSort.mpr hy) hlt
      rw [Int32.le_iff_toInt_le] at this
      omega

/-- **When the merge sorts agree.** Whatever `qsort` the C library has, the two sorts leave the same
ids if and only if any two ids in a range handed to `qsort` are less than `2 ^ 31` apart. -/
theorem merge_sorts_agree_iff (deref : Ptr → File) (maxLevel : ℤ) (files : ℕ → Ptr) (n : ℕ) :
    (∀ q : Qsort Ptr, AgreesOnIds q deref maxLevel files n) ↔
      ∀ r ∈ leaves maxLevel.toNat 0 (n - 1), ∀ i j, r.1 ≤ i → i ≤ r.2 → r.1 ≤ j → j ≤ r.2 →
        IdsClose (deref (files i)) (deref (files j)) := by
  constructor
  · intro h r hr i j h1 h2 h3 h4
    by_contra hfar
    refine not_agreesOnIds hr (fun zs m hzs => ?_) (h (spitefulQsort deref))
    obtain ⟨k, hk⟩ := stores_nextStore (spitefulSort deref (comparator deref .id))
      (spitefulSort_perm deref _ (slice files r.1 r.2)).length_eq
    rw [hzs.unique hk]
    exact not_sorted_spitefulSort (mem_slice.mpr ⟨i, h1, h2, rfl⟩) (mem_slice.mpr ⟨j, h3, h4, rfl⟩) hfar
  · intro h q
    obtain ⟨ys, m, hE, hperm, hsort⟩ := exists_ends q deref .id maxLevel files (Nat.zero_le (n - 1)) 0
    rw [agreesOnIds_iff hE hperm]
    refine hsort fun _ r hr => ?_
    rw [Int.sub_zero] at hr
    exact h r hr

/-- The ids are `INT_MIN`, 1 and 0 from then on. -/
def idsFarApart (i : ℕ) : File :=
  ⟨['f'], if i = 0 then Int32.minValue else if i = 1 then 1 else 0, ['t']⟩

/-- 64 files at five levels: the first leaf is `files[0 .. 1]`, and `INT_MIN - 1` wraps to
`INT_MAX`, so every `qsort` puts 1 before `INT_MIN`. -/
theorem merge_sorts_disagree : ¬∃ q : Qsort ℕ, AgreesOnIds q idsFarApart 5 id 64 := by
  rintro ⟨q, hagree⟩
  have hleaf : ((0, 1) : ℕ × ℕ) ∈ leaves (5 : ℤ).toNat 0 (64 - 1) := by decide
  have hcons : Consistent (comparator idsFarApart .id) [0, 1] := ⟨by decide, by decide⟩
  refine not_agreesOnIds hleaf (fun zs m hzs => ?_) hagree
  obtain ⟨ys, k, hys, hperm, hsort⟩ := q.returns (comparator idsFarApart .id) (slice id 0 1)
  rw [hzs.unique hys]
  exact not_sorted_of_consistent (x := 0) (y := 1) (hcons.of_perm hperm) (hsort hcons)
    (hperm.mem_iff.mpr (by decide)) (hperm.mem_iff.mpr (by decide)) (by decide)

end LazyXv6.Sort
