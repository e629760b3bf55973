import LazyXv6.Lib.StableSort
import LazyXv6.Sort.CountSortKeys
import LazyXv6.Sort.MergeSortCorrect

/-!
# The sequential sorts by id

`non_distributed_count_sort` inserts the files in their order. A bucket list is built from its head
and copied backwards, whatever the chunks that it is cut into, so that files of one id stay in their
order. `merge` takes the entry of the left half when the ids are equal.
-/

namespace LazyXv6.Sort

open Lib

variable {Ptr : Type} {index : Ptr → ℤ} {buckets n s e : ℕ} {as : List Ptr} {deref : Ptr → File}
  {files junk : ℕ → Ptr} {flag : Column} {mktime : List Char → ℤ}

def fileId (deref : Ptr → File) (p : Ptr) : ℤ := (deref p).id.toInt

/-! ## Count sort -/

theorem nonDistributedCountSort_eq (hn : 1 ≤ n)
    (hin : InRange (bucketIndex mktime deref flag (getMaxMinValues mktime deref flag files n))
      (getMaxMinValues mktime deref flag files n).buckets (slice files 0 (n - 1))) :
    nonDistributedCountSort mktime deref flag 0 n files junk = some (overwrite files 0 (countingSort
        (bucketIndex mktime deref flag (getMaxMinValues mktime deref flag files n))
        (getMaxMinValues mktime deref flag files n).buckets (slice files 0 (n - 1)))) := by
  have hlen : (slice files 0 (n - 1)).length = n := by
    rw [length_slice]
    omega
  obtain ⟨todo, htodo, hflat⟩ := secondRound_spec hin hlen
  obtain ⟨output, hout, hslice⟩ := foldl_store_perm hin hlen hn (.of_eq hflat) junk
  unfold nonDistributedCountSort
  simp only [flatten_chunks_workerSizes files hn, foldl_insert hin, Option.bind_some, htodo, hout,
    Option.map_some, hslice]

theorem filter_countingSort (hin : InRange index buckets as) (k : ℤ) :
    (countingSort index buckets as).filter (fun p => index p = k) =
    as.filter fun p => index p = k := by
  by_cases hk : ∃ p ∈ as, index p = k
  · obtain ⟨p, hp, rfl⟩ := hk
    obtain ⟨m, hm⟩ := Int.eq_ofNat_of_zero_le (hin p hp).1
    have hlt : m < buckets := by
      have := (hin p hp).2
      omega
    have hgroup : ∀ j, (group index as j).filter (fun q => index q = index p) =
        if j = m then group index as m else [] := by
      intro j
      unfold group
      rw [List.filter_filter, hm]
      split
      case isTrue hj =>
        rw [hj]
        exact List.filter_congr fun q _ => by simp
      case isFalse hj =>
        refine List.filter_eq_nil_iff.mpr fun q _ hq => hj ?_
        simp only [Bool.and_eq_true, decide_eq_true_eq] at hq
        omega
    have hrange : ∀ b, (List.range b).flatMap (fun j => if j = m then group index as m else []) =
        if m < b then group index as m else [] := by
      intro b
      induction b with
      | zero => rfl
      | succ b ih =>
        rw [List.range_succ, List.flatMap_append, ih, List.flatMap_singleton]
        rcases Nat.lt_trichotomy m b with h | rfl | h
        · rw [if_pos h, if_neg (by omega), if_pos (by omega), List.append_nil]
        · rw [if_neg (lt_irrefl m), if_pos rfl, if_pos (by omega), List.nil_append]
        · rw [if_neg (by omega), if_neg (by omega), if_neg (by omega), List.append_nil]
    unfold countingSort
    rw [List.filter_flatMap]
    simp only [hgroup]
    rw [hrange, if_pos hlt, hm]
    rfl
  · have hnot : ∀ p ∈ as, ¬ index p = k := fun p hp he => hk ⟨p, hp, he⟩
    have hnil : ∀ xs : List Ptr, (∀ p ∈ xs, p ∈ as) → xs.filter (fun p => index p = k) = [] := by
      refine fun xs hxs => List.filter_eq_nil_iff.mpr fun p hp => ?_
      simpa using hnot p (hxs p hp)
    rw [hnil _ fun p hp => (countingSort_perm hin).mem_iff.mp hp, hnil _ fun _ hp => hp]

theorem index_of_ids (mktime : List Char → ℤ) {files : ℕ → Ptr} {n : ℕ}
    (h : Readme deref (slice files 0 (n - 1)) .id) :
    let ex := getMaxMinValues mktime deref .id files n
    InRange (bucketIndex mktime deref .id ex) ex.buckets (slice files 0 (n - 1)) ∧
      ∀ p ∈ slice files 0 (n - 1), bucketIndex mktime deref .id ex p = fileId deref p - ex.minValue :=
  index_of_bounds (scanAll_id deref files n) fun p hp q hq => by
    have := h p hp q hq
    omega

/-- Grouping by an index that counts the ids from some first one on sorts them stably. -/
theorem stableSort_countingSort (hin : InRange index buckets as) {lo : ℤ}
    (hindex : ∀ p ∈ as, index p = fileId deref p - lo) :
    StableSort (fileId deref) as (countingSort index buckets as) := by
  have hmem : ∀ p, p ∈ countingSort index buckets as ↔ p ∈ as :=
    fun p => (countingSort_perm hin).mem_iff
  refine ⟨?_, fun k => ?_⟩
  · refine (pairwise_countingSort_iff hin).mpr ⟨fun k => ?_, fun p hp q hq hlt => ?_⟩
    · refine List.pairwise_iff_forall_sublist.mpr fun {p q} hsub => ?_
      obtain ⟨hp, hpk⟩ := mem_group.mp (hsub.subset List.mem_cons_self)
      obtain ⟨hq, hqk⟩ := mem_group.mp
        (hsub.subset (List.mem_cons_of_mem p (List.mem_singleton_self q)))
      rw [hindex p hp] at hpk
      rw [hindex q hq] at hqk
      omega
    · rw [hindex p hp, hindex q hq] at hlt
      omega
  · have hcongr : ∀ xs : List Ptr, (∀ p ∈ xs, p ∈ as) →
        xs.filter (fun p => fileId deref p = k) = xs.filter fun p => index p = k - lo := by
      intro xs hxs
      refine List.filter_congr fun p hp => ?_
      rw [hindex p (hxs p hp)]
      exact decide_eq_decide.mpr (by omega)
    rw [hcongr _ fun p hp => (hmem p).mp hp, hcongr _ fun _ hp => hp, filter_countingSort hin]

/-! ## Merge sort -/

theorem stableSort_mergeSort (deref : Ptr → File) (h : s ≤ e) (files : ℕ → Ptr) :
    StableSort (fileId deref) (slice files s e)
    (slice (mergeSortNonDistributed deref .id s e files) s e) := by
  induction hn : e - s using Nat.strong_induction_on generalizing s e files with
  | _ n ih =>
    rw [mergeSortNonDistributed]
    split
    case isTrue hle =>
      obtain rfl : s = e := by omega
      rw [slice_self]
      exact .refl (List.pairwise_singleton _ _)
    case isFalse hlt =>
      have hse : s < e := by omega
      have hfirst := ih ((s + e) / 2 - s) (by omega) (by omega) files rfl
      have hleft := (mergeSortNonDistributed_sorts deref .id (show s ≤ (s + e) / 2 by omega) files).2.2
      dsimp only
      generalize mergeSortNonDistributed deref .id s ((s + e) / 2) files = files₁ at *
      have hsecond := ih (e - ((s + e) / 2 + 1)) (by omega) (by omega) files₁ rfl
      have hright := (mergeSortNonDistributed_sorts deref .id (show (s + e) / 2 + 1 ≤ e by omega)
        files₁).2.2
      generalize mergeSortNonDistributed deref .id ((s + e) / 2 + 1) e files₁ = files₂ at *
      -- the second call leaves the first half, the first one has left the second half
      have hl : slice files₂ s ((s + e) / 2) = slice files₁ s ((s + e) / 2) :=
        slice_congr fun i _ _ => hright i (by omega)
      have hr : slice files₁ ((s + e) / 2 + 1) e = slice files ((s + e) / 2 + 1) e :=
        slice_congr fun i _ _ => hleft i (by omega)
      have hsplit : slice files s e = slice files s ((s + e) / 2) ++ slice files ((s + e) / 2 + 1) e :=
        (slice_append (by omega) (by omega)).symm
      rw [slice_merge hse, hsplit, hl, ← hr]
      exact hfirst.merge (fun _ _ => mergeLe_iff) hsecond

/-! ## Both -/

/-- **The sequential sorts by id agree**: both leave the stable sort of the files, in the same
array. -/
theorem sequential_sorts_stable (mktime : List Char → ℤ) (deref : Ptr → File)
    (files junk : ℕ → Ptr) (n : ℕ) (hn : 1 ≤ n) (h : Readme deref (slice files 0 (n - 1)) .id) :
    nonDistributedCountSort mktime deref .id 0 n files junk =
        some (mergeSortNonDistributed deref .id 0 (n - 1) files) ∧
      StableSort (fileId deref) (slice files 0 (n - 1))
        (slice (mergeSortNonDistributed deref .id 0 (n - 1) files) 0 (n - 1)) ∧
      ∀ i, n ≤ i → mergeSortNonDistributed deref .id 0 (n - 1) files i = files i := by
  have hmerge := stableSort_mergeSort deref (Nat.zero_le (n - 1)) files
  have hother := (mergeSortNonDistributed_sorts deref .id (Nat.zero_le (n - 1)) files).2.2
  obtain ⟨hin, hval⟩ := index_of_ids mktime h
  have hcount := stableSort_countingSort hin hval
  refine ⟨?_, hmerge, fun i hi => hother i (by omega)⟩
  rw [nonDistributedCountSort_eq hn hin]
  refine congrArg some (funext fun i => ?_)
  rw [hcount.unique hmerge]
  by_cases hi : i < n
  · have hlen : i < (slice (mergeSortNonDistributed deref .id 0 (n - 1) files) 0 (n - 1)).length := by
      rw [length_slice]
      omega
    rw [overwrite, if_pos (Nat.zero_le i), Nat.sub_zero, List.getElem?_eq_getElem hlen, getElem_slice,
      Option.getD_some, Nat.zero_add]
  · rw [overwrite_of_ge (by rw [length_slice]; omega), hother i (by omega)]

/-- Twelve files with ids 0, 1 and 2 in turn. -/
theorem sequential_sorts_stable_turns :
    nonDistributedCountSort (fun _ => 0)
      (fun i : ℕ => ⟨['f'], Int32.ofNat (i % 3), []⟩) .id 0 12 id id =
      some (mergeSortNonDistributed (fun i : ℕ => ⟨['f'], Int32.ofNat (i % 3), []⟩) .id 0 11 id) := by
  refine (sequential_sorts_stable _ _ id id 12 (by decide) ?_).1
  intro p hp q hq
  have hall : ∀ p < 12, ∀ q < 12, (Int32.ofNat (p % 3)).toInt - (Int32.ofNat (q % 3)).toInt ≤
    100000 := by decide
  obtain ⟨i, -, hi, rfl⟩ := mem_slice.mp hp
  obtain ⟨j, -, hj, rfl⟩ := mem_slice.mp hq
  exact hall i (by omega) j (by omega)

end LazyXv6.Sort
