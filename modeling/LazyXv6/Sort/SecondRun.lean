import LazyXv6.Sort.Sequential

/-!
# Count sort in a process that has sorted before

`size_of_new_global_count` is a global. A run adds the number of its non-empty buckets to it and
takes the sum for the length of `new_global_count`, but never sets it back. Every run after the
first reads an entry of `new_global_count` that it has not filled.
-/

namespace LazyXv6.Sort

open Lib

variable {Ptr : Type} {index : Ptr → ℤ} {buckets n size : ℕ} {as : List Ptr} {deref : Ptr → File}
  {files junk : ℕ → Ptr} {mktime : List Char → ℤ}

/-- `size_of_new_global_count` after the non-empty buckets have been counted. -/
def newSize (sizeOfNewGlobalCount buckets : ℕ) (globalCount : ℕ → Bucket Ptr) : ℕ :=
  sizeOfNewGlobalCount + (compact buckets globalCount).length

theorem prefixSums_of_lt {m total : ℕ} {bs : List (Bucket Ptr)} (h : bs.length < m) :
    prefixSums m total bs = none := by
  induction bs generalizing m total with
  | nil =>
    cases m with
    | zero => exact absurd h (by simp)
    | succ m => rfl
  | cons b bs ih =>
    cases m with
    | zero => exact absurd h (by simp)
    | succ m =>
      rw [prefixSums, ih (by simpa using h)]
      rfl

theorem secondRound_of_pos (h : 0 < size) (n buckets : ℕ) (g : ℕ → Bucket Ptr) :
    secondRound size n buckets g = none := by
  unfold secondRound
  dsimp only
  rw [prefixSums_of_lt (by omega)]
  rfl

/-- With threads, a run that starts from another value than 0 crashes, whatever their order. -/
theorem alwaysEnds_crashed (h : 0 < size) :
    AlwaysEnds (CountState.step size n files junk index buckets) (· = .crashed)
    (.initial n files) := by
  refine alwaysEnds_round CountState.counting (fun _ _ => rfl)
    (fun p hp => by simp [CountState.step, hp]) fun as T _ hidle => ?_
  refine alwaysEnds_idle CountState.counting (fun _ _ => rfl) hidle (t := .crashed) ?_
    (.intro (fun _ => rfl) fun _ _ h => by cases h)
  have hnone : (as.foldl (insert index buckets) (some initGlobalCount)).bind
    (secondRound size n buckets) = none := by
    cases as.foldl (insert index buckets) (some initGlobalCount) with
    | none => rfl
    | some g => exact secondRound_of_pos h n buckets g
  simp [CountState.step, hidle, hnone]

theorem compact_ne_nil (hin : InRange index buckets as) (hne : as ≠ []) :
    compact buckets (counted index as) ≠ [] := by
  intro hnil
  have hflat := flatMap_compact index buckets as
  have hperm := countingSort_perm hin
  rw [← hflat, hnil] at hperm
  exact hne (List.nil_perm.mp hperm)

theorem sorts_overwrite {R : Ptr → Ptr → Prop} {L : List Ptr} (hn : 1 ≤ n)
    (hperm : L.Perm (slice files 0 (n - 1))) (hR : L.Pairwise R) :
    Sorts R n files (.done (overwrite files 0 L)) := by
  have hlen : L.length = n := by
    rw [hperm.length_eq, length_slice]
    omega
  have hslice : slice (overwrite files 0 L) 0 (n - 1) = L := slice_overwrite (by omega)
  refine ⟨_, rfl, ?_, ?_, fun i hi => overwrite_of_ge (by omega)⟩
  · rwa [hslice]
  · rwa [hslice]

/-- **When count sort by id can be run**: with and without threads, a run reads filled entries only
and sorts if and only if `size_of_new_global_count` is 0 before it. In every order of the
insertions, a run leaves it greater than it was. -/
theorem count_sort_runs_iff (mktime : List Char → ℤ) (deref : Ptr → File)
    (files junk : ℕ → Ptr) (n : ℕ) (hn : 1 ≤ n) (h : Readme deref (slice files 0 (n - 1)) .id)
    (size : ℕ) :
    (AlwaysEnds (distributedCountSort mktime deref .id size n files junk)
        (Sorts (fun p q => KeyLe .id (deref p) (deref q)) n files) (.initial n files) ↔ size = 0) ∧
    ((∃ files', nonDistributedCountSort mktime deref .id size n files junk = some files' ∧
        Sorts (fun p q => KeyLe .id (deref p) (deref q)) n files (.done files')) ↔ size = 0) ∧
    (let ex := getMaxMinValues mktime deref .id files n
     ∀ as g, Interleaves (chunks files 0 (workerSizes n)) as →
       as.foldl (insert (bucketIndex mktime deref .id ex) ex.buckets) (some initGlobalCount) = some g →
       size < newSize size ex.buckets g) := by
  obtain ⟨hin, hval⟩ := index_of_ids mktime h
  have hstable := stableSort_countingSort hin hval
  refine ⟨⟨fun hends => ?_, ?_⟩, ⟨?_, ?_⟩, fun as g has hg => ?_⟩
  · by_contra hsize
    obtain ⟨st, -, -, ⟨files', hdone, -⟩, hcrash⟩ :=
      (hends.and (alwaysEnds_crashed (Nat.pos_of_ne_zero hsize))).exists_end
    rw [hdone] at hcrash
    exact nomatch hcrash
  · rintro rfl
    refine (alwaysEnds_iff hn).mpr fun as has => ?_
    have hmem : ∀ p, p ∈ as ↔ p ∈ slice files 0 (n - 1) := fun p => by
      rw [has.perm.mem_iff, flatten_chunks_workerSizes files hn]
    have hin' : InRange _ _ as := fun p hp => hin p ((hmem p).mp hp)
    have hsorted := (stableSort_countingSort hin' fun p hp => hval p ((hmem p).mp hp)).sorted
    exact (sorts_finish_iff hn has).mpr ⟨hin', (pairwise_countingSort_iff hin').mp hsorted⟩
  · rintro ⟨files', hrun, -⟩
    by_contra hsize
    unfold nonDistributedCountSort at hrun
    simp only [flatten_chunks_workerSizes files hn, foldl_insert hin, Option.bind_some,
      secondRound_of_pos (Nat.pos_of_ne_zero hsize), Option.bind_none] at hrun
    exact nomatch hrun
  · rintro rfl
    exact ⟨_, nonDistributedCountSort_eq hn hin,
      sorts_overwrite hn (countingSort_perm hin) hstable.sorted⟩
  · have hmem : ∀ p, p ∈ as ↔ p ∈ slice files 0 (n - 1) := fun p => by
      rw [has.perm.mem_iff, flatten_chunks_workerSizes files hn]
    have hin' : InRange _ _ as := fun p hp => hin p ((hmem p).mp hp)
    rw [foldl_insert hin', Option.some.injEq] at hg
    have hne : as ≠ [] := by
      rintro rfl
      exact nomatch (hmem (files 0)).mpr (mem_slice.mpr ⟨0, le_rfl, Nat.zero_le _, rfl⟩)
    have hpos := List.length_pos_of_ne_nil (compact_ne_nil hin' hne)
    rw [← hg]
    exact Nat.lt_add_of_pos_right hpos

def threeFiles (p : ℕ) : File := ⟨['f'], [9, 4, 7].getD p 0, ['t']⟩

theorem readme_threeFiles : Readme threeFiles (slice id 0 (3 - 1)) .id := by
  show ∀ p ∈ _, ∀ q ∈ _, _
  decide

/-- Three files, with the ids 9, 4 and 7. -/
theorem count_sort_runs_once :
    AlwaysEnds (distributedCountSort (fun _ => 0) threeFiles .id 0 3 id id)
      (Sorts (fun p q => KeyLe .id (threeFiles p) (threeFiles q)) 3 id) (.initial 3 id) ∧
    ∃ files', nonDistributedCountSort (fun _ => 0) threeFiles .id 0 3 id id = some files' ∧
      slice files' 0 (3 - 1) = [1, 2, 0] ∧
      Sorts (fun p q => KeyLe .id (threeFiles p) (threeFiles q)) 3 id (.done files') := by
  obtain ⟨hthreads, hplain, -⟩ :=
    count_sort_runs_iff (fun _ => 0) threeFiles id id 3 (by decide) readme_threeFiles 0
  obtain ⟨files', hrun, hsorts⟩ := hplain.mpr rfl
  have hslice : (nonDistributedCountSort (fun _ => 0) threeFiles .id 0 3 id id).map
    (slice · 0 (3 - 1)) =
      some [1, 2, 0] := by decide +kernel
  rw [hrun] at hslice
  exact ⟨hthreads.mpr rfl, files', hrun, Option.some.inj hslice, hsorts⟩

def oneFile (_ : ℕ) : File := ⟨['f'], 7, ['t']⟩

theorem readme_oneFile : Readme oneFile (slice id 0 (1 - 1)) .id := by
  intro p _ q _
  show (7 : Int32).toInt - (7 : Int32).toInt ≤ 100000
  decide

/-- The first run leaves 1 in the global, and neither sort can be run after it. -/
theorem count_sort_fails_again :
    Readme oneFile (slice id 0 (1 - 1)) .id ∧
    (nonDistributedCountSort (fun _ => 0) oneFile .id 0 1 id id).isSome ∧
    (let ex := getMaxMinValues (fun _ => 0) oneFile .id id 1
     ([0].foldl (insert (bucketIndex (fun _ => 0) oneFile .id ex) ex.buckets)
       (some initGlobalCount)).map (newSize 0 ex.buckets) = some 1) ∧
    nonDistributedCountSort (fun _ => 0) oneFile .id 1 1 id id = none ∧
    AlwaysEnds (distributedCountSort (fun _ => 0) oneFile .id 1 1 id id) (· = .crashed)
      (.initial 1 id) := by
  refine ⟨readme_oneFile, by decide, by decide, by decide, alwaysEnds_crashed (by decide)⟩

end LazyXv6.Sort
