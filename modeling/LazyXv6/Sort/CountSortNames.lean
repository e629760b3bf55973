import LazyXv6.Sort.CountSortKeys

/-!
# Count sort by name

`convert_to_index` reads up to four letters as digits 1 to 26 in base 26, an absent letter as 0. So
the index is neither injective nor monotone on names, and the least and the greatest name are found
by `strcmp`, which does not fold the case. `NamesSortable` says when this does no harm, for every
order of the workers: the indices lie between those of the least and the greatest name, they never
contradict the names, and two different names share an index only where one worker inserts both of
them in their order.
-/

namespace LazyXv6.Sort

open Lib

variable {Ptr : Type} {deref : Ptr → File} {files junk : ℕ → Ptr} {n : ℕ}

/-! ## Indices of names -/

theorem toUpper_toNat {c : Char} (h : c.isAlpha) : 65 ≤ c.toUpper.toNat ∧ c.toUpper.toNat ≤ 90 := by
  have hascii : ∀ k < 128, (Char.ofNat k).isAlpha →
      65 ≤ (Char.ofNat k).toUpper.toNat ∧ (Char.ofNat k).toUpper.toNat ≤ 90 := by decide
  have hlt : c.toNat < 128 := by
    simp only [Char.isAlpha, Char.isUpper, Char.isLower, Bool.or_eq_true, Bool.and_eq_true,
      decide_eq_true_eq, ge_iff_le, UInt32.le_iff_toNat_le] at h
    have h1 : ('Z'.val).toNat = 90 := rfl
    have h2 : ('z'.val).toNat = 122 := rfl
    have h3 : c.toNat = c.val.toNat := rfl
    omega
  have := hascii c.toNat hlt
  rw [Char.ofNat_toNat] at this
  exact this h

theorem digit_bounds {name : List Char} (h : FileName name) (i : ℕ) :
    0 ≤ digit (name.drop 4) i ∧ digit (name.drop 4) i ≤ 26 := by
  obtain ⟨letters, rfl, h1, h2, halpha⟩ := h
  have hdrop : (['f', 'i', 'l', 'e'] ++ letters ++ ['.', 't', 'x', 't']).drop 4 =
      letters ++ ['.', 't', 'x', 't'] := rfl
  rw [hdrop, digit]
  split
  · next hi =>
    have hlt : i < letters.length := by simp at hi; omega
    rw [List.getElem?_append_left hlt, List.getElem?_eq_getElem hlt]
    have := toUpper_toNat (halpha _ (List.getElem_mem hlt))
    have hA : 'A'.toNat = 65 := rfl
    dsimp only
    omega
  · omega

theorem convertToIndex_eq (name : List Char) :
    convertToIndex name = ((digit (name.drop 4) 0 * 26 + digit (name.drop 4) 1) * 26 +
      digit (name.drop 4) 2) * 26 + digit (name.drop 4) 3 := by
  simp [convertToIndex, List.range_succ]

theorem convertToIndex_bounds {name : List Char} (h : FileName name) :
    0 ≤ convertToIndex name ∧ convertToIndex name ≤ 475254 := by
  have h0 := digit_bounds h 0
  have h1 := digit_bounds h 1
  have h2 := digit_bounds h 2
  have h3 := digit_bounds h 3
  rw [convertToIndex_eq]
  omega

/-! ## When sorting by name works -/

def fileName (deref : Ptr → File) (files : ℕ → Ptr) (i : ℕ) : List Char := (deref (files i)).name

def nameIndex (deref : Ptr → File) (files : ℕ → Ptr) (i : ℕ) : ℤ :=
  convertToIndex (fileName deref files i)

def lower (name : List Char) : List Char := name.map Char.toLower

/-- One worker of `count_local` has both files. -/
def SameChunk (n i j : ℕ) : Prop := ∃ w ∈ chunks id 0 (workerSizes n), i ∈ w ∧ j ∈ w

structure NamesSortable (deref : Ptr → File) (files : ℕ → Ptr) (n : ℕ) : Prop where
  least : ∀ i < n, (∀ k < n, fileName deref files i ≤ fileName deref files k) →
    ∀ j < n, nameIndex deref files i ≤ nameIndex deref files j
  greatest : ∀ i < n, (∀ k < n, fileName deref files k ≤ fileName deref files i) →
    ∀ j < n, nameIndex deref files j ≤ nameIndex deref files i
  order : ∀ i < n, ∀ j < n, nameIndex deref files i < nameIndex deref files j →
    lower (fileName deref files i) ≤ lower (fileName deref files j)
  ties : ∀ i j, i < j → j < n → nameIndex deref files i = nameIndex deref files j →
    lower (fileName deref files i) = lower (fileName deref files j) ∨
      (SameChunk n i j ∧ lower (fileName deref files i) ≤ lower (fileName deref files j))

theorem forall_mem_slice (hn : 1 ≤ n) {P : Ptr → Prop} :
    (∀ p ∈ slice files 0 (n - 1), P p) ↔ ∀ i < n, P (files i) := by
  constructor
  · intro h i hi
    exact h _ (mem_slice.mpr ⟨i, Nat.zero_le i, by omega, rfl⟩)
  · rintro h p hp
    obtain ⟨i, -, hi, rfl⟩ := mem_slice.mp hp
    exact h i (by omega)

theorem inRange_names_iff (mktime : List Char → ℤ) (hn : 1 ≤ n)
    (h : Readme deref (slice files 0 (n - 1)) .name) :
    (let ex := getMaxMinValues mktime deref .name files n
     InRange (bucketIndex mktime deref .name ex) ex.buckets (slice files 0 (n - 1))) ↔
      (∀ i < n, (∀ k < n, fileName deref files i ≤ fileName deref files k) →
        ∀ j < n, nameIndex deref files i ≤ nameIndex deref files j) ∧
      (∀ i < n, (∀ k < n, fileName deref files k ≤ fileName deref files i) →
        ∀ j < n, nameIndex deref files j ≤ nameIndex deref files i) := by
  have hb := scanAll_name deref files n
  obtain ⟨p, hp, hpmin⟩ := hb.least
  obtain ⟨q, hq, hqmax⟩ := hb.greatest
  have hl := hb.lower
  have hu := hb.upper
  have hbp := convertToIndex_bounds (h p hp)
  have hbq := convertToIndex_bounds (h q hq)
  rw [← hpmin] at hl
  rw [← hqmax] at hu
  obtain ⟨a, -, ha, rfl⟩ := mem_slice.mp hp
  obtain ⟨b, -, hb', rfl⟩ := mem_slice.mp hq
  rw [forall_mem_slice hn] at hl hu
  have hwrap :
      wrap (convertToIndex (deref (files b)).name - convertToIndex (deref (files a)).name) =
        convertToIndex (deref (files b)).name - convertToIndex (deref (files a)).name :=
    wrap_of_close (by omega) (by omega)
  simp only [InRange, bucketIndex, getMaxMinValues, convertFilenameToFileIndex, Extremes.buckets,
    ← hpmin, ← hqmax, sub_self, sub_zero, hwrap, forall_mem_slice hn]
  constructor
  · intro hin
    refine ⟨fun i hi hmin j hj => ?_, fun i hi hmax j hj => ?_⟩
    · have he : (deref (files i)).name = (deref (files a)).name :=
        le_antisymm (hmin a (by omega)) (hl i hi)
      have := hin j hj
      simp only [nameIndex, fileName, he]
      omega
    · have he : (deref (files i)).name = (deref (files b)).name :=
        le_antisymm (hu i hi) (hmax b (by omega))
      have := hin j hj
      simp only [nameIndex, fileName, he]
      omega
  · rintro ⟨hmin, hmax⟩ i hi
    have h1 := hmin a (by omega) hl i hi
    have h2 := hmax b (by omega) hu i hi
    simp only [nameIndex, fileName] at h1 h2
    omega

/-! ## Ties and the order of the workers -/

theorem chunks_eq_map (files : ℕ → Ptr) (covered : ℕ) (cs : List ℕ) :
    chunks files covered cs = (chunks id covered cs).map (List.map files) := by
  induction cs generalizing covered with
  | nil => rfl
  | cons c cs ih => simp [chunks, ih]

theorem chunks_sorted {covered : ℕ} {cs w : List ℕ} (h : w ∈ chunks id covered cs) :
    w.Pairwise (· < ·) := by
  induction cs generalizing covered with
  | nil => cases h
  | cons c cs ih =>
    rcases List.mem_cons.mp h with rfl | h
    · rw [List.map_id]
      exact List.pairwise_lt_range'
    · exact ih h

theorem flatten_positions (n : ℕ) : (chunks id 0 (workerSizes n)).flatten = List.range n := by
  rw [flatten_chunks, sum_workerSizes, List.map_id, List.range_eq_range']

theorem not_both_orders {α : Type} {a b : α} {l : List α} (hl : l.Nodup) (h : [a, b].Sublist l)
    (h' : [b, a].Sublist l) : False := by
  induction l with
  | nil => cases h
  | cons x l ih =>
    obtain ⟨hx, hl⟩ := List.nodup_cons.mp hl
    cases h with
    | cons _ h =>
      cases h' with
      | cons _ h' => exact ih hl h h'
      | cons_cons _ h' => exact hx (h.subset (by simp))
    | cons_cons _ h =>
      cases h' with
      | cons _ h' | cons_cons _ h' => exact hx (h'.subset (by simp))

theorem sublist_of_sameChunk {i j : ℕ} {is : List ℕ} (h : SameChunk n i j) (hij : i < j)
    (his : Interleaves (chunks id 0 (workerSizes n)) is) : [i, j].Sublist is := by
  obtain ⟨w, hw, hi, hj⟩ := h
  refine List.Sublist.trans ?_ (his.sublist hw)
  have hsorted := chunks_sorted hw
  obtain ⟨u, v, rfl⟩ := List.append_of_mem hi
  rw [List.pairwise_append] at hsorted
  have hjv : j ∈ v := by
    rcases List.mem_append.mp hj with hj | hj
    · exact absurd (hsorted.2.2 j hj i List.mem_cons_self) (by omega)
    · rcases List.mem_cons.mp hj with rfl | hj
      · omega
      · exact hj
  exact ((List.singleton_sublist.mpr hjv).cons_cons i).trans (List.sublist_append_right u (i :: v))

theorem exists_sublist_of_not_sameChunk {i j : ℕ} (hi : i < n) (hj : j < n) (h : ¬SameChunk n i j) :
    ∃ is, Interleaves (chunks id 0 (workerSizes n)) is ∧ [i, j].Sublist is := by
  have hmem : i ∈ (chunks id 0 (workerSizes n)).flatten := by
    rw [flatten_positions]
    exact List.mem_range.mpr hi
  obtain ⟨w, hw, hiw⟩ := List.mem_flatten.mp hmem
  obtain ⟨is, his⟩ := exists_interleaves_first hw
  refine ⟨w ++ is, his, ?_⟩
  have hj' : j ∈ w ++ is := by
    rw [his.perm.mem_iff, flatten_positions]
    exact List.mem_range.mpr hj
  have hjis : j ∈ is := (List.mem_append.mp hj').resolve_left fun hjw => h ⟨w, hw, hiw, hjw⟩
  exact (List.singleton_sublist.mpr hiw).append (List.singleton_sublist.mpr hjis)

/-- **Ties.** Every order of the workers leaves every group in order iff two files of one group are
in order, and in either order unless one worker has both. -/
theorem forall_group_pairwise_iff {index : Ptr → ℤ} {R : Ptr → Ptr → Prop}
    (hpos : ∀ i < n, 0 ≤ index (files i)) :
    (∀ as, Interleaves (chunks files 0 (workerSizes n)) as → ∀ k, (group index as k).Pairwise R) ↔
      ∀ i j, i < j → j < n → index (files i) = index (files j) →
        R (files i) (files j) ∧ (SameChunk n i j ∨ R (files j) (files i)) := by
  have hgroup : ∀ (is : List ℕ) k, group index (is.map files) k =
      (is.filter fun i => index (files i) = (k : ℤ)).map files := fun is k => List.filter_map
  rw [chunks_eq_map]
  constructor
  · intro h i j hij hj he
    have hR : ∀ a b is, a < n → index (files a) = index (files b) → [a, b].Sublist is →
        Interleaves (chunks id 0 (workerSizes n)) is → R (files a) (files b) := by
      intro a b is ha hab hsub his
      have hg := h _ (interleaves_map_iff.mpr ⟨is, his, rfl⟩) (index (files a)).toNat
      rw [hgroup, List.pairwise_map, List.pairwise_iff_forall_sublist] at hg
      have hnat := Int.toNat_of_nonneg (hpos a ha)
      have hfilter := hsub.filter fun i => decide (index (files i) = ((index (files a)).toNat : ℤ))
      rw [List.filter_cons_of_pos (by exact decide_eq_true hnat.symm),
        List.filter_cons_of_pos (by exact decide_eq_true (hab.symm.trans hnat.symm)),
        List.filter_nil] at hfilter
      exact hg hfilter
    by_cases hsame : SameChunk n i j
    · obtain ⟨is, his⟩ := exists_interleaves (chunks id 0 (workerSizes n))
      exact ⟨hR i j is (by omega) he (sublist_of_sameChunk hsame hij his) his, .inl hsame⟩
    · obtain ⟨is, his, hsub⟩ := exists_sublist_of_not_sameChunk (by omega) hj hsame
      obtain ⟨is', his', hsub'⟩ := exists_sublist_of_not_sameChunk hj (show i < n by omega)
        fun ⟨w, hw, h1, h2⟩ => hsame ⟨w, hw, h2, h1⟩
      exact ⟨hR i j is (by omega) he hsub his, .inr (hR j i is' hj he.symm hsub' his')⟩
  · intro h as has k
    obtain ⟨is, his, rfl⟩ := interleaves_map_iff.mp has
    have hperm := his.perm
    rw [flatten_positions] at hperm
    rw [hgroup, List.pairwise_map, List.pairwise_iff_forall_sublist]
    intro i j hsub
    have hi := List.mem_filter.mp (hsub.subset List.mem_cons_self)
    have hj := List.mem_filter.mp (hsub.subset (List.mem_cons_of_mem i (List.mem_singleton_self j)))
    have hin : i < n := List.mem_range.mp (hperm.mem_iff.mp hi.1)
    have hjn : j < n := List.mem_range.mp (hperm.mem_iff.mp hj.1)
    have hsub' : [i, j].Sublist is := hsub.trans List.filter_sublist
    have hnodup : is.Nodup := hperm.nodup_iff.mpr List.nodup_range
    have he : index (files i) = index (files j) :=
      (of_decide_eq_true hi.2).trans (of_decide_eq_true hj.2).symm
    rcases Nat.lt_trichotomy i j with hij | rfl | hij
    · exact (h i j hij hjn he).1
    · exact absurd (hnodup.sublist hsub') (by simp)
    · refine (h j i hij hin he.symm).2.resolve_left fun hsame => ?_
      exact not_both_orders hnodup hsub' (sublist_of_sameChunk hsame hij his)

/-- **Parallel count sort sorts names iff they are sortable.** For every array of files with names
as the README assumes, all orders of the workers end with a permutation of the pointers in the order
of the lower-cased names if and only if `NamesSortable` holds. -/
theorem count_sort_names_iff (mktime : List Char → ℤ) (deref : Ptr → File) (files junk : ℕ → Ptr)
    (n : ℕ) (hn : 1 ≤ n) (h : Readme deref (slice files 0 (n - 1)) .name) :
    AlwaysEnds (distributedCountSort mktime deref .name 0 n files junk)
      (Sorts (fun p q => lower (deref p).name ≤ lower (deref q).name) n files) (.initial n files) ↔
      NamesSortable deref files n := by
  have hrange := inRange_names_iff mktime hn h
  have hmem : ∀ as, Interleaves (chunks files 0 (workerSizes n)) as →
      ∀ p, p ∈ as ↔ p ∈ slice files 0 (n - 1) := fun as has p => by
    rw [has.perm.mem_iff, flatten_chunks_workerSizes files hn]
  -- the index is the one of the name, up to a constant
  have hindex : ∀ i, bucketIndex mktime deref .name (getMaxMinValues mktime deref .name files n)
      (files i) = nameIndex deref files i -
        convertToIndex (getMaxMinValues mktime deref .name files n).minFilename := fun i => rfl
  unfold distributedCountSort
  dsimp only at hrange ⊢
  generalize getMaxMinValues mktime deref .name files n = ex at hrange hindex ⊢
  rw [alwaysEnds_iff hn]
  constructor
  · intro hall
    obtain ⟨as, has⟩ := exists_interleaves (chunks files 0 (workerSizes n))
    obtain ⟨hin, -, hcross⟩ := (sorts_finish_iff hn has).mp (hall as has)
    have hin' : InRange (bucketIndex mktime deref .name ex) ex.buckets (slice files 0 (n - 1)) :=
      fun p hp => hin p ((hmem as has p).mpr hp)
    obtain ⟨hleast, hgreatest⟩ := hrange.mp hin'
    have hfile : ∀ i < n, files i ∈ slice files 0 (n - 1) := fun i hi =>
      mem_slice.mpr ⟨i, Nat.zero_le i, by omega, rfl⟩
    refine ⟨hleast, hgreatest, fun i hi j hj hlt => ?_, fun i j hij hj he => ?_⟩
    · refine hcross _ ((hmem as has _).mpr (hfile i hi)) _ ((hmem as has _).mpr (hfile j hj)) ?_
      rw [hindex, hindex]
      omega
    · have hties := (forall_group_pairwise_iff fun i hi => (hin' _ (hfile i hi)).1).mp
        (fun as has => ((sorts_finish_iff hn has).mp (hall as has)).2.1) i j hij hj
        (by rw [hindex, hindex, he])
      rcases hties with ⟨hle, hsame | hge⟩
      · exact .inr ⟨hsame, hle⟩
      · exact .inl (le_antisymm hle hge)
  · intro hs as has
    have hin := hrange.mpr ⟨hs.least, hs.greatest⟩
    refine (sorts_finish_iff hn has).mpr ⟨fun p hp => hin p ((hmem as has p).mp hp), ?_, ?_⟩
    · refine (forall_group_pairwise_iff fun i hi => (hin (files i) ?_).1).mpr
        (fun i j hij hj he => ?_) as has
      · exact mem_slice.mpr ⟨i, Nat.zero_le i, by omega, rfl⟩
      · rw [hindex, hindex] at he
        rcases hs.ties i j hij hj (by omega) with heq | ⟨hsame, hle⟩
        · exact ⟨heq.le, .inr heq.ge⟩
        · exact ⟨hle, .inl hsame⟩
    · intro p hp q hq hlt
      obtain ⟨i, -, hi, rfl⟩ := mem_slice.mp ((hmem as has p).mp hp)
      obtain ⟨j, -, hj, rfl⟩ := mem_slice.mp ((hmem as has q).mp hq)
      rw [hindex, hindex] at hlt
      exact hs.order i (by omega) j (by omega) (by omega)

/-- `fileay.txt`, then `filebA.txt`. -/
def namesInOrder (i : ℕ) : File :=
  ⟨['f', 'i', 'l', 'e'] ++ (if i = 0 then ['a', 'y'] else ['b', 'A']) ++ ['.', 't', 'x', 't'], 7,
    ['t']⟩

theorem count_sort_names_inOrder :
    AlwaysEnds (distributedCountSort (fun _ => 0) namesInOrder .name 0 2 id id)
      (Sorts (fun p q => lower (namesInOrder p).name ≤ lower (namesInOrder q).name) 2 id)
      (.initial 2 id) := by
  refine (count_sort_names_iff _ namesInOrder id id 2 (by decide) fun p _ => ?_).mpr
    ⟨by decide, by decide, by decide, fun i j hij hj he => ?_⟩
  · unfold namesInOrder
    split
    · exact ⟨['a', 'y'], rfl, by decide, by decide, List.all_eq_true.mp rfl⟩
    · exact ⟨['b', 'A'], rfl, by decide, by decide, List.all_eq_true.mp rfl⟩
  · obtain rfl : i = 0 := by omega
    obtain rfl : j = 1 := by omega
    exact absurd he (by decide)

/-- `fileb.txt` and `fileaz.txt`: both have the index `2 * 26 ^ 3`. -/
def namesWithOneIndex (i : ℕ) : File :=
  ⟨['f', 'i', 'l', 'e'] ++ (if i = 0 then ['b'] else ['a', 'z']) ++ ['.', 't', 'x', 't'], 7, ['t']⟩

/-- The first worker inserts `fileb.txt` before the second one inserts `fileaz.txt`, and they stay
in that order. -/
theorem count_sort_names_fails : Readme namesWithOneIndex (slice id 0 (2 - 1)) .name ∧
    ¬AlwaysEnds (distributedCountSort (fun _ => 0) namesWithOneIndex .name 0 2 id id)
      (Sorts (fun p q => lower (namesWithOneIndex p).name ≤ lower (namesWithOneIndex q).name) 2 id)
      (.initial 2 id) := by
  constructor
  · intro p _
    unfold namesWithOneIndex
    split
    · exact ⟨['b'], rfl, by decide, by decide, List.all_eq_true.mp rfl⟩
    · exact ⟨['a', 'z'], rfl, by decide, by decide, List.all_eq_true.mp rfl⟩
  · intro h
    have has : Interleaves (chunks id 0 (workerSizes 2)) [0, 1] :=
      ⟨[[], []], (Executes.nil.snoc (i := 0) rfl).snoc (i := 1) rfl, by decide⟩
    have hsorts := (sorts_finish_iff (by decide) has).mp ((alwaysEnds_iff (by decide)).mp h _ has)
    have hgroup := hsorts.2.1 0
    rw [show group _ [0, 1] 0 = [0, 1] by decide, List.pairwise_cons] at hgroup
    exact absurd (hgroup.1 1 (by simp)) (by decide)

end LazyXv6.Sort
