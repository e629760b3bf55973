import LazyXv6.Sort.CountSortNames

/-!
# Bucket indices

`init_global_count` creates the buckets 0 to `max_value - min_value`. The extremes are found in the
order of the raw fields, the indices are computed from them in another way. For ids and timestamps
the two orders are the same. For names they are not: `strcmp` tells capital letters from small ones,
and `convert_to_index` does not.
-/

namespace LazyXv6.Sort

open Lib

variable {Ptr : Type} {deref : Ptr → File} {files : ℕ → Ptr} {n : ℕ} {flag : Column}
    {mktime : List Char → ℤ}

/-- `max_value - min_value` is not negative, and every file has an index from 0 to that. -/
def IndicesInRange (mktime : List Char → ℤ) (deref : Ptr → File) (flag : Column) (files : ℕ → Ptr)
    (n : ℕ) : Prop :=
  let ex := getMaxMinValues mktime deref flag files n
  0 ≤ ex.maxValue - ex.minValue ∧ ∀ i < n, 0 ≤ bucketIndex mktime deref flag ex (files i) ∧
    bucketIndex mktime deref flag ex (files i) ≤ ex.maxValue - ex.minValue

/-- The letters of a name as numbers, `a` and `A` as 1. -/
def letters (name : List Char) : List ℕ :=
  ((name.drop 4).takeWhile Char.isAlpha).map fun c => c.toUpper.toNat - 64

/-- How letters `x` compare with `y` when the letter before `y` is the next one to the letter before
`x`: a `z` makes up for it if nothing or an `a` faces it, and a `y` if nothing does and the letter
after it makes up for it. -/
def carry : List ℕ → List ℕ → Ordering
  | 26 :: x, [] => if x = [] then .eq else .gt
  | 26 :: x, 1 :: y => carry x y
  | 25 :: x, [] => carry x []
  | _, _ => .lt

/-- The order of the indices, by letters. The first difference decides, unless it is between
neighbours in the alphabet and the letters that follow make up for it. -/
def letterOrder : List ℕ → List ℕ → Ordering
  | [], [] => .eq
  | [], _ :: _ => .lt
  | _ :: _, [] => .gt
  | a :: x, b :: y =>
    if a = b then letterOrder x y
    else if a + 1 = b then carry x y
    else if b + 1 = a then (carry y x).swap
    else compare a b

/-- No name comes, by its letters, before the name that `strcmp` puts first or after the one it puts
last. -/
def NamesBounded (deref : Ptr → File) (files : ℕ → Ptr) (n : ℕ) : Prop :=
  (∀ i < n, (∀ k < n, fileName deref files i ≤ fileName deref files k) →
    ∀ j < n, letterOrder (letters (fileName deref files i)) (letters (fileName deref files j)) ≠
    .gt) ∧
  ∀ i < n, (∀ k < n, fileName deref files k ≤ fileName deref files i) →
    ∀ j < n, letterOrder (letters (fileName deref files j)) (letters (fileName deref files i)) ≠ .gt

/-! ## The order of the indices -/

/-- What the letters add to the index when the first of them is digit `r - 1`. -/
def weight : ℕ → List ℕ → ℕ
  | r + 1, a :: x => a * 26 ^ r + weight r x
  | _, _ => 0

def Letters (r : ℕ) (x : List ℕ) : Prop := x.length ≤ r ∧ ∀ a ∈ x, 1 ≤ a ∧ a ≤ 26

theorem Letters.room {r a : ℕ} {x : List ℕ} (h : Letters r (a :: x)) : ∃ q, r = q + 1 :=
  Nat.exists_eq_add_one.mpr (lt_of_lt_of_le (by simp) h.1)

theorem Letters.tail {r a : ℕ} {x : List ℕ} (h : Letters (r + 1) (a :: x)) :
    Letters r x ∧ 1 ≤ a ∧ a ≤ 26 :=
  ⟨⟨by simpa using h.1, fun b hb => h.2 b (by simp [hb])⟩, h.2 a (by simp)⟩

@[simp] theorem weight_nil (r : ℕ) : weight r [] = 0 := by cases r <;> rfl

theorem weight_lt {r : ℕ} {x : List ℕ} (h : Letters r x) : weight r x < 2 * 26 ^ r := by
  induction x generalizing r with
  | nil => simp
  | cons a x ih =>
    obtain ⟨q, rfl⟩ := h.room
    obtain ⟨hx, h1, ha⟩ := h.tail
    have := ih hx
    have := Nat.mul_le_mul_right (26 ^ q) ha
    rw [weight, pow_succ]
    omega

theorem weight_pos {r a : ℕ} {x : List ℕ} (h : Letters r (a :: x)) : 0 < weight r (a :: x) := by
  obtain ⟨q, rfl⟩ := h.room
  obtain ⟨-, h1, -⟩ := h.tail
  have := Nat.mul_le_mul_right (26 ^ q) h1
  have := Nat.pow_pos (n := q) (show 0 < 26 by decide)
  rw [weight]
  omega

theorem compare_congr {a b c d : ℕ} (h : a < b ↔ c < d) (h' : b < a ↔ d < c) :
    compare a b = compare c d := by
  simp only [Nat.compare_eq_ite_lt, h, h']

theorem carry_eq {r : ℕ} {x y : List ℕ} (hx : Letters r x) (hy : Letters r y) :
    carry x y = compare (weight r x) (26 ^ r + weight r y) := by
  fun_induction carry x y generalizing r with
  | case1 =>
    obtain ⟨q, rfl⟩ := hx.room
    simp [weight, pow_succ']
  | case2 x hne =>
    obtain ⟨q, rfl⟩ := hx.room
    have hx' := hx.tail.1
    obtain ⟨a, x, rfl⟩ := List.exists_cons_of_ne_nil hne
    have := weight_pos hx'
    exact (Nat.compare_eq_gt.mpr (by rw [weight, weight_nil, pow_succ]; omega)).symm
  | case3 x y ih =>
    obtain ⟨q, rfl⟩ := hx.room
    rw [ih hx.tail.1 hy.tail.1, weight, weight, pow_succ]
    exact compare_congr (by omega) (by omega)
  | case4 x ih =>
    obtain ⟨q, rfl⟩ := hx.room
    rw [ih hx.tail.1 ⟨Nat.zero_le q, by simp⟩, weight, weight_nil, weight_nil, pow_succ]
    exact compare_congr (by omega) (by omega)
  | case5 x y h1 h2 h3 =>
    refine (Nat.compare_eq_lt.mpr ?_).symm
    cases x with
    | nil =>
      have := Nat.pow_pos (n := r) (show 0 < 26 by decide)
      simp
    | cons a x =>
      obtain ⟨q, rfl⟩ := hx.room
      obtain ⟨hx', -, ha⟩ := hx.tail
      have hlt := weight_lt hx'
      rw [weight, pow_succ]
      cases y with
      | nil =>
        have h26 : a ≠ 26 := by
          rintro rfl
          exact h1 x rfl rfl
        have h25 : a ≠ 25 := by
          rintro rfl
          exact h3 x rfl rfl
        have := Nat.mul_le_mul_right (26 ^ q) (show a ≤ 24 by omega)
        omega
      | cons b y =>
        obtain ⟨-, hb, -⟩ := hy.tail
        have hne : a = 26 → b ≠ 1 := by
          rintro rfl rfl
          exact h2 x y rfl rfl
        have := Nat.mul_le_mul_right (26 ^ q) (show a + 2 ≤ 26 + b by omega)
        rw [Nat.add_mul, Nat.add_mul] at this
        rw [weight]
        omega

theorem letterOrder_eq {r : ℕ} {x y : List ℕ} (hx : Letters r x) (hy : Letters r y) :
    letterOrder x y = compare (weight r x) (weight r y) := by
  induction x generalizing r y with
  | nil =>
    cases y with
    | nil => simp [letterOrder]
    | cons b y => exact (Nat.compare_eq_lt.mpr (by simpa using weight_pos hy)).symm
  | cons a x ih =>
    cases y with
    | nil => exact (Nat.compare_eq_gt.mpr (by simpa using weight_pos hx)).symm
    | cons b y =>
      obtain ⟨q, rfl⟩ := hx.room
      have hx' := hx.tail.1
      have hy' := hy.tail.1
      have hltx := weight_lt hx'
      have hlty := weight_lt hy'
      rw [letterOrder, weight, weight]
      split_ifs with h1 h2 h3
      · subst h1
        rw [ih hx' hy']
        exact compare_congr (by omega) (by omega)
      · subst h2
        rw [carry_eq hx' hy']
        exact compare_congr (by rw [Nat.add_mul]; omega) (by rw [Nat.add_mul]; omega)
      · subst h3
        rw [carry_eq hy' hx', Nat.compare_swap]
        exact compare_congr (by rw [Nat.add_mul]; omega) (by rw [Nat.add_mul]; omega)
      · rcases Nat.lt_or_gt_of_ne h1 with hlt | hgt
        · have := Nat.mul_le_mul_right (26 ^ q) (show a + 2 ≤ b by omega)
          rw [Nat.compare_eq_lt.mpr hlt, eq_comm, Nat.compare_eq_lt]
          rw [Nat.add_mul] at this
          omega
        · have := Nat.mul_le_mul_right (26 ^ q) (show b + 2 ≤ a by omega)
          rw [Nat.compare_eq_gt.mpr hgt, eq_comm, Nat.compare_eq_gt]
          rw [Nat.add_mul] at this
          omega

theorem letters_spec {name : List Char} (h : FileName name) :
    Letters 4 (letters name) ∧ convertToIndex name = weight 4 (letters name) := by
  obtain ⟨w, rfl, hw, hw', halpha⟩ := h
  have hletters : letters (['f', 'i', 'l', 'e'] ++ w ++ ['.', 't', 'x', 't']) =
      w.map fun c => c.toUpper.toNat - 64 := by
    have hdrop : (['f', 'i', 'l', 'e'] ++ w ++ ['.', 't', 'x', 't']).drop 4 = w ++
      ['.', 't', 'x', 't'] := rfl
    rw [letters, hdrop, List.takeWhile_append_of_pos halpha]
    simp
  have hupper := fun c hc => toUpper_toNat (halpha c hc)
  refine ⟨⟨by rwa [hletters, List.length_map], ?_⟩, ?_⟩
  · rw [hletters]
    intro a ha
    obtain ⟨c, hc, rfl⟩ := List.mem_map.mp ha
    have := hupper c hc
    omega
  · rw [hletters, convertToIndex_eq]
    have hA : 'A'.toNat = 65 := rfl
    rcases w with _ | ⟨a, _ | ⟨b, _ | ⟨c, _ | ⟨d, _ | ⟨e, w⟩⟩⟩⟩⟩ <;>
      simp [digit, weight] at hw hw' hupper ⊢ <;> omega

theorem index_le_iff {x y : List Char} (hx : FileName x) (hy : FileName y) :
    convertToIndex x ≤ convertToIndex y ↔ letterOrder (letters x) (letters y) ≠ .gt := by
  obtain ⟨hlx, hix⟩ := letters_spec hx
  obtain ⟨hly, hiy⟩ := letters_spec hy
  rw [letterOrder_eq hlx hly, hix, hiy, Nat.compare_ne_gt, Nat.cast_le]

theorem namesBounded_iff (hn : 1 ≤ n) (h : Readme deref (slice files 0 (n - 1)) .name) :
    NamesBounded deref files n ↔
      (∀ i < n, (∀ k < n, fileName deref files i ≤ fileName deref files k) →
        ∀ j < n, nameIndex deref files i ≤ nameIndex deref files j) ∧
      (∀ i < n, (∀ k < n, fileName deref files k ≤ fileName deref files i) →
        ∀ j < n, nameIndex deref files j ≤ nameIndex deref files i) := by
  have hname := (forall_mem_slice hn).mp h
  refine and_congr
    (forall₂_congr fun i hi => imp_congr_right fun _ => forall₂_congr fun j hj => ?_)
    (forall₂_congr fun i hi => imp_congr_right fun _ => forall₂_congr fun j hj => ?_)
  · exact (index_le_iff (hname i hi) (hname j hj)).symm
  · exact (index_le_iff (hname j hj) (hname i hi)).symm

/-! ## The buckets -/

theorem wrap_wrap (x : ℤ) : wrap (wrap x) = wrap x := by
  have h1 : -(2 ^ 32 : ℕ) ≤ 2 * wrap x := by
    have := Int.le_bmod (x := x) (m := 2 ^ 32) (by decide)
    unfold wrap
    omega
  have h2 : wrap x < 2 ^ 31 := by
    have := Int.bmod_lt (x := x) (m := 2 ^ 32) (by decide)
    unfold wrap
    omega
  exact wrap_of_close (by omega) h2

theorem wrap_extremes (mktime : List Char → ℤ) (h : Readme deref (slice files 0 (n - 1)) flag) :
    let ex := getMaxMinValues mktime deref flag files n
    wrap (ex.maxValue - ex.minValue) = ex.maxValue - ex.minValue := by
  cases flag with
  | name =>
    have hb := scanAll_name deref files n
    obtain ⟨p, hp, hmin⟩ := hb.least
    obtain ⟨q, hq, hmax⟩ := hb.greatest
    have hbp := convertToIndex_bounds (h p hp)
    have hbq := convertToIndex_bounds (h q hq)
    simp only [getMaxMinValues, convertFilenameToFileIndex, ← hmin, ← hmax]
    exact wrap_of_close (by omega) (by omega)
  | id =>
    have hb := scanAll_id deref files n
    obtain ⟨p, hp, hmin⟩ := hb.least
    obtain ⟨q, hq, hmax⟩ := hb.greatest
    have hle := hb.upper p hp
    have hclose := h q hq p hp
    simp only [getMaxMinValues, ← hmin, ← hmax] at hle ⊢
    exact wrap_of_close (by omega) (by omega)
  | timestamp =>
    have hzero : wrap 0 = 0 := by decide
    simp only [getMaxMinValues, convertTimestampToSeconds, sub_self, hzero, sub_zero]
    exact wrap_wrap _

theorem indicesInRange_iff (mktime : List Char → ℤ) (hn : 1 ≤ n)
    (h : Readme deref (slice files 0 (n - 1)) flag) : IndicesInRange mktime deref flag files n ↔
      InRange (bucketIndex mktime deref flag (getMaxMinValues mktime deref flag files n))
        (getMaxMinValues mktime deref flag files n).buckets (slice files 0 (n - 1)) := by
  have hwrap := wrap_extremes mktime h
  dsimp only at hwrap
  unfold IndicesInRange InRange Extremes.buckets
  rw [forall_mem_slice hn, hwrap]
  constructor
  · rintro ⟨-, hall⟩ i hi
    have := hall i hi
    omega
  · intro hall
    have := hall 0 hn
    refine ⟨by omega, fun i hi => ?_⟩
    have := hall i hi
    omega

/-- **The bucket indices are in range**, for files as the README assumes them, if the column is not
the name; and for names, if and only if `strcmp` puts none first or last that the letters put
elsewhere. -/
theorem bucket_indices_in_range_iff (mktime : List Char → ℤ) (hmk : FixedOffset mktime)
    (deref : Ptr → File) (flag : Column) (files : ℕ → Ptr) (n : ℕ) (hn : 1 ≤ n)
    (h : Readme deref (slice files 0 (n - 1)) flag) :
    IndicesInRange mktime deref flag files n ↔
      (flag = .name → NamesBounded deref files n) := by
  rw [indicesInRange_iff mktime hn h]
  by_cases hflag : flag = .name
  · subst hflag
    rw [inRange_names_iff mktime hn h, namesBounded_iff hn h]
    simp
  · exact iff_of_true (index_spec hmk hflag files n h).1 fun he => absurd he hflag

theorem fixedOffset_readSeconds : FixedOffset fun s => readSeconds s := by
  refine ⟨0, fun t => ?_⟩
  dsimp only
  rw [Timestamp.readSeconds_format, add_zero]

theorem bucket_indices_in_range_inOrder : Readme namesInOrder (slice id 0 (2 - 1)) .name ∧
      IndicesInRange (fun s => readSeconds s) namesInOrder .name id 2 := by
  have hreadme : Readme namesInOrder (slice id 0 (2 - 1)) .name := by
    intro p _
    unfold namesInOrder
    split
    · exact ⟨['a', 'y'], rfl, by decide, by decide, List.all_eq_true.mp rfl⟩
    · exact ⟨['b', 'A'], rfl, by decide, by decide, List.all_eq_true.mp rfl⟩
  refine ⟨hreadme, (bucket_indices_in_range_iff _ fixedOffset_readSeconds namesInOrder .name id 2
    (by decide) hreadme).mpr fun _ => ⟨by decide, by decide⟩⟩

/-- `filea.txt` and `fileB.txt`. -/
def namesOfTwoCases (i : ℕ) : File :=
  ⟨['f', 'i', 'l', 'e'] ++ (if i = 0 then ['a'] else ['B']) ++ ['.', 't', 'x', 't'], 7, ['t']⟩

/-- `strcmp` puts `fileB.txt` first, so that `max_value - min_value` is negative. -/
theorem bucket_index_out_of_range : Readme namesOfTwoCases (slice id 0 (2 - 1)) .name ∧
      (getMaxMinValues (fun _ => 0) namesOfTwoCases .name id 2).maxValue -
        (getMaxMinValues (fun _ => 0) namesOfTwoCases .name id 2).minValue = -17576 := by
  refine ⟨fun p _ => ?_, by decide⟩
  unfold namesOfTwoCases
  split
  · exact ⟨['a'], rfl, by decide, by decide, List.all_eq_true.mp rfl⟩
  · exact ⟨['B'], rfl, by decide, by decide, List.all_eq_true.mp rfl⟩

end LazyXv6.Sort
