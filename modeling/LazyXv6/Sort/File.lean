import Mathlib

/-!
# Files, sort columns and comparison functions

`File` is the record that both sorts move pointers to. A C string is the list of its characters
before the terminating NUL. `strcmp` promises the sign of its result only, so the model returns
`-1`, `0` or `1`. `compareById` subtracts 32-bit integers and wraps.
-/

namespace LazyXv6.Sort

structure File where
  name : List Char
  id : Int32
  timestamp : List Char
deriving DecidableEq, Repr

/-- The values 0, 1 and 2 of `sort_column_flag` and `sort_way`. -/
inductive Column where
  | name
  | id
  | timestamp
deriving DecidableEq, Repr

/-! ## Comparing strings -/

def strcmp : List Char → List Char → Int
  | [], [] => 0
  | [], _ :: _ => -1
  | _ :: _, [] => 1
  | c :: cs, d :: ds => if c < d then -1 else if d < c then 1 else strcmp cs ds

theorem strcmp_cases (s t : List Char) :
    (s < t ∧ strcmp s t = -1) ∨ (s = t ∧ strcmp s t = 0) ∨ (t < s ∧ strcmp s t = 1) := by
  induction s generalizing t with
  | nil =>
    cases t with
    | nil => exact .inr (.inl ⟨rfl, rfl⟩)
    | cons d ds => exact .inl ⟨List.nil_lt_cons d ds, rfl⟩
  | cons c cs ih =>
    cases t with
    | nil => exact .inr (.inr ⟨List.nil_lt_cons c cs, rfl⟩)
    | cons d ds =>
      simp only [strcmp, List.cons_lt_cons_iff, List.cons.injEq]
      rcases lt_trichotomy c d with h | rfl | h
      · simp [h]
      · simpa using ih ds
      · simp [h, h.le.not_gt, h.ne']

theorem strcmp_nonpos {s t : List Char} : strcmp s t ≤ 0 ↔ s ≤ t := by
  rcases strcmp_cases s t with ⟨h, he⟩ | ⟨rfl, he⟩ | ⟨h, he⟩
  · simp [he, h.le]
  · simp [he]
  · simp [he, h]

theorem strcmp_nonneg {s t : List Char} : 0 ≤ strcmp s t ↔ t ≤ s := by
  rcases strcmp_cases s t with ⟨h, he⟩ | ⟨rfl, he⟩ | ⟨h, he⟩
  · simp [he, h]
  · simp [he]
  · simp [he, h.le]

theorem strcmp_neg {s t : List Char} : strcmp s t < 0 ↔ s < t := by
  rw [← not_le, strcmp_nonneg, not_le]

theorem strcmp_pos {s t : List Char} : 0 < strcmp s t ↔ t < s := by
  rw [← not_le, strcmp_nonpos, not_le]

/-! ## Comparison functions -/

def compareByName (a b : File) : Int := strcmp a.name b.name

def compareById (a b : File) : Int := (a.id - b.id).toInt

def compareByTimestamp (a b : File) : Int := strcmp a.timestamp b.timestamp

def getComparisonFunction : Column → File → File → Int
  | .name => compareByName
  | .id => compareById
  | .timestamp => compareByTimestamp

/-- The order of a column's keys: strings by `strcmp`, ids as integers. -/
def KeyLe : Column → File → File → Prop
  | .name, a, b => strcmp a.name b.name ≤ 0
  | .id, a, b => a.id.toInt ≤ b.id.toInt
  | .timestamp, a, b => strcmp a.timestamp b.timestamp ≤ 0

theorem KeyLe.total (c : Column) (a b : File) : KeyLe c a b ∨ KeyLe c b a := by
  cases c with
  | name | timestamp => simp only [KeyLe, strcmp_nonpos]; exact le_total _ _
  | id => exact le_total _ _

theorem KeyLe.trans {c : Column} {x y z : File} (h : KeyLe c x y) (h' : KeyLe c y z) :
    KeyLe c x z := by
  cases c with
  | name | timestamp => simp only [KeyLe, strcmp_nonpos] at *; exact h.trans h'
  | id => exact Int.le_trans h h'

/-- Any two ids are less than `2 ^ 31` apart, so that their difference is an `int`. -/
def IdsClose (a b : File) : Prop :=
  a.id.toInt - b.id.toInt < 2 ^ 31 ∧ b.id.toInt - a.id.toInt < 2 ^ 31

instance (a b : File) : Decidable (IdsClose a b) := inferInstanceAs (Decidable (_ ∧ _))

theorem compareById_cases (a b : File) :
    (IdsClose a b ∧ compareById a b = a.id.toInt - b.id.toInt) ∨
    (2 ^ 31 ≤ a.id.toInt - b.id.toInt ∧ compareById a b = a.id.toInt - b.id.toInt - 2 ^ 32) ∨
    (a.id.toInt - b.id.toInt = - 2 ^ 31 ∧ compareById a b = - 2 ^ 31) ∨
    (a.id.toInt - b.id.toInt < - 2 ^ 31 ∧ compareById a b = a.id.toInt - b.id.toInt + 2 ^ 32) := by
  have ha := a.id.toInt_lt
  have ha' := a.id.le_toInt
  have hb := b.id.toInt_lt
  have hb' := b.id.le_toInt
  simp only [compareById, IdsClose, Int32.toInt_sub, Int.bmod_def]
  omega

theorem getComparisonFunction_sign {c : Column} {a b : File} (h : c = .id → IdsClose a b) :
    (getComparisonFunction c a b ≤ 0 ↔ KeyLe c a b) ∧
    (0 ≤ getComparisonFunction c a b ↔ KeyLe c b a) := by
  cases c with
  | name => exact ⟨Iff.rfl, by simp only [getComparisonFunction, compareByName, KeyLe,
      strcmp_nonneg, strcmp_nonpos]⟩
  | id =>
    have hc := h rfl
    simp only [getComparisonFunction, KeyLe]
    rcases compareById_cases a b with ⟨_, he⟩ | ⟨hd, _⟩ | ⟨hd, _⟩ | ⟨hd, _⟩
    · constructor <;> omega
    all_goals exact absurd hc (by simp only [IdsClose]; omega)
  | timestamp => exact ⟨Iff.rfl, by simp only [getComparisonFunction, compareByTimestamp, KeyLe,
      strcmp_nonneg, strcmp_nonpos]⟩

end LazyXv6.Sort
