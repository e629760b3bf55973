import Mathlib

/-!
# Calendar timestamps

A well-formed timestamp `YYYY-MM-DDTHH:MM:SS`, its text and its second count. Fields have a fixed
width, so texts compare as the fields do, and the second count grows with them: `strcmp` orders
timestamps as their seconds (`format_le_iff`).
-/

namespace LazyXv6.Sort

/-! ## The calendar -/

def isLeap (year : ℕ) : Bool := year % 4 == 0 && (year % 100 != 0 || year % 400 == 0)

def daysInMonth (year : ℕ) : ℕ → ℕ
  | 2 => if isLeap year then 29 else 28
  | 4 | 6 | 9 | 11 => 30
  | _ => 31

/-- The days of the months before month `m + 1`. -/
def daysBeforeMonth (year : ℕ) : ℕ → ℕ
  | 0 => 0
  | m + 1 => daysBeforeMonth year m + daysInMonth year (m + 1)

/-- The days from the first of January of year 0. -/
def daysBeforeYear : ℕ → ℕ
  | 0 => 0
  | y + 1 => daysBeforeYear y + daysBeforeMonth y 12

structure Timestamp where
  year : ℕ
  month : ℕ
  day : ℕ
  hour : ℕ
  minute : ℕ
  second : ℕ
  year_lt : year < 10 ^ 4
  month_pos : 1 ≤ month
  month_le : month ≤ 12
  day_pos : 1 ≤ day
  day_le : day ≤ daysInMonth year month
  hour_lt : hour < 24
  minute_lt : minute < 60
  second_lt : second < 60

namespace Timestamp

def days (t : Timestamp) : ℕ :=
  daysBeforeYear t.year + daysBeforeMonth t.year (t.month - 1) + (t.day - 1)

def seconds (t : Timestamp) : ℕ := ((t.days * 24 + t.hour) * 60 + t.minute) * 60 + t.second

end Timestamp

theorem daysBeforeMonth_mono (year : ℕ) {m m' : ℕ} (h : m ≤ m') :
    daysBeforeMonth year m ≤ daysBeforeMonth year m' := by
  induction h with
  | refl => exact Nat.le_refl _
  | step _ ih => exact ih.trans (Nat.le_add_right _ _)

theorem daysBeforeYear_mono {y y' : ℕ} (h : y ≤ y') : daysBeforeYear y ≤ daysBeforeYear y' := by
  induction h with
  | refl => exact Nat.le_refl _
  | step _ ih => exact ih.trans (Nat.le_add_right _ _)

namespace Timestamp

variable {a b : Timestamp}

theorem days_lt_month (t : Timestamp) :
    t.days < daysBeforeYear t.year + daysBeforeMonth t.year t.month := by
  have h1 := t.month_pos
  have h2 := t.day_pos
  have h3 := t.day_le
  have hm : daysBeforeMonth t.year t.month = daysBeforeMonth t.year (t.month - 1) +
    daysInMonth t.year t.month := by
    conv_lhs => rw [← Nat.sub_add_cancel h1]
    rw [daysBeforeMonth, Nat.sub_add_cancel h1]
  rw [days, hm]
  omega

theorem days_lt_of_year (h : a.year < b.year) : a.days < b.days := by
  have h1 := a.days_lt_month
  have h2 := daysBeforeMonth_mono a.year a.month_le
  have h3 : daysBeforeYear (a.year + 1) ≤ daysBeforeYear b.year := daysBeforeYear_mono h
  rw [daysBeforeYear] at h3
  rw [days.eq_1 b]
  omega

theorem days_lt_of_month (hy : a.year = b.year) (h : a.month < b.month) : a.days < b.days := by
  have h1 := a.days_lt_month
  have h2 := daysBeforeMonth_mono a.year (show a.month ≤ b.month - 1 by omega)
  rw [days.eq_1 b, ← hy]
  omega

theorem days_lt_of_day (hy : a.year = b.year) (hm : a.month = b.month) (h : a.day < b.day) :
    a.days < b.days := by
  have := a.day_pos
  rw [days, days, hy, hm]
  omega

theorem seconds_lt_of_days (h : a.days < b.days) : a.seconds < b.seconds := by
  have h1 := a.hour_lt
  have h2 := a.minute_lt
  have h3 := a.second_lt
  unfold seconds
  omega

end Timestamp

/-! ## Texts -/

def digitChar (d : ℕ) : Char := Char.ofNat (48 + d)

/-- `x` in `w` decimal digits. -/
def digits : ℕ → ℕ → List Char
  | 0, _ => []
  | w + 1, x => digits w (x / 10) ++ [digitChar (x % 10)]

@[simp] theorem length_digits (w x : ℕ) : (digits w x).length = w := by
  induction w generalizing x with
  | zero => rfl
  | succ w ih => simp [digits, ih]

theorem append_lt_append_iff {u u' v v' : List Char} (h : u.length = u'.length) :
    u ++ v < u' ++ v' ↔ u < u' ∨ (u = u' ∧ v < v') := by
  induction u generalizing u' with
  | nil =>
    obtain rfl := List.length_eq_zero_iff.mp h.symm
    simp
  | cons c u ih =>
    cases u' with
    | nil => cases h
    | cons c' u' =>
      simp only [List.cons_append, List.cons_lt_cons_iff, List.cons.injEq, ih (Nat.succ.inj h)]
      tauto

theorem digitChar_lt_iff : ∀ d < 10, ∀ e < 10, digitChar d < digitChar e ↔ d < e := by decide

theorem digits_lt_iff {w x y : ℕ} (hx : x < 10 ^ w) (hy : y < 10 ^ w) :
    digits w x < digits w y ↔ x < y := by
  induction w generalizing x y with
  | zero => simp [digits]; omega
  | succ w ih =>
    rw [pow_succ] at hx hy
    have hx' : x / 10 < 10 ^ w := Nat.div_lt_of_lt_mul (by omega)
    have hy' : y / 10 < 10 ^ w := Nat.div_lt_of_lt_mul (by omega)
    rw [digits, digits, append_lt_append_iff (by simp), ih hx' hy']
    have heq : digits w (x / 10) = digits w (y / 10) ↔ x / 10 = y / 10 := by
      refine ⟨fun h => ?_, fun h => by rw [h]⟩
      have h1 := (ih hx' hy').not.mp (h ▸ lt_irrefl _)
      have h2 := (ih hy' hx').not.mp (h ▸ lt_irrefl _)
      omega
    have hc : [digitChar (x % 10)] < [digitChar (y % 10)] ↔ x % 10 < y % 10 := by
      rw [List.cons_lt_cons_iff,
        digitChar_lt_iff _ (Nat.mod_lt _ (by decide)) _ (Nat.mod_lt _ (by decide))]
      simp
    rw [heq, hc]
    omega

theorem digits_inj {w x y : ℕ} (hx : x < 10 ^ w) (hy : y < 10 ^ w) (h : digits w x = digits w y) :
    x = y := by
  have h1 := (digits_lt_iff hx hy).not.mp (h ▸ lt_irrefl _)
  have h2 := (digits_lt_iff hy hx).not.mp (h ▸ lt_irrefl _)
  omega

/-! ## Reading a text back -/

def readNumber (s : List Char) : ℕ := s.foldl (fun x c => x * 10 + (c.toNat - 48)) 0

/-- A field of width `w` and the text after its separator. -/
def readField (w : ℕ) (s : List Char) : ℕ × List Char := (readNumber (s.take w), s.drop (w + 1))

/-- The second count of a text, as `mktime` has it in a time zone whose epoch is year 0. -/
def readSeconds (s : List Char) : ℕ :=
  let year := readField 4 s
  let month := readField 2 year.2
  let day := readField 2 month.2
  let hour := readField 2 day.2
  let minute := readField 2 hour.2
  let second := readField 2 minute.2
  let days := daysBeforeYear year.1 + daysBeforeMonth year.1 (month.1 - 1) + (day.1 - 1)
  ((days * 24 + hour.1) * 60 + minute.1) * 60 + second.1

theorem toNat_digitChar : ∀ d < 10, (digitChar d).toNat - 48 = d := by decide

theorem readNumber_digits {w x : ℕ} (hx : x < 10 ^ w) : readNumber (digits w x) = x := by
  induction w generalizing x with
  | zero => simp [digits, readNumber]; omega
  | succ w ih =>
    rw [pow_succ] at hx
    have hread := ih (show x / 10 < 10 ^ w from Nat.div_lt_of_lt_mul (by omega))
    rw [readNumber] at hread
    rw [readNumber, digits, List.foldl_append, hread, List.foldl_cons, List.foldl_nil,
      toNat_digitChar _ (Nat.mod_lt _ (by decide))]
    omega

theorem readField_digits {w x : ℕ} (hx : x < 10 ^ w) (c : Char) (v : List Char) :
    readField w (digits w x ++ c :: v) = (x, v) := by
  rw [readField, List.take_left' (by simp), readNumber_digits hx]
  simp [List.drop_append]

namespace Timestamp

def format (t : Timestamp) : List Char :=
  digits 4 t.year ++ '-' :: (digits 2 t.month ++ '-' :: (digits 2 t.day ++ 'T' ::
    (digits 2 t.hour ++ ':' :: (digits 2 t.minute ++ ':' :: digits 2 t.second))))

variable {a b : Timestamp}

theorem lt_hundred (t : Timestamp) : t.month < 10 ^ 2 ∧ t.day < 10 ^ 2 ∧ t.hour < 10 ^ 2 ∧
    t.minute < 10 ^ 2 ∧ t.second < 10 ^ 2 := by
  have h1 := t.month_le
  have h2 := t.day_le
  have h3 := t.hour_lt
  have h4 := t.minute_lt
  have h5 := t.second_lt
  have h6 : daysInMonth t.year t.month ≤ 31 := by
    unfold daysInMonth
    split <;> first | omega | split <;> omega
  omega

theorem field_lt_iff {w x y : ℕ} (hx : x < 10 ^ w) (hy : y < 10 ^ w) (c : Char) {v v' : List Char} :
    digits w x ++ c :: v < digits w y ++ c :: v' ↔ x < y ∨ (x = y ∧ v < v') := by
  rw [append_lt_append_iff (by simp), digits_lt_iff hx hy, List.cons_lt_cons_iff]
  constructor
  · rintro (h | ⟨h, h' | ⟨-, h'⟩⟩)
    · exact .inl h
    · exact absurd h' (lt_irrefl c)
    · exact .inr ⟨digits_inj hx hy h, h'⟩
  · rintro (h | ⟨rfl, h⟩)
    · exact .inl h
    · exact .inr ⟨rfl, .inr ⟨rfl, h⟩⟩

theorem seconds_lt_of_format (h : a.format < b.format) : a.seconds < b.seconds := by
  obtain ⟨ha1, ha2, ha3, ha4, ha5⟩ := a.lt_hundred
  obtain ⟨hb1, hb2, hb3, hb4, hb5⟩ := b.lt_hundred
  rw [format, format, field_lt_iff a.year_lt b.year_lt, field_lt_iff ha1 hb1,
    field_lt_iff ha2 hb2, field_lt_iff ha3 hb3, field_lt_iff ha4 hb4, digits_lt_iff ha5 hb5] at h
  rcases h with h | ⟨hy, h | ⟨hm, h | ⟨hd, h⟩⟩⟩
  · exact seconds_lt_of_days (days_lt_of_year h)
  · exact seconds_lt_of_days (days_lt_of_month hy h)
  · exact seconds_lt_of_days (days_lt_of_day hy hm h)
  · have hdays : a.days = b.days := by rw [days, days, hy, hm, hd]
    have h1 := a.minute_lt
    have h2 := a.second_lt
    rw [seconds, seconds, hdays]
    omega

theorem readSeconds_format (t : Timestamp) : readSeconds t.format = t.seconds := by
  obtain ⟨h1, h2, h3, h4, h5⟩ := t.lt_hundred
  have hlast : (readField 2 (digits 2 t.second)).1 = t.second := by
    rw [readField, List.take_of_length_le (by simp), readNumber_digits h5]
  simp only [readSeconds, format, readField_digits t.year_lt, readField_digits h1,
    readField_digits h2, readField_digits h3, readField_digits h4, hlast, seconds, days]

theorem format_le_iff : a.format ≤ b.format ↔ a.seconds ≤ b.seconds := by
  constructor
  · intro h
    rcases h.lt_or_eq with h | h
    · exact (seconds_lt_of_format h).le
    · rw [← readSeconds_format, ← readSeconds_format, h]
  · intro h
    by_contra hlt
    exact absurd (seconds_lt_of_format (not_le.mp hlt)) (by omega)

end Timestamp

end LazyXv6.Sort
