import Mathlib

/-!
# Segments of an array

An array is a function of its index. `slice a s e` lists the entries `s .. e` (none if `e < s`),
`overwrite a s xs` stores `xs` from index `s` on.
-/

namespace Lib

open Function

variable {α : Type} {a b : ℕ → α} {s e i : ℕ} {x : α} {xs : List α}

/-- The entries `s .. e`, both ends included. -/
def slice (a : ℕ → α) (s e : ℕ) : List α := (List.range' s (e + 1 - s)).map a

@[simp] theorem length_slice : (slice a s e).length = e + 1 - s := by simp [slice]

theorem slice_eq_nil (h : e < s) : slice a s e = [] := by
  simp [slice, show e + 1 - s = 0 by omega]

theorem slice_cons (h : s ≤ e) : slice a s e = a s :: slice a (s + 1) e := by
  have he : e + 1 - s = (e + 1 - (s + 1)) + 1 := by omega
  simp only [slice]
  rw [he, List.range'_succ, List.map_cons]

theorem slice_self : slice a s s = [a s] := by
  rw [slice_cons (Nat.le_refl s), slice_eq_nil (Nat.lt_succ_self s)]

theorem getElem_slice (h : i < (slice a s e).length) : (slice a s e)[i] = a (s + i) := by
  simp [slice]

theorem mem_slice : x ∈ slice a s e ↔ ∃ i, s ≤ i ∧ i ≤ e ∧ a i = x := by
  simp only [slice, List.mem_map, List.mem_range'_1]
  constructor
  · rintro ⟨i, ⟨h1, h2⟩, rfl⟩; exact ⟨i, h1, by omega, rfl⟩
  · rintro ⟨i, h1, h2, rfl⟩; exact ⟨i, ⟨h1, by omega⟩, rfl⟩

theorem slice_congr (h : ∀ i, s ≤ i → i ≤ e → a i = b i) : slice a s e = slice b s e :=
  List.map_congr_left fun i hi => by
    rw [List.mem_range'_1] at hi
    exact h i hi.1 (by omega)

theorem slice_append {mid : ℕ} (h1 : s ≤ mid + 1) (h2 : mid ≤ e) :
    slice a s mid ++ slice a (mid + 1) e = slice a s e := by
  have hs : s + (mid + 1 - s) = mid + 1 := by omega
  have hl : mid + 1 - s + (e + 1 - (mid + 1)) = e + 1 - s := by omega
  simp only [slice, ← List.map_append, ← hl]
  rw [← List.range'_append_1, hs]

theorem slice_update : slice (update a (s + i) x) s e = (slice a s e).set i x := by
  refine List.ext_getElem (by simp) fun j h1 h2 => ?_
  rw [getElem_slice, List.getElem_set]
  split
  · next hij => rw [hij, update_self]
  · next hij => rw [update_of_ne (by omega), getElem_slice]

def overwrite (a : ℕ → α) (s : ℕ) (xs : List α) : ℕ → α :=
  fun i => if s ≤ i then (xs[i - s]?).getD (a i) else a i

theorem overwrite_of_lt (h : i < s) : overwrite a s xs i = a i := if_neg (by omega)

theorem overwrite_of_ge (h : s + xs.length ≤ i) : overwrite a s xs i = a i := by
  simp only [overwrite]
  rw [if_pos (by omega), List.getElem?_eq_none (by omega), Option.getD_none]

theorem overwrite_congr (h : a i = b i) : overwrite a s xs i = overwrite b s xs i := by
  simp only [overwrite]
  rw [h]

theorem overwrite_cases (a : ℕ → α) (s : ℕ) (xs : List α) (i : ℕ) :
    overwrite a s xs i = a i ∨ (s ≤ i ∧ xs[i - s]? = some (overwrite a s xs i)) := by
  by_cases hi : s ≤ i
  · simp only [overwrite, if_pos hi]
    cases hx : xs[i - s]? with
    | none => exact .inl rfl
    | some x => exact .inr ⟨hi, rfl⟩
  · exact .inl (if_neg hi)

theorem overwrite_take_cases (a : ℕ → α) (s : ℕ) (xs : List α) (j i : ℕ) :
    overwrite a s (xs.take j) i = a i ∨
    (s ≤ i ∧ xs[i - s]? = some (overwrite a s (xs.take j) i)) := by
  refine (overwrite_cases a s (xs.take j) i).imp_right fun ⟨hle, hx⟩ => ⟨hle, ?_⟩
  rw [List.getElem?_take] at hx
  split at hx
  · exact hx
  · exact nomatch hx

@[simp] theorem overwrite_nil : overwrite a s [] = a := by
  funext i
  simp [overwrite]

theorem overwrite_singleton : overwrite a s [x] = update a s x := by
  funext i
  rcases Nat.lt_trichotomy i s with hlt | rfl | hgt
  · rw [overwrite_of_lt hlt, update_of_ne (by omega)]
  · simp [overwrite]
  · rw [overwrite_of_ge (by rw [List.length_singleton]; omega), update_of_ne (by omega)]

theorem overwrite_cons : overwrite a s (x :: xs) = overwrite (overwrite a s [x]) (s + 1) xs := by
  funext i
  rw [overwrite_singleton]
  rcases Nat.lt_trichotomy i s with hlt | rfl | hgt
  · rw [overwrite_of_lt hlt, overwrite_of_lt (by omega), update_of_ne (by omega)]
  · rw [overwrite_of_lt (Nat.lt_succ_self i), update_self]
    simp [overwrite]
  · have hi : i - s = i - (s + 1) + 1 := by omega
    simp only [overwrite]
    rw [if_pos (by omega), if_pos (by omega), hi, List.getElem?_cons_succ, update_of_ne (by omega)]

theorem overwrite_map (f : ℕ → α) (n : ℕ) :
    overwrite a s ((List.range n).map f) i = if s ≤ i ∧ i < s + n then f (i - s) else a i := by
  by_cases hs : s ≤ i
  · simp only [overwrite, if_pos hs]
    by_cases hn : i < s + n
    · rw [if_pos ⟨hs, hn⟩, List.getElem?_map, List.getElem?_range (by omega)]
      rfl
    · rw [if_neg fun h => hn h.2, List.getElem?_eq_none (by simp; omega)]
      rfl
  · rw [if_neg fun h => hs h.1, overwrite_of_lt (by omega)]

theorem slice_overwrite (h : s + xs.length = e + 1) : slice (overwrite a s xs) s e = xs := by
  refine List.ext_getElem (by simp; omega) fun i h1 h2 => ?_
  simp [getElem_slice, overwrite, h2]

end Lib
