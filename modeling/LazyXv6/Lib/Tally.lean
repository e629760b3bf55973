import Mathlib

/-!
# Tallies

`tally P t` counts the indices `i` of a family `t` whose entry satisfies the check `P i`.
-/

namespace Lib

open Function Finset

variable {ι β : Type} [Fintype ι]

theorem sum_update {M : Type} [AddCommGroup M] [DecidableEq ι] (w : β → M) (t : ι → β) (i : ι)
    (b : β) : ∑ j, w (update t i b j) = ∑ j, w (t j) - w (t i) + w b := by
  rw [← add_sum_erase univ _ (mem_univ i), ← add_sum_erase univ (fun j => w (t j)) (mem_univ i)]
  have hrest : ∑ j ∈ univ.erase i, w (update t i b j) = ∑ j ∈ univ.erase i, w (t j) := by
    refine sum_congr rfl fun j hj => ?_
    rw [update_of_ne (ne_of_mem_erase hj)]
  rw [hrest, update_self]
  abel

/-- One for a check that succeeds, zero for one that fails. -/
def unit (b : Bool) : ℤ := if b then 1 else 0

@[simp] theorem unit_true : unit true = 1 := rfl
@[simp] theorem unit_false : unit false = 0 := rfl

theorem unit_nonneg (b : Bool) : 0 ≤ unit b := by cases b <;> simp

theorem unit_le_one (b : Bool) : unit b ≤ 1 := by cases b <;> simp

def tally (P : ι → β → Bool) (t : ι → β) : ℤ := ∑ i, unit (P i (t i))

theorem tally_eq_of_ne [DecidableEq ι] {P Q : ι → β → Bool} {t u : ι → β} {i : ι}
    (h : ∀ j, j ≠ i → Q j (u j) = P j (t j)) :
    tally Q u = tally P t - unit (P i (t i)) + unit (Q i (u i)) := by
  unfold tally
  rw [← add_sum_erase univ _ (mem_univ i),
    ← add_sum_erase univ (fun j => unit (P j (t j))) (mem_univ i)]
  have hrest : ∑ j ∈ univ.erase i, unit (Q j (u j)) = ∑ j ∈ univ.erase i, unit (P j (t j)) := by
    refine sum_congr rfl fun j hj => ?_
    rw [h j (ne_of_mem_erase hj)]
  rw [hrest]
  ring

theorem tally_congr {P Q : ι → β → Bool} {t u : ι → β} (h : ∀ j, Q j (u j) = P j (t j)) :
    tally Q u = tally P t :=
  sum_congr rfl fun j _ => by rw [h j]

theorem tally_update [DecidableEq ι] (P : ι → β → Bool) (t : ι → β) (i : ι) (b : β) :
    tally P (update t i b) = tally P t - unit (P i (t i)) + unit (P i b) := by
  rw [tally_eq_of_ne fun j hj => by rw [update_of_ne hj], update_self]

theorem tally_update_update [DecidableEq ι] (P : ι → β → Bool) (t : ι → β) {i j : ι} (h : j ≠ i)
    (b d : β) : tally P (update (update t i b) j d) =
      tally P t - unit (P i (t i)) + unit (P i b) - unit (P j (t j)) + unit (P j d) := by
  rw [tally_update, tally_update, update_of_ne h]

theorem tally_nonneg (P : ι → β → Bool) (t : ι → β) : 0 ≤ tally P t :=
  sum_nonneg fun _ _ => unit_nonneg _

theorem unit_le_tally (P : ι → β → Bool) (t : ι → β) (i : ι) : unit (P i (t i)) ≤ tally P t :=
  single_le_sum (f := fun j => unit (P j (t j))) (fun _ _ => unit_nonneg _) (mem_univ i)

theorem one_le_tally {P : ι → β → Bool} {t : ι → β} {i : ι} (h : P i (t i) = true) :
    1 ≤ tally P t := by
  simpa [h] using unit_le_tally P t i

theorem eq_of_tally_le_one [DecidableEq ι] {P : ι → β → Bool} {t : ι → β} {i j : ι}
    (h : tally P t ≤ 1) (hi : P i (t i) = true) (hj : P j (t j) = true) : j = i := by
  by_contra hne
  have hrest : unit (P j (t j)) ≤ ∑ l ∈ univ.erase i, unit (P l (t l)) :=
    single_le_sum (f := fun l => unit (P l (t l))) (fun _ _ => unit_nonneg _)
      (mem_erase.mpr ⟨hne, mem_univ j⟩)
  unfold tally at h
  rw [← add_sum_erase univ _ (mem_univ i), hi, unit_true] at h
  rw [hj, unit_true] at hrest
  omega

theorem exists_of_tally_pos {P : ι → β → Bool} {t : ι → β} (h : 0 < tally P t) :
    ∃ i, P i (t i) = true := by
  by_contra hno
  have hall : ∀ i, P i (t i) = false := fun i => by
    cases hi : P i (t i) with
    | false => rfl
    | true => exact absurd ⟨i, hi⟩ hno
  simp [tally, hall] at h

theorem tally_eq_zero {P : ι → β → Bool} {t : ι → β} (h : ∀ i, P i (t i) = false) :
    tally P t = 0 := by
  simp [tally, h]

end Lib
