import Mathlib

/-!
# Reference counts and exclusive holdings

A pool hands out items and counts the holders of each one. `Shares ι` says who holds what: the
exclusive holdings, and those that others may share. Shares add up, so what one party holds can be
set against everything else (`o + r`), and an operation on `r` leaves `o` alone. `Accounts valid
free count o`: the counts and the free list are those of the holdings `o`, and what is held
exclusively is held once.
-/

namespace Lib

open Function

variable {ι : Type}

/-- Exclusive holdings, and holdings that others may share. -/
abbrev Shares (ι : Type) := Multiset ι × Multiset ι

namespace Shares

/-- Every holding, of either kind. -/
def all (o : Shares ι) : Multiset ι := o.1 + o.2

@[simp] theorem all_zero : all (0 : Shares ι) = 0 := rfl

@[simp] theorem all_add (o r : Shares ι) : all (o + r) = all o + all r := by
  simp only [all, Prod.fst_add, Prod.snd_add]
  abel

theorem all_sum {κ : Type} (S : Finset κ) (f : κ → Shares ι) :
    all (∑ i ∈ S, f i) = ∑ i ∈ S, all (f i) :=
  map_sum (⟨⟨all, all_zero⟩, all_add⟩ : Shares ι →+ Multiset ι) f S

@[simp] theorem all_mk (e s : Multiset ι) : all ((e, s) : Shares ι) = e + s := rfl

end Shares

open Shares

/-- The free list and the counts of a pool whose items are held as `o` says. -/
structure Accounts [DecidableEq ι] (valid : ι → Prop) (free : List ι) (count : ι → ℤ)
    (o : Shares ι) : Prop where
  count_eq : ∀ i, valid i → count i = (all o).count i
  mem_free : ∀ i, i ∈ free ↔ valid i ∧ i ∉ all o
  nodup : free.Nodup
  valid_of_mem : ∀ i ∈ all o, valid i
  exclusive : ∀ i ∈ o.1, (all o).count i = 1

namespace Accounts

variable [DecidableEq ι] {valid : ι → Prop} {free : List ι} {count : ι → ℤ} {o r : Shares ι} {i : ι}

theorem count_pos (h : Accounts valid free count o) (hi : i ∈ all o) : 0 < count i := by
  rw [h.count_eq i (h.valid_of_mem i hi)]
  exact_mod_cast Multiset.count_pos.mpr hi

theorem count_eq_of_mem (h : Accounts valid free count o) (hi : i ∈ all o) :
    count i = (all o).count i :=
  h.count_eq i (h.valid_of_mem i hi)

theorem same {free' : List ι} {count' : ι → ℤ} {o' : Shares ι} (h : Accounts valid free count o)
    (h' : Accounts valid free' count' o') (hall : all o' = all o) :
    (∀ i, valid i → count' i = count i) ∧ free'.Perm free := by
  refine ⟨fun i hi => ?_, (List.perm_ext_iff_of_nodup h'.nodup h.nodup).mpr fun i => ?_⟩
  · rw [h'.count_eq i hi, h.count_eq i hi, hall]
  · rw [h'.mem_free, h.mem_free, hall]

theorem not_mem_of_exclusive (h : Accounts valid free count (o + ({i}, 0))) : i ∉ all o := by
  have h1 := h.exclusive i (by simp)
  simpa [all_add] using h1

theorem not_mem_of_shared (h : Accounts valid free count (o + (0, {i}))) : i ∉ o.1 := by
  intro hi
  have h1 := h.exclusive i (by simpa using hi)
  have h2 : i ∈ all o := Multiset.mem_add.mpr (.inl hi)
  have h3 := Multiset.count_pos.mpr h2
  simp only [all_add, Multiset.count_add, all_mk, zero_add, Multiset.count_singleton_self] at h1
  omega

/-- An item that is held besides is not among the exclusive holdings, so its count does not tell
them. -/
theorem count_eq_of_exclusive {t : Multiset ι} (h : Accounts valid free count (o + (t, 0)))
    (hi : i ∈ all o) : count i = (all o).count i := by
  have hmem : i ∈ all (o + (t, 0)) := by simp [hi]
  have hnot : t.count i = 0 := by
    rw [Multiset.count_eq_zero]
    intro ht
    have hone := h.exclusive i (by simp [ht])
    have hpos := Multiset.count_pos.mpr hi
    have hpos' := Multiset.count_pos.mpr ht
    simp only [all_add, all_mk, add_zero, Multiset.count_add] at hone
    omega
  rw [h.count_eq_of_mem hmem]
  simp [hnot]

theorem take (h : Accounts valid (i :: free) count o) :
    Accounts valid free (update count i 1) (o + ({i}, 0)) := by
  obtain ⟨hv, hi⟩ := (h.mem_free i).mp (List.mem_cons_self ..)
  have hnd := List.nodup_cons.mp h.nodup
  refine ⟨fun j hj => ?_, fun j => ?_, hnd.2, fun j hj => ?_, fun j hj => ?_⟩
  · by_cases hji : j = i
    · subst hji
      simp [Multiset.count_eq_zero.mpr hi]
    · rw [update_of_ne hji, h.count_eq j hj]
      simp [hji]
  · have hm := h.mem_free j
    rw [List.mem_cons] at hm
    by_cases hji : j = i
    · subst hji
      simp [hnd.1]
    · simpa [hji] using hm
  · simp only [all_add, all_mk, add_zero, Multiset.mem_add, Multiset.mem_singleton] at hj
    rcases hj with hj | rfl
    · exact h.valid_of_mem j hj
    · exact hv
  · simp only [Prod.fst_add, Multiset.mem_add, Multiset.mem_singleton] at hj
    have hji : (all o).count j + ({i} : Multiset ι).count j = 1 := by
      by_cases hji : j = i
      · subst hji
        simp [Multiset.count_eq_zero.mpr hi]
      · simpa [Multiset.count_singleton, hji] using h.exclusive j (hj.resolve_right hji)
    simpa using hji

theorem share (h : Accounts valid free count (o + (0, {i}))) :
    Accounts valid free (update count i (count i + 1)) (o + (0, {i}) + (0, {i})) := by
  have hi : i ∈ all (o + (0, {i})) := by simp
  refine ⟨fun j hj => ?_, fun j => ?_, h.nodup, fun j hj => ?_, fun j hj => ?_⟩
  · by_cases hji : j = i
    · subst hji
      rw [update_self, h.count_eq j hj]
      simp
    · rw [update_of_ne hji, h.count_eq j hj]
      simp [hji]
  · rw [h.mem_free j]
    simp
  · exact h.valid_of_mem j (by simpa using hj)
  · have hne : j ≠ i := by
      rintro rfl
      exact h.not_mem_of_shared (by simpa using hj)
    have h1 := h.exclusive j (by simpa using hj)
    simpa [Multiset.count_singleton, hne] using h1

theorem release_last (h : Accounts valid free count (o + r)) (hr : all r = {i}) (hc : count i = 1) :
    Accounts valid (i :: free) (update count i 0) o := by
  have hi : i ∈ all (o + r) := by simp [hr]
  have hc1 := h.count_eq_of_mem hi
  have ho : (all o).count i = 0 := by
    rw [hc, all_add, hr, Multiset.count_add, Multiset.count_singleton_self] at hc1
    omega
  have hio : i ∉ all o := Multiset.count_eq_zero.mp ho
  have hfree : i ∉ free := fun hm => ((h.mem_free i).mp hm).2 hi
  refine ⟨fun j hj => ?_, fun j => ?_, List.nodup_cons.mpr ⟨hfree, h.nodup⟩, fun j hj => ?_,
    fun j hj => ?_⟩
  · by_cases hji : j = i
    · subst hji
      simp [ho]
    · rw [update_of_ne hji, h.count_eq j hj]
      simp [hr, hji]
  · have hm := h.mem_free j
    rw [List.mem_cons]
    by_cases hji : j = i
    · subst hji
      simp [hio, h.valid_of_mem j hi]
    · rw [hm]
      simp [hr, hji]
  · exact h.valid_of_mem j (by simp [hj])
  · have hji : j ≠ i := by
      rintro rfl
      exact hio (Multiset.mem_add.mpr (.inl hj))
    have h1 := h.exclusive j (by simp [hj])
    simpa [hr, Multiset.count_singleton, hji] using h1

theorem release_shared (h : Accounts valid free count (o + r)) (hr : all r = {i})
    (hc : count i ≠ 1) : Accounts valid free (update count i (count i - 1)) o := by
  have hi : i ∈ all (o + r) := by simp [hr]
  have hc1 := h.count_eq_of_mem hi
  have hio : i ∈ all o := by
    by_contra hio
    rw [all_add, hr, Multiset.count_add, Multiset.count_eq_zero.mpr hio] at hc1
    simp at hc1
    exact hc hc1
  refine ⟨fun j hj => ?_, fun j => ?_, h.nodup, fun j hj => ?_, fun j hj => ?_⟩
  · by_cases hji : j = i
    · subst hji
      rw [update_self, hc1]
      simp [hr]
    · rw [update_of_ne hji, h.count_eq j hj]
      simp [hr, hji]
  · rw [h.mem_free j]
    by_cases hji : j = i
    · subst hji
      simp [hio]
    · simp [hr, hji]
  · exact h.valid_of_mem j (by simp [hj])
  · have h1 := h.exclusive j (by simp [hj])
    have hji : j ≠ i := by
      rintro rfl
      rw [h1] at hc1
      exact hc (by exact_mod_cast hc1)
    simpa [hr, Multiset.count_singleton, hji] using h1

theorem demote (h : Accounts valid free count (o + ({i}, 0))) :
    Accounts valid free count (o + (0, {i})) where
  count_eq j hj := by simpa using h.count_eq j hj
  mem_free j := by simpa using h.mem_free j
  nodup := h.nodup
  valid_of_mem j hj := h.valid_of_mem j (by simpa using hj)
  exclusive j hj := by
    have h1 := h.exclusive j (by simp [show j ∈ o.1 by simpa using hj])
    simpa using h1

theorem promote (h : Accounts valid free count (o + (0, {i}))) (hc : count i = 1) :
    Accounts valid free count (o + ({i}, 0)) where
  count_eq j hj := by simpa using h.count_eq j hj
  mem_free j := by simpa using h.mem_free j
  nodup := h.nodup
  valid_of_mem j hj := h.valid_of_mem j (by simpa using hj)
  exclusive j hj := by
    simp only [Prod.fst_add, Multiset.mem_add, Multiset.mem_singleton] at hj
    rcases hj with hj | rfl
    · simpa using h.exclusive j (by simpa using hj)
    · have h1 := h.count_eq_of_mem (i := j) (by simp)
      rw [hc] at h1
      simpa using (by exact_mod_cast h1.symm : (all (o + ((0 : Multiset ι), {j}))).count j = 1)

/-- If `j` is taken for an `i` that is given back, the free list loses an item, unless `i` had no
other holder. -/
theorem exchange {free' : List ι} {count' : ι → ℤ} {j : ι} (h : Accounts valid free count (o + r))
    (hr : all r = {i}) (h' : Accounts valid free' count' (o + ({j}, 0))) :
    free'.length + (if count i = 1 then 0 else 1) = free.length := by
  have hone : count' j = 1 := by
    rw [h'.count_eq_of_mem (by simp), h'.exclusive j (by simp)]
    rfl
  have hj := h'.release_last (by simp) hone
  by_cases hc : count i = 1
  · have hlen := ((h.release_last hr hc).same hj rfl).2.length_eq
    simpa [hc] using hlen
  · rw [if_neg hc]
    exact ((h.release_shared hr hc).same hj rfl).2.length_eq

/-- What was held exclusively is free once it is given back. -/
theorem card_exclusive_le {free' : List ι} {count' : ι → ℤ} (h : Accounts valid free count (o + r))
    (h' : Accounts valid free' count' o) : r.1.card ≤ free'.length := by
  have hone : ∀ i ∈ r.1, (all o).count i = 0 ∧ r.1.count i ≤ 1 := fun i hi => by
    have hx := h.exclusive i (by simp [hi])
    have hpos := Multiset.count_pos.mpr hi
    simp only [all, Prod.fst_add, Prod.snd_add, Multiset.count_add] at hx ⊢
    omega
  have hnodup : r.1.Nodup := Multiset.nodup_iff_count_le_one.mpr fun i => by
    by_cases hi : i ∈ r.1
    · exact (hone i hi).2
    · simp [Multiset.count_eq_zero.mpr hi]
  have hle : r.1 ≤ (free' : Multiset ι) := (Multiset.le_iff_subset hnodup).mpr fun i hi => by
    have hv := h.valid_of_mem i (by simp [all, hi])
    exact (h'.mem_free i).mpr ⟨hv, Multiset.count_eq_zero.mp (hone i hi).1⟩
  exact Multiset.card_le_card hle

end Accounts

end Lib
