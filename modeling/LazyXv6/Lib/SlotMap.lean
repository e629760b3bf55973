import Mathlib

/-!
# Maps in slots

A map is stored as an array of slots, each of which is free or holds a key with its value. A key is
in one slot at most. Which free slot a new key goes to does not matter.
-/

namespace Lib

open Function

variable {κ ν : Type} [DecidableEq κ] {f : ℕ → Option (κ × ν)} {m : κ → Option ν} {i : ℕ}
    {k : κ} {v : ν}

/-- The slots `f` hold the map `m`. -/
structure Holds (f : ℕ → Option (κ × ν)) (m : κ → Option ν) : Prop where
  unique : ∀ i j k v w, f i = some (k, v) → f j = some (k, w) → i = j
  get : ∀ k v, m k = some v ↔ ∃ i, f i = some (k, v)

namespace Holds

omit [DecidableEq κ] in
theorem of_slot (h : Holds f m) (hf : f i = some (k, v)) : m k = some v := (h.get k v).mpr ⟨i, hf⟩

omit [DecidableEq κ] in
theorem absent_iff (h : Holds f m) : m k = none ↔ ∀ i v, f i ≠ some (k, v) := by
  constructor
  · intro hm i v hf
    rw [h.of_slot hf] at hm
    exact nomatch hm
  · intro hf
    cases hm : m k with
    | none => rfl
    | some v =>
      obtain ⟨i, hi⟩ := (h.get k v).mp hm
      exact absurd hi (hf i v)

omit [DecidableEq κ] in
theorem congr {g : ℕ → Option (κ × ν)} (h : Holds f m) (hg : ∀ i, g i = f i) : Holds g m := by
  rwa [funext hg]

theorem insert (h : Holds f m) (hfree : f i = none) (habs : m k = none) (v : ν) :
    Holds (update f i (some (k, v))) (update m k (some v)) := by
  have hnot := h.absent_iff.mp habs
  constructor
  · intro j j' l w w' hj hj'
    by_cases hi : j = i
    · by_cases hi' : j' = i
      · rw [hi, hi']
      · subst hi
        rw [update_self] at hj
        rw [update_of_ne hi'] at hj'
        cases hj
        exact absurd hj' (hnot j' w')
    · rw [update_of_ne hi] at hj
      by_cases hi' : j' = i
      · subst hi'
        rw [update_self] at hj'
        cases hj'
        exact absurd hj (hnot j w)
      · rw [update_of_ne hi'] at hj'
        exact h.unique j j' l w w' hj hj'
  · intro l w
    by_cases hl : l = k
    · subst hl
      rw [update_self]
      constructor
      · intro hw
        cases hw
        exact ⟨i, update_self ..⟩
      · rintro ⟨j, hj⟩
        by_cases hi : j = i
        · subst hi
          rw [update_self] at hj
          cases hj
          rfl
        · rw [update_of_ne hi] at hj
          exact absurd hj (hnot j w)
    · rw [update_of_ne hl, h.get]
      refine exists_congr fun j => ?_
      by_cases hi : j = i
      · subst hi
        rw [update_self, hfree]
        refine ⟨nofun, fun hj => ?_⟩
        cases hj
        exact absurd rfl hl
      · rw [update_of_ne hi]

theorem erase (h : Holds f m) (hf : f i = some (k, v)) :
    Holds (update f i none) (update m k none) := by
  have hold : ∀ j l w, update f i none j = some (l, w) ↔ j ≠ i ∧ f j = some (l, w) := by
    intro j l w
    by_cases hi : j = i
    · subst hi
      rw [update_self]
      exact ⟨nofun, fun hj => absurd rfl hj.1⟩
    · rw [update_of_ne hi]
      exact ⟨fun hj => ⟨hi, hj⟩, fun hj => hj.2⟩
  constructor
  · intro j j' l w w' hj hj'
    exact h.unique j j' l w w' ((hold ..).mp hj).2 ((hold ..).mp hj').2
  · intro l w
    simp only [hold]
    by_cases hl : l = k
    · subst hl
      rw [update_self]
      refine ⟨nofun, ?_⟩
      rintro ⟨j, hj, hw⟩
      exact absurd (h.unique j i l w v hw hf) hj
    · rw [update_of_ne hl, h.get]
      refine exists_congr fun j => ⟨fun hj => ⟨?_, hj⟩, fun hj => hj.2⟩
      rintro rfl
      rw [hf] at hj
      cases hj
      exact hl rfl

end Holds

end Lib
