import Mathlib

/-!
# Lists of updates

`updates l d` is the function `d` after the assignments of `l`, in order. Assignments made in
advance, or twice, change nothing.
-/

namespace Lib

open Function

variable {κ β : Type} [DecidableEq κ] {l l' : List (κ × β)} {d d' : κ → β} {b k : κ} {c : β}

def updates (l : List (κ × β)) (d : κ → β) : κ → β :=
  l.foldl (fun d p => update d p.1 p.2) d

@[simp] theorem updates_nil (d : κ → β) : updates [] d = d := rfl

theorem updates_cons (p : κ × β) (l : List (κ × β)) (d : κ → β) :
    updates (p :: l) d = updates l (update d p.1 p.2) := rfl

theorem updates_congr (h : b ∈ l.map Prod.fst ∨ d b = d' b) : updates l d b = updates l d' b := by
  induction l generalizing d d' with
  | nil => exact h.resolve_left List.not_mem_nil
  | cons p l ih =>
    rw [updates_cons, updates_cons]
    refine ih ?_
    by_cases hb : b = p.1
    · rw [hb, update_self, update_self]
      exact .inr rfl
    · rw [update_of_ne hb, update_of_ne hb]
      exact h.imp_left fun hm => (List.mem_cons.mp hm).resolve_left hb

theorem updates_update_of_mem (h : k ∈ l.map Prod.fst) :
    updates l (update d k c) = updates l d := by
  funext b
  by_cases hb : b = k
  · exact updates_congr (.inl (hb ▸ h))
  · exact updates_congr (.inr (update_of_ne hb ..))

theorem updates_eq_self (h : ∀ p ∈ l, d p.1 = p.2) : updates l d = d := by
  induction l with
  | nil => rfl
  | cons p l ih =>
    have hp : update d p.1 p.2 = d := by
      rw [← h p (List.mem_cons_self ..), update_eq_self]
    rw [updates_cons, hp]
    exact ih fun q hq => h q (List.mem_cons_of_mem p hq)

end Lib
