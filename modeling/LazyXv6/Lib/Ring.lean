import Mathlib

/-!
# Rings with wrapping counters

A ring of `cap` cells holds a queue between two counters that only go up. The counters are kept
modulo some `M` that the capacity divides, so a cell is found from the counter as it is kept. As
long as the queue is not longer than `M - 1`, the kept counters tell how long it is.
-/

namespace Lib

open Function

variable {α : Type} {cap M start a b : ℕ} {cell : ℕ → α} {l : List α} {x : α}

/-- The cells from `start` on hold the queue `l`. -/
def RingHolds (cap : ℕ) (cell : ℕ → α) (start : ℕ) (l : List α) : Prop :=
  ∀ j (h : j < l.length), cell ((start + j) % cap) = l[j]

theorem ringHolds_nil : RingHolds cap cell start [] := nofun

theorem ring_cell_ne {i j : ℕ} (hij : i < j) (hj : j < i + cap) : i % cap ≠ j % cap := by
  intro h
  have hdvd : cap ∣ j - i := (Nat.modEq_iff_dvd' hij.le).mp h
  have := Nat.le_of_dvd (by omega) hdvd
  omega

theorem RingHolds.update_end (h : RingHolds cap cell start l) (hl : l.length < cap) (x : α) :
    RingHolds cap (update cell ((start + l.length) % cap) x) start l := by
  intro j hj
  rw [update_of_ne (ring_cell_ne (by omega) (by omega))]
  exact h j hj

theorem RingHolds.concat (h : RingHolds cap cell start l)
    (hx : cell ((start + l.length) % cap) = x) : RingHolds cap cell start (l ++ [x]) := by
  intro j hj
  rw [List.length_append, List.length_singleton] at hj
  rcases Nat.lt_or_ge j l.length with hlt | hge
  · rw [List.getElem_append_left hlt]
    exact h j hlt
  · obtain rfl : j = l.length := by omega
    rw [hx]
    exact (List.getElem_concat_length rfl (by simp)).symm

theorem RingHolds.push (h : RingHolds cap cell start l) (hl : l.length < cap) (x : α) :
    RingHolds cap (update cell ((start + l.length) % cap) x) start (l ++ [x]) :=
  (h.update_end hl x).concat (update_self ..)

theorem RingHolds.head (h : RingHolds cap cell start (x :: l)) : cell (start % cap) = x :=
  h 0 (Nat.zero_lt_succ _)

theorem RingHolds.pop (h : RingHolds cap cell start (x :: l)) :
    RingHolds cap cell (start + 1) l := by
  intro j hj
  have hcell := h (j + 1) (by simpa using hj)
  rw [show start + 1 + j = start + (j + 1) by omega, hcell]
  exact List.getElem_cons_succ ..

theorem RingHolds.read (h : RingHolds cap cell start l) :
    (List.range l.length).map (fun j => cell ((start + j) % cap)) = l := by
  refine List.ext_getElem (by simp) fun j h₁ h₂ => ?_
  rw [List.getElem_map, List.getElem_range]
  exact h j h₂

theorem ring_index (h : cap ∣ M) (a : ℕ) : a % M % cap = a % cap := Nat.mod_mod_of_dvd a h

/-! ## 32-bit counters -/

theorem counter_index (h : cap ∣ 2 ^ 32) (a : ℕ) : (UInt32.ofNat a).toNat % cap = a % cap :=
  ring_index h a

theorem counter_succ (a : ℕ) :
    UInt32.ofNat a + 1 = UInt32.ofNat (a + 1) := (UInt32.ofNat_add a 1).symm

theorem counter_sub (h : b ≤ a) (hlt : a < b + 2 ^ 32) :
    (UInt32.ofNat a - UInt32.ofNat b).toNat = a - b := by
  rw [UInt32.toNat_sub, UInt32.toNat_ofNat', UInt32.toNat_ofNat']
  omega

theorem counter_inj (h : b ≤ a) (hlt : a < b + 2 ^ 32) :
    UInt32.ofNat b = UInt32.ofNat a ↔ b = a := by
  rw [← UInt32.toNat_inj, UInt32.toNat_ofNat', UInt32.toNat_ofNat']
  omega

end Lib
