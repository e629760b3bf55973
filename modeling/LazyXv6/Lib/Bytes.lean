import Mathlib

/-!
# Numbers in memory, least significant byte first

Memory is a function of the address. `getLE f o n` is the number that the `n` bytes from `o` on
hold, `byteOf v k` the byte number `k` of `v`. A number that was put in byte by byte is read back
modulo `256 ^ n`, and depends on its own bytes only.
-/

namespace Lib

variable {f g : ℕ → UInt8} {o n v : ℕ}

def getLE (f : ℕ → UInt8) (o : ℕ) : ℕ → ℕ
  | 0 => 0
  | n + 1 => (f o).toNat + 256 * getLE f (o + 1) n

def byteOf (v k : ℕ) : UInt8 := UInt8.ofNat (v / 256 ^ k)

theorem getLE_congr (h : ∀ k, k < n → f (o + k) = g (o + k)) : getLE f o n = getLE g o n := by
  induction n generalizing o with
  | zero => rfl
  | succ n ih =>
    have hfirst : f o = g o := h 0 (Nat.zero_lt_succ n)
    have hrest : getLE f (o + 1) n = getLE g (o + 1) n := by
      refine ih fun k hk => ?_
      have hk' := h (k + 1) (Nat.succ_lt_succ hk)
      rwa [show o + (k + 1) = o + 1 + k by omega] at hk'
    simp only [getLE, hfirst, hrest]

theorem getLE_of_bytes (h : ∀ k, k < n → f (o + k) = byteOf v k) : getLE f o n = v % 256 ^ n := by
  induction n generalizing o v with
  | zero => exact (Nat.mod_one v).symm
  | succ n ih =>
    have hfirst : (f o).toNat = v % 256 := by
      have h0 : f o = UInt8.ofNat (v / 256 ^ 0) := h 0 (Nat.zero_lt_succ n)
      rw [h0, UInt8.toNat_ofNat', pow_zero, Nat.div_one]
    have hrest : getLE f (o + 1) n = v / 256 % 256 ^ n := by
      refine ih fun k hk => ?_
      have hk' := h (k + 1) (Nat.succ_lt_succ hk)
      rw [show o + (k + 1) = o + 1 + k by omega] at hk'
      rw [hk', byteOf, byteOf, Nat.div_div_eq_div_mul, Nat.pow_succ, Nat.mul_comm]
    simp only [getLE, hfirst, hrest]
    rw [show 256 ^ (n + 1) = 256 * 256 ^ n by ring, Nat.mod_mul]

theorem getLE_zero (h : ∀ k, k < n → f (o + k) = 0) : getLE f o n = 0 := by
  have hzero : ∀ k, k < n → f (o + k) = byteOf 0 k := by
    intro k hk
    rw [h k hk, byteOf, Nat.zero_div]
    rfl
  rw [getLE_of_bytes hzero, Nat.zero_mod]

/-- The memory with `v` in the `n` bytes from `o` on. -/
def putLE (f : ℕ → UInt8) (o n v : ℕ) : ℕ → UInt8 :=
  fun i => if o ≤ i ∧ i < o + n then byteOf v (i - o) else f i

theorem putLE_of_not (i : ℕ) (h : ¬ (o ≤ i ∧ i < o + n)) : putLE f o n v i = f i := if_neg h

theorem getLE_putLE : getLE (putLE f o n v) o n = v % 256 ^ n := by
  refine getLE_of_bytes fun k hk => ?_
  unfold putLE
  rw [if_pos (by omega), Nat.add_sub_cancel_left]

theorem getLE_putLE_of_disjoint {o' n' : ℕ} (h : o' + n' ≤ o ∨ o + n ≤ o') :
    getLE (putLE f o n v) o' n' = getLE f o' n' :=
  getLE_congr fun _ _ => putLE_of_not _ (by omega)

end Lib
