import Mathlib

/-!
# Montgomery reduction

With `n = -1/p` modulo `W`, a multiple of `p` is added to `x` to make it divisible by `W`.
-/

namespace CadoNfs.Lib

variable {W p n : ℕ}

def redc (W p n x : ℕ) : ℕ := (x + x * n % W * p) / W

theorem mul_redc (inverse : W ∣ p * n + 1) (x : ℕ) : W * redc W p n x = x + x * n % W * p := by
  apply Nat.mul_div_cancel'
  rw [← Nat.modEq_zero_iff_dvd]
  calc
    x + x * n % W * p ≡ x + x * n * p [MOD W] := ((Nat.mod_modEq _ _).mul_right p).add_left x
    _ = x * (p * n + 1) := by ring
    _ ≡ x * 0 [MOD W] := ((Nat.modEq_zero_iff_dvd).mpr inverse).mul_left x

theorem redc_lt_two_mul (pos : 0 < W) {x : ℕ} (inverse : W ∣ p * n + 1) (bound : x < W * p) :
    redc W p n x < 2 * p := by
  have digit := Nat.mul_le_mul_right p (Nat.mod_lt (x * n) pos).le
  have exact := mul_redc inverse x
  by_contra large
  have := Nat.mul_le_mul_left W (not_lt.mp large)
  linarith [mul_comm 2 p, mul_assoc W 2 p, mul_left_comm W 2 p]

theorem redc_lt (pos : 0 < W) {x : ℕ} (inverse : W ∣ p * n + 1) (bound : x < p) : redc W p n x < p := by
  have digit := Nat.mul_le_mul_right p (Nat.succ_le_of_lt (Nat.mod_lt (x * n) pos))
  have exact := mul_redc inverse x
  rw [Nat.succ_mul] at digit
  by_contra large
  have := Nat.mul_le_mul_left W (not_lt.mp large)
  omega

theorem redc_cast (inverse : W ∣ p * n + 1) (x : ℕ) : (W : ZMod p) * (redc W p n x : ZMod p) = x := by
  have exact := congrArg (Nat.cast (R := ZMod p)) (mul_redc inverse x)
  simpa using exact

theorem coprime_of_inverse (inverse : W ∣ p * n + 1) : W.Coprime p := by
  apply Nat.Coprime.coprime_dvd_left inverse
  rw [Nat.coprime_comm]
  exact (Nat.coprime_mul_left_add_right p 1 n).mpr (Nat.coprime_one_right p)

end CadoNfs.Lib
