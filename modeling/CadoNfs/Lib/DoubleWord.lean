import Mathlib.Data.Nat.Digits.Defs
import Mathlib.Tactic.Ring
import Mathlib.Tactic.Linarith

/-!
# Numbers of two digits

Sums of products of digits in a double word: when a sum is exact, and how one digit is folded into the other
modulo a number for which the base is known.
-/

namespace CadoNfs.Lib

structure DoubleWord where
  low : ℕ
  high : ℕ
  deriving DecidableEq

namespace DoubleWord

def value (B : ℕ) (x : DoubleWord) : ℕ := x.low + B * x.high

def mul (B a b : ℕ) : DoubleWord := ⟨a * b % B, a * b / B⟩

def add (B : ℕ) (x y : DoubleWord) : DoubleWord :=
  ⟨(x.low + y.low) % B, (x.high + y.high + (x.low + y.low) / B) % B⟩

variable {B : ℕ}

theorem mul_value (a b : ℕ) : (mul B a b).value B = a * b := Nat.mod_add_div _ _

theorem add_value (x y : DoubleWord) : (add B x y).value B = (x.value B + y.value B) % (B * B) := by
  have sum : x.value B + y.value B = x.low + y.low + B * (x.high + y.high) := by
    simp only [value]
    ring
  rw [sum, Nat.mod_mul, Nat.add_mul_mod_self_left]
  rcases Nat.eq_zero_or_pos B with rfl | positive
  · simp [add, value]
  · rw [Nat.add_mul_div_left _ _ positive, Nat.add_comm ((x.low + y.low) / B)]
    rfl

theorem add_value_of_lt {x y : DoubleWord} (fits : x.value B + y.value B < B * B) :
    (add B x y).value B = x.value B + y.value B := by
  rw [add_value, Nat.mod_eq_of_lt fits]

theorem add_low_lt (positive : 0 < B) (x y : DoubleWord) : (add B x y).low < B := Nat.mod_lt _ positive

theorem high_le (positive : 0 < B) {x : DoubleWord} {c : ℕ} (le : x.value B ≤ (B - 1) * (c + 1)) : x.high ≤ c := by
  by_contra large
  have more : B * (c + 1) ≤ x.value B := by
    calc
      B * (c + 1) ≤ B * x.high := Nat.mul_le_mul_left B (by omega)
      _ ≤ x.value B := Nat.le_add_left _ _
  have less : (B - 1) * (c + 1) < B * (c + 1) := Nat.mul_lt_mul_of_pos_right (by omega) (Nat.succ_pos c)
  omega

end DoubleWord
end CadoNfs.Lib
