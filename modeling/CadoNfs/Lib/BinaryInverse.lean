import Mathlib

/-!
# Binary modular inversion

Two odd numbers are subtracted from each other and halved until they are equal.
-/

namespace CadoNfs.Lib

structure BinaryInverse (p bound divisor : ℕ) (w : ZMod p) (a b u v t : ℕ) : Prop where
  odd : a % 2 = 1
  odd' : b % 2 = 1
  combination : u * b + v * a = p
  pos : 0 < u ∨ b < a
  pos' : 0 < v ∨ a < b
  product : a * b * 2 ^ t ≤ bound
  cofactor : w * u = a * 2 ^ t
  cofactor' : w * v = -(b * 2 ^ t)
  gcd : a.gcd b = divisor

namespace BinaryInverse
variable {p bound divisor : ℕ} {w : ZMod p} {a b u v t : ℕ}

theorem swap (inv : BinaryInverse p bound divisor w a b u v t) :
    BinaryInverse p bound divisor (-w) b a v u t where
  odd := inv.odd'
  odd' := inv.odd
  combination := (add_comm _ _).trans inv.combination
  pos := inv.pos'
  pos' := inv.pos
  product := by rw [mul_comm b a]; exact inv.product
  cofactor := by rw [neg_mul, inv.cofactor', neg_neg]
  cofactor' := by rw [neg_mul, inv.cofactor]
  gcd := (Nat.gcd_comm b a).trans inv.gcd

theorem step (inv : BinaryInverse p bound divisor w a b u v t) {c k : ℕ} (split : b = a + 2 ^ k * c)
    (odd : c % 2 = 1) : BinaryInverse p bound divisor w a c (2 ^ k * u) (u + v) (t + k) := by
  have cpos : 0 < c := by omega
  have less : a < b := by
    rw [split]
    have := Nat.mul_pos (Nat.two_pow_pos k) cpos
    omega
  have upos : 0 < u := inv.pos.resolve_right (by omega)
  refine ⟨inv.odd, odd, ?_, .inl (Nat.mul_pos (Nat.two_pow_pos k) upos), .inl (by omega), ?_, ?_, ?_, ?_⟩
  · rw [← inv.combination, split]
    ring
  · calc
      a * c * 2 ^ (t + k) = a * (2 ^ k * c) * 2 ^ t := by ring
      _ ≤ a * b * 2 ^ t := by
        apply Nat.mul_le_mul_right
        apply Nat.mul_le_mul_left
        omega
      _ ≤ bound := inv.product
  · push_cast
    rw [mul_left_comm, inv.cofactor]
    ring
  · have difference : (b : ZMod p) = a + 2 ^ k * c := by
      rw [split]
      push_cast
      rfl
    push_cast
    rw [mul_add, inv.cofactor, inv.cofactor', difference]
    ring
  · have coprime : a.Coprime (2 ^ k) := (Nat.coprime_two_right.mpr (Nat.odd_iff.mpr inv.odd)).pow_right k
    rw [← inv.gcd, split, Nat.gcd_self_add_right, coprime.symm.gcd_mul_left_cancel_right c]

theorem add_le (inv : BinaryInverse p bound divisor w a b u v t) : u + v ≤ p := by
  have first := Nat.mul_le_mul_left u (show 1 ≤ b by have := inv.odd'; omega)
  have second := Nat.mul_le_mul_left v (show 1 ≤ a by have := inv.odd; omega)
  have := inv.combination
  omega

theorem two_pow_le (inv : BinaryInverse p bound divisor w a b u v t) : 2 ^ t ≤ bound := by
  have apos : 1 ≤ a := by have := inv.odd; omega
  have bpos : 1 ≤ b := by have := inv.odd'; omega
  calc
    2 ^ t = 1 * 1 * 2 ^ t := by ring
    _ ≤ a * b * 2 ^ t := by gcongr
    _ ≤ bound := inv.product

theorem finish (inv : BinaryInverse p bound divisor w a a u v t) :
    a = divisor ∧ u < p ∧ (a = 1 → w * u = 2 ^ t) := by
  refine ⟨by rw [← inv.gcd, Nat.gcd_self], ?_, fun one => ?_⟩
  · have := inv.add_le
    have := inv.pos'.resolve_right (lt_irrefl a)
    omega
  · rw [inv.cofactor, one, Nat.cast_one, one_mul]

theorem start {a₀ : ℕ} (odd_p : p % 2 = 1) (odd_a : a % 2 = 1) (part : a₀ = 2 ^ t * a) (less : a < p) :
    BinaryInverse p (a₀ * p) (a₀.gcd p) a₀ a p 1 0 t where
  odd := odd_a
  odd' := odd_p
  combination := by ring
  pos := .inl one_pos
  pos' := .inr less
  product := by rw [part]; exact le_of_eq (by ring)
  cofactor := by rw [part]; push_cast; ring
  cofactor' := by simp
  gcd := by
    have coprime : p.Coprime (2 ^ t) := (Nat.coprime_two_right.mpr (Nat.odd_iff.mpr odd_p)).pow_right t
    rw [part, coprime.symm.gcd_mul_left_cancel a]

end BinaryInverse

end CadoNfs.Lib
