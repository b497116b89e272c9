import Mathlib

/-!
# Homographies of small order

A matrix acts on the projective line over a field.
-/

namespace CadoNfs.Lib.Homography
open Matrix OnePoint

variable {K : Type*} [Field K]

section
variable (M : Matrix (Fin 2) (Fin 2) K)

theorem pow_two_eq : M ^ 2 = M.trace • M - M.det • 1 := by
  rw [pow_two, trace_fin_two, det_fin_two]
  ext i j
  fin_cases i <;> fin_cases j <;> simp [mul_apply, Fin.sum_univ_two] <;> ring

theorem pow_three_eq : M ^ 3 = (M.trace ^ 2 - M.det) • M - (M.trace * M.det) • 1 := by
  rw [pow_succ, pow_two_eq, sub_mul, smul_mul_assoc, smul_mul_assoc, one_mul, ← pow_two, pow_two_eq]
  module

theorem pow_four_eq : M ^ 4 =
    (M.trace * (M.trace ^ 2 - 2 * M.det)) • M - (M.det * (M.trace ^ 2 - M.det)) • 1 := by
  rw [pow_succ, pow_three_eq, sub_mul, smul_mul_assoc, smul_mul_assoc, one_mul, ← pow_two, pow_two_eq]
  module

theorem pow_six_eq : M ^ 6 = (M.trace * (M.trace ^ 2 - M.det) * (M.trace ^ 2 - 3 * M.det)) • M -
    (M.det * ((M.trace ^ 2 - M.det) ^ 2 - M.trace ^ 2 * M.det)) • 1 := by
  rw [show 6 = 3 * 2 from rfl, pow_mul, pow_three_eq, pow_two]
  simp only [sub_mul, mul_sub, smul_mul_assoc, mul_smul_comm, one_mul, mul_one]
  rw [← pow_two, pow_two_eq]
  module

end

variable [DecidableEq K] {g h : GL (Fin 2) K} {x : OnePoint K}

theorem smul_eq_self_iff {α β : K} (combination : h.val = α • g.val - β • 1) :
    h • x = x ↔ α = 0 ∨ g • x = x := by
  have entry (i j) : h i j = α * g i j - β * (1 : Matrix (Fin 2) (Fin 2) K) i j := by
    rw [combination]
    rfl
  cases x with
  | infty =>
    rw [smul_infty_eq_self_iff, smul_infty_eq_self_iff, entry]
    simp
  | coe c =>
    rw [← GeneralLinearGroup.fixpointPolynomial_aeval_eq_zero_iff,
      ← GeneralLinearGroup.fixpointPolynomial_aeval_eq_zero_iff, ← mul_eq_zero]
    have scaled : h.fixpointPolynomial.aeval c = α * g.fixpointPolynomial.aeval c := by
      simp [GeneralLinearGroup.fixpointPolynomial, entry]
      ring
    rw [scaled]

/-! ## Lengths of orbits -/

theorem period_dvd_iff {n : ℕ} {α β : K} (power : g.val ^ n = α • g.val - β • 1) :
    MulAction.period g x ∣ n ↔ α = 0 ∨ MulAction.period g x = 1 := by
  rw [← MulAction.pow_smul_eq_iff_period_dvd, smul_eq_self_iff (g := g) (α := α) (β := β), MulAction.period_eq_one_iff]
  rw [← power]
  rfl

variable (x) in
theorem period_two (trace : g.val.trace = 0) :
    MulAction.period g x = 1 ∨ MulAction.period g x = 2 :=
  (Nat.dvd_prime Nat.prime_two).mp ((period_dvd_iff (pow_two_eq _)).mpr (.inl trace))

variable (x) in
theorem period_three (trace : g.val.trace ^ 2 = g.val.det) :
    MulAction.period g x = 1 ∨ MulAction.period g x = 3 :=
  (Nat.dvd_prime Nat.prime_three).mp ((period_dvd_iff (pow_three_eq _)).mpr (.inl (sub_eq_zero.mpr trace)))

variable (x) in
theorem period_four (trace : g.val.trace ^ 2 = 2 * g.val.det)
    (nonzero : g.val.trace ≠ 0) :
    MulAction.period g x = 1 ∨ MulAction.period g x = 4 := by
  have four : MulAction.period g x ∣ 4 := by
    rw [period_dvd_iff (pow_four_eq _), trace, sub_self, mul_zero]
    exact .inl rfl
  have two := (period_dvd_iff (x := x) (pow_two_eq g.val)).mp
  have le := Nat.le_of_dvd (by decide) four
  interval_cases length : MulAction.period g x
  · omega
  · exact .inl rfl
  · exact (two dvd_rfl).elim (absurd · nonzero) .inl
  · omega
  · exact .inr rfl

variable (x) in
theorem period_six (trace : g.val.trace ^ 2 = 3 * g.val.det)
    (nonzero : g.val.trace ≠ 0)
    (other : g.val.trace ^ 2 ≠ g.val.det) :
    MulAction.period g x = 1 ∨ MulAction.period g x = 6 := by
  have six : MulAction.period g x ∣ 6 := by
    rw [period_dvd_iff (pow_six_eq _), trace, sub_self, mul_zero]
    exact .inl rfl
  have two := (period_dvd_iff (x := x) (pow_two_eq g.val)).mp
  have three := (period_dvd_iff (x := x) (pow_three_eq g.val)).mp
  have le := Nat.le_of_dvd (by decide) six
  interval_cases length : MulAction.period g x
  · omega
  · exact .inl rfl
  · exact (two dvd_rfl).elim (absurd · nonzero) .inl
  · exact (three dvd_rfl).elim (absurd · (sub_ne_zero.mpr other)) .inl
  · omega
  · omega
  · exact .inr rfl

end CadoNfs.Lib.Homography
