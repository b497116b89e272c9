import Mathlib

/-!
# Tables of the first odd primes

How fast a table grows when its length is doubled.
-/

namespace CadoNfs.Lib
open Nat

noncomputable def oddPrime (k : ℕ) : ℕ := nth Nat.Prime k

theorem oddPrime_prime (k : ℕ) : (oddPrime k).Prime := prime_nth_prime k

theorem oddPrime_strictMono : StrictMono oddPrime := nth_strictMono infinite_setOfPred_prime

theorem oddPrime_of_count {p k : ℕ} (prime : p.Prime) (count : Nat.count Nat.Prime p = k) : oddPrime k = p := by
  rw [oddPrime, ← count, nth_count prime]

theorem oddPrime_one : oddPrime 1 = 3 := oddPrime_of_count (by norm_num) (by decide)

theorem oddPrime_two : oddPrime 2 = 5 := oddPrime_of_count (by norm_num) (by decide)

theorem oddPrime_four : oddPrime 4 = 11 := oddPrime_of_count (by norm_num) (by decide)

theorem oddPrime_eight : oddPrime 8 = 23 := oddPrime_of_count (by norm_num) (by decide)

theorem oddPrime_lt_of_count {k n : ℕ} (count : k < Nat.count Nat.Prime n) : oddPrime k < n := nth_lt_of_lt_count count

theorem three_le_oddPrime {k : ℕ} (positive : 1 ≤ k) : 3 ≤ oddPrime k :=
  oddPrime_one.symm.le.trans (oddPrime_strictMono.monotone positive)

theorem oddPrime_odd {k : ℕ} (positive : 1 ≤ k) : oddPrime k % 2 = 1 := by
  have least := three_le_oddPrime positive
  exact (oddPrime_prime k).mod_two_eq_one_iff_ne_two.mpr (by omega)

theorem exists_oddPrime {p k : ℕ} (prime : p.Prime) (odd : p ≠ 2) (small : p ≤ oddPrime k) :
    ∃ i, 1 ≤ i ∧ i ≤ k ∧ oddPrime i = p := by
  refine ⟨Nat.count Nat.Prime p, ?_, ?_, oddPrime_of_count prime rfl⟩
  · have two : Nat.count Nat.Prime 3 = 1 := by decide
    rw [← two]
    have least := prime.two_le
    exact count_monotone _ (by omega)
  · rw [← oddPrime_strictMono.le_iff_le, oddPrime_of_count prime rfl]
    exact small

/-! ## Chebyshev's bound -/

theorem chebyshev (n : ℕ) : (n : ℝ) * Real.log 2 - Real.log (n + 1) ≤
    Nat.count Nat.Prime (n + 1) * Real.log (n + 1) := by
  have monotone : Real.log n ≤ Real.log (n + 1) := by
    rcases n.eq_zero_or_pos with rfl | positive
    · simp
    · exact Real.log_le_log (by exact_mod_cast positive) (by linarith)
  calc (n : ℝ) * Real.log 2 - Real.log (n + 1) ≤ Chebyshev.psi n := Chebyshev.psi_ge n
    _ ≤ Nat.primeCounting n * Real.log n := Chebyshev.psi_le_primeCounting_mul_log n
    _ ≤ Nat.count Nat.Prime (n + 1) * Real.log (n + 1) := mul_le_mul_of_nonneg_left monotone (Nat.cast_nonneg _)

theorem two_pow_lt_count : 2 ^ 26 < Nat.count Nat.Prime (2 ^ 31) := by
  have bound := chebyshev (2 ^ 31 - 1)
  have next : ((2 ^ 31 - 1 : ℕ) : ℝ) + 1 = 2 ^ 31 := by norm_num
  have log : Real.log (2 ^ 31) = 31 * Real.log 2 := by rw [Real.log_pow]; norm_num
  rw [next, log, Nat.sub_add_cancel (by norm_num)] at bound
  have value : ((2 ^ 31 - 1 : ℕ) : ℝ) = 2147483647 := by norm_num
  have positive : 0 < Real.log 2 := Real.log_pos (by norm_num)
  rw [value] at bound
  generalize Nat.count Nat.Prime (2 ^ 31) = count at bound ⊢
  have total : (2147483647 - 31) * Real.log 2 ≤ (count * 31) * Real.log 2 := by linarith
  have many : (2147483647 : ℝ) ≤ count * 31 + 31 := by linarith [le_of_mul_le_mul_right total positive]
  have many' : 2147483647 ≤ count * 31 + 31 := by exact_mod_cast many
  omega

theorem oddPrime_lt_two_pow {k : ℕ} (small : k ≤ 2 ^ 26) : oddPrime k < 2 ^ 31 :=
  oddPrime_lt_of_count (small.trans_lt two_pow_lt_count)

theorem count_square {m : ℕ} (large : 13 ≤ m) : m + 2 < Nat.count Nat.Prime (m ^ 2) := by
  have bound := chebyshev (m ^ 2 - 1)
  have square : 1 ≤ m ^ 2 := Nat.one_le_pow _ _ (by omega)
  have next : ((m ^ 2 - 1 : ℕ) : ℝ) + 1 = (m : ℝ) ^ 2 := by
    push_cast [Nat.cast_sub square]
    ring
  have value : ((m ^ 2 - 1 : ℕ) : ℝ) = (m : ℝ) ^ 2 - 1 := by
    push_cast [Nat.cast_sub square]
    ring
  rw [next, value, Real.log_pow, Nat.sub_add_cancel square] at bound
  by_contra few
  have few' : (Nat.count Nat.Prime (m ^ 2) : ℝ) ≤ m + 2 := by exact_mod_cast not_lt.mp few
  have large' : (13 : ℝ) ≤ m := by exact_mod_cast large
  have tangent : Real.log m ≤ m / 4 - 1 + 2 * Real.log 2 := by
    have := Real.log_le_sub_one_of_pos (show (0 : ℝ) < m / 4 by positivity)
    rw [Real.log_div (by positivity) (by norm_num), show (4 : ℝ) = 2 ^ 2 by norm_num, Real.log_pow] at this
    push_cast at this
    linarith
  have low := Real.log_two_gt_d9
  have high := Real.log_two_lt_d9
  have nonneg : 0 ≤ Real.log m := Real.log_nonneg (by linarith)
  have most : (Nat.count Nat.Prime (m ^ 2) : ℝ) * (2 * Real.log m) ≤ (m + 2) * (2 * (m / 4 - 1 + 2 * Real.log 2)) :=
    mul_le_mul few' (by linarith) (by linarith) (by linarith)
  push_cast at bound
  nlinarith

theorem double_le_oddPrime {k : ℕ} (positive : 1 ≤ k) : 2 * k + 1 ≤ oddPrime k := by
  induction k, positive using Nat.le_induction with
  | base => rw [oddPrime_one]
  | succ k positive ih =>
    have larger := oddPrime_strictMono (Nat.lt_add_one k)
    have odd := oddPrime_odd positive
    have odd' := oddPrime_odd (show 1 ≤ k + 1 by omega)
    omega

theorem oddPrime_double_lt {t o len : ℕ} (wide : oddPrime (2 ^ t) ^ 2 < o + 2 * len) (short : len ^ 2 < 4 * o)
    (large : 7 ≤ o) : oddPrime (2 ^ (t + 1)) < o := by
  match t with
  | 0 =>
    rw [zero_add, pow_one, oddPrime_two]
    omega
  | 1 =>
    rw [pow_one, oddPrime_two] at wide
    rw [show 2 ^ (1 + 1) = 4 by norm_num, oddPrime_four]
    by_contra small
    have : len < 7 := by nlinarith
    omega
  | 2 =>
    rw [show 2 ^ 2 = 4 by norm_num, oddPrime_four] at wide
    rw [show 2 ^ (2 + 1) = 8 by norm_num, oddPrime_eight]
    by_contra small
    have : len < 10 := by nlinarith
    omega
  | t + 3 =>
    obtain ⟨m, last⟩ : ∃ m, oddPrime (2 ^ (t + 3)) = m + 2 :=
      ⟨oddPrime (2 ^ (t + 3)) - 2, by have := (oddPrime_prime (2 ^ (t + 3))).two_le; omega⟩
    have least : 23 ≤ m + 2 := by
      rw [← last, ← oddPrime_eight]
      exact oddPrime_strictMono.monotone (by rw [pow_add]; have := Nat.one_le_two_pow (n := t); omega)
    have above : m ^ 2 ≤ o := by
      by_contra below
      rw [last] at wide
      have : len < 2 * m := by nlinarith
      nlinarith
    have half := double_le_oddPrime (Nat.one_le_two_pow (n := t + 3))
    rw [last] at half
    have enough : 2 ^ (t + 3 + 1) < Nat.count Nat.Prime (m ^ 2) := by
      have count := count_square (m := m) (by omega)
      rw [pow_succ]
      omega
    exact (oddPrime_lt_of_count enough).trans_le above

end CadoNfs.Lib
