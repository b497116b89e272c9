import Mathlib

/-!
# Binary floating point

Rounding of positive numbers to 53 significant bits, the nearest number with a tie going to the even one. The
range of the exponents is not bounded.
-/

namespace CadoNfs.Lib

def roundEven (x : ℚ) : ℤ := if Int.fract x = 1 / 2 ∧ ⌊x⌋ % 2 = 0 then ⌊x⌋ else round x

def double (x : ℚ) : ℚ :=
  let ulp : ℚ := 2 ^ (Int.log 2 x - 52)
  roundEven (x / ulp) * ulp

theorem roundEven_error (x : ℚ) : |roundEven x - x| ≤ 1 / 2 := by
  unfold roundEven
  split_ifs with tie
  · have floor : (⌊x⌋ : ℚ) - x = -(1 / 2) := by
      rw [← tie.1, ← Int.self_sub_floor]
      ring
    rw [floor, abs_neg, abs_of_pos (by norm_num)]
  · rw [abs_sub_comm]
    exact abs_sub_round x

theorem double_error {x : ℚ} (pos : 0 < x) : |double x - x| ≤ x / 2 ^ 53 := by
  set ulp : ℚ := 2 ^ (Int.log 2 x - 52) with hulp
  have ulp_pos : 0 < ulp := by positivity
  have small : ulp ≤ x / 2 ^ 52 := by
    rw [hulp, zpow_sub₀ (by norm_num)]
    have power : ((2 : ℕ) : ℚ) ^ Int.log 2 x ≤ x := Int.zpow_log_le_self (by norm_num) pos
    push_cast at power
    norm_cast
    gcongr
  have scaled : double x - x = (roundEven (x / ulp) - x / ulp) * ulp := by
    rw [double, ← hulp, sub_mul, div_mul_cancel₀ _ ulp_pos.ne']
  calc |double x - x|
    _ = |roundEven (x / ulp) - x / ulp| * ulp := by rw [scaled, abs_mul, abs_of_pos ulp_pos]
    _ ≤ 1 / 2 * (x / 2 ^ 52) := mul_le_mul (roundEven_error _) small ulp_pos.le (by norm_num)
    _ = x / 2 ^ 53 := by ring

theorem double_between {x : ℚ} (pos : 0 < x) : x - x / 2 ^ 53 ≤ double x ∧ double x ≤ x + x / 2 ^ 53 := by
  have := abs_le.mp (double_error pos)
  constructor <;> linarith

theorem log_eq {x : ℚ} {e : ℤ} (low : 2 ^ e ≤ x) (high : x < 2 ^ (e + 1)) : Int.log 2 x = e := by
  have pos : 0 < x := lt_of_lt_of_le (by positivity) low
  have below := (Int.zpow_le_iff_le_log (b := 2) (by norm_num) pos).mp (by exact_mod_cast low)
  have above := (Int.lt_zpow_iff_log_lt (b := 2) (by norm_num) pos).mp (by exact_mod_cast high)
  omega

theorem two_zpow_add (e : ℤ) (n : ℕ) : (2 : ℚ) ^ (e + n) = 2 ^ n * 2 ^ e := by
  rw [zpow_add₀ (by norm_num), zpow_natCast, mul_comm]

theorem roundEven_between {x : ℚ} {l h : ℤ} (low : l ≤ x) (high : x ≤ h) : l ≤ roundEven x ∧ roundEven x ≤ h := by
  have error := abs_le.mp (roundEven_error x)
  have below : (l : ℚ) < roundEven x + 1 := by linarith
  have above : (roundEven x : ℚ) < h + 1 := by linarith
  constructor
  · have : l < roundEven x + 1 := by exact_mod_cast below
    omega
  · have : roundEven x < h + 1 := by exact_mod_cast above
    omega

theorem double_mantissa {x : ℚ} (pos : 0 < x) :
    ∃ m : ℤ, 2 ^ 52 ≤ m ∧ double x = m * 2 ^ (Int.log 2 (double x) - 52) := by
  have power : (2 : ℚ) ^ Int.log 2 x ≤ x := by exact_mod_cast Int.zpow_log_le_self (b := 2) (by norm_num) pos
  have next : x < (2 : ℚ) ^ (Int.log 2 x + 1) := by exact_mod_cast Int.lt_zpow_succ_log_self (b := 2) (by norm_num) x
  obtain ⟨e, log⟩ : ∃ e, Int.log 2 x = e + 52 := ⟨Int.log 2 x - 52, by omega⟩
  have value : double x = roundEven (x / 2 ^ e) * 2 ^ e := by
    rw [double, log, add_sub_cancel_right]
  have ulp : (0 : ℚ) < 2 ^ e := by positivity
  have scale : (2 : ℚ) ^ (e + 52) = 2 ^ 52 * 2 ^ e := two_zpow_add e 52
  have scale' : (2 : ℚ) ^ (e + 52 + 1) = 2 ^ 53 * 2 ^ e := by
    rw [add_assoc]
    exact two_zpow_add e 53
  rw [log, scale] at power
  rw [log, scale'] at next
  have low : ((2 ^ 52 : ℤ) : ℚ) ≤ x / 2 ^ e := by
    push_cast
    rwa [le_div_iff₀ ulp]
  have high : x / 2 ^ e ≤ ((2 ^ 53 : ℤ) : ℚ) := by
    push_cast
    rw [div_le_iff₀ ulp]
    exact next.le
  obtain ⟨least, most⟩ := roundEven_between low high
  rw [value]
  generalize roundEven (x / 2 ^ e) = m at least most
  have wide : (2 : ℚ) ^ 52 ≤ m := by exact_mod_cast least
  rcases lt_or_eq_of_le most with inside | full
  · have narrow : (m : ℚ) < 2 ^ 53 := by exact_mod_cast inside
    have same : Int.log 2 ((m : ℚ) * 2 ^ e) = e + 52 := by
      apply log_eq
      · rw [scale]
        exact mul_le_mul_of_nonneg_right wide ulp.le
      · rw [scale']
        exact mul_lt_mul_of_pos_right narrow ulp
    exact ⟨m, least, by rw [same, add_sub_cancel_right]⟩
  · -- The number was rounded up to the next power of 2.
    subst full
    have up : Int.log 2 (((2 ^ 53 : ℤ) : ℚ) * 2 ^ e) = e + 53 := by
      apply log_eq
      · rw [show e + 53 = e + (53 : ℕ) by norm_num, two_zpow_add]
        norm_num
      · push_cast
        rw [add_assoc, show e + (53 + 1) = e + (54 : ℕ) by norm_num, two_zpow_add]
        exact mul_lt_mul_of_pos_right (by norm_num) ulp
    refine ⟨2 ^ 52, le_rfl, ?_⟩
    rw [up, show e + 53 - 52 = e + (1 : ℕ) by push_cast; ring, two_zpow_add]
    push_cast
    ring

theorem roundEven_intCast (z : ℤ) : roundEven z = z := by
  simp [roundEven]

theorem double_of_multiple {x : ℚ} {z : ℤ} (multiple : x = z * 2 ^ (Int.log 2 x - 52)) : double x = x := by
  have positive : (2 : ℚ) ^ (Int.log 2 x - 52) ≠ 0 := by positivity
  have quotient : x / 2 ^ (Int.log 2 x - 52) = z := by rw [div_eq_iff positive, ← multiple]
  rw [double, quotient, roundEven_intCast, ← multiple]

theorem double_natCast {n : ℕ} (small : n < 2 ^ 53) : double n = n := by
  have log : Int.log 2 (n : ℚ) = Nat.log 2 n := Int.log_natCast 2 n
  have digits : Nat.log 2 n ≤ 52 := by
    by_cases zero : n = 0
    · simp [zero]
    · exact Nat.lt_succ_iff.mp ((Nat.log_lt_iff_lt_pow (by norm_num) zero).mpr small)
  apply double_of_multiple (z := n * 2 ^ (52 - Nat.log 2 n))
  have shift : ((Nat.log 2 n : ℤ) - 52) = -((52 - Nat.log 2 n : ℕ) : ℤ) := by omega
  rw [log, shift, zpow_neg, zpow_natCast]
  push_cast
  field_simp

end CadoNfs.Lib
