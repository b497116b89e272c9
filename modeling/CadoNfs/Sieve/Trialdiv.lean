import CadoNfs.Lib.DoubleWord
import CadoNfs.Sieve.JDivisibility
import CadoNfs.Sieve.Plattice

/-!
# Trial division of numbers of several words

`sieve/trialdiv.cpp`: what is precomputed for a prime, and the tests `trialdiv_div2` to `trialdiv_div8`.
-/

namespace CadoNfs.Sieve.Trialdiv
open Lib

def constantSqrt (x : ℕ) : ℕ → ℕ → ℕ → ℕ
  | 0, a, _ => a
  | fuel + 1, a, b =>
    let m := (a + b) / 2
    if m = a then a
    else if x < m * m % 2 ^ 64 then constantSqrt x fuel a m
    else constantSqrt x fuel m b

def maxlen : ℕ := 8

def maxP : ℕ := constantSqrt ((2 ^ 64 - 1) / (maxlen - 1)) 64 0 (2 ^ 32) - 1

structure Divisor where
  p : ℕ
  w : List ℕ
  pinv : ℕ
  plim : ℕ
  deriving DecidableEq

-- `ularith_div_2ul_ul_ul_r`: the instruction traps when the quotient is too large.
def div2ulUlUlR (ndebug : Bool) (a1 a2 b : ℕ) : Except Failure ℕ := do
  assert ndebug (a2 < b)
  if b ≤ a2 then .error .divideError else return (a1 + a2 * 2 ^ 64) % b

def firstPower (ndebug : Bool) (p : ℕ) : Except Failure ℕ :=
  if p = 1 then .ok 0 else div2ulUlUlR ndebug 0 1 p

def nextPowers (ndebug : Bool) (p : ℕ) : ℕ → ℕ → Except Failure (List ℕ)
  | 0, _ => return []
  | count + 1, last => do
    let w ← div2ulUlUlR ndebug 0 last p
    return w :: (← nextPowers ndebug p count w)

def initDivisor (ndebug : Bool) (p : ℕ) : Except Failure Divisor := do
  assert ndebug (p % 2 = 1)
  assert ndebug (p ≤ maxP)
  let w0 ← firstPower ndebug p
  return ⟨p, w0 :: (← nextPowers ndebug p (maxlen - 2) w0), ularithInvmod p, (2 ^ 64 - 1) / p⟩

def mulUlUl2ul (a b : ℕ) : DoubleWord := .mul (2 ^ 64) a b

def addUl2ul (r : DoubleWord) (a : ℕ) : DoubleWord := .add (2 ^ 64) r ⟨a, 0⟩

def add2ul2ul (r a : DoubleWord) : DoubleWord := .add (2 ^ 64) r a

def accumulate (n : List ℕ) (d : Divisor) : ℕ → DoubleWord
  | 0 =>
    let x := mulUlUl2ul (n.getD 1 0) (d.w.getD 0 0)
    addUl2ul ⟨n.getD 0 0, x.high⟩ x.low
  | j + 1 => add2ul2ul (accumulate n d j) (mulUlUl2ul (n.getD (j + 2) 0) (d.w.getD (j + 1) 0))

def reduce (r : DoubleWord) (w0 : ℕ) : ℕ :=
  let x0 := r.high * w0 % 2 ^ 64
  let x0 := (x0 + r.low) % 2 ^ 64
  if x0 < r.low then (x0 + w0) % 2 ^ 64 else x0

def trialdivDiv (words : ℕ) (n : List ℕ) (d : Divisor) : Bool :=
  decide (reduce (accumulate n d (words - 2)) (d.w.getD 0 0) * d.pinv % 2 ^ 64 ≤ d.plim)

def trialdivDiv2 : List ℕ → Divisor → Bool := trialdivDiv 2
def trialdivDiv3 : List ℕ → Divisor → Bool := trialdivDiv 3
def trialdivDiv4 : List ℕ → Divisor → Bool := trialdivDiv 4
def trialdivDiv5 : List ℕ → Divisor → Bool := trialdivDiv 5
def trialdivDiv6 : List ℕ → Divisor → Bool := trialdivDiv 6
def trialdivDiv7 : List ℕ → Divisor → Bool := trialdivDiv 7
def trialdivDiv8 : List ℕ → Divisor → Bool := trialdivDiv 8

def divisible (n : List ℕ) (d : Divisor) : Bool :=
  match n.length with
  | 1 => decide (n.getD 0 0 * d.pinv % 2 ^ 64 ≤ d.plim)
  | 2 => trialdivDiv2 n d
  | 3 => trialdivDiv3 n d
  | 4 => trialdivDiv4 n d
  | 5 => trialdivDiv5 n d
  | 6 => trialdivDiv6 n d
  | 7 => trialdivDiv7 n d
  | 8 => trialdivDiv8 n d
  | _ => true

/-! ## The precomputed values -/

theorem maxP_eq : maxP = 1623345049 := by decide

def divisor (p : ℕ) : Divisor :=
  ⟨p, (List.range (maxlen - 1)).map fun i => 2 ^ (64 * (i + 1)) % p, ularithInvmod p, (2 ^ 64 - 1) / p⟩

theorem div2ulUlUlR_ok (ndebug : Bool) {a1 a2 b : ℕ} (less : a2 < b) :
    div2ulUlUlR ndebug a1 a2 b = .ok ((a1 + a2 * 2 ^ 64) % b) := by
  rw [div2ulUlUlR, assert_of less, if_neg (show ¬ b ≤ a2 by omega)]
  rfl

theorem nextPowers_ok (ndebug : Bool) {p : ℕ} (positive : 0 < p) (count i : ℕ) :
    nextPowers ndebug p count (2 ^ (64 * i) % p) =
      .ok ((List.range count).map fun j => 2 ^ (64 * (i + j + 1)) % p) := by
  induction count generalizing i with
  | zero => rfl
  | succ count ih =>
    have step : (0 + 2 ^ (64 * i) % p * 2 ^ 64) % p = 2 ^ (64 * (i + 1)) % p := by
      rw [Nat.zero_add, Nat.mod_mul_mod, ← pow_add, Nat.mul_succ]
    have list : 2 ^ (64 * (i + 1)) % p :: (List.range count).map (fun j => 2 ^ (64 * (i + 1 + j + 1)) % p) =
        (List.range (count + 1)).map fun j => 2 ^ (64 * (i + j + 1)) % p := by
      rw [List.range_succ_eq_map, List.map_cons, List.map_map]
      have rest : ∀ j, i + 1 + j + 1 = i + j.succ + 1 := fun j => by omega
      simp only [rest]
      rfl
    rw [nextPowers, div2ulUlUlR_ok ndebug (Nat.mod_lt _ positive), step, ← list]
    simp only [bind, Except.bind, pure, Except.pure, ih (i + 1)]

theorem initDivisor_ok (ndebug : Bool) {p : ℕ} (odd : p % 2 = 1) (le : p ≤ maxP) :
    initDivisor ndebug p = .ok (divisor p) := by
  have first : firstPower ndebug p = .ok (2 ^ (64 * 1) % p) := by
    rw [firstPower]
    by_cases one : p = 1
    · rw [if_pos one, one, Nat.mod_one]
    · rw [if_neg one, div2ulUlUlR_ok ndebug (by omega), Nat.zero_add, Nat.one_mul, Nat.mul_one]
  have list : 2 ^ (64 * 1) % p :: (List.range (maxlen - 2)).map (fun j => 2 ^ (64 * (1 + j + 1)) % p) =
      (List.range (maxlen - 1)).map fun j => 2 ^ (64 * (j + 1)) % p := by
    rw [show maxlen - 1 = (maxlen - 2) + 1 from rfl, List.range_succ_eq_map, List.map_cons, List.map_map]
    have rest : ∀ j, 1 + j + 1 = j.succ + 1 := fun j => by omega
    simp only [rest]
    rfl
  rw [initDivisor, assert_of odd, assert_of le, first, divisor, ← list]
  simp only [bind, Except.bind, pure, Except.pure, nextPowers_ok ndebug (show 0 < p by omega)]

theorem divisor_w {p i : ℕ} (lt : i < maxlen - 1) : (divisor p).w.getD i 0 = 2 ^ (64 * (i + 1)) % p := by
  rw [divisor, List.getD_eq_getElem _ _ (by rw [List.length_map, List.length_range]; exact lt), List.getElem_map,
    List.getElem_range]

def exactSum (n : List ℕ) (d : Divisor) : ℕ → ℕ
  | 0 => n.getD 0 0 + n.getD 1 0 * d.w.getD 0 0
  | j + 1 => exactSum n d j + n.getD (j + 2) 0 * d.w.getD (j + 1) 0

section
variable {p : ℕ} {n : List ℕ}

theorem word_le (words : ∀ x ∈ n, x < 2 ^ 64) (i : ℕ) : n.getD i 0 ≤ 2 ^ 64 - 1 := by
  rcases Nat.lt_or_ge i n.length with lt | ge
  · rw [List.getD_eq_getElem _ _ lt]
    exact Nat.le_sub_one_of_lt (words _ (List.getElem_mem lt))
  · rw [List.getD_eq_default _ _ ge]
    exact Nat.zero_le _

theorem product_le (words : ∀ x ∈ n, x < 2 ^ 64) (positive : 0 < p) {i : ℕ} (k : ℕ) (lt : i < maxlen - 1) :
    n.getD k 0 * (divisor p).w.getD i 0 ≤ (2 ^ 64 - 1) * (p - 1) := by
  rw [divisor_w lt]
  exact Nat.mul_le_mul (word_le words k) (Nat.le_sub_one_of_lt (Nat.mod_lt _ positive))

theorem exactSum_le (words : ∀ x ∈ n, x < 2 ^ 64) (positive : 0 < p) {j : ℕ} (lt : j < maxlen - 1) :
    exactSum n (divisor p) j ≤ (2 ^ 64 - 1) * ((j + 1) * (p - 1) + 1) := by
  induction j with
  | zero =>
    have first := word_le words 0
    have second := product_le words positive 1 lt
    rw [exactSum]
    linarith
  | succ j ih =>
    have before := ih (by omega)
    have next := product_le words positive (j + 2) lt
    rw [exactSum]
    calc
      exactSum n (divisor p) j + n.getD (j + 2) 0 * (divisor p).w.getD (j + 1) 0 ≤
          (2 ^ 64 - 1) * ((j + 1) * (p - 1) + 1) + (2 ^ 64 - 1) * (p - 1) := Nat.add_le_add before next
      _ = (2 ^ 64 - 1) * ((j + 1 + 1) * (p - 1) + 1) := by ring

theorem exactSum_lt (words : ∀ x ∈ n, x < 2 ^ 64) (positive : 0 < p) (le : p ≤ maxP) {j : ℕ}
    (lt : j < maxlen - 1) : exactSum n (divisor p) j < 2 ^ 64 * 2 ^ 64 := by
  have sum := exactSum_le words positive lt
  rw [maxP_eq] at le
  have factor : (j + 1) * (p - 1) + 1 ≤ 7 * 1623345048 + 1 :=
    Nat.add_le_add_right (Nat.mul_le_mul lt (show p - 1 ≤ 1623345048 by omega)) 1
  calc
    exactSum n (divisor p) j ≤ (2 ^ 64 - 1) * ((j + 1) * (p - 1) + 1) := sum
    _ ≤ (2 ^ 64 - 1) * (7 * 1623345048 + 1) := Nat.mul_le_mul_left _ factor
    _ < 2 ^ 64 * 2 ^ 64 := by norm_num

theorem accumulate_value (words : ∀ x ∈ n, x < 2 ^ 64) (positive : 0 < p) (le : p ≤ maxP) {j : ℕ}
    (lt : j < maxlen - 1) : (accumulate n (divisor p) j).value (2 ^ 64) = exactSum n (divisor p) j := by
  induction j with
  | zero =>
    have fits := exactSum_lt words positive le lt
    have product := DoubleWord.mul_value (B := 2 ^ 64) (n.getD 1 0) ((divisor p).w.getD 0 0)
    rw [exactSum, ← product] at fits
    rw [accumulate, exactSum, ← product]
    simp only [mulUlUl2ul, addUl2ul]
    rw [DoubleWord.add_value_of_lt (by simp only [DoubleWord.value] at fits ⊢; omega)]
    simp only [DoubleWord.value]
    omega
  | succ j ih =>
    have before := ih (by omega)
    have fits := exactSum_lt words positive le lt
    rw [exactSum, ← before, ← DoubleWord.mul_value (B := 2 ^ 64)] at fits
    rw [accumulate, exactSum, add2ul2ul, mulUlUl2ul, DoubleWord.add_value_of_lt fits, before, DoubleWord.mul_value]

theorem accumulate_low_lt (n : List ℕ) (d : Divisor) (j : ℕ) : (accumulate n d j).low < 2 ^ 64 := by
  cases j with
  | zero => exact DoubleWord.add_low_lt (by norm_num) _ _
  | succ j => exact DoubleWord.add_low_lt (by norm_num) _ _

theorem accumulate_high_le (words : ∀ x ∈ n, x < 2 ^ 64) (positive : 0 < p) (le : p ≤ maxP) {j : ℕ}
    (lt : j < maxlen - 1) : (accumulate n (divisor p) j).high ≤ 7 * (p - 1) := by
  have sum := exactSum_le words positive lt
  rw [← accumulate_value words positive le lt] at sum
  have high := DoubleWord.high_le (by norm_num) sum
  exact high.trans (Nat.mul_le_mul_right _ lt)

theorem ofDigits_take_succ {B j : ℕ} (lt : j < n.length) :
    Nat.ofDigits B (n.take (j + 1)) = Nat.ofDigits B (n.take j) + n.getD j 0 * B ^ j := by
  rw [List.take_add_one, List.getElem?_eq_getElem lt, Option.toList_some, Nat.ofDigits_append, Nat.ofDigits_singleton,
    List.length_take_of_le lt.le, List.getD_eq_getElem _ _ lt, mul_comm]

theorem exactSum_modEq {j : ℕ} (le : j + 2 ≤ n.length) (short : n.length ≤ maxlen) :
    exactSum n (divisor p) j ≡ Nat.ofDigits (2 ^ 64) (n.take (j + 2)) [MOD p] := by
  induction j with
  | zero =>
    rw [exactSum, divisor_w (by decide), ofDigits_take_succ (show 1 < n.length by omega),
      ofDigits_take_succ (show 0 < n.length by omega), List.take_zero, Nat.ofDigits_nil]
    simp only [Nat.zero_add, Nat.mul_one, pow_zero, pow_one]
    exact ((Nat.mod_modEq _ _).mul_left _).add_left _
  | succ j ih =>
    have width : j + 1 < maxlen - 1 := by
      rw [maxlen] at short ⊢
      omega
    rw [exactSum, divisor_w width, ofDigits_take_succ (show j + 2 < n.length by omega), ← pow_mul]
    exact (ih (by omega)).add ((Nat.mod_modEq _ _).mul_left _)

end

/-! ## One word in place of two -/

theorem reduce_spec {p w0 : ℕ} {r : DoubleWord} (power : w0 ≡ 2 ^ 64 [MOD p]) (low : r.low < 2 ^ 64)
    (fits : r.high * w0 + w0 < 2 ^ 64) : reduce r w0 < 2 ^ 64 ∧ reduce r w0 ≡ r.value (2 ^ 64) [MOD p] := by
  have product : r.high * w0 % 2 ^ 64 = r.high * w0 := Nat.mod_eq_of_lt (by omega)
  have exact : r.high * w0 + r.low ≡ r.value (2 ^ 64) [MOD p] := by
    rw [DoubleWord.value, add_comm, mul_comm (2 ^ 64)]
    exact (power.mul_left _).add_left _
  have small := Nat.mod_lt (r.high * w0 + r.low) (show 0 < 2 ^ 64 by norm_num)
  simp only [reduce, product]
  by_cases carry : 2 ^ 64 ≤ r.high * w0 + r.low
  · have wrapped : (r.high * w0 + r.low) % 2 ^ 64 = r.high * w0 + r.low - 2 ^ 64 := by omega
    rw [wrapped, if_pos (by omega), Nat.mod_eq_of_lt (by omega)]
    refine ⟨by omega, ?_⟩
    have whole : r.high * w0 + r.low - 2 ^ 64 + 2 ^ 64 = r.high * w0 + r.low := Nat.sub_add_cancel carry
    calc
      r.high * w0 + r.low - 2 ^ 64 + w0 ≡ r.high * w0 + r.low - 2 ^ 64 + 2 ^ 64 [MOD p] := power.add_left _
      _ = r.high * w0 + r.low := whole
      _ ≡ r.value (2 ^ 64) [MOD p] := exact
  · have kept : (r.high * w0 + r.low) % 2 ^ 64 = r.high * w0 + r.low := Nat.mod_eq_of_lt (by omega)
    rw [kept, if_neg (by omega)]
    exact ⟨by omega, exact⟩

structure NoOverflow (n : List ℕ) (d : Divisor) : Prop where
  sums : ∀ j, j + 2 ≤ n.length → (accumulate n d j).value (2 ^ 64) = exactSum n d j ∧
    exactSum n d j < 2 ^ 64 * 2 ^ 64
  product : 2 ≤ n.length → (accumulate n d (n.length - 2)).high * d.w.getD 0 0 < 2 ^ 64
  carry : 2 ≤ n.length →
    (accumulate n d (n.length - 2)).high * d.w.getD 0 0 + (accumulate n d (n.length - 2)).low < 2 ^ 64 ∨
      (accumulate n d (n.length - 2)).high * d.w.getD 0 0 + (accumulate n d (n.length - 2)).low - 2 ^ 64 +
        d.w.getD 0 0 < 2 ^ 64

section
variable {p : ℕ} {n : List ℕ}

theorem high_mul_add_lt (words : ∀ x ∈ n, x < 2 ^ 64) (positive : 0 < p) (le : p ≤ maxP) {j : ℕ}
    (lt : j < maxlen - 1) :
    (accumulate n (divisor p) j).high * (divisor p).w.getD 0 0 + (divisor p).w.getD 0 0 < 2 ^ 64 := by
  have high := accumulate_high_le words positive le lt
  have w0 : (divisor p).w.getD 0 0 ≤ p - 1 := by
    rw [divisor_w (by decide)]
    exact Nat.le_sub_one_of_lt (Nat.mod_lt _ positive)
  rw [maxP_eq] at le
  have product := Nat.mul_le_mul (high.trans (show 7 * (p - 1) ≤ 7 * 1623345048 by omega))
    (w0.trans (show p - 1 ≤ 1623345048 by omega))
  omega

theorem noOverflow (words : ∀ x ∈ n, x < 2 ^ 64) (short : n.length ≤ maxlen) (positive : 0 < p) (le : p ≤ maxP) :
    NoOverflow n (divisor p) := by
  have index (j : ℕ) (inside : j + 2 ≤ n.length) : j < maxlen - 1 := by
    rw [maxlen] at short ⊢
    omega
  constructor
  · intro j inside
    exact ⟨accumulate_value words positive le (index j inside), exactSum_lt words positive le (index j inside)⟩
  · intro two
    have fits := high_mul_add_lt words positive le (index (n.length - 2) (by omega))
    omega
  · intro two
    have fits := high_mul_add_lt words positive le (index (n.length - 2) (by omega))
    have low := accumulate_low_lt n (divisor p) (n.length - 2)
    omega

theorem reduce_accumulate (words : ∀ x ∈ n, x < 2 ^ 64) (two : 2 ≤ n.length) (short : n.length ≤ maxlen)
    (positive : 0 < p) (le : p ≤ maxP) :
    reduce (accumulate n (divisor p) (n.length - 2)) ((divisor p).w.getD 0 0) < 2 ^ 64 ∧
      reduce (accumulate n (divisor p) (n.length - 2)) ((divisor p).w.getD 0 0) ≡ Nat.ofDigits (2 ^ 64) n [MOD p] := by
  have index : n.length - 2 < maxlen - 1 := by
    rw [maxlen] at short ⊢
    omega
  have power : (divisor p).w.getD 0 0 ≡ 2 ^ 64 [MOD p] := by
    rw [divisor_w (by decide)]
    exact Nat.mod_modEq _ _
  obtain ⟨lt, same⟩ := reduce_spec power (accumulate_low_lt n _ _) (high_mul_add_lt words positive le index)
  refine ⟨lt, same.trans ?_⟩
  have sum := exactSum_modEq (p := p) (show n.length - 2 + 2 ≤ n.length by omega) short
  rw [Nat.sub_add_cancel two, List.take_length] at sum
  rwa [accumulate_value words positive le index]

theorem trialdivDiv_iff (words : ∀ x ∈ n, x < 2 ^ 64) (two : 2 ≤ n.length) (short : n.length ≤ maxlen)
    (odd : p % 2 = 1) (le : p ≤ maxP) :
    trialdivDiv n.length n (divisor p) = true ↔ p ∣ Nat.ofDigits (2 ^ 64) n := by
  have positive : 0 < p := by omega
  obtain ⟨lt, same⟩ := reduce_accumulate words two short positive le
  rw [trialdivDiv, decide_eq_true_eq, ← (same.dvd_iff (dvd_refl p))]
  exact mul_inv_le_iff positive (ularithInvmod_spec odd) lt

theorem divisible_iff (words : ∀ x ∈ n, x < 2 ^ 64) (one : 1 ≤ n.length) (short : n.length ≤ maxlen)
    (odd : p % 2 = 1) (le : p ≤ maxP) : divisible n (divisor p) = true ↔ p ∣ Nat.ofDigits (2 ^ 64) n := by
  have positive : 0 < p := by omega
  have test := fun two => trialdivDiv_iff words two short odd le
  rw [maxlen] at short
  unfold divisible
  split
  · rename_i length
    obtain ⟨x, rfl⟩ := List.length_eq_one_iff.mp length
    rw [decide_eq_true_eq, Nat.ofDigits_singleton]
    exact mul_inv_le_iff positive (ularithInvmod_spec odd) (words x (List.mem_singleton_self x))
  iterate 7
    · rename_i length
      rw [length] at test
      exact test (by norm_num)
  · exfalso
    simp only [imp_false] at *
    omega

end

/-- Every odd number up to the bound is accepted, and every test for it, of one to eight words, is right without
an overflow. -/
theorem trialdiv_exact (ndebug : Bool) {p : ℕ} (odd : p % 2 = 1) (le : p ≤ maxP) :
    ∃ d, initDivisor ndebug p = .ok d ∧ ∀ n : List ℕ, (∀ x ∈ n, x < 2 ^ 64) → 1 ≤ n.length → n.length ≤ maxlen →
      (divisible n d = true ↔ p ∣ Nat.ofDigits (2 ^ 64) n) ∧ NoOverflow n d :=
  ⟨divisor p, initDivisor_ok ndebug odd le, fun _ words one short =>
    ⟨divisible_iff words one short odd le, noOverflow words short (by omega) le⟩⟩

theorem trialdiv_exact_seven :
    ∃ d, initDivisor false 7 = .ok d ∧ ∀ n : List ℕ, (∀ x ∈ n, x < 2 ^ 64) → 1 ≤ n.length → n.length ≤ maxlen →
      (divisible n d = true ↔ 7 ∣ Nat.ofDigits (2 ^ 64) n) ∧ NoOverflow n d :=
  trialdiv_exact false (p := 7) (by decide) (by decide)

end CadoNfs.Sieve.Trialdiv
