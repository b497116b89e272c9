import Mathlib

/-!
# Division to the nearest integer

`mpz_ndiv_qr`, `mpz_ndiv_q`, `mpz_ndiv_r` and `mpz_rdiv_q` of `utils/gmp_aux.c`. A variable may be an input and an
output.
-/

namespace CadoNfs.Utils.Ndiv

abbrev Mem := ℕ → ℤ

def mpzFdivQr (q r n d : ℕ) (mem : Mem) : Mem :=
  Function.update (Function.update mem q ((mem n).fdiv (mem d))) r ((mem n).fmod (mem d))

def mpzNdivQr (q r n d : ℕ) (mem : Mem) : Mem :=
  let mem := mpzFdivQr q r n d mem
  let mem := Function.update mem r (mem r * 2)
  let above : Prop := (mem d).natAbs < (mem r).natAbs
  let mem := Function.update mem r (mem r / 2)
  if above then
    let mem := Function.update mem q (mem q + 1)
    Function.update mem r (mem r - mem d)
  else mem

def mpzNdivQ (r q n d : ℕ) (mem : Mem) : Mem := mpzNdivQr q r n d mem

def mpzSize (x : ℤ) : ℕ := (Nat.digits (2 ^ 64) x.natAbs).length

def mpzGetlimbn (x : ℤ) (n : ℕ) : BitVec 64 := .ofNat 64 (x.natAbs / 2 ^ (64 * n))

def doubleAbove (a c : ℤ) : ℕ → Bool
  | 0 => false
  | n + 1 =>
    let cj := mpzGetlimbn c n
    let aj := mpzGetlimbn a n <<< 1
    let aj := if 0 < n then aj ||| mpzGetlimbn a (n - 1) >>> 63 else aj
    if cj < aj then true
    else if aj < cj then false
    else doubleAbove a c n

def mpzNdivR (a b c : ℕ) (mem : Mem) : Mem :=
  let mem := Function.update mem a (mem b % mem c)
  let n := mpzSize (mem c)
  if n = 0 then Function.update mem a 0
  else
    let sub := if 1#64 <<< 63 ≤ mpzGetlimbn (mem a) (n - 1) then true else doubleAbove (mem a) (mem c) n
    if sub then Function.update mem a (mem a - mem c) else mem

def mpzRdivQ (q a b : ℕ) (mem : Mem) : Mem :=
  let r := (mem a).fmod (mem b)
  let mem := Function.update mem q ((mem a).fdiv (mem b))
  let r := r * 2
  if 0 ≤ (r - mem b).sign * (mem b).sign then Function.update mem q (mem q + 1) else mem

/-! ## The limbs of the double -/

theorem toNat_getlimbn (x : ℤ) (n : ℕ) : (mpzGetlimbn x n).toNat = x.natAbs / 2 ^ (64 * n) % 2 ^ 64 :=
  BitVec.toNat_ofNat _ _

theorem double_low (x : ℤ) : mpzGetlimbn x 0 <<< 1 = mpzGetlimbn (2 * x) 0 := by
  apply BitVec.eq_of_toNat_eq
  rw [BitVec.toNat_shiftLeft, toNat_getlimbn, toNat_getlimbn, Nat.shiftLeft_eq, Nat.mod_mul_mod, Int.natAbs_mul]
  simp [Nat.mul_comm]

theorem double_next (x : ℤ) (n : ℕ) :
    mpzGetlimbn x (n + 1) <<< 1 ||| mpzGetlimbn x n >>> 63 = mpzGetlimbn (2 * x) (n + 1) := by
  apply BitVec.eq_of_toNat_eq
  have power : 2 ^ (64 * (n + 1)) = 2 ^ (64 * n) * 2 ^ 64 := by rw [Nat.mul_succ, pow_add]
  have half : 2 * x.natAbs / (2 ^ (64 * n) * 2 ^ 64) = x.natAbs / 2 ^ (64 * n) / 2 ^ 63 := by
    rw [show 2 ^ (64 * n) * 2 ^ 64 = 2 * (2 ^ (64 * n) * 2 ^ 63) by ring, Nat.mul_div_mul_left _ _ two_pos,
      Nat.div_div_eq_div_mul]
  rw [BitVec.toNat_or, BitVec.toNat_shiftLeft, BitVec.toNat_ushiftRight, toNat_getlimbn, toNat_getlimbn,
    toNat_getlimbn, Nat.shiftLeft_eq, Nat.shiftRight_eq_div_pow, Int.natAbs_mul, power, ← Nat.div_div_eq_div_mul]
  change _ = 2 * x.natAbs / (2 ^ (64 * n) * 2 ^ 64) % 2 ^ 64
  rw [half]
  generalize x.natAbs / 2 ^ (64 * n) = y
  have high : y / 2 ^ 64 % 2 ^ 64 * 2 ^ 1 % 2 ^ 64 = 2 ^ 1 * (y / 2 ^ 64 % 2 ^ 63) := by omega
  rw [high, ← Nat.two_pow_add_eq_or_of_lt (show y % 2 ^ 64 / 2 ^ 63 < 2 ^ 1 by omega)]
  omega

theorem add_mul_lt_iff {w u v h k : ℕ} (left : u < w) (right : v < w) :
    u + w * h < v + w * k ↔ h < k ∨ h = k ∧ u < v := by
  rcases lt_trichotomy h k with less | rfl | more
  · have step := Nat.mul_le_mul_left w less
    rw [Nat.mul_succ] at step
    exact iff_of_true (by omega) (.inl less)
  · simp
  · have step := Nat.mul_le_mul_left w more
    rw [Nat.mul_succ] at step
    exact iff_of_false (by omega) (by omega)

theorem doubleAbove_eq (a c : ℤ) (n : ℕ) :
    doubleAbove a c n = decide (c.natAbs % 2 ^ (64 * n) < (2 * a).natAbs % 2 ^ (64 * n)) := by
  induction n with
  | zero => simp [doubleAbove, Nat.mod_one]
  | succ n ih =>
    have limb : (if 0 < n then mpzGetlimbn a n <<< 1 ||| mpzGetlimbn a (n - 1) >>> 63 else mpzGetlimbn a n <<< 1) =
        mpzGetlimbn (2 * a) n := by
      cases n with
      | zero => exact double_low a
      | succ n => exact double_next a n
    have power : 2 ^ (64 * (n + 1)) = 2 ^ (64 * n) * 2 ^ 64 := by rw [Nat.mul_succ, pow_add]
    have low (x : ℕ) : x % 2 ^ (64 * n) < 2 ^ (64 * n) := Nat.mod_lt x (by positivity)
    rw [doubleAbove]
    simp only [limb, ih, BitVec.lt_def, toNat_getlimbn, power, Nat.mod_mul, add_mul_lt_iff (low _) (low _)]
    split_ifs with less more
    · rw [decide_eq_true (.inl less)]
    · rw [decide_eq_false (by omega)]
    · rw [decide_eq_decide]
      exact ⟨fun below => .inr ⟨by omega, below⟩, fun cases => by omega⟩

theorem lt_size (x : ℤ) : x.natAbs < 2 ^ (64 * mpzSize x) := by
  rw [pow_mul]
  exact Nat.lt_base_pow_length_digits (by norm_num)

theorem size_pos {x : ℤ} (positive : 0 < x) : 0 < mpzSize x :=
  List.length_pos_iff.mpr (Nat.digits_ne_nil_iff_ne_zero.mpr (Int.natAbs_ne_zero.mpr positive.ne'))

theorem sub_eq {a c : ℤ} (nonneg : 0 ≤ a) (less : a < c) :
    (if 1#64 <<< 63 ≤ mpzGetlimbn a (mpzSize c - 1) then true else doubleAbove a c (mpzSize c)) =
      decide (c < 2 * a) := by
  obtain ⟨n, size⟩ := Nat.exists_eq_succ_of_ne_zero (size_pos (nonneg.trans_lt less)).ne'
  have bound := lt_size c
  have power : 2 ^ (64 * (n + 1)) = 2 ^ (64 * n) * 2 ^ 64 := by rw [Nat.mul_succ, pow_add]
  rw [size, Nat.succ_eq_add_one, power] at bound
  have top : 1#64 <<< 63 ≤ mpzGetlimbn a n ↔ 2 ^ (64 * n) * 2 ^ 64 ≤ 2 * a.natAbs := by
    have small : a.natAbs / 2 ^ (64 * n) < 2 ^ 64 := Nat.div_lt_of_lt_mul (by omega)
    rw [BitVec.le_def, toNat_getlimbn, Nat.mod_eq_of_lt small]
    change 2 ^ 63 ≤ _ ↔ _
    rw [Nat.le_div_iff_mul_le (by positivity)]
    omega
  rw [size, Nat.succ_eq_add_one, Nat.add_sub_cancel]
  split_ifs with above
  · have large := top.mp above
    exact (decide_eq_true (by omega)).symm
  · have fits : (2 * a).natAbs < 2 ^ (64 * n) * 2 ^ 64 := by
      have small := mt top.mpr above
      omega
    rw [doubleAbove_eq, power, Nat.mod_eq_of_lt bound, Nat.mod_eq_of_lt fits, decide_eq_decide]
    omega

def nearestRemainder (x d : ℤ) : ℤ := if d < 2 * (x % d) then x % d - d else x % d

theorem mpzNdivR_eq {mem : Mem} {a b c : ℕ} (apart : a ≠ c) (positive : 0 < mem c) :
    mpzNdivR a b c mem a = nearestRemainder (mem b) (mem c) := by
  have low := Int.emod_nonneg (mem b) positive.ne'
  have high := Int.emod_lt_of_pos (mem b) positive
  unfold mpzNdivR
  simp only [Function.update_self, Function.update_of_ne apart.symm, (size_pos positive).ne', if_false,
    sub_eq low high, decide_eq_true_eq]
  rw [nearestRemainder]
  split_ifs
  · exact Function.update_self ..
  · exact Function.update_self ..

theorem mpzNdivQr_eq {mem : Mem} {q r n d : ℕ} (apart : q ≠ r) (left : d ≠ q) (right : d ≠ r) :
    mem n = mpzNdivQr q r n d mem q * mem d + mpzNdivQr q r n d mem r ∧
      mpzNdivQr q r n d mem r = if (mem d).natAbs < ((mem n).fmod (mem d) * 2).natAbs then (mem n).fmod (mem d) - mem d
        else (mem n).fmod (mem d) := by
  have division := Int.fmod_add_mul_fdiv (mem n) (mem d)
  unfold mpzNdivQr mpzFdivQr
  simp only [Function.update_self, Function.update_of_ne right, Function.update_of_ne left]
  rw [Int.mul_ediv_cancel _ two_ne_zero]
  split_ifs
  · simp only [Function.update_self, Function.update_of_ne apart, Function.update_of_ne apart.symm]
    exact ⟨by linarith, trivial⟩
  · simp only [Function.update_self, Function.update_of_ne apart]
    exact ⟨by linarith, trivial⟩

/-- The comment on `mpz_ndiv_q`. -/
theorem mpzNdivQ_close {mem : Mem} {r q n d : ℕ} (apart : q ≠ r) (left : d ≠ q) (right : d ≠ r) (nonzero : mem d ≠ 0) :
    2 * (mem n - mpzNdivQ r q n d mem q * mem d).natAbs ≤ (mem d).natAbs := by
  obtain ⟨exact, value⟩ := @mpzNdivQr_eq mem q r n d apart left right
  have remainder : mem n - mpzNdivQ r q n d mem q * mem d = mpzNdivQr q r n d mem r := by
    rw [mpzNdivQ]
    linarith
  rw [remainder, value]
  rcases nonzero.lt_or_gt with negative | positive
  · have low := Int.fmod_nonneg_of_pos (-mem n) (neg_pos.mpr negative)
    have high := Int.fmod_lt_of_pos (-mem n) (neg_pos.mpr negative)
    rw [← neg_neg (mem n), ← neg_neg (mem d), Int.neg_fmod_neg (-mem n) (-mem d)]
    split_ifs <;> omega
  · have low := Int.fmod_nonneg_of_pos (mem n) positive
    have high := Int.fmod_lt_of_pos (mem n) positive
    split_ifs <;> omega

theorem mpzNdivQ_close_seven :
    2 * (7 - mpzNdivQ 1 0 2 3 (fun i => if i = 3 then -3 else 7) 0 * -3).natAbs ≤ 3 :=
  @mpzNdivQ_close (fun i => if i = 3 then -3 else 7) 1 0 2 3 (by decide) (by decide) (by decide) (by decide)

theorem mpzNdivQr_remainder {mem : Mem} {q r n d : ℕ} (apart : q ≠ r) (left : d ≠ q) (right : d ≠ r)
    (positive : 0 < mem d) : mpzNdivQr q r n d mem r = nearestRemainder (mem n) (mem d) := by
  have low := Int.emod_nonneg (mem n) positive.ne'
  rw [(mpzNdivQr_eq apart left right).2, Int.fmod_eq_emod_of_nonneg _ positive.le, nearestRemainder]
  exact if_congr (by omega) rfl rfl

/-! ## The quotient of the lattice reduction -/

theorem half_open {y b : ℚ} (positive : 0 < b) (low : -b ≤ 2 * y) (high : 2 * y < b) :
    -1 / 2 ≤ y / b ∧ y / b < 1 / 2 := by
  rw [le_div_iff₀ positive, div_lt_iff₀ positive]
  constructor <;> linarith

theorem mpzRdivQ_value {mem : Mem} {q a b : ℕ} (apart : q ≠ b) : mpzRdivQ q a b mem q =
    if 0 ≤ ((mem a).fmod (mem b) * 2 - mem b).sign * (mem b).sign then (mem a).fdiv (mem b) + 1
    else (mem a).fdiv (mem b) := by
  simp only [mpzRdivQ, Function.update_of_ne apart.symm, Function.update_self]
  split_ifs
  · exact Function.update_self ..
  · exact Function.update_self ..

theorem mpzRdivQ_nearest {mem : Mem} {q a b : ℕ} (apart : q ≠ b) (nonzero : mem b ≠ 0) :
    -1 / 2 ≤ (mem a / mem b : ℚ) - mpzRdivQ q a b mem q ∧ (mem a / mem b : ℚ) - mpzRdivQ q a b mem q < 1 / 2 := by
  have division := Int.fmod_add_mul_fdiv (mem a) (mem b)
  have value := @mpzRdivQ_value mem q a b apart
  generalize mpzRdivQ q a b mem q = k at value
  have nonzero' : (mem b : ℚ) ≠ 0 := Int.cast_ne_zero.mpr nonzero
  have rest : (mem a / mem b : ℚ) - k = (mem a - k * mem b : ℤ) / mem b := by
    push_cast
    field_simp
  rw [rest]
  rcases nonzero.lt_or_gt with negative | positive
  · have low := Int.fmod_nonneg_of_pos (-mem a) (neg_pos.mpr negative)
    have high := Int.fmod_lt_of_pos (-mem a) (neg_pos.mpr negative)
    have flip := Int.neg_fmod_neg (-mem a) (-mem b)
    rw [neg_neg, neg_neg] at flip
    simp only [Int.sign_eq_neg_one_of_neg negative, mul_neg_one, neg_nonneg, Int.sign_nonpos_iff] at value
    have near : - -mem b ≤ 2 * -(mem a - k * mem b) ∧ 2 * -(mem a - k * mem b) < -mem b := by
      rw [value]
      split_ifs
      · constructor <;> linarith
      · constructor <;> linarith
    have opposite := half_open (y := ((-(mem a - k * mem b) : ℤ) : ℚ)) (b := ((-mem b : ℤ) : ℚ))
      (by exact_mod_cast neg_pos.mpr negative) (by exact_mod_cast near.1) (by exact_mod_cast near.2)
    rwa [Int.cast_neg, Int.cast_neg, neg_div_neg_eq] at opposite
  · have low := Int.fmod_nonneg_of_pos (mem a) positive
    have high := Int.fmod_lt_of_pos (mem a) positive
    simp only [Int.sign_eq_one_of_pos positive, mul_one, Int.sign_nonneg_iff] at value
    have near : -mem b ≤ 2 * (mem a - k * mem b) ∧ 2 * (mem a - k * mem b) < mem b := by
      rw [value]
      split_ifs
      · constructor <;> linarith
      · constructor <;> linarith
    exact half_open (by exact_mod_cast positive) (by exact_mod_cast near.1) (by exact_mod_cast near.2)

def Nearest (x d y r : ℤ) : Prop := x = y * d + r ∧ -d ≤ 2 * r ∧ 2 * r < d

/-- What is promised of a numerator and a positive divisor. An output may be the variable of the numerator, and not that
of the divisor. -/
structure NdivExact (x d : ℤ) : Prop where
  qr : ∀ (mem : Mem) (q r n e : ℕ), mem n = x → mem e = d → q ≠ r → e ≠ q → e ≠ r →
    Nearest x d (mpzNdivQr q r n e mem q) (mpzNdivQr q r n e mem r)
  r : ∀ (mem : Mem) (a b c : ℕ), mem b = x → mem c = d → a ≠ c → ∃ y, Nearest x d y (mpzNdivR a b c mem a)
  agree : ∀ (mem mem' : Mem) (q r n e a b c : ℕ), mem n = x → mem e = d → q ≠ r → e ≠ q → e ≠ r → mem' b = x →
    mem' c = d → a ≠ c → mpzNdivQr q r n e mem r = mpzNdivR a b c mem' a
  rdiv : ∀ (mem : Mem) (q a b : ℕ), mem a = x → mem b ≠ 0 → q ≠ b →
    -1 / 2 ≤ (x / mem b : ℚ) - mpzRdivQ q a b mem q ∧ (x / mem b : ℚ) - mpzRdivQ q a b mem q < 1 / 2

/-- The remainder is in the half-open interval exactly if the numerator is not halfway between two multiples. -/
theorem ndivExact_iff {x d : ℤ} (positive : 0 < d) : NdivExact x d ↔ 2 * (x % d) ≠ d := by
  have division := Int.mul_ediv_add_emod x d
  have low := Int.emod_nonneg x positive.ne'
  have high := Int.emod_lt_of_pos x positive
  constructor
  · intro exact tie
    obtain ⟨y, -, -, below⟩ := exact.r (fun n => if n = 0 then x else d) 0 0 1 rfl rfl zero_ne_one
    rw [mpzNdivR_eq zero_ne_one positive] at below
    change 2 * nearestRemainder x d < d at below
    rw [nearestRemainder, if_neg (by omega)] at below
    omega
  · intro noTie
    have near : -d ≤ 2 * nearestRemainder x d ∧ 2 * nearestRemainder x d < d := by
      rw [nearestRemainder]
      split_ifs <;> omega
    refine ⟨?_, ?_, ?_, ?_⟩
    · rintro mem q r n e rfl rfl apart left right
      refine ⟨(mpzNdivQr_eq apart left right).1, ?_⟩
      rw [mpzNdivQr_remainder apart left right positive]
      exact near
    · rintro mem a b c rfl rfl apart
      rw [mpzNdivR_eq apart positive]
      refine ⟨if mem c < 2 * (mem b % mem c) then mem b / mem c + 1 else mem b / mem c, ?_, near⟩
      rw [nearestRemainder]
      split_ifs <;> linarith
    · rintro mem mem' q r n e a b c rfl rfl apart left right same same' apart'
      rw [mpzNdivQr_remainder apart left right positive, mpzNdivR_eq apart' (same' ▸ positive), same, same']
    · rintro mem q a b rfl nonzero apart
      exact mpzRdivQ_nearest apart nonzero

theorem ndivExact_iff_third : NdivExact 1 3 ↔ 2 * ((1 : ℤ) % 3) ≠ 3 := ndivExact_iff (by norm_num)

theorem tie_rounds_down : ¬ ∀ x d, 0 < d → NdivExact x d := by
  intro exact
  obtain ⟨-, -, below⟩ := (exact 1 2 two_pos).qr (fun n => if n = 0 then 1 else 2) 2 3 0 1 rfl rfl (by decide)
    (by decide) (by decide)
  revert below
  decide

end CadoNfs.Utils.Ndiv
