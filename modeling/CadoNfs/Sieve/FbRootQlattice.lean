import CadoNfs.Sieve.Arith

/-!
# Roots in a q-lattice

`fb_root_in_qlattice` of `sieve/las-fbroot-qlattice.hpp`: a root modulo a prime power, affine or
projective, is transformed by the basis of a q-lattice.
-/

namespace CadoNfs.Sieve
open Lib

structure QlatticeBasis where
  a0 : BitVec 64
  b0 : BitVec 64
  a1 : BitVec 64
  b1 : BitVec 64

namespace QlatticeBasis

def fits31bits (basis : QlatticeBasis) : Prop :=
  (-2 ^ 31 ≤ basis.a0.toInt ∧ basis.a0.toInt < 2 ^ 31) ∧ (-2 ^ 31 ≤ basis.a1.toInt ∧ basis.a1.toInt < 2 ^ 31) ∧
    (-2 ^ 31 ≤ basis.b0.toInt ∧ basis.b0.toInt < 2 ^ 31) ∧ (-2 ^ 31 ≤ basis.b1.toInt ∧ basis.b1.toInt < 2 ^ 31)

instance (basis : QlatticeBasis) : Decidable basis.fits31bits := inferInstanceAs (Decidable (_ ∧ _))

def det (basis : QlatticeBasis) : ℤ := basis.a0.toInt * basis.b1.toInt - basis.a1.toInt * basis.b0.toInt

end QlatticeBasis

structure FbRootP1 where
  r : BitVec 32
  proj : Bool := false
  deriving DecidableEq

namespace FbRootP1

def isAffine (R : FbRootP1) : Bool := !R.proj
def affineRoot (r : BitVec 32) : FbRootP1 := ⟨r, false⟩
def projectiveRoot (r : BitVec 32) : FbRootP1 := ⟨r, true⟩

end FbRootP1

def fbRootInQlatticePo2 (ndebug : Bool) (p : BitVec 32) (R : FbRootP1) (basis : QlatticeBasis) :
    Except Failure FbRootP1 := do
  assert ndebug (p = p &&& -p)
  let r := R.r.setWidth 64
  let q := p.setWidth 64
  let u : BitVec 32 :=
    if R.isAffine then (r * basis.b1.srem q - basis.a1).setWidth 32
    else (basis.b1 - r * basis.a1.srem q).setWidth 32
  let v : BitVec 32 :=
    if R.isAffine then (basis.a0 - r * basis.b0.srem q).setWidth 32
    else (r * basis.a0.srem q - basis.b0).setWidth 32
  if v &&& 1 ≠ 0 then
    let v ← invmodPo2 ndebug v
    return .affineRoot ((u * v) &&& (p - 1))
  else
    let u ← invmodPo2 ndebug u
    return .projectiveRoot ((u * v) &&& (p - 1))

-- The products `aux2 * u` and `aux2 * v` are passed on as `uint64_t`.
def fbRootInQlattice31bitsWith (carrycheck ndebug : Bool) (p : BitVec 32) (R : FbRootP1) (invp : BitVec 32)
    (basis : QlatticeBasis) : Except Failure FbRootP1 := do
  if p &&& 1 = 0 then fbRootInQlatticePo2 ndebug p R basis
  else
    let r := R.r.setWidth 64
    let aux1 := if R.isAffine then r * basis.b1 - basis.a1 else basis.b1 - r * basis.a1
    let aux2 := if R.isAffine then basis.a0 - r * basis.b0 else r * basis.a0 - basis.b0
    let u := redc32 carrycheck aux1 p invp
    let v := redc32 carrycheck aux2 p invp
    let inverse ← invmodRedc32 ndebug v p invp
    if inverse ≠ 0 then
      return .affineRoot (redcU32 carrycheck (inverse.setWidth 64 * u.setWidth 64) p invp)
    let inverse ← invmodRedc32 ndebug u p invp
    if inverse = 0 then .error .assertion -- `ASSERT_ALWAYS(0)`
    return .projectiveRoot (redcU32 carrycheck (inverse.setWidth 64 * v.setWidth 64) p invp)

def fbRootInQlattice31bits (ndebug : Bool) (p : BitVec 32) (R : FbRootP1) (invp : BitVec 32)
    (basis : QlatticeBasis) : Except Failure FbRootP1 :=
  if redcNoCarry p then fbRootInQlattice31bitsWith false ndebug p R invp basis
  else fbRootInQlattice31bitsWith true ndebug p R invp basis

def numerator (R : FbRootP1) (basis : QlatticeBasis) : ℤ :=
  if R.isAffine then R.r.toNat * basis.b1.toInt - basis.a1.toInt
  else basis.b1.toInt - R.r.toNat * basis.a1.toInt

def denominator (R : FbRootP1) (basis : QlatticeBasis) : ℤ :=
  if R.isAffine then basis.a0.toInt - R.r.toNat * basis.b0.toInt
  else R.r.toNat * basis.a0.toInt - basis.b0.toInt

def exactRoot (p : ℕ) (num den : ℤ) : Option FbRootP1 :=
  if IsCoprime (p : ℤ) den then some (.affineRoot (.ofNat 32 ((num : ZMod p) * (den : ZMod p)⁻¹).val))
  else if IsCoprime (p : ℤ) num then some (.projectiveRoot (.ofNat 32 ((den : ZMod p) * (num : ZMod p)⁻¹).val))
  else none

section
variable {p : ℕ} {num den : ℤ} {r : BitVec 32}

theorem exactRoot_affine (unit : IsUnit (den : ZMod p)) (less : r.toNat < p)
    (quotient : (den : ZMod p) * r.toNat = num) : exactRoot p num den = some (.affineRoot r) := by
  have value : (num : ZMod p) * (den : ZMod p)⁻¹ = r.toNat := by
    rw [← quotient, mul_right_comm, ZMod.mul_inv_of_unit _ unit, one_mul]
  rw [exactRoot, if_pos ((ZMod.coe_int_isUnit_iff_isCoprime den p).mp unit), value, ZMod.val_natCast,
    Nat.mod_eq_of_lt less, BitVec.ofNat_toNat, BitVec.setWidth_eq]

theorem exactRoot_projective (none : ¬ IsUnit (den : ZMod p)) (unit : IsUnit (num : ZMod p))
    (less : r.toNat < p) (quotient : (num : ZMod p) * r.toNat = den) :
    exactRoot p num den = some (.projectiveRoot r) := by
  have value : (den : ZMod p) * (num : ZMod p)⁻¹ = r.toNat := by
    rw [← quotient, mul_right_comm, ZMod.mul_inv_of_unit _ unit, one_mul]
  rw [ZMod.coe_int_isUnit_iff_isCoprime] at none unit
  rw [exactRoot, if_neg none, if_pos unit, value, ZMod.val_natCast, Nat.mod_eq_of_lt less,
    BitVec.ofNat_toNat, BitVec.setWidth_eq]

theorem exactRoot_none (none : ¬ IsUnit (den : ZMod p)) (none' : ¬ IsUnit (num : ZMod p)) :
    exactRoot p num den = .none := by
  rw [ZMod.coe_int_isUnit_iff_isCoprime] at none none'
  rw [exactRoot, if_neg none, if_neg none']

end

section
variable {carrycheck : Bool} {p invp : BitVec 32} {R : FbRootP1} {basis : QlatticeBasis}

theorem product_bounds {r m x : ℤ} (nonneg : 0 ≤ r) (less : r < m) (low : -2 ^ 31 ≤ x) (high : x < 2 ^ 31) :
    -(2 ^ 31 * (m - 1)) ≤ r * x ∧ r * x ≤ (2 ^ 31 - 1) * (m - 1) := by
  constructor
  · nlinarith
  · nlinarith

theorem bmod_int64 {x : ℤ} (low : -2 ^ 63 ≤ x) (high : x < 2 ^ 63) : x.bmod (2 ^ 64) = x := by
  apply Int.bmod_eq_of_le_mul_two
  · push_cast
    omega
  · push_cast
    omega

theorem toInt_combination {r : BitVec 32} {x y : BitVec 64} (less : r.toNat < p.toNat)
    (low : -2 ^ 31 ≤ x.toInt) (high : x.toInt < 2 ^ 31) (low' : -2 ^ 31 ≤ y.toInt) (high' : y.toInt < 2 ^ 31) :
    (r.setWidth 64 * x - y).toInt = r.toNat * x.toInt - y.toInt ∧
      (y - r.setWidth 64 * x).toInt = y.toInt - r.toNat * x.toInt ∧
      |r.toNat * x.toInt - y.toInt| < 2 ^ 32 * p.toNat ∧ |y.toInt - r.toNat * x.toInt| < 2 ^ 32 * p.toNat := by
  have pLt := p.isLt
  have rLt := r.isLt
  obtain ⟨below, above⟩ := product_bounds (m := p.toNat) (Int.natCast_nonneg r.toNat) (by exact_mod_cast less) low high
  obtain ⟨below', above'⟩ :=
    product_bounds (m := 2 ^ 32) (Int.natCast_nonneg r.toNat) (by exact_mod_cast rLt) low high
  have word : (r.setWidth 64).toInt = r.toNat := by
    rw [BitVec.toInt_setWidth, bmod_int64 (by omega) (by omega)]
  refine ⟨?_, ?_, ?_, ?_⟩
  · rw [BitVec.toInt_sub, BitVec.toInt_mul, word, Int.bmod_sub_bmod, bmod_int64 (by omega) (by omega)]
  · rw [BitVec.toInt_sub, BitVec.toInt_mul, word, Int.sub_bmod_bmod, bmod_int64 (by omega) (by omega)]
  · rw [abs_lt]
    constructor <;> omega
  · rw [abs_lt]
    constructor <;> omega

theorem redc32_numerator (modulus : RedcModulus carrycheck p invp) (fits : basis.fits31bits)
    (less : R.r.toNat < p.toNat) :
    let u := redc32 carrycheck (if R.isAffine then R.r.setWidth 64 * basis.b1 - basis.a1
      else basis.b1 - R.r.setWidth 64 * basis.a1) p invp
    u.toNat < p.toNat ∧ (2 ^ 32 * u.toNat : ZMod p.toNat) = numerator R basis := by
  obtain ⟨-, ⟨a1, a1'⟩, -, b1, b1'⟩ := fits
  unfold numerator
  by_cases affine : R.isAffine = true
  · obtain ⟨value, -, bound, -⟩ := toInt_combination less b1 b1' a1 a1'
    rw [← value] at bound ⊢
    simp only [if_pos affine]
    exact redc32_spec modulus bound
  · obtain ⟨-, value, -, bound⟩ := toInt_combination less a1 a1' b1 b1'
    rw [← value] at bound ⊢
    simp only [if_neg affine]
    exact redc32_spec modulus bound

theorem redc32_denominator (modulus : RedcModulus carrycheck p invp) (fits : basis.fits31bits)
    (less : R.r.toNat < p.toNat) :
    let v := redc32 carrycheck (if R.isAffine then basis.a0 - R.r.setWidth 64 * basis.b0
      else R.r.setWidth 64 * basis.a0 - basis.b0) p invp
    v.toNat < p.toNat ∧ (2 ^ 32 * v.toNat : ZMod p.toNat) = denominator R basis := by
  obtain ⟨⟨a0, a0'⟩, -, ⟨b0, b0'⟩, -⟩ := fits
  unfold denominator
  by_cases affine : R.isAffine = true
  · obtain ⟨-, value, -, bound⟩ := toInt_combination less b0 b0' a0 a0'
    rw [← value] at bound ⊢
    simp only [if_pos affine]
    exact redc32_spec modulus bound
  · obtain ⟨value, -, bound, -⟩ := toInt_combination less a0 a0' b0 b0'
    rw [← value] at bound ⊢
    simp only [if_neg affine]
    exact redc32_spec modulus bound

-- The powers of `2^32` cancel: `x` and `y` are divided by it once, the inverse is multiplied by it.
theorem redcU32_quotient (modulus : RedcModulus carrycheck p invp) {x y : ZMod p.toNat} {u v w : BitVec 32}
    (hu : u.toNat < p.toNat) (hx : 2 ^ 32 * u.toNat = x) (hy : 2 ^ 32 * v.toNat = y)
    (inverse : (v.toNat * w.toNat : ZMod p.toNat) = 2 ^ 32) :
    (redcU32 carrycheck (w.setWidth 64 * u.setWidth 64) p invp).toNat < p.toNat ∧
      y * (redcU32 carrycheck (w.setWidth 64 * u.setWidth 64) p invp).toNat = x := by
  have bound : (w.setWidth 64 * u.setWidth 64).toNat < 2 ^ 32 * p.toNat := by
    rw [toNat_product]
    have := w.isLt
    nlinarith
  obtain ⟨less, value⟩ := redcU32_spec modulus bound
  refine ⟨less, ?_⟩
  rw [toNat_product, Nat.cast_mul] at value
  rw [← hy, mul_right_comm, value, ← hx, ← inverse]
  ring

theorem fbRootInQlattice31bitsWith_eq (modulus : RedcModulus carrycheck p invp) (ndebug : Bool)
    (one : 1 < p.toNat) (fits : basis.fits31bits) (root : R.r.toNat < p.toNat) :
    fbRootInQlattice31bitsWith carrycheck ndebug p R invp basis =
      match exactRoot p.toNat (numerator R basis) (denominator R basis) with
      | some s => .ok s
      | none => .error .assertion := by
  obtain ⟨hu, num⟩ := redc32_numerator modulus fits root
  obtain ⟨hv, den⟩ := redc32_denominator modulus fits root
  have odd : p &&& 1 ≠ 0 := fun zero => by
    have value := congrArg BitVec.toNat zero
    rw [toNat_and_one, modulus.odd] at value
    cases value
  simp only [fbRootInQlattice31bitsWith, if_neg odd]
  generalize redc32 carrycheck (if R.isAffine then R.r.setWidth 64 * basis.b1 - basis.a1
      else basis.b1 - R.r.setWidth 64 * basis.a1) p invp = u at hu num ⊢
  generalize redc32 carrycheck (if R.isAffine then basis.a0 - R.r.setWidth 64 * basis.b0
      else R.r.setWidth 64 * basis.a0 - basis.b0) p invp = v at hv den ⊢
  have denUnit : IsUnit (v.toNat : ZMod p.toNat) ↔ IsUnit (denominator R basis : ZMod p.toNat) := by
    rw [← den, IsUnit.mul_iff, and_iff_right modulus.isUnit]
  have numUnit : IsUnit (u.toNat : ZMod p.toNat) ↔ IsUnit (numerator R basis : ZMod p.toNat) := by
    rw [← num, IsUnit.mul_iff, and_iff_right modulus.isUnit]
  obtain ⟨w, run, -, unit, inverse⟩ := invmodRedc32_spec modulus ndebug one hv
  rw [run]
  by_cases affine : w ≠ 0
  · obtain ⟨less, quotient⟩ := redcU32_quotient modulus hu num den (inverse affine)
    rw [exactRoot_affine (denUnit.mp (unit.mp affine)) less quotient]
    simp only [bind, Except.bind, if_pos affine]
    rfl
  · have none := denUnit.not.mp (unit.not.mp affine)
    obtain ⟨w', run', -, unit', inverse'⟩ := invmodRedc32_spec modulus ndebug one hu
    simp only [bind, Except.bind, if_neg affine, run']
    by_cases projective : w' = 0
    · have none' := numUnit.not.mp (unit'.not.mp (not_not.mpr projective))
      rw [exactRoot_none none none', if_pos projective]
    · obtain ⟨less, quotient⟩ := redcU32_quotient modulus hv den num (inverse' projective)
      rw [exactRoot_projective none (numUnit.mp (unit'.mp projective)) less quotient, if_neg projective]
      rfl

end

section
variable {p : BitVec 32} {k : ℕ}

theorem cast_mod_pow {w : ℕ} (value : p.toNat = 2 ^ k) (le : k ≤ w) (x : ℕ) :
    ((x % 2 ^ w : ℕ) : ZMod p.toNat) = x := by
  rw [ZMod.natCast_eq_natCast_iff, value]
  exact (Nat.mod_modEq x (2 ^ w)).of_dvd (pow_dvd_pow 2 le)

theorem cast_bmod_pow {w : ℕ} (value : p.toNat = 2 ^ k) (le : k ≤ w) (x : ℤ) :
    ((x.bmod (2 ^ w) : ℤ) : ZMod p.toNat) = x := by
  have zero : ((2 ^ w : ℕ) : ZMod p.toNat) = 0 := by
    rw [ZMod.natCast_eq_zero_iff, value]
    exact pow_dvd_pow 2 le
  rw [Int.bmod_eq_self_sub_mul_bdiv, Int.cast_sub, Int.cast_mul, Int.cast_natCast, zero, zero_mul, sub_zero]

theorem cast_setWidth (value : p.toNat = 2 ^ k) (le : k ≤ 31) (x : BitVec 64) :
    ((x.setWidth 32).toNat : ZMod p.toNat) = x.toInt := by
  rw [BitVec.toNat_setWidth, cast_mod_pow value (by omega), BitVec.toInt_eq_toNat_bmod,
    cast_bmod_pow value (by omega), Int.cast_natCast]

theorem cast_srem (value : p.toNat = 2 ^ k) (x : BitVec 64) :
    ((x.srem (p.setWidth 64)).toInt : ZMod p.toNat) = x.toInt := by
  have pLt := p.isLt
  have word : (p.setWidth 64).toInt = p.toNat := by
    rw [BitVec.toInt_setWidth, bmod_int64 (by omega) (by omega)]
  rw [BitVec.toInt_srem, word, Int.tmod_def]
  push_cast
  rw [ZMod.natCast_self, zero_mul, sub_zero]

theorem cast_combination (value : p.toNat = 2 ^ k) (le : k ≤ 31) (r : BitVec 32) (x y : BitVec 64) :
    (((r.setWidth 64 * x.srem (p.setWidth 64) - y).setWidth 32).toNat : ZMod p.toNat) =
        r.toNat * x.toInt - y.toInt ∧
      (((y - r.setWidth 64 * x.srem (p.setWidth 64)).setWidth 32).toNat : ZMod p.toNat) =
        y.toInt - r.toNat * x.toInt := by
  have rLt := r.isLt
  have word : (r.setWidth 64).toInt = r.toNat := by
    rw [BitVec.toInt_setWidth, bmod_int64 (by omega) (by omega)]
  constructor
  · rw [cast_setWidth value le, BitVec.toInt_sub, cast_bmod_pow value (by omega), Int.cast_sub,
      BitVec.toInt_mul, cast_bmod_pow value (by omega), Int.cast_mul, word, cast_srem value, Int.cast_natCast]
  · rw [cast_setWidth value le, BitVec.toInt_sub, cast_bmod_pow value (by omega), Int.cast_sub,
      BitVec.toInt_mul, cast_bmod_pow value (by omega), Int.cast_mul, word, cast_srem value, Int.cast_natCast]

theorem and_neg_of_pow (value : p.toNat = 2 ^ k) (le : k ≤ 31) : p = p &&& -p := by
  have powers : ∀ k : Fin 32, BitVec.twoPow 32 k = BitVec.twoPow 32 k &&& -BitVec.twoPow 32 k := by decide
  have word : p = BitVec.twoPow 32 k := by
    apply BitVec.eq_of_toNat_eq
    have := p.isLt
    rw [BitVec.toNat_twoPow, ← value, Nat.mod_eq_of_lt this]
  rw [word]
  exact powers ⟨k, by omega⟩

theorem isUnit_iff_odd (value : p.toNat = 2 ^ k) (pos : 0 < k) (v : BitVec 32) :
    IsUnit (v.toNat : ZMod p.toNat) ↔ v.toNat % 2 = 1 := by
  rw [ZMod.isUnit_iff_coprime, value, Nat.coprime_pow_right_iff pos, Nat.coprime_two_right, Nat.odd_iff]

theorem and_one_ne_zero (v : BitVec 32) : v &&& 1 ≠ 0 ↔ v.toNat % 2 = 1 := by
  rw [← toNat_and_one, Ne, BitVec.toNat_eq, show (0 : BitVec 32).toNat = 0 from rfl, toNat_and_one]
  omega

theorem po2_quotient (value : p.toNat = 2 ^ k) (le : k ≤ 31) {u v w : BitVec 32} (inverse : w * v = 1) :
    ((u * w) &&& (p - 1)).toNat < p.toNat ∧
      (v.toNat * ((u * w) &&& (p - 1)).toNat : ZMod p.toNat) = u.toNat := by
  have pos := Nat.two_pow_pos k
  have mask : (p - 1).toNat = 2 ^ k - 1 := by
    rw [BitVec.toNat_sub_of_le (show 1 ≤ p.toNat by omega), value]
    rfl
  have low : ((u * w) &&& (p - 1)).toNat = (u * w).toNat % 2 ^ k := by
    rw [BitVec.toNat_and, mask, Nat.and_two_pow_sub_one_eq_mod]
  have one : (v.toNat * w.toNat : ZMod p.toNat) = 1 := by
    have exact := congrArg (fun x : BitVec 32 => (x.toNat : ZMod p.toNat)) inverse
    rw [BitVec.toNat_mul, cast_mod_pow value (by omega), Nat.cast_mul, mul_comm] at exact
    rw [exact]
    exact Nat.cast_one
  rw [low]
  refine ⟨by rw [value]; exact Nat.mod_lt _ pos, ?_⟩
  rw [cast_mod_pow value le_rfl, BitVec.toNat_mul, cast_mod_pow value (by omega), Nat.cast_mul, mul_left_comm,
    one, mul_one]

theorem fbRootInQlatticePo2_eq (value : p.toNat = 2 ^ k) (pos : 0 < k) (ndebug : Bool) (R : FbRootP1)
    (basis : QlatticeBasis) :
    match exactRoot p.toNat (numerator R basis) (denominator R basis) with
    | some s => fbRootInQlatticePo2 ndebug p R basis = .ok s
    | none => ndebug = false → fbRootInQlatticePo2 ndebug p R basis = .error .assertion := by
  have le : k ≤ 31 := by
    have pLt := p.isLt
    rw [value] at pLt
    exact Nat.le_of_lt_succ ((Nat.pow_lt_pow_iff_right (show 1 < 2 by norm_num)).mp pLt)
  have num : ((if R.isAffine then (R.r.setWidth 64 * basis.b1.srem (p.setWidth 64) - basis.a1).setWidth 32
      else (basis.b1 - R.r.setWidth 64 * basis.a1.srem (p.setWidth 64)).setWidth 32 : BitVec 32).toNat :
        ZMod p.toNat) = numerator R basis := by
    unfold numerator
    split
    · rw [(cast_combination value le _ _ _).1]
      push_cast
      rfl
    · rw [(cast_combination value le _ _ _).2]
      push_cast
      rfl
  have den : ((if R.isAffine then (basis.a0 - R.r.setWidth 64 * basis.b0.srem (p.setWidth 64)).setWidth 32
      else (R.r.setWidth 64 * basis.a0.srem (p.setWidth 64) - basis.b0).setWidth 32 : BitVec 32).toNat :
        ZMod p.toNat) = denominator R basis := by
    unfold denominator
    split
    · rw [(cast_combination value le _ _ _).2]
      push_cast
      rfl
    · rw [(cast_combination value le _ _ _).1]
      push_cast
      rfl
  simp only [fbRootInQlatticePo2, assert_of (and_neg_of_pow value le)]
  generalize (if R.isAffine then (R.r.setWidth 64 * basis.b1.srem (p.setWidth 64) - basis.a1).setWidth 32
      else (basis.b1 - R.r.setWidth 64 * basis.a1.srem (p.setWidth 64)).setWidth 32 : BitVec 32) = u at num ⊢
  generalize (if R.isAffine then (basis.a0 - R.r.setWidth 64 * basis.b0.srem (p.setWidth 64)).setWidth 32
      else (R.r.setWidth 64 * basis.a0.srem (p.setWidth 64) - basis.b0).setWidth 32 : BitVec 32) = v at den ⊢
  by_cases affine : v &&& 1 ≠ 0
  · obtain ⟨w, run, inverse⟩ := invmodPo2_spec ndebug ((and_one_ne_zero v).mp affine)
    obtain ⟨less, quotient⟩ := po2_quotient (u := u) value le inverse
    rw [num, den] at quotient
    have unit := (isUnit_iff_odd value pos v).mpr ((and_one_ne_zero v).mp affine)
    rw [exactRoot_affine (den ▸ unit) less quotient]
    simp only [bind, Except.bind, if_pos affine, run]
    rfl
  · have none : ¬ IsUnit (denominator R basis : ZMod p.toNat) := by
      rw [← den, isUnit_iff_odd value pos, ← and_one_ne_zero]
      exact affine
    by_cases projective : u &&& 1 ≠ 0
    · obtain ⟨w, run, inverse⟩ := invmodPo2_spec ndebug ((and_one_ne_zero u).mp projective)
      obtain ⟨less, quotient⟩ := po2_quotient (u := v) value le inverse
      rw [num, den] at quotient
      have unit := (isUnit_iff_odd value pos u).mpr ((and_one_ne_zero u).mp projective)
      rw [exactRoot_projective none (num ▸ unit) less quotient]
      simp only [bind, Except.bind, if_neg affine, run, mul_comm w v]
      rfl
    · have none' : ¬ IsUnit (numerator R basis : ZMod p.toNat) := by
        rw [← num, isUnit_iff_odd value pos, ← and_one_ne_zero]
        exact projective
      rw [exactRoot_none none none']
      rintro rfl
      have failed : invmodPo2 false u = .error .assertion := by
        rw [invmodPo2, assert, if_neg (by simpa using projective)]
        rfl
      simp only [bind, Except.bind, if_neg affine, failed]

end

theorem isCoprime_of_prime_pow {ℓ k p : ℕ} (prime : ℓ.Prime) (pos : 0 < k) (value : p = ℓ ^ k) (x : ℤ) :
    IsCoprime (p : ℤ) x ↔ ¬ (ℓ : ℤ) ∣ x := by
  rw [value, Nat.cast_pow, IsCoprime.pow_left_iff pos, (Nat.prime_iff_prime_int.mp prime).coprime_iff_not_dvd]

theorem exactRoot_isSome {ℓ k p : ℕ} (prime : ℓ.Prime) (pos : 0 < k) (value : p = ℓ ^ k) (R : FbRootP1)
    {basis : QlatticeBasis} (regular : ¬ (ℓ : ℤ) ∣ basis.det) :
    (exactRoot p (numerator R basis) (denominator R basis)).isSome := by
  unfold exactRoot
  simp only [isCoprime_of_prime_pow prime pos value]
  by_cases den : (ℓ : ℤ) ∣ denominator R basis
  · by_cases num : (ℓ : ℤ) ∣ numerator R basis
    · refine absurd ?_ regular
      unfold numerator at num
      unfold denominator at den
      by_cases affine : R.isAffine = true
      · rw [if_pos affine] at num den
        have combination : basis.det = (basis.a0.toInt - R.r.toNat * basis.b0.toInt) * basis.b1.toInt +
            (R.r.toNat * basis.b1.toInt - basis.a1.toInt) * basis.b0.toInt := by
          rw [QlatticeBasis.det]
          ring
        rw [combination]
        exact dvd_add (den.mul_right _) (num.mul_right _)
      · rw [if_neg affine] at num den
        have combination : basis.det = (basis.b1.toInt - R.r.toNat * basis.a1.toInt) * basis.a0.toInt +
            (R.r.toNat * basis.a0.toInt - basis.b0.toInt) * basis.a1.toInt := by
          rw [QlatticeBasis.det]
          ring
        rw [combination]
        exact dvd_add (num.mul_right _) (den.mul_right _)
    · simp [den, num]
  · simp [den]

theorem fbRootInQlattice31bits_eq (ndebug : Bool) {ℓ k : ℕ} (prime : ℓ.Prime) (pos : 0 < k)
    {p invp : BitVec 32} (value : p.toNat = ℓ ^ k) (inverse : ℓ ≠ 2 → p * invp = -1) {R : FbRootP1}
    (root : R.r.toNat < p.toNat) {basis : QlatticeBasis} (fits : basis.fits31bits) :
    (¬ (ℓ : ℤ) ∣ basis.det →
      ∃ s, exactRoot p.toNat (numerator R basis) (denominator R basis) = some s) ∧
    match exactRoot p.toNat (numerator R basis) (denominator R basis) with
    | some s => fbRootInQlattice31bits ndebug p R invp basis = .ok s
    | none => ℓ ≠ 2 ∨ ndebug = false →
        fbRootInQlattice31bits ndebug p R invp basis = .error .assertion := by
  refine ⟨fun regular => Option.isSome_iff_exists.mp (exactRoot_isSome prime pos value R regular), ?_⟩
  by_cases even : ℓ = 2
  · subst even
    have zero : p &&& 1 = 0 := by
      apply BitVec.eq_of_toNat_eq
      rw [toNat_and_one, value, ← Nat.sub_add_cancel pos, pow_succ, Nat.mul_mod_left]
      rfl
    have run : fbRootInQlattice31bits ndebug p R invp basis = fbRootInQlatticePo2 ndebug p R basis := by
      simp only [fbRootInQlattice31bits, fbRootInQlattice31bitsWith, if_pos zero, ite_self]
    have po2 := fbRootInQlatticePo2_eq value pos ndebug R basis
    rw [run]
    cases found : exactRoot p.toNat (numerator R basis) (denominator R basis) with
    | some s => rwa [found] at po2
    | none =>
      rw [found] at po2
      exact fun checked => po2 (checked.resolve_left fun odd => odd rfl)
  · have one : 1 < p.toNat := by
      rw [value]
      exact Nat.one_lt_pow pos.ne' prime.one_lt
    have run : fbRootInQlattice31bits ndebug p R invp basis =
        match exactRoot p.toNat (numerator R basis) (denominator R basis) with
        | some s => .ok s
        | none => .error .assertion := by
      unfold fbRootInQlattice31bits
      by_cases small : redcNoCarry p = true
      · rw [if_pos small]
        refine fbRootInQlattice31bitsWith_eq ⟨inverse even, .inr ?_⟩ ndebug one fits root
        exact of_decide_eq_true small
      · rw [if_neg small]
        exact fbRootInQlattice31bitsWith_eq ⟨inverse even, .inl rfl⟩ ndebug one fits root
    rw [run]
    cases exactRoot p.toNat (numerator R basis) (denominator R basis) with
    | some s => rfl
    | none => exact fun _ => rfl

theorem fbRootInQlattice31bits_eq_nine :
    (¬ ((3 : ℕ) : ℤ) ∣ QlatticeBasis.det ⟨5, 1, -2, 3⟩ →
      ∃ s, exactRoot 9 (numerator ⟨4, false⟩ ⟨5, 1, -2, 3⟩) (denominator ⟨4, false⟩ ⟨5, 1, -2, 3⟩) = some s) ∧
    match exactRoot 9 (numerator ⟨4, false⟩ ⟨5, 1, -2, 3⟩) (denominator ⟨4, false⟩ ⟨5, 1, -2, 3⟩) with
    | some s => fbRootInQlattice31bits false 9 ⟨4, false⟩ 3340530119 ⟨5, 1, -2, 3⟩ = .ok s
    | none => 3 ≠ 2 ∨ false = false →
        fbRootInQlattice31bits false 9 ⟨4, false⟩ 3340530119 ⟨5, 1, -2, 3⟩ = .error .assertion :=
  fbRootInQlattice31bits_eq (k := 2) (p := 9) (R := ⟨4, false⟩) false Nat.prime_three (by decide) (by decide)
    (by decide) (by decide) (by decide)

-- In the q-lattice of 3 itself, generated by `(3, 0)` and `(1, 1)`, the root 1 is sent to `(0 : 0)`.
theorem fbRootInQlattice31bits_aborts : ¬ ∀ (ndebug : Bool) (ℓ k : ℕ) (p invp : BitVec 32) (R : FbRootP1)
    (basis : QlatticeBasis), ℓ.Prime → 0 < k → p.toNat = ℓ ^ k → (ℓ ≠ 2 → p * invp = -1) →
    R.r.toNat < p.toNat → basis.fits31bits →
    ∃ s, fbRootInQlattice31bits ndebug p R invp basis = .ok s := by
  intro always
  obtain ⟨s, returned⟩ := always true 3 1 3 1431655765 ⟨1, false⟩ ⟨3, 0, 1, 1⟩ Nat.prime_three (by decide)
    (by decide) (by decide) (by decide) (by decide)
  have aborted : fbRootInQlattice31bits true 3 ⟨1, false⟩ 1431655765 ⟨3, 0, 1, 1⟩ = .error .assertion := by decide
  rw [aborted] at returned
  cases returned

end CadoNfs.Sieve
