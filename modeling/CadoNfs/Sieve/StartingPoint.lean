import CadoNfs.Lib.StripClass
import CadoNfs.Sieve.ProducedPlattice
import CadoNfs.Sieve.Qlattice

/-!
# The first point of a sublattice

`starting_point` of `sieve/las-plattice.hpp`: among the points `(ii, jj)` for which `(m * ii + i0, m * jj + j0)` is
in the lattice, one is found from its coordinates modulo `m` and moved into the strip by at most one vector.
-/

namespace CadoNfs.Sieve
open Lib

namespace PlatticeInfo

def determinant (p : PlatticeInfo) : BitVec 32 := p.mi0 * p.j1 + p.j0 * p.i1

-- The cases in which `starting_point` returns `UMAX(plattice_x_t)` at once.
def skipped (p : PlatticeInfo) : Bool :=
  p.i1 = 0 ∨ p.j1 = 0 ∨ p.j0 = (1 <<< 20) - 1 ∨ p.j1 = (1 <<< 20) - 1

def invmod (ndebug : Bool) (x m : ℕ) : Except Failure ℕ :=
  if m = 2 ∨ m = 3 then .ok x
  else if m = 6 then do
    assert ndebug (x = 1 ∨ x = 5)
    return x
  else .error .assertion

def residue (x det m : ℤ) : ℤ :=
  let r := (x.tmod m * det).tmod m
  if r < 0 then r + m else r

def negDeterminant (p : PlatticeInfo) (m : ℤ) : ℤ :=
  let det := (-(p.determinant.toNat : ℤ)).tmod m
  if det < 0 then det + m else det

def correctStart (ndebug : Bool) (I i0 j0 i1 j1 ii jj : ℤ) : Except Failure (ℤ × ℤ) :=
  if ii < (-I).tdiv 2 then do
    assert ndebug (0 ≤ ii - i0)
    return (ii - i0, jj - j0)
  else if I.tdiv 2 - 1 < ii then do
    assert ndebug (ii - i1 ≤ 0)
    return (ii - i1, jj - j1)
  else return (ii, jj)

-- `while (jj < 0)`, cut off after `fuel` iterations.
def walkUp (I i0 j0 i1 j1 : ℤ) : ℕ → ℤ → ℤ → Except Failure (ℤ × ℤ)
  | 0, ii, jj => if jj < 0 then .error .outOfFuel else .ok (ii, jj)
  | fuel + 1, ii, jj =>
    if jj < 0 then
      walkUp I i0 j0 i1 j1 fuel
        (ii + (if I.tdiv 2 - i1 ≤ ii then i0 else 0) + if ii < (-I).tdiv 2 - i0 then i1 else 0)
        (jj + (if I.tdiv 2 - i1 ≤ ii then j0 else 0) + if ii < (-I).tdiv 2 - i0 then j1 else 0)
    else .ok (ii, jj)

/-- The computation is in `int64_t`. -/
def startingPoint (ndebug : Bool) (p : PlatticeInfo) (logI : ℕ) (sublat : Sublat) : Except Failure (BitVec 64) :=
  let I : ℤ := 2 ^ logI
  let m : ℤ := sublat.m.toNat
  let i0 := p.getI0.toInt
  let j0 : ℤ := p.j0.toNat
  let i1 := p.i1.toInt
  let j1 : ℤ := p.j1.toNat
  if p.skipped then .ok (.allOnes 64) else do
    let det ← invmod ndebug (p.negDeterminant m).toNat sublat.m.toNat
    let al := residue (j1 * sublat.i0.toNat - i1 * sublat.j0.toNat) det m
    let be := residue (-j0 * sublat.i0.toNat + i0 * sublat.j0.toNat) det m
    let (ii, jj) ← correctStart ndebug I i0 j0 i1 j1
      ((al * i0 + be * i1 - sublat.i0.toNat).tdiv m) ((al * j0 + be * j1 - sublat.j0.toNat).tdiv m)
    assert ndebug ((-I).tdiv 2 ≤ ii ∧ ii < I.tdiv 2)
    let (ii, jj) ← walkUp I i0 j0 i1 j1 (-jj).toNat ii jj
    return .ofInt 64 (ii + I.tdiv 2 + jj * 2 ^ logI)

/-! ## What is looked for -/

def Encoded (p : PlatticeInfo) (logI : ℕ) (sublat : Sublat) (x : ℤ) : Prop :=
  ∃ ii jj : ℤ, -2 ^ (logI - 1) ≤ ii ∧ ii < 2 ^ (logI - 1) ∧ 0 ≤ jj ∧ x = (ii + 2 ^ (logI - 1)) + jj * 2 ^ logI ∧
    (sublat.m.toNat * ii + sublat.i0.toNat, sublat.m.toNat * jj + sublat.j0.toNat) ∈ p.lattice

/-- The call returns the first position, and from there `next` visits every one, modulo `2^64`. -/
def StartsRight (ndebug : Bool) (p : PlatticeInfo) (logI : ℕ) (sublat : Sublat) : Prop :=
  ∃ x : BitVec 64, startingPoint ndebug p logI sublat = .ok x ∧
    IsLeast {y | Encoded p logI sublat y} (x.toNat : ℤ) ∧
    ∃ position : ℕ → ℤ, StrictMono position ∧ Set.range position = {y | Encoded p logI sublat y} ∧
      ∀ n, (((PlatticeEnumerator.next (PlatticeEnumerator.maskI logI))^[n]
        { PlatticeEnumerator.start p logI with x := x }).x.toNat : ℤ) = position n % 2 ^ 64

/-- `(m * ii + i0, m * jj + j0)` is in the half-open parallelogram of the basis, enlarged `m` times. -/
def Spanned (p : PlatticeInfo) (sublat : Sublat) (P : ℤ × ℤ) : Prop :=
  ∃ al be : ℤ, 0 ≤ al ∧ al < sublat.m.toNat ∧ 0 ≤ be ∧ be < sublat.m.toNat ∧
    sublat.m.toNat * P.1 + sublat.i0.toNat = be * p.i1.toNat - al * p.mi0.toNat ∧
    sublat.m.toNat * P.2 + sublat.j0.toNat = al * p.j0.toNat + be * p.j1.toNat

def InStrip (logI : ℕ) (i : ℤ) : Prop := -2 ^ (logI - 1) ≤ i ∧ i < 2 ^ (logI - 1)

/-- From the point of the parallelogram, and where this is outside the strip from the one a vector further in, no point of
the strip that is not below the origin can be reached by going back along one vector. -/
structure NoneBefore (p : PlatticeInfo) (logI : ℕ) (P : ℤ × ℤ) : Prop where
  inside : InStrip logI P.1 → ¬ (InStrip logI (P.1 + p.mi0.toNat) ∧ (p.j0.toNat : ℤ) ≤ P.2) ∧
    ¬ (InStrip logI (P.1 - p.i1.toNat) ∧ (p.j1.toNat : ℤ) ≤ P.2)
  left : P.1 < -2 ^ (logI - 1) → ¬ (InStrip logI (P.1 + 2 * p.mi0.toNat) ∧ 2 * (p.j0.toNat : ℤ) ≤ P.2)
  right : 2 ^ (logI - 1) ≤ P.1 → InStrip logI (P.1 - p.i1.toNat) ∧
    ¬ (InStrip logI (P.1 - 2 * p.i1.toNat) ∧ 2 * (p.j1.toNat : ℤ) ≤ P.2)

/-! ## Arithmetic modulo `m` -/

-- The sublattices of the siever.
structure Modulus (det : ℕ) (sublat : Sublat) : Prop where
  cases : sublat.m.toNat = 2 ∨ sublat.m.toNat = 3 ∨ sublat.m.toNat = 6
  i0 : sublat.i0.toNat < sublat.m.toNat
  j0 : sublat.j0.toNat < sublat.m.toNat
  coprime : det.Coprime sublat.m.toNat

theorem tmod_add (x : ℤ) {m : ℤ} (positive : 0 < m) : (if x.tmod m < 0 then x.tmod m + m else x.tmod m) = x % m := by
  have value := Int.tmod_eq_emod (a := x) (b := m)
  have low := Int.emod_nonneg x positive.ne'
  have high := Int.emod_lt_of_pos x positive
  have size : (m.natAbs : ℤ) = m := Int.natAbs_of_nonneg positive.le
  by_cases exact : 0 ≤ x ∨ m ∣ x
  · rw [if_pos exact, Nat.cast_zero, sub_zero] at value
    rw [value, if_neg (not_lt.mpr low)]
  · rw [if_neg exact, size] at value
    rw [value, if_pos (by omega)]
    omega

theorem residue_eq (x det : ℤ) {m : ℤ} (positive : 0 < m) : residue x det m = x * det % m := by
  have normalized := tmod_add (x.tmod m * det) positive
  rw [residue]
  refine normalized.trans ?_
  have same : x.tmod m ≡ x [ZMOD m] := by
    have shape := tmod_add x positive
    have back := Int.mod_modEq x m
    rw [← shape] at back
    split at back
    · exact (Int.modEq_iff_dvd.mpr (by simp)).trans back
    · exact back
  exact same.mul_right det

theorem negDeterminant_eq {p : PlatticeInfo} (fits : p.det < 2 ^ 32) {m : ℤ} (positive : 0 < m) :
    p.negDeterminant m = -(p.det : ℤ) % m := by
  have exact : p.determinant.toNat = p.det := by
    have left : p.mi0.toNat * p.j1.toNat < 2 ^ 32 := (Nat.le_add_right _ _).trans_lt fits
    have right : p.j0.toNat * p.i1.toNat < 2 ^ 32 := (Nat.le_add_left _ _).trans_lt fits
    rw [determinant, BitVec.toNat_add, BitVec.toNat_mul, BitVec.toNat_mul, Nat.mod_eq_of_lt left,
      Nat.mod_eq_of_lt right]
    exact Nat.mod_eq_of_lt fits
  rw [negDeterminant, exact]
  exact tmod_add _ positive

theorem invmod_ok (ndebug : Bool) {det : ℕ} {sublat : Sublat} (modulus : Modulus det sublat) :
    invmod ndebug (-(det : ℤ) % sublat.m.toNat).toNat sublat.m.toNat = .ok (-(det : ℤ) % sublat.m.toNat).toNat ∧
      (sublat.m.toNat : ℤ) ∣ (-(det : ℤ) % sublat.m.toNat) * det + 1 := by
  have coprime := modulus.coprime
  have two : 2 ∣ sublat.m.toNat → det % 2 = 1 := fun dvd =>
    Nat.odd_iff.mp (Nat.coprime_two_right.mp (coprime.coprime_dvd_right dvd))
  have three : 3 ∣ sublat.m.toNat → det % 3 ≠ 0 := fun dvd zero => by
    have common := Nat.dvd_gcd (Nat.dvd_of_mod_eq_zero zero) dvd
    rw [coprime.gcd_eq_one] at common
    omega
  rcases modulus.cases with m | m | m
  · rw [m] at two ⊢
    have odd := two (by norm_num)
    refine ⟨if_pos (.inl rfl), ?_⟩
    have value : -(det : ℤ) % (2 : ℕ) = 1 := by omega
    rw [value]
    omega
  · rw [m] at three ⊢
    have unit := three (by norm_num)
    refine ⟨if_pos (.inr rfl), ?_⟩
    rcases (by omega : det % 3 = 1 ∨ det % 3 = 2) with one | two
    · have value : -(det : ℤ) % (3 : ℕ) = 2 := by omega
      rw [value]
      omega
    · have value : -(det : ℤ) % (3 : ℕ) = 1 := by omega
      rw [value]
      omega
  · rw [m] at two three ⊢
    have odd := two (by norm_num)
    have unit := three (by norm_num)
    have checked : (-(det : ℤ) % (6 : ℕ)).toNat = 1 ∨ (-(det : ℤ) % (6 : ℕ)).toNat = 5 := by omega
    refine ⟨by rw [invmod, if_neg (by norm_num), if_pos rfl, assert_of checked]; rfl, ?_⟩
    rcases (by omega : det % 6 = 1 ∨ det % 6 = 5) with one | five
    · have value : -(det : ℤ) % (6 : ℕ) = 5 := by omega
      rw [value]
      omega
    · have value : -(det : ℤ) % (6 : ℕ) = 1 := by omega
      rw [value]
      omega

theorem solves {m mi0 j0 i1 j1 s t d : ℤ} (inverse : m ∣ d * (mi0 * j1 + j0 * i1) + 1) :
    m ∣ (j1 * s - i1 * t) * d % m * -mi0 + (-j0 * s + -mi0 * t) * d % m * i1 - s ∧
      m ∣ (j1 * s - i1 * t) * d % m * j0 + (-j0 * s + -mi0 * t) * d % m * j1 - t := by
  set al := (j1 * s - i1 * t) * d % m with alDef
  set be := (-j0 * s + -mi0 * t) * d % m with beDef
  have al_mod : m ∣ (j1 * s - i1 * t) * d - al := Int.dvd_self_sub_emod
  have be_mod : m ∣ (-j0 * s + -mi0 * t) * d - be := Int.dvd_self_sub_emod
  constructor
  · have combined := ((al_mod.mul_left mi0).sub (be_mod.mul_left i1)).sub (inverse.mul_left s)
    have shape : al * -mi0 + be * i1 - s = mi0 * ((j1 * s - i1 * t) * d - al) -
        i1 * ((-j0 * s + -mi0 * t) * d - be) - s * (d * (mi0 * j1 + j0 * i1) + 1) := by ring
    rw [shape]
    exact combined
  · have combined := (((al_mod.mul_left j0).add (be_mod.mul_left j1)).add (inverse.mul_left t))
    have shape : al * j0 + be * j1 - t = -(j0 * ((j1 * s - i1 * t) * d - al) +
        j1 * ((-j0 * s + -mi0 * t) * d - be) + t * (d * (mi0 * j1 + j0 * i1) + 1)) := by ring
    rw [shape]
    exact combined.neg_right

/-! ## The point of the parallelogram -/

section
variable {p : PlatticeInfo} {logI : ℕ} {sublat : Sublat} {P : ℤ × ℤ}

theorem Modulus.pos {det : ℕ} (modulus : Modulus det sublat) : (0 : ℤ) < sublat.m.toNat := by
  rcases modulus.cases with m | m | m <;> omega

theorem of_skipped (kept : p.skipped = false) : 0 < p.i1.toNat ∧ 0 < p.j1.toNat := by
  simp only [skipped, decide_eq_false_iff_not, not_or] at kept
  exact ⟨Nat.pos_of_ne_zero fun zero => kept.1 (BitVec.eq_of_toNat_eq zero),
    Nat.pos_of_ne_zero fun zero => kept.2.1 (BitVec.eq_of_toNat_eq zero)⟩

theorem mem_lattice_iff (modulus : Modulus p.det sublat) (spanned : Spanned p sublat P) (ii jj : ℤ) :
    ((sublat.m.toNat * ii + sublat.i0.toNat, sublat.m.toNat * jj + sublat.j0.toNat) : ℤ × ℤ) ∈ p.lattice ↔
      ∃ k l : ℤ, ii = P.1 - p.mi0.toNat * k + p.i1.toNat * l ∧ jj = P.2 + p.j0.toNat * k + p.j1.toNat * l := by
  obtain ⟨al, be, -, -, -, -, first, second⟩ := spanned
  have positive := modulus.pos
  have coprime : IsCoprime (sublat.m.toNat : ℤ) (p.det : ℤ) :=
    (Nat.isCoprime_iff_coprime.mpr modulus.coprime).symm
  have det : (p.det : ℤ) = p.mi0.toNat * p.j1.toNat + p.j0.toNat * p.i1.toNat := by
    rw [PlatticeInfo.det]
    push_cast
    rfl
  rw [lattice, mem_generated]
  constructor
  · rintro ⟨u, v, same⟩
    simp only [Prod.smul_mk, smul_eq_mul, Prod.mk_add_mk, Prod.mk.injEq] at same
    obtain ⟨column, row⟩ := same
    have left : (sublat.m.toNat : ℤ) ∣ u - al := by
      apply coprime.dvd_of_dvd_mul_left
      refine ⟨p.i1.toNat * (jj - P.2) - p.j1.toNat * (ii - P.1), ?_⟩
      rw [det]
      linear_combination (-(p.j1.toNat : ℤ)) * column + (p.i1.toNat : ℤ) * row - (p.j1.toNat : ℤ) * first +
        (p.i1.toNat : ℤ) * second
    have right : (sublat.m.toNat : ℤ) ∣ v - be := by
      apply coprime.dvd_of_dvd_mul_left
      refine ⟨p.j0.toNat * (ii - P.1) + p.mi0.toNat * (jj - P.2), ?_⟩
      rw [det]
      linear_combination (p.j0.toNat : ℤ) * column + (p.mi0.toNat : ℤ) * row + (p.j0.toNat : ℤ) * first +
        (p.mi0.toNat : ℤ) * second
    obtain ⟨k, hk⟩ := left
    obtain ⟨l, hl⟩ := right
    refine ⟨k, l, mul_left_cancel₀ positive.ne' ?_, mul_left_cancel₀ positive.ne' ?_⟩
    · linear_combination -column - first - (p.mi0.toNat : ℤ) * hk + (p.i1.toNat : ℤ) * hl
    · linear_combination -row - second + (p.j0.toNat : ℤ) * hk + (p.j1.toNat : ℤ) * hl
  · rintro ⟨k, l, rfl, rfl⟩
    refine ⟨al + sublat.m.toNat * k, be + sublat.m.toNat * l, ?_⟩
    simp only [Prod.smul_mk, smul_eq_mul, Prod.mk_add_mk, Prod.mk.injEq]
    constructor
    · linear_combination -first
    · linear_combination -second

theorem Spanned.bounds (spanned : Spanned p sublat P) (modulus : Modulus p.det sublat) (up : 0 < p.j0.toNat)
    (right : 0 < p.i1.toNat) :
    0 ≤ P.2 ∧ P.2 < p.j0.toNat + p.j1.toNat ∧ -(p.mi0.toNat : ℤ) ≤ P.1 ∧ P.1 < p.i1.toNat := by
  obtain ⟨al, be, al0, alm, be0, bem, first, second⟩ := spanned
  have positive := modulus.pos
  have i0 := modulus.i0
  have j0 := modulus.j0
  have a1 : 0 ≤ al * p.mi0.toNat := mul_nonneg al0 (Int.natCast_nonneg _)
  have a2 : 0 ≤ al * p.j0.toNat := mul_nonneg al0 (Int.natCast_nonneg _)
  have b1 : 0 ≤ be * p.i1.toNat := mul_nonneg be0 (Int.natCast_nonneg _)
  have b2 : 0 ≤ be * p.j1.toNat := mul_nonneg be0 (Int.natCast_nonneg _)
  refine ⟨?_, ?_, ?_, ?_⟩
  · by_contra below
    have row : (sublat.m.toNat : ℤ) * P.2 ≤ sublat.m.toNat * -1 := mul_le_mul_of_nonneg_left (by omega) positive.le
    omega
  · by_contra above
    have row : (sublat.m.toNat : ℤ) * (p.j0.toNat + p.j1.toNat) ≤ sublat.m.toNat * P.2 :=
      mul_le_mul_of_nonneg_left (by omega) positive.le
    have a : (al + 1) * p.j0.toNat ≤ sublat.m.toNat * (p.j0.toNat : ℤ) :=
      mul_le_mul_of_nonneg_right (by omega) (by omega)
    have b : be * p.j1.toNat ≤ sublat.m.toNat * (p.j1.toNat : ℤ) := mul_le_mul_of_nonneg_right bem.le (by omega)
    linarith
  · by_contra below
    have column : (sublat.m.toNat : ℤ) * P.1 ≤ sublat.m.toNat * (-p.mi0.toNat - 1) :=
      mul_le_mul_of_nonneg_left (by omega) positive.le
    have a : al * p.mi0.toNat ≤ sublat.m.toNat * (p.mi0.toNat : ℤ) := mul_le_mul_of_nonneg_right alm.le (by omega)
    linarith
  · by_contra above
    have column : (sublat.m.toNat : ℤ) * p.i1.toNat ≤ sublat.m.toNat * P.1 :=
      mul_le_mul_of_nonneg_left (by omega) positive.le
    have b : (be + 1) * p.i1.toNat ≤ sublat.m.toNat * (p.i1.toNat : ℤ) :=
      mul_le_mul_of_nonneg_right (by omega) (by omega)
    linarith

theorem two_pow_half (lower : 0 < logI) : (2 : ℤ) ^ logI = 2 ^ (logI - 1) + 2 ^ (logI - 1) := by
  rw [← two_mul, ← pow_succ', Nat.sub_add_cancel lower]

theorem tdiv_half (lower : 0 < logI) :
    ((2 : ℤ) ^ logI).tdiv 2 = 2 ^ (logI - 1) ∧ (-(2 : ℤ) ^ logI).tdiv 2 = -2 ^ (logI - 1) := by
  have half : ((2 : ℤ) ^ logI).tdiv 2 = 2 ^ (logI - 1) := by
    rw [two_pow_half lower, ← two_mul]
    exact Int.mul_tdiv_cancel_left _ (by norm_num)
  exact ⟨half, by rw [Int.neg_tdiv, half]⟩

def column (logI : ℕ) (P : ℤ × ℤ) : ℤ × ℤ := (P.1 + 2 ^ (logI - 1), P.2)

theorem encoded_iff (lower : 0 < logI) (width : logI < 32) (post : p.checkPostConditions (sieveWidth logI) = true)
    (modulus : Modulus p.det sublat) (spanned : Spanned p sublat P) (x : ℤ) :
    Encoded p logI sublat x ↔ x ∈ (stripBasis width post).Forward (column logI P) := by
  have half := two_pow_half lower
  have point := mem_lattice_iff modulus spanned
  constructor
  · rintro ⟨ii, jj, low, high, up, rfl, member⟩
    obtain ⟨k, l, rfl, rfl⟩ := (point _ _).mp member
    refine ⟨⟨k, l, ?_, ?_, ?_⟩, ?_⟩
    · simp only [column, stripBasis]
      linarith
    · simp only [column, stripBasis]
      linarith
    · simp only [column, stripBasis]
      ring
    · have row := mul_nonneg up (show (0 : ℤ) ≤ 2 ^ logI by positivity)
      linarith
  · rintro ⟨⟨k, l, low, high, rfl⟩, nonneg⟩
    have up := (StripBasis.position_nonneg (P := (_, _)) low high).mp nonneg
    simp only [column, stripBasis] at low high up
    refine ⟨P.1 - p.mi0.toNat * k + p.i1.toNat * l, P.2 + p.j0.toNat * k + p.j1.toNat * l, by linarith, by linarith,
      up, ?_, (point _ _).mpr ⟨k, l, rfl, rfl⟩⟩
    simp only [column, stripBasis]
    ring

def corrected (p : PlatticeInfo) (logI : ℕ) (P : ℤ × ℤ) : ℤ × ℤ :=
  if P.1 < -2 ^ (logI - 1) then (P.1 + p.mi0.toNat, P.2 - p.j0.toNat)
  else if 2 ^ (logI - 1) ≤ P.1 then (P.1 - p.i1.toNat, P.2 - p.j1.toNat)
  else P

theorem correctStart_ok (ndebug : Bool) (lower : 0 < logI) (left : -(p.mi0.toNat : ℤ) ≤ P.1)
    (right : P.1 < p.i1.toNat) :
    correctStart ndebug (2 ^ logI) (-p.mi0.toNat) p.j0.toNat p.i1.toNat p.j1.toNat P.1 P.2 =
      .ok (corrected p logI P) := by
  obtain ⟨half, negative⟩ := tdiv_half lower
  rw [correctStart, corrected, half, negative]
  by_cases before : P.1 < -2 ^ (logI - 1)
  · have checked : (0 : ℤ) ≤ P.1 - -p.mi0.toNat := by omega
    rw [if_pos before, if_pos before, assert_of checked, sub_neg_eq_add]
    rfl
  · rw [if_neg before, if_neg before]
    by_cases beyond : 2 ^ (logI - 1) ≤ P.1
    · have checked : P.1 - (p.i1.toNat : ℤ) ≤ 0 := by omega
      rw [if_pos (by omega), if_pos beyond, assert_of checked]
      rfl
    · rw [if_neg (by omega), if_neg beyond]
      rfl

theorem walkUp_idle {I i0 j0 i1 j1 ii jj : ℤ} (fuel : ℕ) (up : 0 ≤ jj) :
    walkUp I i0 j0 i1 j1 fuel ii jj = .ok (ii, jj) := by
  cases fuel with
  | zero => exact if_neg (by omega)
  | succ fuel => exact if_neg (by omega)

theorem walkUp_spec (lower : 0 < logI) (width : logI < 32) (post : p.checkPostConditions (sieveWidth logI) = true)
    (high : 0 < p.j1.toNat) {fuel : ℕ} {ii jj : ℤ} (enough : -jj ≤ fuel) (below : jj < 0) (strip : InStrip logI ii)
    (member : (stripBasis width post).Class P (StripBasis.position (2 ^ logI) (column logI (ii, jj)))) :
    ∃ Q : ℤ × ℤ, walkUp (2 ^ logI) (-p.mi0.toNat) p.j0.toNat p.i1.toNat p.j1.toNat fuel ii jj = .ok Q ∧
      InStrip logI Q.1 ∧ 0 ≤ Q.2 ∧ Q.2 < p.j0.toNat + p.j1.toNat ∧
      IsLeast ((stripBasis width post).Forward P) (StripBasis.position (2 ^ logI) (column logI Q)) := by
  induction fuel generalizing ii jj with
  | zero => omega
  | succ fuel ih =>
    obtain ⟨half, negative⟩ := tdiv_half lower
    have split := two_pow_half lower
    obtain ⟨mi0, j0, i1, wide⟩ := checkPostConditions_exact width post
    have mi0' : (p.mi0.toNat : ℤ) < 2 ^ logI := by exact_mod_cast mi0
    have wide' : (2 : ℤ) ^ logI ≤ p.i1.toNat + p.mi0.toNat := by exact_mod_cast wide
    have i1' : (p.i1.toNat : ℤ) < 2 ^ logI ∨ (p.mi0.toNat : ℤ) = 0 := by exact_mod_cast i1
    obtain ⟨low, beyond⟩ := strip
    have remainder : StripBasis.position (2 ^ logI) (column logI (ii, jj)) % 2 ^ logI = ii + 2 ^ (logI - 1) := by
      rw [StripBasis.position, Int.add_mul_emod_self_right]
      exact Int.emod_eq_of_lt (by simp only [column]; omega) (by simp only [column]; omega)
    set ii' := ii + (if 2 ^ (logI - 1) - (p.i1.toNat : ℤ) ≤ ii then -(p.mi0.toNat : ℤ) else 0) +
      if ii < -2 ^ (logI - 1) - -(p.mi0.toNat : ℤ) then (p.i1.toNat : ℤ) else 0 with iiDef
    set jj' := jj + (if 2 ^ (logI - 1) - (p.i1.toNat : ℤ) ≤ ii then (p.j0.toNat : ℤ) else 0) +
      if ii < -2 ^ (logI - 1) - -(p.mi0.toNat : ℤ) then (p.j1.toNat : ℤ) else 0 with jjDef
    have unfolded : walkUp (2 ^ logI) (-p.mi0.toNat) p.j0.toNat p.i1.toNat p.j1.toNat (fuel + 1) ii jj =
        walkUp (2 ^ logI) (-p.mi0.toNat) p.j0.toNat p.i1.toNat p.j1.toNat fuel ii' jj' := by
      rw [walkUp, if_pos below, half, negative]
    have warps : 2 ^ logI - (p.i1.toNat : ℤ) ≤ ii + 2 ^ (logI - 1) ↔ 2 ^ (logI - 1) - (p.i1.toNat : ℤ) ≤ ii := by omega
    have steps : ii + 2 ^ (logI - 1) < (p.mi0.toNat : ℤ) ↔ ii < -2 ^ (logI - 1) - -(p.mi0.toNat : ℤ) := by omega
    have moved : (stripBasis width post).next (StripBasis.position (2 ^ logI) (column logI (ii, jj))) =
        StripBasis.position (2 ^ logI) (column logI (ii', jj')) := by
      rw [StripBasis.next, remainder]
      simp only [stripBasis, StripBasis.position, column, warps, steps, iiDef, jjDef]
      split <;> split <;> ring
    have strip' : InStrip logI ii' ∧ jj + 1 ≤ jj' ∧ jj' ≤ jj + p.j0.toNat + p.j1.toNat := by
      rw [InStrip, iiDef, jjDef]
      split <;> split <;> omega
    have next := StripBasis.class_next member
    rw [moved] at next
    rw [unfolded]
    by_cases again : jj' < 0
    · exact ih (by omega) again strip'.1 next.1
    · have inside : 0 ≤ (column logI (ii, jj)).1 ∧ (column logI (ii, jj)).1 < 2 ^ logI := by
        simp only [column]
        omega
      have under : StripBasis.position (2 ^ logI) (column logI (ii, jj)) < 0 := by
        by_contra nonneg
        have row := (StripBasis.position_nonneg inside.1 inside.2).mp (not_lt.mp nonneg)
        exact absurd row (not_le.mpr below)
      have inside' : 0 ≤ (column logI (ii', jj')).1 ∧ (column logI (ii', jj')).1 < 2 ^ logI := by
        have strip := strip'.1
        rw [InStrip] at strip
        simp only [column]
        omega
      have above : 0 ≤ StripBasis.position (2 ^ logI) (column logI (ii', jj')) :=
        (StripBasis.position_nonneg inside'.1 inside'.2).mpr (not_lt.mp again)
      have first := StripBasis.isLeast_next member under (by rw [moved]; exact above)
      rw [moved] at first
      exact ⟨(ii', jj'), walkUp_idle fuel (not_lt.mp again), strip'.1, not_lt.mp again, by simp only; omega, first⟩

instance (logI : ℕ) (i : ℤ) : Decidable (InStrip logI i) := inferInstanceAs (Decidable (_ ∧ _))

def finishStart (ndebug : Bool) (p : PlatticeInfo) (logI : ℕ) (R : ℤ × ℤ) : Except Failure (BitVec 64) := do
  assert ndebug (InStrip logI R.1)
  let Q ← walkUp (2 ^ logI) (-p.mi0.toNat) p.j0.toNat p.i1.toNat p.j1.toNat (-R.2).toNat R.1 R.2
  return .ofInt 64 (StripBasis.position (2 ^ logI) (column logI Q))

theorem Sieved.i1_lt (sieved : Sieved logI p) (width : logI < 32) (kept : p.skipped = false) : p.i1.toNat < 2 ^ 31 := by
  obtain ⟨mi0, j0, i1, wide⟩ := checkPostConditions_exact width sieved.post
  have limit := two_pow_le_sign width
  have fits := sieved.fits
  obtain ⟨-, positive⟩ := of_skipped kept
  rcases i1 with narrow | zero
  · omega
  · have lower := sieved.vertical (BitVec.eq_of_toNat_eq zero)
    have twice := Nat.mul_le_mul_right p.i1.toNat (show 2 ≤ p.j0.toNat by omega)
    rw [det, zero, Nat.zero_mul] at fits
    omega

theorem Sieved.rows_lt (sieved : Sieved logI p) (width : logI < 32) (kept : p.skipped = false) :
    (p.j0.toNat + p.j1.toNat : ℤ) * 2 ^ logI < 2 ^ 64 := by
  obtain ⟨mi0, j0, i1, wide⟩ := checkPostConditions_exact width sieved.post
  have limit := two_pow_le_sign width
  have fits := sieved.fits
  obtain ⟨right, positive⟩ := of_skipped kept
  rw [det] at fits
  have rows : (p.j0.toNat + p.j1.toNat) * 2 ^ logI < 2 ^ 64 := by
    rcases Nat.eq_zero_or_pos p.mi0.toNat with zero | pos
    · have lower := sieved.vertical (BitVec.eq_of_toNat_eq zero)
      calc
        (p.j0.toNat + p.j1.toNat) * 2 ^ logI ≤ 2 * p.j0.toNat * p.i1.toNat := Nat.mul_le_mul (by omega) (by omega)
        _ = 2 * (p.j0.toNat * p.i1.toNat) := Nat.mul_assoc _ _ _
        _ < 2 ^ 64 := by omega
    · have first := Nat.le_mul_of_pos_left p.j1.toNat pos
      have second := Nat.le_mul_of_pos_right p.j0.toNat right
      calc
        (p.j0.toNat + p.j1.toNat) * 2 ^ logI ≤ 2 ^ 32 * 2 ^ 31 := Nat.mul_le_mul (by omega) limit
        _ < 2 ^ 64 := by norm_num
  exact_mod_cast rows

theorem startingPoint_eq (ndebug : Bool) (lower : 0 < logI) (width : logI < 32) (sieved : Sieved logI p)
    (kept : p.skipped = false) (modulus : Modulus p.det sublat) :
    ∃ P, Spanned p sublat P ∧ startingPoint ndebug p logI sublat = finishStart ndebug p logI (corrected p logI P) := by
  obtain ⟨mi0, j0, i1, wide⟩ := checkPostConditions_exact width sieved.post
  have limit := two_pow_le_sign width
  have positive := modulus.pos
  obtain ⟨right, high⟩ := of_skipped kept
  have i0 : p.getI0.toInt = -(p.mi0.toNat : ℤ) := by
    rw [getI0, BitVec.toInt_neg_of_ne_intMin, BitVec.toInt_eq_toNat_of_lt (by omega)]
    intro minimal
    rw [minimal] at mi0
    exact absurd (mi0.trans_le limit) (by decide)
  have step : p.i1.toInt = p.i1.toNat := BitVec.toInt_eq_toNat_of_lt (by have := sieved.i1_lt width kept; omega)
  obtain ⟨inverted, inverse⟩ := invmod_ok ndebug modulus
  have det : (p.det : ℤ) = p.mi0.toNat * p.j1.toNat + p.j0.toNat * p.i1.toNat := by
    rw [PlatticeInfo.det]
    push_cast
    rfl
  set d := -(p.det : ℤ) % sublat.m.toNat with dDef
  have nonneg : 0 ≤ d := Int.emod_nonneg _ positive.ne'
  rw [det] at inverse
  obtain ⟨first, second⟩ := solves (s := sublat.i0.toNat) (t := sublat.j0.toNat) inverse
  set al := ((p.j1.toNat : ℤ) * sublat.i0.toNat - p.i1.toNat * sublat.j0.toNat) * d % sublat.m.toNat with alDef
  set be := (-(p.j0.toNat : ℤ) * sublat.i0.toNat + -(p.mi0.toNat : ℤ) * sublat.j0.toNat) * d % sublat.m.toNat with beDef
  obtain ⟨ii, column⟩ := first
  obtain ⟨jj, row⟩ := second
  have spanned : Spanned p sublat (ii, jj) := by
    refine ⟨al, be, Int.emod_nonneg _ positive.ne', Int.emod_lt_of_pos _ positive, Int.emod_nonneg _ positive.ne',
      Int.emod_lt_of_pos _ positive, ?_, ?_⟩
    · linarith
    · linarith
  obtain ⟨-, -, left, before⟩ := spanned.bounds modulus j0 right
  refine ⟨(ii, jj), spanned, ?_⟩
  have corrects := correctStart_ok (p := p) (P := (ii, jj)) ndebug lower left before
  obtain ⟨half, negative⟩ := tdiv_half lower
  rw [startingPoint]
  simp only [kept, Bool.false_eq_true, if_false, negDeterminant_eq sieved.fits positive, ← dDef, inverted, i0, step,
    residue_eq _ _ positive, Int.toNat_of_nonneg nonneg, bind, Except.bind, ← alDef, ← beDef, column, row,
    Int.mul_tdiv_cancel_left _ positive.ne', corrects, half, negative]
  rfl

/-! ## When the result is right -/

theorem startsRight_iff_isLeast {ndebug : Bool} (lower : 0 < logI) (width : logI < 32)
    (post : p.checkPostConditions (sieveWidth logI) = true) (modulus : Modulus p.det sublat)
    (spanned : Spanned p sublat P) {y : ℤ} (run : startingPoint ndebug p logI sublat = .ok (.ofInt 64 y))
      (nonneg : 0 ≤ y)
    (fits : y < 2 ^ 64) :
    StartsRight ndebug p logI sublat ↔ IsLeast ((stripBasis width post).Forward (column logI P)) y := by
  have points : {x | Encoded p logI sublat x} = (stripBasis width post).Forward (column logI P) := by
    ext x
    exact encoded_iff lower width post modulus spanned x
  have word : ((BitVec.ofInt 64 y).toNat : ℤ) = y := by
    rw [BitVec.toNat_ofInt]
    omega
  constructor
  · rintro ⟨x, same, least, -⟩
    obtain rfl : BitVec.ofInt 64 y = x := Except.ok.inj (run.symm.trans same)
    rwa [points, word] at least
  · intro least
    obtain ⟨increasing, range⟩ := StripBasis.enumerates_class least
    refine ⟨_, run, by rwa [points, word], _, increasing, range.trans points.symm, fun n => ?_⟩
    have walk : (PlatticeEnumerator.next (PlatticeEnumerator.maskI logI))^[n] (p.enumeratorAt logI y) =
        p.enumeratorAt logI ((stripBasis width post).next^[n] y) := by
      induction n with
      | zero => rfl
      | succ n ih => rw [Function.iterate_succ_apply', Function.iterate_succ_apply', ih, next_at width post]
    change (((PlatticeEnumerator.next (PlatticeEnumerator.maskI logI))^[n] (p.enumeratorAt logI y)).x.toNat : ℤ) = _
    rw [walk]
    change ((BitVec.ofInt 64 _).toNat : ℤ) = _
    rw [BitVec.toNat_ofInt, Int.toNat_of_nonneg (Int.emod_nonneg _ (by norm_num))]
    rfl

/-- From a corrected point in the strip the call is right when it starts below the origin, or when no point is before it. -/
theorem startsRight_of_inStrip {ndebug : Bool} (lower : 0 < logI) (width : logI < 32) (sieved : Sieved logI p)
    (kept : p.skipped = false) (modulus : Modulus p.det sublat) (spanned : Spanned p sublat P) {R : ℤ × ℤ}
    (run : startingPoint ndebug p logI sublat = finishStart ndebug p logI R) (strip : InStrip logI R.1)
    (bound : R.2 < p.j0.toNat + p.j1.toNat)
    (class_eq : ∀ x, (stripBasis width sieved.post).Class (column logI R) x ↔
      (stripBasis width sieved.post).Class (column logI P) x) :
    StartsRight ndebug p logI sublat ↔ R.2 < 0 ∨
      IsLeast ((stripBasis width sieved.post).Forward (column logI R))
        (StripBasis.position (2 ^ logI) (column logI R)) := by
  have split := two_pow_half lower
  have inside (Q : ℤ × ℤ) (strip : InStrip logI Q.1) : 0 ≤ (column logI Q).1 ∧ (column logI Q).1 < 2 ^ logI := by
    rw [InStrip] at strip
    simp only [column]
    omega
  have small (Q : ℤ × ℤ) (strip : InStrip logI Q.1) (up : 0 ≤ Q.2) (bound : Q.2 < p.j0.toNat + p.j1.toNat) :
      0 ≤ StripBasis.position (2 ^ logI) (column logI Q) ∧
        StripBasis.position (2 ^ logI) (column logI Q) < 2 ^ 64 := by
    obtain ⟨low, high⟩ := inside Q strip
    refine ⟨(StripBasis.position_nonneg low high).mpr up, ?_⟩
    have rows := sieved.rows_lt width kept
    have below : (Q.2 + 1) * 2 ^ logI ≤ (p.j0.toNat + p.j1.toNat : ℤ) * 2 ^ logI :=
      mul_le_mul_of_nonneg_right (by omega) (by positivity)
    simp only [StripBasis.position, column] at low high ⊢
    linarith
  have forward : (stripBasis width sieved.post).Forward (column logI R) =
      (stripBasis width sieved.post).Forward (column logI P) := by
    ext x
    exact and_congr_left fun _ => class_eq x
  rw [forward]
  rcases lt_or_ge R.2 0 with below | up
  · obtain ⟨low, high⟩ := inside R strip
    have member : (stripBasis width sieved.post).Class (column logI P)
        (StripBasis.position (2 ^ logI) (column logI (R.1, R.2))) := (class_eq _).mp (StripBasis.class_self low high)
    obtain ⟨Q, walk, strip', up', bound', least⟩ := walkUp_spec lower width sieved.post (of_skipped kept).2
      (show -R.2 ≤ ((-R.2).toNat : ℤ) by omega) below strip member
    have finished : startingPoint ndebug p logI sublat =
        .ok (.ofInt 64 (StripBasis.position (2 ^ logI) (column logI Q))) := by
      rw [run, finishStart, assert_of strip, walk]
      rfl
    obtain ⟨nonneg, fits⟩ := small Q strip' up' bound'
    rw [startsRight_iff_isLeast lower width sieved.post modulus spanned finished nonneg fits]
    exact iff_of_true least (.inl below)
  · have finished : startingPoint ndebug p logI sublat =
        .ok (.ofInt 64 (StripBasis.position (2 ^ logI) (column logI R))) := by
      rw [run, finishStart, assert_of strip, walkUp_idle _ up]
      rfl
    obtain ⟨nonneg, fits⟩ := small R strip up bound
    rw [startsRight_iff_isLeast lower width sieved.post modulus spanned finished nonneg fits]
    exact ⟨.inr, fun either => either.resolve_left (not_lt.mpr up)⟩

theorem not_startsRight {ndebug : Bool} (lower : 0 < logI) (width : logI < 32) (sieved : Sieved logI p)
    (modulus : Modulus p.det sublat) (spanned : Spanned p sublat P) (right : 2 ^ (logI - 1) ≤ P.1)
    (outside : P.1 - p.i1.toNat < -2 ^ (logI - 1)) : ¬ StartsRight ndebug p logI sublat := by
  rintro ⟨x, -, ⟨first, -⟩, -⟩
  have split := two_pow_half lower
  have narrow := (checkPostConditions_exact width sieved.post).2.2.1
  have wide : (2 : ℤ) ^ logI ≤ p.i1.toNat := by omega
  have vertical : p.mi0.toNat = 0 := narrow.resolve_left (not_lt.mpr (by exact_mod_cast wide))
  obtain ⟨⟨k, l, low, high, -⟩, -⟩ := (encoded_iff lower width sieved.post modulus spanned _).mp first
  simp only [column, stripBasis, vertical, Nat.cast_zero, zero_mul, sub_zero] at low high
  have width_pos : (0 : ℤ) < 2 ^ (logI - 1) := by positivity
  rcases lt_or_ge l 0 with negative | nonneg
  · have back : (p.i1.toNat : ℤ) * l ≤ p.i1.toNat * -1 := mul_le_mul_of_nonneg_left (by omega) (by omega)
    linarith
  · have ahead : 0 ≤ (p.i1.toNat : ℤ) * l := mul_nonneg (by omega) nonneg
    linarith

theorem startingPoint_iff_of_sieved (ndebug : Bool) (lower : 0 < logI) (width : logI < 32) (sieved : Sieved logI p)
    (kept : p.skipped = false) (modulus : Modulus p.det sublat) :
    ∃ P, Spanned p sublat P ∧ (StartsRight ndebug p logI sublat ↔ NoneBefore p logI P) := by
  obtain ⟨P, spanned, run⟩ := startingPoint_eq ndebug lower width sieved kept modulus
  refine ⟨P, spanned, ?_⟩
  obtain ⟨mi0, j0, i1, wide⟩ := checkPostConditions_exact width sieved.post
  have mi0' : (p.mi0.toNat : ℤ) < 2 ^ logI := by exact_mod_cast mi0
  have split := two_pow_half lower
  obtain ⟨i1pos, j1pos⟩ := of_skipped kept
  obtain ⟨up, high, left, right⟩ := spanned.bounds modulus j0 i1pos
  have ahead (Q : ℤ × ℤ) : StripBasis.Ahead (2 ^ logI) (column logI Q) ↔ InStrip logI Q.1 ∧ 0 ≤ Q.2 := by
    simp only [StripBasis.Ahead, column, InStrip]
    omega
  have unwarp (Q : ℤ × ℤ) : (stripBasis width sieved.post).unwarp (column logI Q) =
      column logI (Q.1 + p.mi0.toNat, Q.2 - p.j0.toNat) := by
    simp only [StripBasis.unwarp, column, stripBasis, Prod.mk.injEq, and_true]
    ring
  have unstep (Q : ℤ × ℤ) : (stripBasis width sieved.post).unstep (column logI Q) =
      column logI (Q.1 - p.i1.toNat, Q.2 - p.j1.toNat) := by
    simp only [StripBasis.unstep, column, stripBasis, Prod.mk.injEq, and_true]
    ring
  have first (Q : ℤ × ℤ) (strip : InStrip logI Q.1) (nonneg : 0 ≤ Q.2) :=
    StripBasis.isLeast_iff (B := stripBasis width sieved.post) ((ahead Q).mpr ⟨strip, nonneg⟩)
  simp only [unwarp, unstep, ahead, InStrip] at first
  by_cases before : P.1 < -2 ^ (logI - 1)
  · have corrects : corrected p logI P = (P.1 + p.mi0.toNat, P.2 - p.j0.toNat) := if_pos before
    rw [corrects] at run
    have strip : InStrip logI (P.1 + p.mi0.toNat) := by
      rw [InStrip]
      omega
    have same (x : ℤ) := StripBasis.class_unwarp (B := stripBasis width sieved.post) (P := column logI P) x
    rw [unwarp] at same
    rw [startsRight_of_inStrip lower width sieved kept modulus spanned run strip (by simp only; omega) same]
    have condition : NoneBefore p logI P ↔
        ¬ (InStrip logI (P.1 + 2 * p.mi0.toNat) ∧ 2 * (p.j0.toNat : ℤ) ≤ P.2) :=
      ⟨fun none => none.left before, fun none => ⟨fun inside => absurd before (not_lt.mpr inside.1), fun _ => none,
        fun beyond => by omega⟩⟩
    rw [condition]
    by_cases below : P.2 - p.j0.toNat < 0
    · exact iff_of_true (.inl below) fun both => by omega
    · rw [first (P.1 + p.mi0.toNat, P.2 - p.j0.toNat) strip (not_lt.mp below)]
      simp only [InStrip]
      omega
  · by_cases beyond : 2 ^ (logI - 1) ≤ P.1
    · have corrects : corrected p logI P = (P.1 - p.i1.toNat, P.2 - p.j1.toNat) := by
        rw [corrected, if_neg before, if_pos beyond]
      rw [corrects] at run
      have condition : NoneBefore p logI P ↔ InStrip logI (P.1 - p.i1.toNat) ∧
          ¬ (InStrip logI (P.1 - 2 * p.i1.toNat) ∧ 2 * (p.j1.toNat : ℤ) ≤ P.2) :=
        ⟨fun none => none.right beyond, fun none => ⟨fun inside => absurd inside.2 (not_lt.mpr beyond),
          fun less => absurd less before, fun _ => none⟩⟩
      rw [condition]
      by_cases strip : InStrip logI (P.1 - p.i1.toNat)
      · have same (x : ℤ) := StripBasis.class_unstep (B := stripBasis width sieved.post) (P := column logI P) x
        rw [unstep] at same
        rw [startsRight_of_inStrip lower width sieved kept modulus spanned run strip (by simp only; omega) same]
        by_cases below : P.2 - p.j1.toNat < 0
        · exact iff_of_true (.inl below) ⟨strip, fun both => by omega⟩
        · rw [first (P.1 - p.i1.toNat, P.2 - p.j1.toNat) strip (not_lt.mp below)]
          simp only [InStrip] at strip ⊢
          omega
      · have outside : P.1 - p.i1.toNat < -2 ^ (logI - 1) := by
          have positive : (0 : ℤ) < 2 ^ (logI - 1) := by positivity
          rw [InStrip] at strip
          omega
        exact iff_of_false (not_startsRight lower width sieved modulus spanned beyond outside) fun both => strip both.1
    · have corrects : corrected p logI P = P := by rw [corrected, if_neg before, if_neg beyond]
      rw [corrects] at run
      have strip : InStrip logI P.1 := ⟨not_lt.mp before, not_le.mp beyond⟩
      rw [startsRight_of_inStrip lower width sieved kept modulus spanned run strip high fun _ => Iff.rfl]
      have condition : NoneBefore p logI P ↔ ¬ (InStrip logI (P.1 + p.mi0.toNat) ∧ (p.j0.toNat : ℤ) ≤ P.2) ∧
          ¬ (InStrip logI (P.1 - p.i1.toNat) ∧ (p.j1.toNat : ℤ) ≤ P.2) :=
        ⟨fun none => none.inside strip, fun none => ⟨fun _ => none, fun less => absurd less before,
          fun more => absurd more beyond⟩⟩
      rw [condition, first _ strip up]
      simp only [InStrip]
      omega

end

/-- The starting point is right unless going back along one vector from the corrected point of the parallelogram
finds another one. -/
theorem startingPoint_iff (ndebug : Bool) {logI : ℕ} (lower : 0 < logI) (width : logI < 32) {p : PlatticeInfo}
    (produced : Produced logI p) (kept : p.skipped = false) {sublat : Sublat} (modulus : Modulus p.det sublat) :
    ∃ P, Spanned p sublat P ∧ (StartsRight ndebug p logI sublat ↔ NoneBefore p logI P) :=
  startingPoint_iff_of_sieved ndebug lower width (produced.sieved width) kept modulus

theorem produced_eleven : Produced 3 ⟨7, 4, 1, 1⟩ :=
  ⟨false, false, 11, 1, fun _ => 0, by decide, by decide, by decide, .inl (by decide)⟩

theorem modulus_two : Modulus (det ⟨7, 4, 1, 1⟩) ⟨2, 0, 1⟩ := ⟨by decide, by decide, by decide, by decide⟩

theorem startingPoint_iff_eleven : ∃ P, Spanned ⟨7, 4, 1, 1⟩ ⟨2, 0, 1⟩ P ∧
    (StartsRight false ⟨7, 4, 1, 1⟩ 3 ⟨2, 0, 1⟩ ↔ NoneBefore ⟨7, 4, 1, 1⟩ 3 P) :=
  startingPoint_iff false (by decide) (by decide) produced_eleven (by decide) modulus_two

theorem startingPoint_misses : ¬ ∀ (ndebug : Bool) (logI : ℕ), 0 < logI → logI < 32 → ∀ p : PlatticeInfo,
    Produced logI p → p.skipped = false → ∀ sublat : Sublat, Modulus p.det sublat →
    StartsRight ndebug p logI sublat := by
  intro always
  obtain ⟨x, run, least, -⟩ := always false 3 (by decide) (by decide) _ produced_eleven (by decide)
    ⟨2, 0, 1⟩ modulus_two
  have returned : startingPoint false ⟨7, 4, 1, 1⟩ 3 ⟨2, 0, 1⟩ = .ok 17 := by decide
  obtain rfl : (17 : BitVec 64) = x := Except.ok.inj (returned.symm.trans run)
  have earlier : Encoded ⟨7, 4, 1, 1⟩ 3 ⟨2, 0, 1⟩ 8 :=
    ⟨-4, 1, by norm_num, by norm_num, by norm_num, by norm_num, mem_generated.mpr ⟨1, -1, by decide⟩⟩
  exact absurd (least.2 earlier) (by decide)

end PlatticeInfo
end CadoNfs.Sieve
