import CadoNfs.Sieve.FbRootQlattice

/-!
# Coordinates in a q-lattice

`convert_ij_to_ab` and `convert_ab_to_ij` of `sieve/las-qlattice.cpp`, in 64-bit and in multiprecision
integers, with the adjustment to a sublattice of `sieve/fb-types.hpp`.
-/

namespace CadoNfs.Sieve

structure Sublat where
  m : BitVec 32 := 0 -- 0 means no sublattices
  i0 : BitVec 32 := 0
  j0 : BitVec 32 := 0

namespace Sublat

def adjustI (sublat : Sublat) (i : BitVec 32) : BitVec 32 :=
  if sublat.m ≠ 0 then i * sublat.m + sublat.i0 else i

def adjustJ (sublat : Sublat) (j : BitVec 32) : BitVec 32 :=
  if sublat.m ≠ 0 then j * sublat.m + sublat.j0 else j

def leave (sublat : Sublat) (ok : Bool) (i j : BitVec 32) : Bool × BitVec 32 × BitVec 32 :=
  if sublat.m ≠ 0 then
    let m : ℤ := sublat.m.toNat
    let imodm := i.toInt.tmod m
    let imodm := if imodm < 0 then imodm + m else imodm
    let jmodm := (j.toNat : ℤ).tmod m
    let jmodm := if jmodm < 0 then jmodm + m else jmodm
    if imodm ≠ sublat.i0.toNat ∨ jmodm ≠ sublat.j0.toNat then (false, i, j)
    else (ok, .ofInt 32 ((i.toInt - imodm).tdiv m), .ofInt 32 ((j.toNat - jmodm).tdiv m))
  else (ok, i, j)

end Sublat

/-- A basis, the special-q `doing.p` and a sublattice. -/
structure SpecialQData extends QlatticeBasis where
  p : ℤ
  sublat : Sublat

namespace SpecialQData

def convertIjToAb (Q : SpecialQData) (i j : BitVec 32) : BitVec 64 × BitVec 64 :=
  let i := (Q.sublat.adjustI i).signExtend 64
  let j := (Q.sublat.adjustJ j).setWidth 64
  let s := i * Q.a0 + j * Q.a1
  let t := i * Q.b0 + j * Q.b1
  if 0 ≤ t.toInt then (s, t) else (-s, -t)

def convertIjToAbMpz (Q : SpecialQData) (i j : BitVec 32) : ℤ × ℤ :=
  let i := (Q.sublat.adjustI i).toInt
  let j : ℤ := (Q.sublat.adjustJ j).toNat
  let a := i * Q.a0.toInt + j * Q.a1.toInt
  let b := i * Q.b0.toInt + j * Q.b1.toInt
  if b < 0 then (-a, -b) else (a, b)

def mpzGetSi (x : ℤ) : BitVec 64 :=
  if 0 ≤ x then .ofInt 64 (x % 2 ^ 63) else .ofInt 64 (-1 - (-1 - x) % 2 ^ 63)

def mpzGetUi (x : ℤ) : BitVec 64 := .ofNat 64 x.natAbs

-- `mpz_divexact` has no specified result if the division is not exact; then `ok` is false.
def convertAbToIjMpz (Q : SpecialQData) (a b : ℤ) : Bool × BitVec 32 × BitVec 32 :=
  let ii := a * Q.b1.toInt - b * Q.a1.toInt
  let jj := b * Q.a0.toInt - a * Q.b0.toInt
  let ok : Bool := Q.p ∣ ii ∧ Q.p ∣ jj
  let ii := ii / Q.p
  let jj := jj / Q.p
  let opposite : Bool := jj < 0 ∨ jj = 0 ∧ ii < 0
  let ii := if opposite then -ii else ii
  let jj := if opposite then -jj else jj
  Q.sublat.leave ok ((mpzGetSi ii).setWidth 32) ((mpzGetUi jj).setWidth 32)

def convertAbToIj (Q : SpecialQData) (a b : BitVec 64) : Bool × BitVec 32 × BitVec 32 :=
  Q.convertAbToIjMpz a.toInt b.toNat

/-! ## Adjusted coordinates -/

variable {Q : SpecialQData} {i j : BitVec 32}

def exactI (Q : SpecialQData) (i : BitVec 32) : ℤ :=
  if Q.sublat.m ≠ 0 then i.toInt * Q.sublat.m.toNat + Q.sublat.i0.toNat else i.toInt

def exactJ (Q : SpecialQData) (j : BitVec 32) : ℤ :=
  if Q.sublat.m ≠ 0 then j.toNat * Q.sublat.m.toNat + Q.sublat.j0.toNat else j.toNat

theorem toInt_adjustI (low : -2 ^ 31 ≤ Q.exactI i) (high : Q.exactI i < 2 ^ 31) :
    (Q.sublat.adjustI i).toInt = Q.exactI i := by
  unfold Sublat.adjustI
  unfold exactI at low high ⊢
  by_cases whole : Q.sublat.m ≠ 0
  · rw [if_pos whole] at low high ⊢
    rw [if_pos whole]
    have word : i * Q.sublat.m + Q.sublat.i0 =
        .ofInt 32 (i.toInt * Q.sublat.m.toNat + Q.sublat.i0.toNat) := by
      rw [BitVec.ofInt_add, BitVec.ofInt_mul, BitVec.ofInt_toInt, BitVec.ofInt_natCast, BitVec.ofInt_natCast,
        BitVec.ofNat_toNat, BitVec.ofNat_toNat, BitVec.setWidth_eq, BitVec.setWidth_eq]
    rw [word, BitVec.toInt_ofInt_eq_self (by norm_num) (by simpa using low) (by simpa using high)]
  · rw [if_neg whole, if_neg whole]

theorem toNat_adjustJ (high : Q.exactJ j < 2 ^ 32) : ((Q.sublat.adjustJ j).toNat : ℤ) = Q.exactJ j := by
  unfold Sublat.adjustJ
  unfold exactJ at high ⊢
  by_cases whole : Q.sublat.m ≠ 0
  · rw [if_pos whole] at high ⊢
    have small : j.toNat * Q.sublat.m.toNat + Q.sublat.j0.toNat < 2 ^ 32 := by exact_mod_cast high
    rw [if_pos whole, BitVec.toNat_add, BitVec.toNat_mul, Nat.mod_add_mod, Nat.mod_eq_of_lt small]
    push_cast
    rfl
  · rw [if_neg whole, if_neg whole]

theorem mpzGetSi_eq {x : ℤ} (low : -2 ^ 31 ≤ x) (high : x < 2 ^ 31) :
    (mpzGetSi x).setWidth 32 = .ofInt 32 x := by
  have exact : mpzGetSi x = .ofInt 64 x := by
    unfold mpzGetSi
    split
    · rw [Int.emod_eq_of_lt (by omega) (by omega)]
    · rw [Int.emod_eq_of_lt (by omega) (by omega)]
      congr 1
      ring
  rw [exact]
  apply BitVec.eq_of_toNat_eq
  rw [BitVec.toNat_setWidth, BitVec.toNat_ofInt, BitVec.toNat_ofInt]
  omega

theorem tmod_normalized {x m : ℤ} (pos : 0 < m) :
    (if x.tmod m < 0 then x.tmod m + m else x.tmod m) = x % m := by
  have low := Int.emod_nonneg x pos.ne'
  have high := Int.emod_lt_of_pos x pos
  rw [Int.tmod_eq_emod]
  split <;> split <;> omega

theorem coordinates_of_det {a0 b0 a1 b1 p x y a b : ℤ} (det : a0 * b1 - a1 * b0 = p ∨ a0 * b1 - a1 * b0 = -p)
    (point : a = x * a0 + y * a1 ∧ b = x * b0 + y * b1 ∨ a = -(x * a0 + y * a1) ∧ b = -(x * b0 + y * b1)) :
    (a * b1 - b * a1 = p * x ∧ b * a0 - a * b0 = p * y) ∨
      (a * b1 - b * a1 = p * -x ∧ b * a0 - a * b0 = p * -y) := by
  rcases det with det | det <;> rcases point with ⟨rfl, rfl⟩ | ⟨rfl, rfl⟩
  · left
    constructor <;> rw [← det] <;> ring
  · right
    constructor <;> rw [← det] <;> ring
  · right
    rw [← neg_eq_iff_eq_neg] at det
    constructor <;> rw [← det] <;> ring
  · left
    rw [← neg_eq_iff_eq_neg] at det
    constructor <;> rw [← det] <;> ring

structure Adjusts (Q : SpecialQData) (i j : BitVec 32) : Prop where
  i0 : Q.sublat.m ≠ 0 → Q.sublat.i0.toNat < Q.sublat.m.toNat
  j0 : Q.sublat.m ≠ 0 → Q.sublat.j0.toNat < Q.sublat.m.toNat
  low : -2 ^ 31 ≤ Q.exactI i
  high : Q.exactI i < 2 ^ 31
  bound : Q.exactJ j < 2 ^ 32

theorem exactJ_pos (pos : 0 < j.toNat) : 0 < Q.exactJ j := by
  unfold exactJ
  split
  · next whole =>
    have mpos : 0 < Q.sublat.m.toNat := by
      rw [Nat.pos_iff_ne_zero]
      exact fun zero => whole (BitVec.eq_of_toNat_eq zero)
    positivity
  · exact_mod_cast pos

theorem leave_adjust (adjusts : Q.Adjusts i j) :
    Q.sublat.leave true (Q.sublat.adjustI i) (Q.sublat.adjustJ j) = (true, i, j) := by
  have iValue := toInt_adjustI adjusts.low adjusts.high
  have jValue := toNat_adjustJ adjusts.bound
  unfold Sublat.leave
  by_cases whole : Q.sublat.m ≠ 0
  · have i0 := adjusts.i0 whole
    have j0 := adjusts.j0 whole
    have pos : (0 : ℤ) < Q.sublat.m.toNat := by omega
    rw [exactI, if_pos whole] at iValue
    rw [exactJ, if_pos whole] at jValue
    have imodm : (Q.sublat.adjustI i).toInt % Q.sublat.m.toNat = Q.sublat.i0.toNat := by
      rw [iValue, Int.mul_add_emod_self_right, Int.emod_eq_of_lt (by omega) (by omega)]
    have jmodm : ((Q.sublat.adjustJ j).toNat : ℤ) % Q.sublat.m.toNat = Q.sublat.j0.toNat := by
      rw [jValue, Int.mul_add_emod_self_right, Int.emod_eq_of_lt (by omega) (by omega)]
    have matching : ¬ ((Q.sublat.i0.toNat : ℤ) ≠ Q.sublat.i0.toNat ∨ (Q.sublat.j0.toNat : ℤ) ≠ Q.sublat.j0.toNat) := by
      simp
    simp only [if_pos whole, tmod_normalized pos, imodm, jmodm, if_neg matching]
    rw [iValue, jValue, add_sub_cancel_right, add_sub_cancel_right, Int.mul_tdiv_cancel _ pos.ne',
      Int.mul_tdiv_cancel _ pos.ne', BitVec.ofInt_toInt, BitVec.ofInt_natCast, BitVec.ofNat_toNat, BitVec.setWidth_eq]
  · simp only [if_neg whole, Sublat.adjustI, Sublat.adjustJ]

theorem convertAbToIjMpz_of {a b : ℤ} (nonzero : Q.p ≠ 0) (adjusts : Q.Adjusts i j) (pos : 0 < j.toNat)
    (signed : (a * Q.b1.toInt - b * Q.a1.toInt = Q.p * Q.exactI i ∧
        b * Q.a0.toInt - a * Q.b0.toInt = Q.p * Q.exactJ j) ∨
      (a * Q.b1.toInt - b * Q.a1.toInt = Q.p * -Q.exactI i ∧
        b * Q.a0.toInt - a * Q.b0.toInt = Q.p * -Q.exactJ j)) :
    Q.convertAbToIjMpz a b = (true, i, j) := by
  have ypos := exactJ_pos (Q := Q) pos
  have iWord : (mpzGetSi (Q.exactI i)).setWidth 32 = Q.sublat.adjustI i := by
    rw [mpzGetSi_eq adjusts.low adjusts.high, ← toInt_adjustI adjusts.low adjusts.high, BitVec.ofInt_toInt]
  have jWord : (mpzGetUi (Q.exactJ j)).setWidth 32 = Q.sublat.adjustJ j := by
    rw [mpzGetUi, ← toNat_adjustJ adjusts.bound, Int.natAbs_natCast, BitVec.ofNat_toNat]
    exact BitVec.setWidth_setWidth_of_le _ (by norm_num)
  rcases signed with ⟨first, second⟩ | ⟨first, second⟩
  · have forward : ¬ (Q.exactJ j < 0 ∨ Q.exactJ j = 0 ∧ Q.exactI i < 0) := by omega
    simp only [convertAbToIjMpz, first, second, Int.dvd_mul_right, and_self, decide_true,
      Int.mul_ediv_cancel_left _ nonzero, decide_eq_true_eq, if_neg forward, iWord, jWord]
    exact leave_adjust adjusts
  · have backward : -Q.exactJ j < 0 ∨ -Q.exactJ j = 0 ∧ -Q.exactI i < 0 := by omega
    simp only [convertAbToIjMpz, first, second, Int.dvd_mul_right, and_self, decide_true,
      Int.mul_ediv_cancel_left _ nonzero, decide_eq_true_eq, if_pos backward, neg_neg, iWord, jWord]
    exact leave_adjust adjusts

def Fits64 (Q : SpecialQData) (i j : BitVec 32) : Prop :=
  |Q.exactI i * Q.a0.toInt + Q.exactJ j * Q.a1.toInt| < 2 ^ 63 ∧
    |Q.exactI i * Q.b0.toInt + Q.exactJ j * Q.b1.toInt| < 2 ^ 63

theorem combination_fits {x y c d : ℤ} (xLow : -2 ^ 31 ≤ x) (xHigh : x < 2 ^ 31) (yPos : 0 < y)
    (yHigh : y ≤ 2 ^ 31) (cLow : -2 ^ 31 ≤ c) (cHigh : c < 2 ^ 31) (dLow : -2 ^ 31 ≤ d) (dHigh : d < 2 ^ 31) :
    |x * c + y * d| < 2 ^ 63 := by
  have first : -(2 ^ 31 * (2 ^ 31 - 1)) ≤ x * c := by nlinarith
  have first' : x * c ≤ 2 ^ 31 * 2 ^ 31 := by nlinarith
  have second : -(2 ^ 31 * 2 ^ 31) ≤ y * d := by nlinarith
  have second' : y * d ≤ 2 ^ 31 * (2 ^ 31 - 1) := by nlinarith
  rw [abs_lt]
  constructor
  · linarith
  · linarith

theorem fits64_of_fits31bits (fits : Q.fits31bits) (adjusts : Q.Adjusts i j) (pos : 0 < j.toNat)
    (bound : Q.exactJ j ≤ 2 ^ 31) : Q.Fits64 i j := by
  obtain ⟨⟨a0, a0'⟩, ⟨a1, a1'⟩, ⟨b0, b0'⟩, b1, b1'⟩ := fits
  have ypos := exactJ_pos (Q := Q) pos
  exact ⟨combination_fits adjusts.low adjusts.high ypos bound a0 a0' a1 a1',
    combination_fits adjusts.low adjusts.high ypos bound b0 b0' b1 b1'⟩

theorem toInt_point (adjusts : Q.Adjusts i j) {c d : BitVec 64}
    (fits : |Q.exactI i * c.toInt + Q.exactJ j * d.toInt| < 2 ^ 63) :
    ((Q.sublat.adjustI i).signExtend 64 * c + (Q.sublat.adjustJ j).setWidth 64 * d).toInt =
      Q.exactI i * c.toInt + Q.exactJ j * d.toInt := by
  have jLt := (Q.sublat.adjustJ j).isLt
  have word : ((Q.sublat.adjustJ j).setWidth 64).toInt = Q.exactJ j := by
    rw [BitVec.toInt_setWidth, bmod_int64 (by omega) (by omega), toNat_adjustJ adjusts.bound]
  rw [abs_lt] at fits
  rw [BitVec.toInt_add, BitVec.toInt_mul, BitVec.toInt_mul, BitVec.toInt_signExtend_of_le (by norm_num),
    toInt_adjustI adjusts.low adjusts.high, word, Int.bmod_add_bmod, Int.add_bmod_bmod,
    bmod_int64 fits.1.le fits.2]

theorem convertIjToAb_eq (adjusts : Q.Adjusts i j) (fits : Q.Fits64 i j) :
    ((Q.convertIjToAb i j).1.toInt, ((Q.convertIjToAb i j).2.toNat : ℤ)) = Q.convertIjToAbMpz i j := by
  have s := toInt_point adjusts fits.1
  have t := toInt_point adjusts fits.2
  obtain ⟨sFits, tFits⟩ := fits
  rw [abs_lt] at sFits tFits
  rw [← s] at sFits
  rw [← t] at tFits
  simp only [convertIjToAb, convertIjToAbMpz, toInt_adjustI adjusts.low adjusts.high,
    toNat_adjustJ adjusts.bound, ← s, ← t]
  generalize (Q.sublat.adjustI i).signExtend 64 * Q.a0 + (Q.sublat.adjustJ j).setWidth 64 * Q.a1 = x at sFits
  generalize (Q.sublat.adjustI i).signExtend 64 * Q.b0 + (Q.sublat.adjustJ j).setWidth 64 * Q.b1 = y at tFits
  have split : y.toInt = if 2 * y.toNat < 2 ^ 64 then (y.toNat : ℤ) else y.toNat - 2 ^ 64 := by
    simpa using BitVec.toInt_eq_toNat_cond y
  by_cases negative : y.toInt < 0
  · have opposite : (-y).toNat = 2 ^ 64 - y.toNat := by
      rw [BitVec.toNat_neg, Nat.mod_eq_of_lt (by omega)]
    rw [if_neg (not_le.mpr negative), if_pos negative, BitVec.toInt_neg, bmod_int64 (by omega) (by omega), opposite]
    exact Prod.ext rfl (by simp only; omega)
  · rw [if_pos (not_lt.mp negative), if_neg negative]
    exact Prod.ext rfl (by simp only; omega)

theorem convert_roundTrip (det : Q.det = Q.p ∨ Q.det = -Q.p) (nonzero : Q.p ≠ 0) (adjusts : Q.Adjusts i j)
    (pos : 0 < j.toNat) :
    Q.convertAbToIjMpz (Q.convertIjToAbMpz i j).1 (Q.convertIjToAbMpz i j).2 = (true, i, j) ∧
    (Q.Fits64 i j →
      ((Q.convertIjToAb i j).1.toInt, ((Q.convertIjToAb i j).2.toNat : ℤ)) = Q.convertIjToAbMpz i j ∧
      Q.convertAbToIj (Q.convertIjToAb i j).1 (Q.convertIjToAb i j).2 = (true, i, j)) ∧
    (Q.fits31bits → Q.exactJ j ≤ 2 ^ 31 → Q.Fits64 i j) := by
  have exact : Q.convertAbToIjMpz (Q.convertIjToAbMpz i j).1 (Q.convertIjToAbMpz i j).2 = (true, i, j) := by
    apply convertAbToIjMpz_of nonzero adjusts pos
    apply coordinates_of_det det
    simp only [convertIjToAbMpz, toInt_adjustI adjusts.low adjusts.high, toNat_adjustJ adjusts.bound]
    split
    · exact .inr ⟨rfl, rfl⟩
    · exact .inl ⟨rfl, rfl⟩
  refine ⟨exact, fun fits => ?_, fun fits bound => fits64_of_fits31bits fits adjusts pos bound⟩
  have same := convertIjToAb_eq adjusts fits
  refine ⟨same, ?_⟩
  rw [← same] at exact
  exact exact

def unitLattice : SpecialQData := { a0 := 1, b0 := 0, a1 := 0, b1 := 1, p := 1, sublat := { m := 6 } }

def sevenLattice : SpecialQData := { a0 := 7, b0 := 0, a1 := 3, b1 := 1, p := 7, sublat := { m := 6, i0 := 1, j0 := 5 } }

theorem convert_roundTrip_seven :
    sevenLattice.convertAbToIjMpz (sevenLattice.convertIjToAbMpz (-5) 1).1
        (sevenLattice.convertIjToAbMpz (-5) 1).2 = (true, -5, 1) ∧
    (sevenLattice.Fits64 (-5) 1 →
      ((sevenLattice.convertIjToAb (-5) 1).1.toInt, ((sevenLattice.convertIjToAb (-5) 1).2.toNat : ℤ)) =
        sevenLattice.convertIjToAbMpz (-5) 1 ∧
      sevenLattice.convertAbToIj (sevenLattice.convertIjToAb (-5) 1).1 (sevenLattice.convertIjToAb (-5) 1).2 =
        (true, -5, 1)) ∧
    (sevenLattice.fits31bits → sevenLattice.exactJ 1 ≤ 2 ^ 31 → sevenLattice.Fits64 (-5) 1) :=
  convert_roundTrip (by decide) (by decide) ⟨by decide, by decide, by decide, by decide, by decide⟩ (by decide)

def skewedLattice : SpecialQData :=
  { a0 := 2147483647, b0 := 0, a1 := 2147483647, b1 := 1, p := 2147483647, sublat := {} }

-- The adjusted `i` wraps in the first lattice; without sublattices, `a` leaves 64 bits in the second.
theorem convert_wraps : (¬ ∀ (Q : SpecialQData) (i j : BitVec 32), Q.det = Q.p ∨ Q.det = -Q.p → Q.p ≠ 0 →
    Q.fits31bits → Q.sublat.i0.toNat < Q.sublat.m.toNat → Q.sublat.j0.toNat < Q.sublat.m.toNat → 0 < j.toNat →
      Q.convertAbToIjMpz (Q.convertIjToAbMpz i j).1 (Q.convertIjToAbMpz i j).2 = (true, i, j)) ∧
    ¬ ∀ (Q : SpecialQData) (i j : BitVec 32), Q.det = Q.p ∨ Q.det = -Q.p → Q.p ≠ 0 → Q.fits31bits →
      Q.sublat.m = 0 → 0 < j.toNat →
      Q.convertAbToIj (Q.convertIjToAb i j).1 (Q.convertIjToAb i j).2 = (true, i, j) := by
  constructor
  · intro always
    exact absurd (always unitLattice 1073741824 1 (by decide) (by decide) (by decide) (by decide) (by decide)
      (by decide)) (by decide)
  · intro always
    exact absurd (always skewedLattice 2147483647 4294967295 (by decide) (by decide) (by decide) rfl (by decide))
      (by decide)

end SpecialQData

end CadoNfs.Sieve
