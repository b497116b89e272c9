import Mathlib

/-!
# Greatest common divisors and remainders

`xgcd` and `CRT` of `cadofactor/cadoutils.py`. The operators `//` and `%` of Python round towards minus infinity.
-/

namespace CadoNfs.Cadofactor.CadoUtils

theorem sub_fdiv_mul (a b : ℤ) : a - a.fdiv b * b = a.fmod b := by
  rw [Int.fmod_def, mul_comm]

theorem natAbs_fmod_lt {a b : ℤ} (nonzero : b ≠ 0) : (a.fmod b).natAbs < b.natAbs := by
  have split := Int.fmod_add_mul_fdiv a b
  rcases lt_or_gt_of_ne nonzero with negative | positive
  · have low := Int.fmod_nonneg_of_pos (-a) (b := -b) (by omega)
    have high := Int.fmod_lt_of_pos (-a) (b := -b) (by omega)
    rw [Int.neg_fmod_neg] at low high
    omega
  · have low := Int.fmod_nonneg_of_pos a positive
    have high := Int.fmod_lt_of_pos a positive
    omega

def xgcdLoop (u0 v0 r0 u1 v1 r1 : ℤ) : ℤ × ℤ × ℤ :=
  if r1 = 0 then (r0, u0, v0)
  else
    let q := r0.fdiv r1
    xgcdLoop u1 v1 r1 (u0 - q * u1) (v0 - q * v1) (r0 - q * r1)
termination_by r1.natAbs
decreasing_by
  rw [sub_fdiv_mul]
  exact natAbs_fmod_lt ‹_›

def xgcd (a b : ℤ) : ℤ × ℤ × ℤ :=
  if a = 0 ∧ b = 0 then (0, 0, 0)
  else
    let (r0, u0, v0) := xgcdLoop 1 0 a 0 1 b
    if r0 < 0 then (-r0, -u0, -v0) else (r0, u0, v0)

inductive CrtError
  | notCoprime (m0 m1 d : ℤ)
  deriving DecidableEq

def crt (r0 m0 r1 m1 : ℤ) (signed : Bool) : Except CrtError (ℤ × ℤ) :=
  let (d, u0, u1) := xgcd m0 m1
  if d ≠ 1 then .error (.notCoprime m0 m1 d)
  else
    let m := m0 * m1
    let r := (r0 * m1 * u1 + r1 * m0 * u0).fmod m
    .ok (if signed then if 2 * r ≤ m then r else r - m else r, m)

/-! ## The greatest common divisor -/

variable {a b : ℤ}

structure Cofactors (a b u0 v0 r0 u1 v1 r1 : ℤ) : Prop where
  first : u0 * a + v0 * b = r0
  second : u1 * a + v1 * b = r1
  gcd : Int.gcd r0 r1 = Int.gcd a b

theorem gcd_fmod (r0 r1 : ℤ) : Int.gcd r1 (r0.fmod r1) = Int.gcd r0 r1 := by
  rw [Int.fmod_def, Int.gcd_comm r0 r1]
  exact Int.gcd_sub_mul_left_right ..

theorem xgcdLoop_spec {u0 v0 r0 u1 v1 r1 : ℤ} (cofactors : Cofactors a b u0 v0 r0 u1 v1 r1) :
    ∃ g u v, xgcdLoop u0 v0 r0 u1 v1 r1 = (g, u, v) ∧ u * a + v * b = g ∧ g.natAbs = Int.gcd a b := by
  fun_induction xgcdLoop u0 v0 r0 u1 v1 r1 with
  | case1 u0 v0 r0 u1 v1 =>
    have gcd := cofactors.gcd
    rw [Int.gcd_zero_right] at gcd
    exact ⟨r0, u0, v0, rfl, cofactors.first, gcd⟩
  | case2 u0 v0 r0 u1 v1 r1 more q ih =>
    refine ih ⟨cofactors.second, ?_, ?_⟩
    · linear_combination cofactors.first - q * cofactors.second
    · rw [sub_fdiv_mul, gcd_fmod, cofactors.gcd]

theorem xgcd_spec (a b : ℤ) : ∃ g u v, xgcd a b = (g, u, v) ∧ g = Int.gcd a b ∧ u * a + v * b = g := by
  unfold xgcd
  split_ifs with zero
  · exact ⟨0, 0, 0, rfl, by rw [zero.1, zero.2]; rfl, by ring⟩
  · obtain ⟨g, u, v, loop, bezout, abs⟩ := xgcdLoop_spec (a := a) (b := b)
      (⟨by ring, by ring, rfl⟩ : Cofactors a b 1 0 a 0 1 b)
    rw [loop]
    dsimp only
    split_ifs with negative
    · exact ⟨-g, -u, -v, rfl, by omega, by linear_combination -bezout⟩
    · exact ⟨g, u, v, rfl, by omega, bezout⟩

def InRange (signed : Bool) (r m : ℤ) : Prop := if signed then -m ≤ 2 * r ∧ 2 * r < m else 0 ≤ r ∧ r < m

def Recombines (r0 m0 r1 m1 : ℤ) (signed : Bool) : Prop :=
  ∃ r, crt r0 m0 r1 m1 signed = .ok (r, m0 * m1) ∧ r ≡ r0 [ZMOD m0] ∧ r ≡ r1 [ZMOD m1] ∧ InRange signed r (m0 * m1)

def HalfWay (r0 m0 r1 m1 : ℤ) : Prop := ∃ h, 2 * h = m0 * m1 ∧ r0 ≡ h [ZMOD m0] ∧ r1 ≡ h [ZMOD m1]

variable {r0 m0 r1 m1 : ℤ}

variable (r0 r1) in
theorem crt_spec (pos0 : 0 < m0) (pos1 : 0 < m1) (coprime : Int.gcd m0 m1 = 1) :
    ∃ r, 0 ≤ r ∧ r < m0 * m1 ∧ r ≡ r0 [ZMOD m0] ∧ r ≡ r1 [ZMOD m1] ∧ ∀ signed,
      crt r0 m0 r1 m1 signed = .ok (if signed then if 2 * r ≤ m0 * m1 then r else r - m0 * m1 else r, m0 * m1) := by
  obtain ⟨g, u, v, found, gcd, bezout⟩ := xgcd_spec m0 m1
  rw [coprime, Nat.cast_one] at gcd
  subst gcd
  have pos := Int.mul_pos pos0 pos1
  have split := Int.fmod_def (r0 * m1 * v + r1 * m0 * u) (m0 * m1)
  set q := (r0 * m1 * v + r1 * m0 * u).fdiv (m0 * m1)
  refine ⟨(r0 * m1 * v + r1 * m0 * u).fmod (m0 * m1), Int.fmod_nonneg_of_pos _ pos, Int.fmod_lt_of_pos _ pos, ?_, ?_,
    fun signed => by rw [crt, found]; exact if_neg (not_not.mpr rfl)⟩
  · refine (Int.modEq_iff_dvd.mpr ?_).symm
    rw [split]
    exact ⟨(r1 - r0) * u - m1 * q, by linear_combination r0 * bezout⟩
  · refine (Int.modEq_iff_dvd.mpr ?_).symm
    rw [split]
    exact ⟨(r0 - r1) * v - m0 * q, by linear_combination r1 * bezout⟩

theorem halfWay_iff {r : ℤ} (coprime : Int.gcd m0 m1 = 1) (low : 0 ≤ r) (high : r < m0 * m1)
    (rem0 : r ≡ r0 [ZMOD m0]) (rem1 : r ≡ r1 [ZMOD m1]) : HalfWay r0 m0 r1 m1 ↔ 2 * r = m0 * m1 := by
  constructor
  · rintro ⟨h, half, half0, half1⟩
    have same : r ≡ h [ZMOD m0 * m1] :=
      (Int.modEq_and_modEq_iff_modEq_mul coprime).mp ⟨rem0.trans half0, rem1.trans half1⟩
    have range : h < m0 * m1 := by omega
    rw [Int.ModEq, Int.emod_eq_of_lt low high, Int.emod_eq_of_lt (by omega) range] at same
    omega
  · exact fun half => ⟨r, half, rem0.symm, rem1.symm⟩

/-- `xgcd` is right everywhere; `CRT` except for half of the product when the result is to be signed. -/
theorem crt_recombines_iff (a b : ℤ) (pos0 : 0 < m0) (pos1 : 0 < m1) (coprime : Int.gcd m0 m1 = 1) (r0 r1 : ℤ)
    (signed : Bool) :
    (∃ g u v, xgcd a b = (g, u, v) ∧ g = Int.gcd a b ∧ u * a + v * b = g) ∧
      (Recombines r0 m0 r1 m1 signed ↔ ¬(signed ∧ HalfWay r0 m0 r1 m1)) := by
  refine ⟨xgcd_spec a b, ?_⟩
  obtain ⟨r, low, high, rem0, rem1, returns⟩ := crt_spec r0 r1 pos0 pos1 coprime
  rw [halfWay_iff coprime low high rem0 rem1, Recombines, returns]
  cases signed with
  | false => exact iff_of_true ⟨r, rfl, rem0, rem1, low, high⟩ nofun
  | true =>
    simp only [if_true, true_and, InRange]
    constructor
    · rintro ⟨s, eq, -, -, -, below⟩ half
      rw [if_pos half.le] at eq
      obtain rfl := congrArg Prod.fst (Except.ok.inj eq)
      exact absurd half below.ne
    · intro other
      split_ifs with small
      · exact ⟨r, rfl, rem0, rem1, by omega, by omega⟩
      · have mod0 : r - m0 * m1 ≡ r [ZMOD m0] := Int.modEq_iff_dvd.mpr ⟨m1, by ring⟩
        have mod1 : r - m0 * m1 ≡ r [ZMOD m1] := Int.modEq_iff_dvd.mpr ⟨m0, by ring⟩
        exact ⟨r - m0 * m1, rfl, mod0.trans rem0, mod1.trans rem1, by omega, by omega⟩

theorem crt_recombines_signed : (∃ g u v, xgcd 0 (-6) = (g, u, v) ∧ g = Int.gcd 0 (-6) ∧ u * 0 + v * (-6) = g) ∧
    (Recombines 2 3 1 5 true ↔ ¬(true ∧ HalfWay 2 3 1 5)) :=
  crt_recombines_iff 0 (-6) (by decide) (by decide) (by decide) 2 1 true

theorem not_recombines_half : ¬∀ r0 m0 r1 m1 : ℤ, 0 < m0 → 0 < m1 → Int.gcd m0 m1 = 1 → ∀ signed,
    Recombines r0 m0 r1 m1 signed := by
  intro all
  obtain ⟨r, returns, -, -, -, below⟩ := all 1 2 0 3 (by decide) (by decide) (by decide) true
  have three : crt 1 2 0 3 true = .ok (3, 6) := by
    simp [crt, xgcd, xgcdLoop]
  rw [three] at returns
  obtain rfl := congrArg Prod.fst (Except.ok.inj returns)
  exact absurd below (by decide)

end CadoNfs.Cadofactor.CadoUtils
