import CadoNfs.Lib.Homography
import CadoNfs.Utils.GaloisRelation
import CadoNfs.Utils.ModUl

/-!
# Galois actions on roots

The two overloads of `apply` of `src/utils/galois_action.cpp`: on a root modulo a prime of type `unsigned long`, and on a
`special_q`. The prime itself stands for the projective root. Both are the homography of the action on the projective
line over the prime field.
-/

namespace CadoNfs.Utils.Galois
open ModUl

def Inv.apply (r p : ℕ) : ℕ := if r = 0 then p else if r = p then 0 else invLong r p

def Neg.apply (r p : ℕ) : ℕ := if r = p ∨ r = 0 then r else p - r

def Autom3_1.apply (r p : ℕ) : ℕ :=
  if r = 0 then p else if r = p then 1 else add1 (neg (invLong r p) p) p

def Autom3_2.apply (r p : ℕ) : ℕ :=
  if r = 0 then p else if r = p then p - 1 else neg (add1 (invLong r p) p) p

def Autom4_1.apply (r p : ℕ) : ℕ :=
  if r = 1 then p
  else if r = p then p - 1
  else
    let rr := invLong (subUl r 1 p) p
    neg (add1 (add rr rr p) p) p

def Autom6_1.apply (r p : ℕ) : ℕ :=
  if r = 1 then p
  else if r = p then p - 2
  else
    let rr := invLong (subUl r 1 p) p
    neg (add (setUl 2 p) (mul (setUl 3 p) rr p) p) p

def GaloisAction.apply : GaloisAction → ℕ → ℕ → ℕ
  | none => fun r _ => r
  | some .inv => Inv.apply
  | some .neg => Neg.apply
  | some .autom3_1 => Autom3_1.apply
  | some .autom3_2 => Autom3_2.apply
  | some .autom4_1 => Autom4_1.apply
  | some .autom6_1 => Autom6_1.apply

def GaloisAction.order : GaloisAction → ℕ
  | none => 1
  | some g => g.order

structure SpecialQ where
  p : ℤ
  r : ℤ
  side : ℤ
  primeFactors : List ℕ
  deriving DecidableEq

namespace SpecialQ

def isPrime (q : SpecialQ) : Bool := q.primeFactors.length == 1

def divideOut (probabPrime : ℤ → Bool) (state : ℤ × List ℕ) (f : ℕ) : Option (ℤ × List ℕ) := do
  let (pp, factors) := state
  if pp ≤ 1 ∨ ¬(f : ℤ) ∣ pp then return (pp, factors)
  else
    let pp := pp / f
    guard ¬(f : ℤ) ∣ pp
    if probabPrime pp then
      guard (pp < 2 ^ 64)
      return (1, factors ++ [f, pp.toNat])
    else return (pp, factors ++ [f])

def findPrimeFactors (probabPrime : ℤ → Bool) (p : ℤ) : Option (List ℕ) :=
  if p = 0 then some []
  else if probabPrime p then some [if p < 2 ^ 64 then p.toNat else 0]
  else do
    let bound := p.toNat.sqrt % 2 ^ 64
    let (pp, factors) ← ((List.range (bound + 1)).filter Nat.Prime).foldlM (divideOut probabPrime) (p, [])
    guard (pp = 1)
    return factors

def make (probabPrime : ℤ → Bool) (p r side : ℤ) : Option SpecialQ :=
  (findPrimeFactors probabPrime p).map fun factors => ⟨p, r, side, factors⟩

end SpecialQ

def mpzInvert (x p : ℤ) : Option ℤ := if Int.gcd x p = 1 then some (Int.gcdA x p % p) else none

section
variable (probabPrime : ℤ → Bool) (q : SpecialQ)

def Inv.applySq : Option SpecialQ := do
  guard q.isPrime
  if q.r = 0 then SpecialQ.make probabPrime q.p q.p q.side
  else if q.r = q.p then SpecialQ.make probabPrime q.p 0 q.side
  else SpecialQ.make probabPrime q.p (← mpzInvert q.r q.p) q.side

def Neg.applySq : Option SpecialQ := do
  guard q.isPrime
  if q.r = 0 ∨ q.p = q.r then return q else SpecialQ.make probabPrime q.p (q.p - q.r) q.side

def Autom3_1.applySq : Option SpecialQ := do
  guard q.isPrime
  if q.r = 0 then SpecialQ.make probabPrime q.p q.p q.side
  else if q.r = 1 then SpecialQ.make probabPrime q.p 0 q.side
  else if q.p = q.r then SpecialQ.make probabPrime q.p 1 q.side
  else
    let ri ← mpzInvert q.r q.p
    SpecialQ.make probabPrime q.p (q.p - (ri - 1)) q.side

def Autom3_2.applySq : Option SpecialQ := do
  guard q.isPrime
  if q.r = 0 then SpecialQ.make probabPrime q.p q.p q.side
  else if q.p = q.r then SpecialQ.make probabPrime q.p (q.p - 1) q.side
  else
    let ri ← mpzInvert q.r q.p
    SpecialQ.make probabPrime q.p (q.p - (ri + 1)) q.side

def Autom4_1.applySq : Option SpecialQ := do
  guard q.isPrime
  if q.r = 1 then SpecialQ.make probabPrime q.p q.p q.side
  else if q.p = q.r then SpecialQ.make probabPrime q.p (q.p - 1) q.side
  else
    let ri ← mpzInvert (q.r - 1) q.p
    let ri := ri + ri
    let ri := if q.p ≤ ri then ri - q.p else ri
    SpecialQ.make probabPrime q.p (q.p - (ri + 1)) q.side

def Autom6_1.applySq : Option SpecialQ := do
  guard q.isPrime
  if q.r = 1 then SpecialQ.make probabPrime q.p q.p q.side
  else if q.p = q.r then SpecialQ.make probabPrime q.p (q.p - 2) q.side
  else
    let ri ← mpzInvert (q.r - 1) q.p
    let ri := ri * 3
    let ri := if q.p ≤ ri then ri - q.p else ri
    let ri := if q.p ≤ ri then ri - q.p else ri
    let ri := ri + 2
    if q.p < ri then SpecialQ.make probabPrime q.p (q.p - 1) q.side
    else SpecialQ.make probabPrime q.p (q.p - ri) q.side

def GaloisAction.applySq : GaloisAction → Option SpecialQ
  | none => some q
  | some .inv => Inv.applySq probabPrime q
  | some .neg => Neg.applySq probabPrime q
  | some .autom3_1 => Autom3_1.applySq probabPrime q
  | some .autom3_2 => Autom3_2.applySq probabPrime q
  | some .autom4_1 => Autom4_1.applySq probabPrime q
  | some .autom6_1 => Autom6_1.applySq probabPrime q

end

/-! ## The projective line -/

open OnePoint hiding some
open GaloisAction (sigma)

def Represents (p : ℕ) (y : ℤ) (x : OnePoint (ZMod p)) : Prop :=
  y = p ∧ x = ∞ ∨ 0 ≤ y ∧ y < p ∧ x = ((y : ZMod p) : OnePoint (ZMod p))

variable {p : ℕ} {x : OnePoint (ZMod p)} {y z : ℤ}

theorem Represents.unique (first : Represents p y x) (second : Represents p z x) : y = z := by
  rcases first with ⟨rfl, rfl⟩ | ⟨low, high, rfl⟩
  · rcases second with ⟨rfl, -⟩ | ⟨-, -, absurd⟩
    · rfl
    · cases absurd
  · rcases second with ⟨-, absurd⟩ | ⟨low', high', same⟩
    · cases absurd
    · have congruent := (ZMod.intCast_eq_intCast_iff y z p).mp (OnePoint.coe_injective same)
      rwa [Int.ModEq, Int.emod_eq_of_lt low high, Int.emod_eq_of_lt low' high'] at congruent

theorem Represents.injective {x' : OnePoint (ZMod p)} (first : Represents p y x) (second : Represents p y x') :
    x = x' := by
  rcases first with ⟨rfl, rfl⟩ | ⟨low, high, rfl⟩
  · rcases second with ⟨-, rfl⟩ | ⟨-, less, -⟩
    · rfl
    · exact absurd less (lt_irrefl _)
  · rcases second with ⟨rfl, -⟩ | ⟨-, -, rfl⟩
    · exact absurd high (lt_irrefl _)
    · rfl

theorem exists_represents {r : ℕ} (le : r ≤ p) : ∃ x, Represents p r x := by
  rcases le.lt_or_eq with less | rfl
  · exact ⟨_, .inr ⟨Int.natCast_nonneg r, by exact_mod_cast less, rfl⟩⟩
  · exact ⟨∞, .inl ⟨rfl, rfl⟩⟩

theorem exists_represented [NeZero p] (x : OnePoint (ZMod p)) : ∃ r ≤ p, Represents p (r : ℕ) x := by
  cases x with
  | infty => exact ⟨p, le_rfl, .inl ⟨rfl, rfl⟩⟩
  | coe c =>
    have less := ZMod.val_lt c
    refine ⟨c.val, less.le, .inr ⟨Int.natCast_nonneg _, by exact_mod_cast less, ?_⟩⟩
    rw [Int.cast_natCast, ZMod.natCast_zmod_val]

namespace Homography

variable [Fact p.Prime] {σ : Homography}

def gl (σ : Homography) (nonzero : (σ.det : ZMod p) ≠ 0) : Matrix.GeneralLinearGroup (Fin 2) (ZMod p) :=
  .mkOfDetNeZero !![(σ.alpha : ZMod p), σ.beta; σ.gamma, σ.delta] (by
    rw [Matrix.det_fin_two_of]
    exact_mod_cast nonzero)

variable {nonzero : (σ.det : ZMod p) ≠ 0} {c : ZMod p}

theorem represents_pole (pole : (σ.gamma : ZMod p) * c + σ.delta = 0) :
    Represents p p (σ.gl nonzero • (c : OnePoint (ZMod p))) := by
  refine .inl ⟨rfl, ?_⟩
  rw [smul_some_eq_ite]
  exact if_pos pole

theorem represents_finite (finite : (σ.gamma : ZMod p) * c + σ.delta ≠ 0) (low : 0 ≤ y) (high : y < p)
    (value : (y : ZMod p) * (σ.gamma * c + σ.delta) = σ.alpha * c + σ.beta) :
    Represents p y (σ.gl nonzero • (c : OnePoint (ZMod p))) := by
  refine .inr ⟨low, high, ?_⟩
  rw [smul_some_eq_ite]
  refine (if_neg finite).trans (congrArg _ ?_)
  exact (div_eq_iff finite).mpr value.symm

theorem represents_infty (pole : (σ.gamma : ZMod p) = 0) : Represents p p (σ.gl nonzero • (∞ : OnePoint (ZMod p))) := by
  refine .inl ⟨rfl, ?_⟩
  rw [smul_infty_eq_ite]
  exact if_pos pole

theorem represents_infty_finite (finite : (σ.gamma : ZMod p) ≠ 0) (low : 0 ≤ y) (high : y < p)
    (value : (y : ZMod p) * σ.gamma = σ.alpha) : Represents p y (σ.gl nonzero • (∞ : OnePoint (ZMod p))) := by
  refine .inr ⟨low, high, ?_⟩
  rw [smul_infty_eq_ite]
  refine (if_neg finite).trans (congrArg _ ?_)
  exact (div_eq_iff finite).mpr value.symm

end Homography

open Homography (represents_finite represents_infty represents_infty_finite represents_pole)
open SpecialQ (make)

theorem gl_none [Fact p.Prime] {nonzero : ((sigma none).det : ZMod p) ≠ 0} :
    (sigma none).gl nonzero = 1 := by
  ext i j
  fin_cases i <;> fin_cases j <;> simp [Homography.gl, sigma]

/-! ## Roots of type `unsigned long` -/

section
variable [Fact p.Prime] {r : ℕ}

theorem Represents.cases (rep : Represents p r x) : r = p ∧ x = ∞ ∨ r < p ∧ x = ((r : ZMod p) : OnePoint (ZMod p)) := by
  rcases rep with ⟨eq, rfl⟩ | ⟨-, less, rfl⟩
  · exact .inl ⟨by exact_mod_cast eq, rfl⟩
  · exact .inr ⟨by exact_mod_cast less, by rw [Int.cast_natCast]⟩

theorem cast_ne_zero_of_lt (nonzero : r ≠ 0) (less : r < p) : (r : ZMod p) ≠ 0 := by
  rw [Ne, ZMod.natCast_eq_zero_iff]
  exact Nat.not_dvd_of_pos_of_lt (Nat.pos_of_ne_zero nonzero) less

theorem invLong_unit (bits : p < 2 ^ 64) (nonzero : r ≠ 0) (less : r < p) :
    invLong r p < p ∧ (invLong r p * r : ZMod p) = 1 :=
  invLong_spec (Nat.pos_of_ne_zero nonzero) less bits (Nat.coprime_of_lt_prime nonzero less Fact.out).symm

theorem invLong_pred (bits : p < 2 ^ 64) (other : r ≠ 1) (less : r < p) :
    invLong (subUl r 1 p) p < p ∧ (invLong (subUl r 1 p) p * (r - 1) : ZMod p) = 1 := by
  obtain ⟨reduced, value⟩ := subUl_spec (b := 1) less
  rw [Nat.cast_one] at value
  have nonzero : subUl r 1 p ≠ 0 := by
    intro zero
    rw [zero, Nat.cast_zero, eq_comm, sub_eq_zero, ← Nat.cast_one, ZMod.natCast_eq_natCast_iff',
      Nat.mod_eq_of_lt less, Nat.mod_eq_of_lt (Fact.out : p.Prime).one_lt] at value
    exact other value
  rw [← value]
  exact invLong_unit bits nonzero reduced

variable (bits : p < 2 ^ 64)
include bits

theorem Inv.apply_represents {nonzero : ((sigma (some .inv)).det : ZMod p) ≠ 0}
    (rep : Represents p r x) : Represents p (Inv.apply r p) ((sigma (some .inv)).gl nonzero • x) := by
  have positive := (Fact.out : p.Prime).pos
  unfold Inv.apply
  rcases rep.cases with ⟨rfl, rfl⟩ | ⟨less, rfl⟩
  · rw [if_neg positive.ne', if_pos rfl]
    refine represents_infty_finite ?_ le_rfl (by exact_mod_cast positive) ?_ <;> simp [sigma]
  · split_ifs with zero
    · exact represents_pole (by simp [sigma, zero])
    · omega
    · obtain ⟨reduced, inverse⟩ := invLong_unit bits zero less
      refine represents_finite ?_ (Int.natCast_nonneg _) (by exact_mod_cast reduced) ?_
      · simpa [sigma] using cast_ne_zero_of_lt zero less
      · simpa [sigma] using inverse

theorem Autom3_1.apply_represents {nonzero : ((sigma (some .autom3_1)).det : ZMod p) ≠ 0}
    (rep : Represents p r x) :
    Represents p (Autom3_1.apply r p) ((sigma (some .autom3_1)).gl nonzero • x) := by
  have one_lt := (Fact.out : p.Prime).one_lt
  unfold Autom3_1.apply
  rcases rep.cases with ⟨rfl, rfl⟩ | ⟨less, rfl⟩
  · rw [if_neg (by omega), if_pos rfl]
    refine represents_infty_finite ?_ zero_le_one (by exact_mod_cast one_lt) ?_ <;> simp [sigma]
  · split_ifs with zero
    · exact represents_pole (by simp [sigma, zero])
    · omega
    · obtain ⟨reduced, inverse⟩ := invLong_unit bits zero less
      obtain ⟨reduced, opposite⟩ := neg_spec reduced
      obtain ⟨reduced, value⟩ := add1_spec reduced
      refine represents_finite ?_ (Int.natCast_nonneg _) (by exact_mod_cast reduced) ?_
      · simpa [sigma] using cast_ne_zero_of_lt zero less
      · rw [Int.cast_natCast, value, opposite]
        simp only [sigma]
        push_cast
        linear_combination -inverse

theorem Autom3_2.apply_represents {nonzero : ((sigma (some .autom3_2)).det : ZMod p) ≠ 0}
    (rep : Represents p r x) :
    Represents p (Autom3_2.apply r p) ((sigma (some .autom3_2)).gl nonzero • x) := by
  have one_lt := (Fact.out : p.Prime).one_lt
  unfold Autom3_2.apply
  rcases rep.cases with ⟨rfl, rfl⟩ | ⟨less, rfl⟩
  · rw [if_neg (by omega), if_pos rfl]
    refine represents_infty_finite ?_ (Int.natCast_nonneg _) (by omega) ?_
    · simp [sigma]
    · rw [Int.cast_natCast, Nat.cast_pred (by omega), ZMod.natCast_self]
      simp [sigma]
  · split_ifs with zero
    · exact represents_pole (by simp [sigma, zero])
    · omega
    · obtain ⟨reduced, inverse⟩ := invLong_unit bits zero less
      obtain ⟨reduced, more⟩ := add1_spec reduced
      obtain ⟨reduced, value⟩ := neg_spec reduced
      refine represents_finite ?_ (Int.natCast_nonneg _) (by exact_mod_cast reduced) ?_
      · simpa [sigma] using cast_ne_zero_of_lt zero less
      · rw [Int.cast_natCast, value, more]
        simp only [sigma]
        push_cast
        linear_combination -inverse

theorem Autom4_1.apply_represents {nonzero : ((sigma (some .autom4_1)).det : ZMod p) ≠ 0}
    (rep : Represents p r x) :
    Represents p (Autom4_1.apply r p) ((sigma (some .autom4_1)).gl nonzero • x) := by
  have one_lt := (Fact.out : p.Prime).one_lt
  unfold Autom4_1.apply
  rcases rep.cases with ⟨rfl, rfl⟩ | ⟨less, rfl⟩
  · rw [if_neg (by omega), if_pos rfl]
    refine represents_infty_finite ?_ (Int.natCast_nonneg _) (by omega) ?_
    · simp [sigma]
    · rw [Int.cast_natCast, Nat.cast_pred (by omega), ZMod.natCast_self]
      simp [sigma]
  · split_ifs with one
    · exact represents_pole (by simp [sigma, one])
    · omega
    · obtain ⟨reduced, inverse⟩ := invLong_pred bits one less
      obtain ⟨twice, double⟩ := add_spec reduced reduced
      obtain ⟨reduced, more⟩ := add1_spec twice
      obtain ⟨reduced, value⟩ := neg_spec reduced
      refine represents_finite ?_ (Int.natCast_nonneg _) (by exact_mod_cast reduced) ?_
      · simpa [sigma, sub_eq_add_neg] using right_ne_zero_of_mul_eq_one inverse
      · rw [Int.cast_natCast, value, more, double]
        simp only [sigma]
        push_cast
        linear_combination -2 * inverse

theorem Autom6_1.apply_represents (nonzero : ((sigma (some .autom6_1)).det : ZMod p) ≠ 0)
    (rep : Represents p r x) :
    Represents p (Autom6_1.apply r p) ((sigma (some .autom6_1)).gl nonzero • x) := by
  have two_le := (Fact.out : p.Prime).two_le
  unfold Autom6_1.apply
  rcases rep.cases with ⟨rfl, rfl⟩ | ⟨less, rfl⟩
  · rw [if_neg (by omega), if_pos rfl]
    refine represents_infty_finite ?_ (Int.natCast_nonneg _) (by omega) ?_
    · simp [sigma]
    · rw [Int.cast_natCast, Nat.cast_sub two_le, ZMod.natCast_self]
      simp [sigma]
  · split_ifs with one
    · exact represents_pole (by simp [sigma, one])
    · omega
    · obtain ⟨reduced, inverse⟩ := invLong_pred bits one less
      obtain ⟨reduced, triple⟩ := mul_spec (a := setUl 3 p) (b := invLong (subUl r 1 p) p) (by omega : 0 < p)
      have small : setUl 2 p < p := Nat.mod_lt _ (by omega)
      obtain ⟨reduced, more⟩ := add_spec small reduced
      obtain ⟨reduced, value⟩ := neg_spec reduced
      have two : (setUl 2 p : ZMod p) = 2 := by rw [setUl, ZMod.natCast_mod, Nat.cast_ofNat]
      have three : (setUl 3 p : ZMod p) = 3 := by rw [setUl, ZMod.natCast_mod, Nat.cast_ofNat]
      refine represents_finite ?_ (Int.natCast_nonneg _) (by exact_mod_cast reduced) ?_
      · simpa [sigma, sub_eq_add_neg] using right_ne_zero_of_mul_eq_one inverse
      · rw [Int.cast_natCast, value, more, triple, two, three]
        simp only [sigma]
        push_cast
        linear_combination -3 * inverse

omit bits in
theorem Neg.apply_represents {nonzero : ((sigma (some .neg)).det : ZMod p) ≠ 0}
    (rep : Represents p r x) : Represents p (Neg.apply r p) ((sigma (some .neg)).gl nonzero • x) := by
  unfold Neg.apply
  rcases rep.cases with ⟨rfl, rfl⟩ | ⟨less, rfl⟩
  · rw [if_pos (.inl rfl)]
    exact represents_infty (by simp [sigma])
  · have finite : ((sigma (some .neg)).gamma : ZMod p) * r + (sigma (some .neg)).delta ≠ 0 := by
      simp [sigma]
    split_ifs with fixed
    · obtain rfl : r = 0 := fixed.resolve_left less.ne
      exact represents_finite finite le_rfl (by exact_mod_cast less) (by simp [sigma])
    · refine represents_finite finite (Int.natCast_nonneg _) (by omega) ?_
      rw [Int.cast_natCast, Nat.cast_sub less.le, ZMod.natCast_self]
      simp [sigma]

theorem GaloisAction.apply_represents (g : GaloisAction) (nonzero : (g.sigma.det : ZMod p) ≠ 0)
    (rep : Represents p r x) : Represents p (g.apply r p) (g.sigma.gl nonzero • x) := by
  cases g with
  | none =>
    rwa [gl_none, one_smul]
  | some g =>
    cases g with
    | inv => exact Inv.apply_represents bits rep
    | neg => exact Neg.apply_represents rep
    | autom3_1 => exact Autom3_1.apply_represents bits rep
    | autom3_2 => exact Autom3_2.apply_represents bits rep
    | autom4_1 => exact Autom4_1.apply_represents bits rep
    | autom6_1 => exact Autom6_1.apply_represents bits _ rep

end

/-! ## Roots of a `special_q` -/

section
variable [Fact p.Prime] {probabPrime : ℤ → Bool} {q : SpecialQ} {side : ℤ}

theorem mpzInvert_spec {z : ℤ} (unit : (z : ZMod p) ≠ 0) :
    ∃ ri, mpzInvert z p = some ri ∧ 0 < ri ∧ ri < p ∧ (ri * z : ZMod p) = 1 := by
  have positive : (0 : ℤ) < p := by exact_mod_cast (Fact.out : p.Prime).pos
  have coprime : Int.gcd z p = 1 := by
    rw [Int.gcd_comm, ← Int.isCoprime_iff_gcd_eq_one]
    refine (Nat.prime_iff_prime_int.mp Fact.out).coprime_iff_not_dvd.mpr fun divides => unit ?_
    exact (ZMod.intCast_zmod_eq_zero_iff_dvd z p).mpr divides
  have inverse : ((z.gcdA p % p : ℤ) * z : ZMod p) = 1 := by
    have bezout := congrArg (Int.cast : ℤ → ZMod p) (Int.gcd_eq_gcd_ab z p)
    rw [coprime] at bezout
    push_cast at bezout
    rw [ZMod.natCast_self, zero_mul, add_zero] at bezout
    rw [ZMod.intCast_mod, mul_comm]
    exact bezout.symm
  refine ⟨_, if_pos coprime, (Int.emod_nonneg _ positive.ne').lt_of_ne ?_, Int.emod_lt_of_pos _ positive, inverse⟩
  intro zero
  rw [← zero, Int.cast_zero, zero_mul] at inverse
  exact zero_ne_one inverse

variable (side) in
theorem make_prime (recognised : probabPrime p = true) :
    ∃ factors : List ℕ, factors.length = 1 ∧ ∀ r, make probabPrime p r side = some ⟨p, r, side, factors⟩ := by
  have nonzero : (p : ℤ) ≠ 0 := by exact_mod_cast (Fact.out : p.Prime).ne_zero
  refine ⟨[if (p : ℤ) < 2 ^ 64 then (p : ℤ).toNat else 0], rfl, fun r => ?_⟩
  rw [make, SpecialQ.findPrimeFactors, if_neg nonzero, if_pos recognised]
  rfl

theorem cast_ne_zero (nonzero : y ≠ 0) (low : 0 ≤ y) (high : y < p) : (y : ZMod p) ≠ 0 := by
  rw [Ne, ZMod.intCast_zmod_eq_zero_iff_dvd]
  exact fun divides => absurd (Int.le_of_dvd (by omega) divides) (by omega)

theorem cast_sub_one_ne_zero (other : y ≠ 1) (low : 0 ≤ y) (high : y < p) : ((y - 1 : ℤ) : ZMod p) ≠ 0 := by
  rw [Ne, ZMod.intCast_zmod_eq_zero_iff_dvd]
  intro divides
  have one_lt := (Fact.out : p.Prime).one_lt
  have zero := Int.eq_zero_of_abs_lt_dvd divides (abs_lt.mpr ⟨by omega, by omega⟩)
  omega

variable {factors : List ℕ} (one : factors.length = 1)
include one

omit [Fact p.Prime] in
theorem isPrime_of_one : SpecialQ.isPrime ⟨p, y, side, factors⟩ = true := by
  rw [SpecialQ.isPrime, one]
  rfl

theorem Inv.applySq_represents {nonzero : ((sigma (some .inv)).det : ZMod p) ≠ 0}
    (rep : Represents p y x) : ∃ z, Inv.applySq probabPrime ⟨p, y, side, factors⟩ = make probabPrime p z side ∧
      Represents p z ((sigma (some .inv)).gl nonzero • x) := by
  have positive := (Fact.out : p.Prime).pos
  have not_zero : (p : ℤ) ≠ 0 := by omega
  rw [Inv.applySq, isPrime_of_one one]
  rcases rep with ⟨rfl, rfl⟩ | ⟨low, high, rfl⟩
  · refine ⟨0, (if_neg not_zero).trans (if_pos rfl), ?_⟩
    refine represents_infty_finite ?_ le_rfl (by exact_mod_cast positive) ?_ <;> simp [sigma]
  · by_cases zero : y = 0
    · exact ⟨p, if_pos zero, represents_pole (by simp [sigma, zero])⟩
    · have unit := cast_ne_zero zero low high
      obtain ⟨ri, found, above, below, inverse⟩ := mpzInvert_spec unit
      refine ⟨ri, (if_neg zero).trans ((if_neg high.ne).trans (by rw [found]; rfl)), ?_⟩
      refine represents_finite ?_ above.le below ?_
      · simpa [sigma] using unit
      · simpa [sigma] using inverse

theorem Neg.applySq_represents {nonzero : ((sigma (some .neg)).det : ZMod p) ≠ 0}
    (made : make probabPrime p y side = some ⟨p, y, side, factors⟩) (rep : Represents p y x) :
    ∃ z, Neg.applySq probabPrime ⟨p, y, side, factors⟩ = make probabPrime p z side ∧
      Represents p z ((sigma (some .neg)).gl nonzero • x) := by
  rw [Neg.applySq, isPrime_of_one one]
  rcases rep with ⟨rfl, rfl⟩ | ⟨low, high, rfl⟩
  · exact ⟨p, (if_pos (.inr rfl)).trans made.symm, represents_infty (by simp [sigma])⟩
  · have finite : ((sigma (some .neg)).gamma : ZMod p) * y + (sigma (some .neg)).delta ≠ 0 := by
      simp [sigma]
    by_cases zero : y = 0
    · refine ⟨y, (if_pos (.inl zero)).trans made.symm, represents_finite finite low high ?_⟩
      simp [sigma, zero]
    · refine ⟨p - y, if_neg (not_or.mpr ⟨zero, high.ne'⟩), represents_finite finite (by omega) (by omega) ?_⟩
      simp [sigma]

theorem Autom3_1.applySq_represents {nonzero : ((sigma (some .autom3_1)).det : ZMod p) ≠ 0}
    (rep : Represents p y x) :
    ∃ z, Autom3_1.applySq probabPrime ⟨p, y, side, factors⟩ = make probabPrime p z side ∧
      Represents p z ((sigma (some .autom3_1)).gl nonzero • x) := by
  have one_lt := (Fact.out : p.Prime).one_lt
  have not_zero : (p : ℤ) ≠ 0 := by omega
  have not_one : (p : ℤ) ≠ 1 := by omega
  rw [Autom3_1.applySq, isPrime_of_one one]
  rcases rep with ⟨rfl, rfl⟩ | ⟨low, high, rfl⟩
  · refine ⟨1, (if_neg not_zero).trans ((if_neg not_one).trans (if_pos rfl)), ?_⟩
    refine represents_infty_finite ?_ zero_le_one (by exact_mod_cast one_lt) ?_ <;> simp [sigma]
  · by_cases zero : y = 0
    · exact ⟨p, if_pos zero, represents_pole (by simp [sigma, zero])⟩
    · have unit := cast_ne_zero zero low high
      have finite : ((sigma (some .autom3_1)).gamma : ZMod p) * y +
          (sigma (some .autom3_1)).delta ≠ 0 := by
        simpa [sigma] using unit
      by_cases fixed : y = 1
      · refine ⟨0, (if_neg zero).trans (if_pos fixed), represents_finite finite le_rfl (by omega) ?_⟩
        simp [sigma, fixed]
      · obtain ⟨ri, found, above, below, inverse⟩ := mpzInvert_spec unit
        have not_one : ri ≠ 1 := by
          rintro rfl
          rw [Int.cast_one, one_mul, ← Int.cast_one, ZMod.intCast_eq_intCast_iff, Int.ModEq, Int.emod_eq_of_lt low high,
            Int.emod_eq_of_lt zero_le_one (by omega)] at inverse
          exact fixed inverse
        refine ⟨p - (ri - 1), ?_, represents_finite finite (by omega) (by omega) ?_⟩
        · exact (if_neg zero).trans ((if_neg fixed).trans ((if_neg high.ne').trans (by rw [found]; rfl)))
        · simp only [sigma]
          push_cast
          rw [ZMod.natCast_self]
          linear_combination -inverse

theorem Autom3_2.applySq_represents {nonzero : ((sigma (some .autom3_2)).det : ZMod p) ≠ 0}
    (rep : Represents p y x) :
    ∃ z, Autom3_2.applySq probabPrime ⟨p, y, side, factors⟩ = make probabPrime p z side ∧
      Represents p z ((sigma (some .autom3_2)).gl nonzero • x) := by
  have one_lt := (Fact.out : p.Prime).one_lt
  have not_zero : (p : ℤ) ≠ 0 := by omega
  rw [Autom3_2.applySq, isPrime_of_one one]
  rcases rep with ⟨rfl, rfl⟩ | ⟨low, high, rfl⟩
  · refine ⟨p - 1, (if_neg not_zero).trans (if_pos rfl), ?_⟩
    refine represents_infty_finite ?_ (by omega) (by omega) ?_ <;> simp [sigma]
  · by_cases zero : y = 0
    · exact ⟨p, if_pos zero, represents_pole (by simp [sigma, zero])⟩
    · have unit := cast_ne_zero zero low high
      obtain ⟨ri, found, above, below, inverse⟩ := mpzInvert_spec unit
      refine ⟨p - (ri + 1), ?_, represents_finite ?_ (by omega) (by omega) ?_⟩
      · exact (if_neg zero).trans ((if_neg high.ne').trans (by rw [found]; rfl))
      · simpa [sigma] using unit
      · simp only [sigma]
        push_cast
        rw [ZMod.natCast_self]
        linear_combination -inverse

theorem Autom4_1.applySq_represents {nonzero : ((sigma (some .autom4_1)).det : ZMod p) ≠ 0}
    (rep : Represents p y x) :
    ∃ z, Autom4_1.applySq probabPrime ⟨p, y, side, factors⟩ = make probabPrime p z side ∧
      Represents p z ((sigma (some .autom4_1)).gl nonzero • x) := by
  have one_lt := (Fact.out : p.Prime).one_lt
  have not_one : (p : ℤ) ≠ 1 := by omega
  rw [Autom4_1.applySq, isPrime_of_one one]
  rcases rep with ⟨rfl, rfl⟩ | ⟨low, high, rfl⟩
  · refine ⟨p - 1, (if_neg not_one).trans (if_pos rfl), ?_⟩
    refine represents_infty_finite ?_ (by omega) (by omega) ?_ <;> simp [sigma]
  · by_cases is_one : y = 1
    · exact ⟨p, if_pos is_one, represents_pole (by simp [sigma, is_one])⟩
    · have unit := cast_sub_one_ne_zero is_one low high
      obtain ⟨ri, found, above, below, inverse⟩ := mpzInvert_spec unit
      push_cast at inverse unit
      have finite : ((sigma (some .autom4_1)).gamma : ZMod p) * y +
          (sigma (some .autom4_1)).delta ≠ 0 := by
        simpa [sigma, sub_eq_add_neg] using unit
      refine ⟨p - ((if (p : ℤ) ≤ ri + ri then ri + ri - p else ri + ri) + 1), ?_,
        represents_finite finite ?_ ?_ ?_⟩
      · exact (if_neg is_one).trans ((if_neg high.ne').trans (by rw [found]; rfl))
      · split_ifs <;> omega
      · split_ifs <;> omega
      · have double : ((if (p : ℤ) ≤ ri + ri then ri + ri - p else ri + ri : ℤ) : ZMod p) = 2 * ri := by
          split_ifs
          · push_cast
            rw [ZMod.natCast_self]
            ring
          · push_cast
            ring
        rw [Int.cast_sub, Int.cast_add, double]
        simp only [sigma]
        push_cast
        rw [ZMod.natCast_self]
        linear_combination -2 * inverse

theorem Autom6_1.applySq_represents {nonzero : ((sigma (some .autom6_1)).det : ZMod p) ≠ 0}
    (rep : Represents p y x) :
    ∃ z, Autom6_1.applySq probabPrime ⟨p, y, side, factors⟩ = make probabPrime p z side ∧
      Represents p z ((sigma (some .autom6_1)).gl nonzero • x) := by
  have two_le := (Fact.out : p.Prime).two_le
  have not_one : (p : ℤ) ≠ 1 := by omega
  rw [Autom6_1.applySq, isPrime_of_one one]
  rcases rep with ⟨rfl, rfl⟩ | ⟨low, high, rfl⟩
  · refine ⟨p - 2, (if_neg not_one).trans (if_pos rfl), ?_⟩
    refine represents_infty_finite ?_ (by omega) (by omega) ?_ <;> simp [sigma]
  · by_cases is_one : y = 1
    · exact ⟨p, if_pos is_one, represents_pole (by simp [sigma, is_one])⟩
    · have unit := cast_sub_one_ne_zero is_one low high
      obtain ⟨ri, found, above, below, inverse⟩ := mpzInvert_spec unit
      push_cast at inverse unit
      have finite : ((sigma (some .autom6_1)).gamma : ZMod p) * y +
          (sigma (some .autom6_1)).delta ≠ 0 := by
        simpa [sigma, sub_eq_add_neg] using unit
      obtain ⟨triple, nonneg, less, value, reduced⟩ : ∃ triple : ℤ, 0 ≤ triple ∧ triple < p ∧
          (triple : ZMod p) = 3 * ri ∧
          (let ri := ri * 3
            let ri := if (p : ℤ) ≤ ri then ri - p else ri
            if (p : ℤ) ≤ ri then ri - p else ri) = triple := by
        refine ⟨_, ?_, ?_, ?_, rfl⟩
        · dsimp only
          split_ifs <;> omega
        · dsimp only
          split_ifs <;> omega
        · dsimp only
          split_ifs <;> push_cast <;> (try rw [ZMod.natCast_self]) <;> ring
      by_cases wraps : (p : ℤ) < triple + 2
      · refine ⟨p - 1, ?_, represents_finite finite (by omega) (by omega) ?_⟩
        · refine (if_neg is_one).trans ((if_neg high.ne').trans ?_)
          rw [found]
          simp only [Option.bind_eq_bind, Option.bind_some, reduced]
          exact if_pos wraps
        · have last : triple = p - 1 := by omega
          rw [last] at value
          simp only [sigma]
          push_cast at value ⊢
          rw [ZMod.natCast_self] at value ⊢
          linear_combination -3 * inverse - (y - 1 : ZMod p) * value
      · refine ⟨p - (triple + 2), ?_, represents_finite finite (by omega) (by omega) ?_⟩
        · refine (if_neg is_one).trans ((if_neg high.ne').trans ?_)
          rw [found]
          simp only [Option.bind_eq_bind, Option.bind_some, reduced]
          exact if_neg wraps
        · rw [Int.cast_sub, Int.cast_add, value]
          simp only [sigma]
          push_cast
          rw [ZMod.natCast_self]
          linear_combination -3 * inverse

theorem GaloisAction.applySq_represents (g : GaloisAction) (nonzero : (g.sigma.det : ZMod p) ≠ 0)
    (made : make probabPrime p y side = some ⟨p, y, side, factors⟩) (rep : Represents p y x) :
    ∃ z, g.applySq probabPrime ⟨p, y, side, factors⟩ = make probabPrime p z side ∧
      Represents p z (g.sigma.gl nonzero • x) := by
  cases g with
  | none =>
    exact ⟨y, made.symm, by rwa [gl_none, one_smul]⟩
  | some g =>
    cases g with
    | inv => exact Inv.applySq_represents one rep
    | neg => exact Neg.applySq_represents one made rep
    | autom3_1 => exact Autom3_1.applySq_represents one rep
    | autom3_2 => exact Autom3_2.applySq_represents one rep
    | autom4_1 => exact Autom4_1.applySq_represents one rep
    | autom6_1 => exact Autom6_1.applySq_represents one rep

end

end CadoNfs.Utils.Galois

/-!
# The orbits of the roots

Modulo a prime that does not divide the determinant, `apply` permutes the roots.
-/

namespace CadoNfs.Utils.Galois
open Lib.Homography Function
open OnePoint hiding some
open GaloisAction (sigma)

variable {g : GaloisAction} {p : ℕ}

theorem det_ne_zero (coprime : ¬(p : ℤ) ∣ g.sigma.det) : (g.sigma.det : ZMod p) ≠ 0 :=
  fun zero => coprime ((ZMod.intCast_zmod_eq_zero_iff_dvd _ p).mp zero)

section
variable [Fact p.Prime] {nonzero : (g.sigma.det : ZMod p) ≠ 0} {x : OnePoint (ZMod p)} {r : ℕ}

theorem trace_gl (σ : Homography) (nonzero : (σ.det : ZMod p) ≠ 0) :
    (σ.gl nonzero).val.trace = (σ.alpha + σ.delta : ℤ) := by
  simp [Homography.gl, Matrix.trace_fin_two]

theorem det_gl (σ : Homography) (nonzero : (σ.det : ZMod p) ≠ 0) : (σ.gl nonzero).val.det = σ.det := by
  simp [Homography.gl, Homography.det, Matrix.det_fin_two]

theorem two_ne_zero_of_ne (other : p ≠ 2) : (2 : ZMod p) ≠ 0 := by
  rw [← Nat.cast_ofNat, Ne, ZMod.natCast_eq_zero_iff]
  exact fun divides => other ((Nat.prime_dvd_prime_iff_eq Fact.out Nat.prime_two).mp divides)

theorem autom6_1_two_moves (le : r ≤ 2) : Autom6_1.apply r 2 ≠ r := by
  interval_cases r <;> decide

variable (nonzero) in
theorem period_gl (bits : p < 2 ^ 64) (x : OnePoint (ZMod p)) :
    if g = some .autom6_1 ∧ p = 2 then MulAction.period (g.sigma.gl nonzero) x = 3
    else MulAction.period (g.sigma.gl nonzero) x = 1 ∨ MulAction.period (g.sigma.gl nonzero) x = g.order := by
  have trace := trace_gl g.sigma nonzero
  have det := det_gl g.sigma nonzero
  cases g with
  | none =>
    rw [if_neg (by simp)]
    left
    rw [gl_none, MulAction.period_one]
  | some g =>
    cases g with
    | inv =>
      rw [if_neg (by simp)]
      exact period_two x (trace.trans (by simp [sigma]))
    | neg =>
      rw [if_neg (by simp)]
      exact period_two x (trace.trans (by simp [sigma]))
    | autom3_1 =>
      rw [if_neg (by simp)]
      refine period_three x ?_
      rw [trace, det]
      simp [sigma, Homography.det]
    | autom3_2 =>
      rw [if_neg (by simp)]
      refine period_three x ?_
      rw [trace, det]
      simp [sigma, Homography.det]
    | autom4_1 =>
      rw [if_neg (by simp)]
      have two : ((sigma (some .autom4_1)).det : ZMod p) = 2 := by
        simp [sigma, Homography.det, one_add_one_eq_two]
      have minus_two : (((sigma (some .autom4_1)).alpha + (sigma (some .autom4_1)).delta : ℤ) :
          ZMod p) = -2 := by
        simp only [sigma]
        push_cast
        ring
      refine period_four x ?_ ?_
      · rw [trace, det, two, minus_two]
        ring
      · rw [trace, minus_two, neg_ne_zero, ← two]
        exact nonzero
    | autom6_1 =>
      have three : ((sigma (some .autom6_1)).det : ZMod p) = 3 := by
        simp only [sigma, Homography.det]
        push_cast
        ring
      have minus_three : (((sigma (some .autom6_1)).alpha +
          (sigma (some .autom6_1)).delta : ℤ) : ZMod p) = -3 := by
        simp only [sigma]
        push_cast
        ring
      rw [minus_three] at trace
      rw [three] at det
      have three_ne : (3 : ZMod p) ≠ 0 := three ▸ nonzero
      split_ifs with exception
      · obtain ⟨-, rfl⟩ := exception
        refine (period_three x ?_).resolve_left fun fixed => ?_
        · rw [trace, det]
          have two : (2 : ZMod 2) = 0 := by exact_mod_cast ZMod.natCast_self 2
          linear_combination 3 * two
        · obtain ⟨r, le, rep⟩ := exists_represented x
          have image := Autom6_1.apply_represents bits nonzero rep
          rw [MulAction.period_eq_one_iff.mp fixed] at image
          exact autom6_1_two_moves le (by exact_mod_cast image.unique rep)
      · have two_ne := two_ne_zero_of_ne fun two => exception ⟨rfl, two⟩
        refine period_six x ?_ ?_ ?_
        · rw [trace, det]
          ring
        · rw [trace]
          exact neg_ne_zero.mpr three_ne
        · rw [trace, det]
          intro same
          exact mul_ne_zero two_ne three_ne (by linear_combination same)

variable (bits : p < 2 ^ 64)
include bits

variable (nonzero) in
theorem iterate_represents (rep : Represents p r x) (n : ℕ) :
    Represents p ((g.apply · p)^[n] r : ℕ) (g.sigma.gl nonzero ^ n • x) := by
  induction n with
  | zero => rwa [pow_zero, one_smul]
  | succ n ih =>
    rw [iterate_succ_apply', pow_succ', mul_smul]
    exact g.apply_represents bits _ ih

theorem minimalPeriod_apply (nonzero : (g.sigma.det : ZMod p) ≠ 0) (rep : Represents p r x) :
    minimalPeriod (g.apply · p) r = MulAction.period (g.sigma.gl nonzero) x := by
  rw [MulAction.period_eq_minimalPeriod, minimalPeriod_eq_minimalPeriod_iff]
  intro n
  have image := iterate_represents nonzero bits rep n
  rw [IsPeriodicPt, IsPeriodicPt, IsFixedPt, IsFixedPt, smul_iterate_apply]
  constructor
  · intro fixed
    rw [fixed] at image
    exact image.injective rep
  · intro fixed
    rw [fixed] at image
    exact_mod_cast image.unique rep

theorem apply_le (nonzero : (g.sigma.det : ZMod p) ≠ 0) (le : r ≤ p) : g.apply r p ≤ p := by
  obtain ⟨x, rep⟩ := exists_represents le
  rcases (g.apply_represents bits nonzero rep).cases with ⟨eq, -⟩ | ⟨less, -⟩
  · exact eq.le
  · exact less.le

theorem apply_bijOn (nonzero : (g.sigma.det : ZMod p) ≠ 0) :
    Set.BijOn (g.apply · p) (Set.Iic p) (Set.Iic p) := by
  have maps : Set.MapsTo (g.apply · p) (Set.Iic p) (Set.Iic p) := fun r le => apply_le bits nonzero le
  refine ⟨maps, fun r le r' le' same => ?_, fun y le => ?_⟩
  · obtain ⟨x, rep⟩ := exists_represents le
    obtain ⟨x', rep'⟩ := exists_represents le'
    have image := g.apply_represents bits nonzero rep
    have image' := g.apply_represents bits nonzero rep'
    rw [show g.apply r p = g.apply r' p from same] at image
    obtain rfl := smul_left_cancel _ (image.injective image')
    exact_mod_cast rep.unique rep'
  · obtain ⟨x, rep⟩ := exists_represents le
    obtain ⟨r, le', rep'⟩ := exists_represented ((g.sigma.gl nonzero)⁻¹ • x)
    have image := g.apply_represents bits nonzero rep'
    rw [smul_inv_smul] at image
    exact ⟨r, le', by exact_mod_cast image.unique rep⟩

end

/-- Modulo a prime that does not divide its determinant, an action permutes the roots. Its orbits have length 1 or
its order, except that the one of `autom6.1` modulo 2 has length 3. -/
theorem apply_permutes (g : GaloisAction) (p : ℕ) (prime : p.Prime) (bits : p < 2 ^ 64) (coprime : ¬(p : ℤ) ∣ g.sigma.det)
    (probabPrime : ℤ → Bool) (recognises : ∀ q : ℕ, q.Prime → probabPrime q = true) :
    Set.BijOn (g.apply · p) (Set.Iic p) (Set.Iic p) ∧
      (∀ r ≤ p, (g.apply · p)^[g.order] r = r ∧
        if g = some .autom6_1 ∧ p = 2 then minimalPeriod (g.apply · p) r = 3
        else minimalPeriod (g.apply · p) r = 1 ∨ minimalPeriod (g.apply · p) r = g.order) ∧
      ∀ r ≤ p, ∀ side, ∃ q q', SpecialQ.make probabPrime p r side = some q ∧ g.applySq probabPrime q = some q' ∧
        q'.p = p ∧ q'.r = g.apply r p ∧ q'.side = side := by
  have : Fact p.Prime := ⟨prime⟩
  have nonzero := det_ne_zero coprime
  refine ⟨apply_bijOn bits nonzero, fun r le => ?_, fun r le side => ?_⟩
  · obtain ⟨x, rep⟩ := exists_represents le
    have length := period_gl nonzero bits x
    rw [← minimalPeriod_apply bits nonzero rep] at length
    refine ⟨isPeriodicPt_iff_minimalPeriod_dvd.mpr ?_, length⟩
    split_ifs at length with exception
    · rw [length, exception.1]
      decide
    · rcases length with one | all
      · rw [one]
        exact one_dvd _
      · rw [all]
  · obtain ⟨factors, one, made⟩ := make_prime side (recognises p prime)
    obtain ⟨x, rep⟩ := exists_represents le
    obtain ⟨z, applied, image⟩ := g.applySq_represents one nonzero (made r) rep
    refine ⟨_, _, made r, applied.trans (made z), rfl, ?_, rfl⟩
    exact image.unique (g.apply_represents bits _ rep)

theorem apply_permutes_five : Set.BijOn (GaloisAction.apply (some .autom4_1) · 5) (Set.Iic 5) (Set.Iic 5) ∧
    (∀ r ≤ 5, (GaloisAction.apply (some .autom4_1) · 5)^[4] r = r ∧
      if some Action.autom4_1 = some .autom6_1 ∧ 5 = 2 then minimalPeriod (GaloisAction.apply (some .autom4_1) · 5) r = 3
      else minimalPeriod (GaloisAction.apply (some .autom4_1) · 5) r = 1 ∨
        minimalPeriod (GaloisAction.apply (some .autom4_1) · 5) r = 4) ∧
    ∀ r : ℕ, r ≤ 5 → ∀ side, ∃ q q', SpecialQ.make (fun q => q.toNat.Prime) 5 r side = some q ∧
      GaloisAction.applySq (fun q => q.toNat.Prime) q (some .autom4_1) = some q' ∧
        q'.p = 5 ∧ q'.r = GaloisAction.apply (some .autom4_1) r 5 ∧ q'.side = side :=
  apply_permutes (some .autom4_1) 5 Nat.prime_five (by decide) (by decide) (fun q => q.toNat.Prime)
    fun q prime => decide_eq_true prime

theorem orbit_length_three : ¬∀ (g : GaloisAction) (p : ℕ), p.Prime → p < 2 ^ 64 → ¬(p : ℤ) ∣ g.sigma.det →
    ∀ r ≤ p, minimalPeriod (g.apply · p) r = 1 ∨ minimalPeriod (g.apply · p) r = g.order := by
  intro all
  have fixed : IsPeriodicPt (GaloisAction.apply (some .autom6_1) · 2) 3 0 := by
    show (GaloisAction.apply (some .autom6_1) · 2)^[3] 0 = 0
    decide
  have divides := fixed.minimalPeriod_dvd
  rcases all (some .autom6_1) 2 Nat.prime_two (by decide) (by decide) 0 (by decide) with one | six
  · have same : Autom6_1.apply 0 2 = 0 := minimalPeriod_eq_one_iff_isFixedPt.mp one
    exact autom6_1_two_moves (by decide) same
  · rw [six] at divides
    exact absurd divides (by decide)

end CadoNfs.Utils.Galois
