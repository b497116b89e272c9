import CadoNfs.Sieve.Plattice

/-!
# Reducing a lattice

`reduce_plattice_simplistic` of `sieve/las-reduce-plattice-simplistic.hpp`: the two halves of the loop
subtract multiples of one vector from the other until one of them is narrower than `I`.
-/

namespace CadoNfs.Sieve
open Lib

namespace PlatticeInfo

inductive Half
  | done (p : PlatticeInfo)
  | more (p : PlatticeInfo)

def firstHalf (ndebug : Bool) (I : BitVec 32) (p : PlatticeInfo) : Except Failure Half := do
  assert ndebug (p.j0 ≤ p.j1)
  if p.i1 < I then
    if p.i1 = 0 then
      -- Lo=matrix([ (mi0, j1-j0), (i1, j1)])
      return .done (reduceWithVerticalVector { p with j0 := p.j1 - p.j0 } I)
    assert ndebug (I ≤ p.mi0 + p.i1)
    return .done (p.addStep ((p.mi0 + p.i1 - I) / p.i1))
  let k := p.mi0 / p.i1
  assert ndebug (k ≠ 0)
  return .more (p.addStep k)

def secondHalf (ndebug : Bool) (I : BitVec 32) (p : PlatticeInfo) : Except Failure Half := do
  assert ndebug (p.j1 ≤ p.j0)
  if p.mi0 < I then
    if p.mi0 = 0 then
      return .done (reduceWithVerticalVector ⟨p.i1, p.j1, 0, p.j0⟩ I)
    assert ndebug (I ≤ p.mi0 + p.i1)
    return .done (p.addWarp ((p.mi0 + p.i1 - I) / p.mi0))
  let k := p.i1 / p.mi0
  assert ndebug (k ≠ 0)
  return .more (p.addWarp k)

-- `for( ; ; )`, cut off after `fuel` iterations.
def reduceLoop (ndebug : Bool) (I : BitVec 32) : Nat → PlatticeInfo → Except Failure PlatticeInfo
  | 0, _ => .error .outOfFuel
  | fuel + 1, p => do
      match ← firstHalf ndebug I p with
      | .done r => return r
      | .more p =>
        match ← secondHalf ndebug I p with
        | .done r => return r
        | .more p => reduceLoop ndebug I fuel p

def reducePlatticeSimplistic (ndebug : Bool) (p : PlatticeInfo) (I : BitVec 32) :
    Except Failure PlatticeInfo :=
  if p.needsSpecialTreatment I then .ok (p.reduceWithVerticalVector I)
  else reduceLoop ndebug I (p.i1.toNat + 1) p

/-! ## What a reduced basis is -/

structure Reduced (I : BitVec 32) (p r : PlatticeInfo) : Prop where
  same : SameLattice p r
  mi0 : r.mi0.toNat < I.toNat
  j0 : 0 < r.j0.toNat
  i1 : r.i1.toNat < I.toNat ∨ r.mi0 = 0
  wide : I.toNat ≤ r.i1.toNat + r.mi0.toNat

theorem Reduced.checkPostConditions {I : BitVec 32} {p r : PlatticeInfo} (reduced : Reduced I p r)
    (small : I.toNat ≤ 2 ^ 31) : r.checkPostConditions I = true := by
  have sum : (r.i1 + r.mi0).toNat = r.i1.toNat + r.mi0.toNat := by
    apply BitVec.toNat_add_of_lt
    rcases reduced.i1 with narrow | vertical
    · have := reduced.mi0
      omega
    · simpa [vertical] using r.i1.isLt
  simp only [PlatticeInfo.checkPostConditions, decide_eq_true_eq, BitVec.lt_def, BitVec.le_def, sum]
  exact ⟨reduced.mi0, reduced.j0, reduced.i1, reduced.wide⟩

variable {ndebug : Bool} {I : BitVec 32} {p : PlatticeInfo}

theorem reduceWithVerticalVector_large (pos : 0 < I.toNat) (large : I.toNat ≤ p.mi0.toNat)
    (zero : p.i1 = 0) : p.reduceWithVerticalVector I = ⟨0, p.j1, p.mi0, p.j0⟩ := by
  have width : (I - 1).toNat = I.toNat - 1 := by bv_omega
  have a : (I - 1) % p.mi0 = I - 1 := by
    apply BitVec.eq_of_toNat_eq
    rw [BitVec.toNat_umod, width, Nat.mod_eq_of_lt (by omega)]
  have not_lt : ¬ p.mi0 < I := by rw [BitVec.lt_def]; omega
  simp only [reduceWithVerticalVector, a, zero, sub_self, add_zero, not_lt, if_false]

theorem reduceWithVerticalVector_small (limit : I.toNat ≤ 2 ^ 31) (pos : 0 < p.mi0.toNat)
    (small : p.mi0.toNat < I.toNat) (less : p.i1.toNat < p.mi0.toNat) :
    ∃ (mi2 : BitVec 32) (c : Nat), p.reduceWithVerticalVector I = ⟨mi2, p.j1, p.mi0, p.j0⟩ ∧
      mi2.toNat + p.i1.toNat = c * p.mi0.toNat ∧ mi2.toNat < I.toNat ∧
      I.toNat ≤ p.mi0.toNat + mi2.toNat := by
  have width : (I - 1).toNat = I.toNat - 1 := by bv_omega
  have split := Nat.div_add_mod (I.toNat - 1) p.mi0.toNat
  have remainder := Nat.mod_lt (I.toNat - 1) pos
  have quotient : 1 ≤ (I.toNat - 1) / p.mi0.toNat := Nat.div_pos (by omega) pos
  have multiple := Nat.mul_le_mul_left p.mi0.toNat quotient
  have mi2 : ((I - 1) - (I - 1) % p.mi0 - p.i1).toNat =
      p.mi0.toNat * ((I.toNat - 1) / p.mi0.toNat) - p.i1.toNat := by
    have a : ((I - 1) % p.mi0).toNat = (I.toNat - 1) % p.mi0.toNat := by
      rw [BitVec.toNat_umod, width]
    rw [BitVec.toNat_sub_of_le, BitVec.toNat_sub_of_le, width, a]
    · omega
    · rw [BitVec.le_def, a, width]
      omega
    · rw [BitVec.le_def, BitVec.toNat_sub_of_le, width, a]
      · omega
      · rw [BitVec.le_def, a, width]
        omega
  generalize value : (I - 1) - (I - 1) % p.mi0 - p.i1 = m2 at mi2
  have sum : (p.mi0 + m2).toNat = p.mi0.toNat + m2.toNat := BitVec.toNat_add_of_lt (by omega)
  have sum' : (m2 + p.mi0).toNat = m2.toNat + p.mi0.toNat := BitVec.toNat_add_of_lt (by omega)
  by_cases again : p.mi0 + m2 < I
  · refine ⟨m2 + p.mi0, (I.toNat - 1) / p.mi0.toNat + 1, ?_, ?_, ?_, ?_⟩
    · simp only [reduceWithVerticalVector, value, again, if_true]
    · rw [sum', mi2, add_mul, mul_comm ((I.toNat - 1) / p.mi0.toNat)]
      omega
    · rw [BitVec.lt_def, sum] at again
      omega
    · omega
  · refine ⟨m2, (I.toNat - 1) / p.mi0.toNat, ?_, ?_, ?_, ?_⟩
    · simp only [reduceWithVerticalVector, value, again, if_false]
    · rw [mi2, mul_comm ((I.toNat - 1) / p.mi0.toNat)]
      omega
    · omega
    · rw [BitVec.lt_def, sum] at again
      omega

theorem sameLattice_vertical {mi2 : BitVec 32} {c : Nat} (flat : p.j0 = 0)
    (multiple : mi2.toNat + p.i1.toNat = c * p.mi0.toNat) :
    SameLattice p ⟨mi2, p.j1, p.mi0, p.j0⟩ := by
  have j0 : (p.j0.toNat : ℤ) = 0 := by rw [flat]; rfl
  constructor
  · have moved : ((-(mi2.toNat : ℤ), (p.j1.toNat : ℤ)) : ℤ × ℤ) =
        ((p.i1.toNat : ℤ), (p.j1.toNat : ℤ)) + (c : ℤ) • (-(p.mi0.toNat : ℤ), (p.j0.toNat : ℤ)) := by
      have cast : (mi2.toNat : ℤ) + p.i1.toNat = c * p.mi0.toNat := by exact_mod_cast multiple
      simp only [j0, Prod.smul_mk, smul_eq_mul, Prod.mk_add_mk, Prod.mk.injEq]
      exact ⟨by linear_combination -cast, by ring⟩
    have mirrored : (((p.mi0.toNat : ℤ), (p.j0.toNat : ℤ)) : ℤ × ℤ) =
        -(-(p.mi0.toNat : ℤ), (p.j0.toNat : ℤ)) := by
      simp [j0]
    rw [lattice, lattice, moved, mirrored, generated_comm, generated_neg, generated_comm, generated_add,
      generated_comm]
  · simp [det, flat, mul_comm]

theorem sameLattice_collapsed (flat : p.i1 = 0) (ordered : p.j0.toNat ≤ p.j1.toNat) :
    SameLattice p ⟨0, p.j1, p.mi0, p.j1 - p.j0⟩ := by
  have difference : (p.j1 - p.j0).toNat = p.j1.toNat - p.j0.toNat := BitVec.toNat_sub_of_le ordered
  have i1 : (p.i1.toNat : ℤ) = 0 := by rw [flat]; rfl
  constructor
  · have moved : (((p.mi0.toNat : ℤ), ((p.j1 - p.j0).toNat : ℤ)) : ℤ × ℤ) =
        -((-(p.mi0.toNat : ℤ), (p.j0.toNat : ℤ)) + (-1 : ℤ) • ((p.i1.toNat : ℤ), (p.j1.toNat : ℤ))) := by
      rw [difference, Nat.cast_sub ordered]
      simp [i1, sub_eq_add_neg]
    have start : ((-((0 : BitVec 32).toNat : ℤ), (p.j1.toNat : ℤ)) : ℤ × ℤ) =
        ((p.i1.toNat : ℤ), (p.j1.toNat : ℤ)) := by
      simp [i1]
    rw [lattice, lattice, moved, start, generated_comm, generated_neg, generated_add]
  · simp [det, flat, mul_comm]

/-- At the head of the loop; the second half starts in the mirror image of such a state. -/
structure Head (I : BitVec 32) (p : PlatticeInfo) : Prop where
  ordered : p.j0.toNat ≤ p.j1.toNat
  pos : 0 < p.j1.toNat
  large : I.toNat ≤ p.mi0.toNat
  small : p.i1.toNat ≤ p.mi0.toNat
  fits : p.det < 2 ^ 32

theorem Head.divide (head : Head I p) (pos : 0 < I.toNat) (wide : I.toNat ≤ p.i1.toNat) :
    p.mi0 / p.i1 ≠ 0 ∧ Head I (p.addStep (p.mi0 / p.i1)).swap ∧
      SameLattice p (p.addStep (p.mi0 / p.i1)) ∧
      (p.addStep (p.mi0 / p.i1)).mi0.toNat < p.i1.toNat ∧
      (p.addStep (p.mi0 / p.i1)).mi0.toNat + p.i1.toNat ≤ p.mi0.toNat := by
  have quotient : (p.mi0 / p.i1).toNat = p.mi0.toNat / p.i1.toNat := BitVec.toNat_udiv
  have positive : 1 ≤ p.mi0.toNat / p.i1.toNat := Nat.div_pos head.small (by omega)
  have split := Nat.div_add_mod' p.mi0.toNat p.i1.toNat
  have remainder := Nat.mod_lt p.mi0.toNat (show 0 < p.i1.toNat by omega)
  obtain ⟨mi0, j0, same⟩ := sameLattice_addStep (a := p.mi0 / p.i1) head.fits (by omega)
    (by rw [quotient]; exact Nat.div_mul_le_self _ _)
  rw [quotient] at mi0 j0
  have once := Nat.mul_le_mul_right p.i1.toNat positive
  have grown := Nat.mul_le_mul_right p.j1.toNat positive
  have order : p.j1.toNat ≤ (p.addStep (p.mi0 / p.i1)).j0.toNat := by rw [j0]; omega
  refine ⟨fun zero => ?_, ⟨order, head.pos.trans_le order, wide, ?_, ?_⟩, same, ?_, ?_⟩
  · rw [zero] at quotient
    exact Nat.one_le_iff_ne_zero.mp positive quotient.symm
  · show (p.addStep (p.mi0 / p.i1)).mi0.toNat ≤ p.i1.toNat
    omega
  · rw [det_swap, same.det]
    exact head.fits
  · omega
  · omega

theorem Head.finish (head : Head I p) (pos : 0 < p.i1.toNat) (narrow : p.i1.toNat < I.toNat) :
    let r := p.addStep ((p.mi0 + p.i1 - I) / p.i1)
    SameLattice p r ∧ r.mi0.toNat < I.toNat ∧ 0 < r.j0.toNat ∧ I.toNat ≤ p.i1.toNat + r.mi0.toNat := by
  intro r
  have large := head.large
  have excess : (p.mi0 + p.i1 - I).toNat = p.mi0.toNat + p.i1.toNat - I.toNat := by bv_omega
  have quotient : ((p.mi0 + p.i1 - I) / p.i1).toNat =
      (p.mi0.toNat + p.i1.toNat - I.toNat) / p.i1.toNat := by rw [BitVec.toNat_udiv, excess]
  have split := Nat.div_add_mod' (p.mi0.toNat + p.i1.toNat - I.toNat) p.i1.toNat
  have remainder := Nat.mod_lt (p.mi0.toNat + p.i1.toNat - I.toNat) pos
  have positive : 1 ≤ (p.mi0.toNat + p.i1.toNat - I.toNat) / p.i1.toNat := Nat.div_pos (by omega) pos
  obtain ⟨mi0, j0, same⟩ := sameLattice_addStep (a := (p.mi0 + p.i1 - I) / p.i1) head.fits pos
    (by rw [quotient]; omega)
  rw [quotient] at mi0 j0
  have grown := Nat.mul_le_mul_right p.j1.toNat positive
  have := head.pos
  refine ⟨same, ?_, ?_, ?_⟩
  · show (p.addStep _).mi0.toNat < _
    omega
  · show 0 < (p.addStep _).j0.toNat
    omega
  · show _ ≤ _ + (p.addStep _).mi0.toNat
    omega

theorem firstHalf_spec (pos : 0 < I.toNat) (head : Head I p)
    (sum : ndebug = true ∨ p.i1 = 0 ∨ I ≤ p.i1 ∨ p.mi0.toNat + p.i1.toNat < 2 ^ 32) :
    (∃ r, firstHalf ndebug I p = .ok (.done r) ∧ Reduced I p r) ∨
    ∃ r, firstHalf ndebug I p = .ok (.more r) ∧ Head I r.swap ∧ SameLattice p r ∧
      r.mi0.toNat < p.i1.toNat ∧ r.i1 = p.i1 ∧ r.mi0.toNat + r.i1.toNat < 2 ^ 32 := by
  have ordered : p.j0 ≤ p.j1 := head.ordered
  unfold firstHalf
  rw [assert_of ordered]
  by_cases narrow : p.i1 < I
  · left
    by_cases zero : p.i1 = 0
    · refine ⟨⟨0, p.j1, p.mi0, p.j1 - p.j0⟩, ?_, sameLattice_collapsed zero head.ordered, ?_, head.pos,
        .inr rfl, ?_⟩
      · have vertical : reduceWithVerticalVector { p with j0 := p.j1 - p.j0 } I =
            ⟨0, p.j1, p.mi0, p.j1 - p.j0⟩ := reduceWithVerticalVector_large pos head.large zero
        rw [if_pos narrow, if_pos zero, vertical]
        rfl
      · exact pos
      · exact head.large
    · have i1pos : 0 < p.i1.toNat := by
        rw [Nat.pos_iff_ne_zero]
        exact fun eq => zero (BitVec.eq_of_toNat_eq eq)
      obtain ⟨same, mi0, j0, wide⟩ := head.finish i1pos narrow
      have checked : assert ndebug (I ≤ p.mi0 + p.i1) = .ok () := by
        rcases sum with rfl | zero' | wide' | exact
        · exact assert_of_ndebug _
        · exact absurd zero' zero
        · exact absurd narrow (BitVec.not_lt.mpr wide')
        · apply assert_of
          have := head.large
          bv_omega
      refine ⟨_, ?_, same, mi0, j0, .inl narrow, wide⟩
      simp only [narrow, zero, if_true, if_false, checked]
      rfl
  · right
    have wide : I.toNat ≤ p.i1.toNat := BitVec.not_lt.mp narrow
    obtain ⟨nonzero, next, same, less, bound⟩ := head.divide pos wide
    refine ⟨_, ?_, next, same, less, rfl, bound.trans_lt p.mi0.isLt⟩
    simp only [narrow, if_false, assert_of nonzero]
    rfl

theorem secondHalf_spec (ndebug : Bool) (pos : 0 < I.toNat) (head : Head I p.swap)
    (sum : p.mi0.toNat + p.i1.toNat < 2 ^ 32) :
    (∃ r, secondHalf ndebug I p = .ok (.done r) ∧ Reduced I p r) ∨
    ∃ r, secondHalf ndebug I p = .ok (.more r) ∧ Head I r ∧ SameLattice p r ∧
      r.i1.toNat < p.mi0.toNat ∧ r.mi0.toNat + r.i1.toNat < 2 ^ 32 := by
  have ordered : p.j1 ≤ p.j0 := head.ordered
  have large : I.toNat ≤ p.i1.toNat := head.large
  unfold secondHalf
  rw [assert_of ordered]
  by_cases narrow : p.mi0 < I
  · left
    by_cases zero : p.mi0 = 0
    · -- The basis is already reduced, and is left as it is.
      refine ⟨p, ?_, .refl p, ?_, head.pos, .inr zero, ?_⟩
      · have vertical : reduceWithVerticalVector ⟨p.i1, p.j1, 0, p.j0⟩ I = p := by
          rw [reduceWithVerticalVector_large pos large rfl, ← zero]
        rw [if_pos narrow, if_pos zero, vertical]
        rfl
      · exact narrow
      · omega
    · have mi0pos : 0 < p.mi0.toNat := by
        rw [Nat.pos_iff_ne_zero]
        exact fun eq => zero (BitVec.eq_of_toNat_eq eq)
      obtain ⟨same, i1, j1, wide⟩ := head.finish mi0pos narrow
      have checked : I ≤ p.mi0 + p.i1 := by bv_omega
      refine ⟨p.addWarp ((p.mi0 + p.i1 - I) / p.mi0), ?_, ?_, narrow, head.pos, .inl ?_, ?_⟩
      · simp only [narrow, zero, if_true, if_false, assert_of checked]
        rfl
      · rw [addWarp_eq, add_comm p.mi0]
        exact same.swap
      · rw [addWarp_eq, add_comm p.mi0]
        exact i1
      · rw [addWarp_eq, add_comm p.mi0]
        exact wide.trans_eq (add_comm _ _)
  · right
    have wide : I.toNat ≤ p.mi0.toNat := BitVec.not_lt.mp narrow
    obtain ⟨nonzero, next, same, less, bound⟩ := head.divide pos wide
    have sum' : p.mi0.toNat + (p.addWarp (p.i1 / p.mi0)).i1.toNat < 2 ^ 32 := by
      rw [add_comm]
      exact bound.trans_lt p.i1.isLt
    refine ⟨p.addWarp (p.i1 / p.mi0), ?_, next, same.swap, less, sum'⟩
    have quotient : p.i1 / p.mi0 ≠ 0 := nonzero
    simp only [narrow, if_false, assert_of quotient]
    rfl

theorem Reduced.of_same {r s : PlatticeInfo} (same : SameLattice p r) (reduced : Reduced I r s) :
    Reduced I p s :=
  ⟨same.trans reduced.same, reduced.mi0, reduced.j0, reduced.i1, reduced.wide⟩

theorem reduceLoop_spec (pos : 0 < I.toNat) {fuel : Nat} (enough : p.i1.toNat < fuel) (head : Head I p)
    (sum : ndebug = true ∨ p.i1 = 0 ∨ I ≤ p.i1 ∨ p.mi0.toNat + p.i1.toNat < 2 ^ 32) :
    ∃ r, reduceLoop ndebug I fuel p = .ok r ∧ Reduced I p r := by
  induction fuel generalizing p with
  | zero => exact absurd enough (Nat.not_lt_zero _)
  | succ fuel ih =>
    unfold reduceLoop
    rcases firstHalf_spec pos head sum with ⟨r, run, reduced⟩ | ⟨r, run, next, same, less, kept, bound⟩
    · exact ⟨r, by rw [run]; rfl, reduced⟩
    rcases secondHalf_spec ndebug pos next bound with
      ⟨s, run', reduced⟩ | ⟨s, run', again, same', less', bound'⟩
    · exact ⟨s, by rw [run]; simp only [bind, Except.bind, run']; rfl, reduced.of_same same⟩
    obtain ⟨t, finished, reduced⟩ := ih (by omega) again (.inr (.inr (.inr bound')))
    refine ⟨t, ?_, reduced.of_same (same.trans same')⟩
    rw [run]
    simp only [bind, Except.bind, run']
    exact finished

/-! ## From the initial basis -/

structure Initial (p : PlatticeInfo) : Prop where
  flat : p.j0 = 0
  pos : 0 < p.j1.toNat
  less : p.i1.toNat < p.mi0.toNat
  fits : p.mi0.toNat * p.j1.toNat < 2 ^ 32

theorem initialBasis_initial {q r : Nat} {proj : Bool} (positive : 0 < q) (small : q < 2 ^ 32)
    (root : proj = false → r < q) : Initial (initialBasis q r proj) := by
  have word {x : Nat} (le : x ≤ q) : (BitVec.ofNat 32 x).toNat = x := by
    rw [BitVec.toNat_ofNat, Nat.mod_eq_of_lt (le.trans_lt small)]
  cases proj with
  | false =>
    have less := root rfl
    refine ⟨rfl, Nat.one_pos, ?_, ?_⟩
    · show (BitVec.ofNat 32 r).toNat < (BitVec.ofNat 32 q).toNat
      rwa [word less.le, word le_rfl]
    · show (BitVec.ofNat 32 q).toNat * 1 < 2 ^ 32
      rwa [word le_rfl, mul_one]
  | true =>
    obtain ⟨gcd, bound, -⟩ := Utils.xgcdUl_spec r positive
    show Initial ⟨.ofNat 32 (q / (Utils.xgcdUl r q).1), 0, .ofNat 32 (Utils.xgcdUl r q).2,
      .ofNat 32 (Utils.xgcdUl r q).1⟩
    generalize Utils.xgcdUl r q = result at gcd bound ⊢
    have divides : result.1 ∣ q := gcd ▸ Nat.gcd_dvd_right r q
    have gpos : 0 < result.1 := Nat.pos_of_dvd_of_pos divides positive
    have quotient : q / result.1 ≤ q := Nat.div_le_self _ _
    refine ⟨rfl, ?_, ?_, ?_⟩ <;> simp only [word quotient, word (Nat.le_of_dvd positive divides),
      word (bound.le.trans quotient)]
    · exact gpos
    · exact bound
    · rwa [Nat.div_mul_cancel divides]

theorem Initial.det (initial : Initial p) : p.det = p.mi0.toNat * p.j1.toNat := by
  simp [PlatticeInfo.det, initial.flat]

theorem Initial.special (initial : Initial p) (pos : 0 < I.toNat) (limit : I.toNat ≤ 2 ^ 31)
    (special : p.needsSpecialTreatment I = true) : Reduced I p (p.reduceWithVerticalVector I) := by
  by_cases small : p.mi0.toNat < I.toNat
  · obtain ⟨mi2, c, result, multiple, less, wide⟩ :=
      reduceWithVerticalVector_small limit (by have := initial.less; omega) small initial.less
    rw [result]
    exact ⟨sameLattice_vertical initial.flat multiple, less, initial.pos, .inl small, wide⟩
  · have zero : p.i1 = 0 := by
      simp only [needsSpecialTreatment, decide_eq_true_eq, BitVec.lt_def] at special
      exact special.resolve_right fun both => small both.2
    rw [reduceWithVerticalVector_large pos (not_lt.mp small) zero]
    refine ⟨sameLattice_vertical initial.flat (c := 0) (by simp [zero]), pos, initial.pos, .inr rfl, ?_⟩
    exact not_lt.mp small

theorem Initial.head (initial : Initial p) (ordinary : p.needsSpecialTreatment I = false)
    (pre : I.toNat ≤ p.mi0.toNat * p.j1.toNat) : Head I p := by
  simp only [needsSpecialTreatment, decide_eq_false_iff_not, not_or, not_and, BitVec.lt_def] at ordinary
  refine ⟨by simp [initial.flat], initial.pos, ?_, initial.less.le, initial.det.trans_lt initial.fits⟩
  by_cases one : 1 < p.j1.toNat
  · exact not_lt.mp (ordinary.2 one)
  · have : p.j1.toNat = 1 := by have := initial.pos; omega
    rwa [this, mul_one] at pre

theorem reducePlatticeSimplistic_iff (ndebug proj : Bool) {logI q r : Nat} (width : logI < 32)
    (small : q < 2 ^ 32) (root : proj = false → r < q)
    (pre : (initialBasis q r proj).checkPreConditions (sieveWidth logI) = true) :
    let I := sieveWidth logI
    let p := initialBasis q r proj
    (∃ s, reducePlatticeSimplistic ndebug p I = .ok s ∧ s.checkPostConditions I = true ∧
      s.lattice = p.lattice ∧
      s.mi0.toNat * s.j1.toNat + s.j0.toNat * s.i1.toNat = p.mi0.toNat * p.j1.toNat) ↔
    ndebug = true ∨ p.i1 = 0 ∨ I ≤ p.i1 ∨ p.mi0.toNat + p.i1.toNat < 2 ^ 32 := by
  intro I p
  have value : I.toNat = 2 ^ logI := toNat_sieveWidth width
  have pos : 0 < I.toNat := value ▸ Nat.two_pow_pos logI
  have limit : I.toNat ≤ 2 ^ 31 := by
    rw [value]
    exact Nat.pow_le_pow_right (by norm_num) (by omega)
  obtain ⟨-, mi0, -, product⟩ : p.j0 = 0 ∧ 0 < p.mi0 ∧ 0 < p.j1 ∧ I ≤ p.mi0 * p.j1 := by
    simpa only [checkPreConditions, decide_eq_true_eq] using pre
  have positive : 0 < q := by
    rw [Nat.pos_iff_ne_zero]
    rintro rfl
    cases proj with
    | false => exact absurd (root rfl) (Nat.not_lt_zero r)
    | true => simp [p, initialBasis] at mi0
  have initial := initialBasis_initial positive small root
  have exact : I.toNat ≤ p.mi0.toNat * p.j1.toNat := by
    rwa [BitVec.le_def, BitVec.toNat_mul, Nat.mod_eq_of_lt initial.fits] at product
  have finish {s : PlatticeInfo} (reduced : Reduced I p s) : s.checkPostConditions I = true ∧
      s.lattice = p.lattice ∧
      s.mi0.toNat * s.j1.toNat + s.j0.toNat * s.i1.toNat = p.mi0.toNat * p.j1.toNat :=
    ⟨reduced.checkPostConditions limit, reduced.same.lattice, reduced.same.det.trans initial.det⟩
  unfold reducePlatticeSimplistic
  cases special : p.needsSpecialTreatment I with
  | true =>
    refine ⟨fun _ => ?_, fun _ => ⟨_, if_pos rfl, finish (initial.special pos limit special)⟩⟩
    simp only [needsSpecialTreatment, decide_eq_true_eq, BitVec.lt_def] at special
    rcases special with zero | ⟨-, narrow⟩
    · exact .inr (.inl zero)
    · have less : p.i1.toNat < p.mi0.toNat := initial.less
      exact .inr (.inr (.inr (by omega)))
  | false =>
    have head := initial.head special exact
    rw [if_neg (by simp)]
    constructor
    · rintro ⟨s, run, -⟩
      by_contra none
      simp only [not_or, Bool.not_eq_true, BitVec.not_le, not_lt] at none
      obtain ⟨rfl, zero, narrow, overflow⟩ := none
      have failed : assert false (I ≤ p.mi0 + p.i1) = .error .assertion := by
        apply if_neg
        have := p.mi0.isLt
        simp only [Bool.false_eq_true, false_or]
        bv_omega
      have ordered : p.j0 ≤ p.j1 := head.ordered
      rw [reduceLoop, firstHalf, assert_of ordered, if_pos narrow, if_neg zero, failed] at run
      cases run
    · intro sum
      obtain ⟨s, run, reduced⟩ := reduceLoop_spec pos (Nat.lt_succ_self _) head sum
      exact ⟨s, run, finish reduced⟩

theorem reducePlatticeSimplistic_iff_seven :
    let p := initialBasis 7 5 false
    ∃ s, reducePlatticeSimplistic false p (sieveWidth 2) = .ok s ∧ s.checkPostConditions (sieveWidth 2) = true ∧
      s.lattice = p.lattice ∧
      s.mi0.toNat * s.j1.toNat + s.j0.toNat * s.i1.toNat = p.mi0.toNat * p.j1.toNat :=
  (reducePlatticeSimplistic_iff false false (by decide) (by decide) (by decide) (by decide)).mpr
    (by decide)

-- For the prime `2^32 - 5` and the root 10 the sum `mi0 + i1` wraps to 5.
theorem reducePlatticeSimplistic_aborts : ¬ ∀ (ndebug proj : Bool) (logI q r : Nat), logI < 32 →
    q < 2 ^ 32 → (proj = false → r < q) →
    (initialBasis q r proj).checkPreConditions (sieveWidth logI) = true →
    let p := initialBasis q r proj
    ∃ s, reducePlatticeSimplistic ndebug p (sieveWidth logI) = .ok s ∧
      s.checkPostConditions (sieveWidth logI) = true ∧ s.lattice = p.lattice ∧
      s.mi0.toNat * s.j1.toNat + s.j0.toNat * s.i1.toNat = p.mi0.toNat * p.j1.toNat := by
  intro always
  obtain ⟨s, run, -⟩ := always false false 9 4294967291 10 (by decide) (by decide) (by decide) (by decide)
  have aborted : reducePlatticeSimplistic false (initialBasis 4294967291 10 false) (sieveWidth 9) =
      .error .assertion := by decide
  rw [aborted] at run
  cases run

end PlatticeInfo

end CadoNfs.Sieve
