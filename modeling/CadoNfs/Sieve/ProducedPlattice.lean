import CadoNfs.Sieve.PlatticeEnumerator
import CadoNfs.Sieve.ReducePlatticeAsm

/-!
# The lattices that are sieved

What the constructor of `plattice_info` leaves, with either implementation of the reduction and with or without
assertions: a reduced basis, in which the second vector of a vertical lattice is lower than the first.
-/

namespace CadoNfs.Sieve
open Lib

namespace PlatticeInfo

def Produced (logI : ℕ) (s : PlatticeInfo) : Prop :=
  ∃ (ndebug proj : Bool) (q r : ℕ) (scratch : Reg → BitVec 64), q < 2 ^ 32 ∧ (proj = false → r < q) ∧
    (initialBasis q r proj).checkPreConditions (sieveWidth logI) = true ∧
    (reducePlatticeSimplistic ndebug (initialBasis q r proj) (sieveWidth logI) = .ok s ∨
      reducePlatticeAsm ndebug scratch (initialBasis q r proj) (sieveWidth logI) = .ok s)

variable {ndebug : Bool} {I : BitVec 32} {p r : PlatticeInfo}

/-! ## Any run that returns -/

theorem finishAsm_release {branch : BitVec 32} (run : finishAsm ndebug I branch p = .ok r) :
    finishAsm true I branch p = .ok r := by
  unfold finishAsm at run ⊢
  by_cases second : branch ≠ 0
  · rw [if_pos second] at run ⊢
    by_cases zero : p.mi0 = 0
    · rwa [if_pos zero] at run ⊢
    · rw [if_neg zero] at run ⊢
      rw [assert_of_ndebug]
      exact (of_assert run).2
  · rw [if_neg second] at run ⊢
    by_cases zero : p.i1 = 0
    · rwa [if_pos zero] at run ⊢
    · rw [if_neg zero] at run ⊢
      rw [assert_of_ndebug]
      exact (of_assert run).2

theorem sum_of_returns {fuel : ℕ} (returns : reduceLoop ndebug I fuel p = .ok r) :
    ndebug = true ∨ p.i1 = 0 ∨ I ≤ p.i1 ∨ p.mi0.toNat + p.i1.toNat < 2 ^ 32 := by
  cases fuel with
  | zero => cases returns
  | succ fuel =>
    by_contra none
    simp only [not_or, Bool.not_eq_true, BitVec.not_le, not_lt] at none
    obtain ⟨rfl, nonzero, narrow, wraps⟩ := none
    have fails : ¬ I ≤ p.mi0 + p.i1 := by
      have := p.mi0.isLt
      bv_omega
    rw [reduceLoop] at returns
    cases half : firstHalf false I p with
    | error e => rw [half] at returns; cases returns
    | ok next =>
      obtain ⟨-, run⟩ := of_assert half
      rw [if_pos narrow, if_neg nonzero] at run
      rcases (of_assert run).1 with release | holds
      · cases release
      · exact fails holds

/-! ## Vertical lattices -/

theorem finishAsm_zero_vertical (head : Head I p) (some : 0 < p.j0.toNat ∨ p.i1 ≠ 0) (narrow : p.i1 < I)
    (run : finishAsm ndebug I 0 p = .ok r) (vertical : r.mi0 = 0) : r.j1.toNat < r.j0.toNat := by
  have run := finishAsm_release run
  unfold finishAsm at run
  rw [if_neg (not_not.mpr rfl), assert_of_ndebug] at run
  by_cases zero : p.i1 = 0
  · have whole : reduceWithVerticalVector { p with j0 := p.j1 - p.j0 } I = ⟨0, p.j1, p.mi0, p.j1 - p.j0⟩ :=
      reduceWithVerticalVector_large (Nat.zero_lt_of_lt narrow) head.large zero
    rw [if_pos zero, whole] at run
    cases run
    have positive := some.resolve_right (not_not.mpr zero)
    change (p.j1 - p.j0).toNat < p.j1.toNat
    rw [BitVec.toNat_sub_of_le head.ordered]
    have := head.ordered
    omega
  · rw [if_neg zero] at run
    cases run
    have i1pos : 0 < p.i1.toNat := by
      rw [Nat.pos_iff_ne_zero]
      exact fun eq => zero (BitVec.eq_of_toNat_eq eq)
    obtain ⟨-, -, -, wide⟩ := head.finish i1pos narrow
    rw [vertical] at wide
    exact absurd narrow (not_lt.mpr wide)

theorem finishAsm_second_vertical (head : Head I p.swap) (lower : p.mi0 = 0 → p.j1.toNat < p.j0.toNat)
    (pos : 0 < I.toNat) (run : finishAsm ndebug I I p = .ok r) (vertical : r.mi0 = 0) :
    r.j1.toNat < r.j0.toNat := by
  have nonzero : I ≠ 0 := fun zero => by
    rw [zero] at pos
    exact absurd pos (lt_irrefl _)
  have run := finishAsm_release run
  unfold finishAsm at run
  rw [if_pos nonzero, assert_of_ndebug] at run
  by_cases zero : p.mi0 = 0
  · have whole : reduceWithVerticalVector ⟨p.i1, p.j1, 0, p.j0⟩ I = ⟨0, p.j0, p.i1, p.j1⟩ :=
      reduceWithVerticalVector_large pos head.large rfl
    rw [if_pos zero, whole] at run
    cases run
    exact lower zero
  · rw [if_neg zero] at run
    cases run
    exact absurd vertical zero

theorem reduceLoop_vertical (pos : 0 < I.toNat) {fuel : ℕ} (head : Head I p) (less : p.i1.toNat < p.mi0.toNat)
    (some : 0 < p.j0.toNat ∨ p.i1 ≠ 0) (returns : reduceLoop ndebug I fuel p = .ok r) (vertical : r.mi0 = 0) :
    r.j1.toNat < r.j0.toNat := by
  induction fuel generalizing p with
  | zero => cases returns
  | succ fuel ih =>
    rw [reduceLoop] at returns
    cases half : firstHalf ndebug I p with
    | error e => rw [half] at returns; cases returns
    | ok next =>
    rw [half] at returns
    cases next with
    | done s =>
      cases returns
      obtain ⟨narrow, finished⟩ := firstHalf_done half
      exact finishAsm_zero_vertical head some narrow finished vertical
    | more q =>
    obtain ⟨wide, rfl, -⟩ := firstHalf_more half
    obtain ⟨-, next, same, smaller, -⟩ := head.divide pos wide
    have positive : 1 ≤ p.mi0.toNat / p.i1.toNat := Nat.div_pos head.small (pos.trans_le wide)
    have quotient : (p.mi0 / p.i1).toNat = p.mi0.toNat / p.i1.toNat := BitVec.toNat_udiv
    obtain ⟨mi0, j0, -⟩ := sameLattice_addStep (a := p.mi0 / p.i1) head.fits (pos.trans_le wide)
      (by rw [quotient]; exact Nat.div_mul_le_self _ _)
    rw [quotient] at mi0 j0
    have j1 : (p.addStep (p.mi0 / p.i1)).j1 = p.j1 := rfl
    have lower : (p.addStep (p.mi0 / p.i1)).mi0 = 0 →
        (p.addStep (p.mi0 / p.i1)).j1.toNat < (p.addStep (p.mi0 / p.i1)).j0.toNat := by
      intro zero
      have exact : p.mi0.toNat = p.mi0.toNat / p.i1.toNat * p.i1.toNat := by
        rw [zero] at mi0
        have le := Nat.div_mul_le_self p.mi0.toNat p.i1.toNat
        have none : (0 : BitVec 32).toNat = 0 := rfl
        omega
      have two : 2 ≤ p.mi0.toNat / p.i1.toNat := by
        by_contra small
        rw [show p.mi0.toNat / p.i1.toNat = 1 by omega, Nat.one_mul] at exact
        omega
      have twice := Nat.mul_le_mul_right p.j1.toNat two
      have := head.pos
      rw [j0, j1]
      omega
    simp only [bind, Except.bind] at returns
    cases half' : secondHalf ndebug I (p.addStep (p.mi0 / p.i1)) with
    | error e => rw [half'] at returns; cases returns
    | ok next' =>
    rw [half'] at returns
    cases next' with
    | done s =>
      cases returns
      obtain ⟨-, finished⟩ := secondHalf_done pos half'
      exact finishAsm_second_vertical next lower pos finished vertical
    | more q =>
    obtain ⟨wide', rfl⟩ := secondHalf_more half'
    obtain ⟨-, again, -, smaller', -⟩ := next.divide pos wide'
    have up : 0 < (p.addStep (p.mi0 / p.i1)).j0.toNat := next.pos
    exact ih again smaller' (.inl up) returns

/-! ## What the constructor leaves -/

theorem returns_reduced {logI : ℕ} (width : logI < 32) (initial : Initial p)
    (pre : 2 ^ logI ≤ p.mi0.toNat * p.j1.toNat)
    (returns : reducePlatticeSimplistic ndebug p (sieveWidth logI) = .ok r) :
    Reduced (sieveWidth logI) p r ∧ (r.mi0 = 0 → r.j1.toNat < r.j0.toNat) := by
  have value := toNat_sieveWidth width
  have pos : 0 < (sieveWidth logI).toNat := value ▸ Nat.two_pow_pos logI
  have limit : (sieveWidth logI).toNat ≤ 2 ^ 31 := value ▸ two_pow_le_sign width
  unfold reducePlatticeSimplistic at returns
  cases special : p.needsSpecialTreatment (sieveWidth logI) with
  | true =>
    rw [special, if_pos rfl] at returns
    cases returns
    have reduced := initial.special pos limit special
    refine ⟨reduced, fun vertical => ?_⟩
    change p.j0.toNat < p.j1.toNat
    rw [initial.flat]
    exact initial.pos
  | false =>
    rw [special, if_neg Bool.false_ne_true] at returns
    have head := initial.head special (value.trans_le pre)
    have nonzero : p.i1 ≠ 0 := fun zero => by
      simp only [needsSpecialTreatment, zero, true_or, decide_true] at special
      cases special
    obtain ⟨s, run, reduced⟩ := reduceLoop_spec pos (Nat.lt_succ_self _) head (sum_of_returns returns)
    obtain rfl : s = r := Except.ok.inj (run.symm.trans returns)
    exact ⟨reduced, reduceLoop_vertical pos head initial.less (.inr nonzero) returns⟩

theorem simplistic_of_asm {logI : ℕ} (width : logI < 32) (initial : Initial p) {scratch : Reg → BitVec 64}
    (pre : 2 ^ logI ≤ p.mi0.toNat * p.j1.toNat)
    (returns : reducePlatticeAsm ndebug scratch p (sieveWidth logI) = .ok r) :
    reducePlatticeSimplistic true p (sieveWidth logI) = .ok r := by
  have value := toNat_sieveWidth width
  have pos : 0 < (sieveWidth logI).toNat := value ▸ Nat.two_pow_pos logI
  unfold reducePlatticeAsm at returns
  unfold reducePlatticeSimplistic
  cases special : p.needsSpecialTreatment (sieveWidth logI) with
  | true =>
    rw [special, if_pos rfl] at returns
    rw [if_pos rfl]
    exact returns
  | false =>
    rw [special, if_neg Bool.false_ne_true] at returns
    rw [if_neg Bool.false_ne_true]
    have head := initial.head special (value.trans_le pre)
    obtain ⟨s, run, -⟩ := reduceLoop_spec pos (Nat.lt_succ_self _) head (.inl (rfl : true = true))
    obtain ⟨m', finished, result⟩ := (loaded_load p _ scratch).run pos (fun _ => .inl initial.less.le) run
    rw [show 4 * p.i1.toNat + 4 = 4 * (p.i1.toNat + 1) from rfl, finished] at returns
    have same := finishAsm_release returns
    rw [run, ← result, same]

structure Sieved (logI : ℕ) (p : PlatticeInfo) : Prop where
  post : p.checkPostConditions (sieveWidth logI) = true
  fits : p.det < 2 ^ 32
  vertical : p.mi0 = 0 → p.j1.toNat < p.j0.toNat

theorem Produced.sieved {logI : ℕ} (width : logI < 32) {s : PlatticeInfo} (produced : Produced logI s) :
    Sieved logI s := by
  obtain ⟨ndebug, proj, q, root, scratch, small, affine, pre, either⟩ := produced
  obtain ⟨-, mi0, -, product⟩ : (initialBasis q root proj).j0 = 0 ∧ 0 < (initialBasis q root proj).mi0 ∧
      0 < (initialBasis q root proj).j1 ∧
      sieveWidth logI ≤ (initialBasis q root proj).mi0 * (initialBasis q root proj).j1 := by
    simpa only [checkPreConditions, decide_eq_true_eq] using pre
  have positive : 0 < q := by
    rw [Nat.pos_iff_ne_zero]
    rintro rfl
    cases proj with
    | false => exact absurd (affine rfl) (Nat.not_lt_zero root)
    | true => simp [initialBasis] at mi0
  have initial := initialBasis_initial positive small affine
  have wide : 2 ^ logI ≤ (initialBasis q root proj).mi0.toNat * (initialBasis q root proj).j1.toNat := by
    rwa [BitVec.le_def, BitVec.toNat_mul, Nat.mod_eq_of_lt initial.fits, toNat_sieveWidth width] at product
  have limit : (sieveWidth logI).toNat ≤ 2 ^ 31 := (toNat_sieveWidth width).trans_le (two_pow_le_sign width)
  obtain ⟨reduced, vertical⟩ : Reduced (sieveWidth logI) (initialBasis q root proj) s ∧
      (s.mi0 = 0 → s.j1.toNat < s.j0.toNat) := by
    rcases either with simplistic | asm
    · exact returns_reduced width initial wide simplistic
    · exact returns_reduced width initial wide (simplistic_of_asm width initial wide asm)
  refine ⟨reduced.checkPostConditions limit, ?_, vertical⟩
  rw [reduced.same.det, initial.det]
  exact initial.fits

end PlatticeInfo
end CadoNfs.Sieve
