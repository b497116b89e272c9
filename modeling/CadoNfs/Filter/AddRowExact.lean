import CadoNfs.Filter.MergeDo
import CadoNfs.Filter.AddRowDl
import CadoNfs.Lib.ExceptRun

/-!
# How a row addition can fail

`add_row` of a discrete logarithm build with the ways in which it does not return: the exit of `check_exponent`, an
assertion, and a signed overflow.
-/

namespace CadoNfs.Filter
open Lib Typerow SparseEntry

inductive AddFailure
  | tooLarge
  | assertion
  | overflow
  | discarded
  deriving DecidableEq

namespace AddRow

def checked {α : Type} (failure : AddFailure) : Option α → Except AddFailure α
  | none => .error failure
  | some x => .ok x

def negate (d : Exponent) : Option Exponent := if d = BitVec.intMin 32 then none else some (-d)

def pivot (j : Nat) (r1 r2 : List IdealMerge) : Except AddFailure Multipliers := do
  let e1 := lastExponent j r1
  let e2 := lastExponent j r2
  if e1 = 0 ∨ e2 = 0 then .error .assertion
  else
    let d := BitVec.ofNat 32 (gcdInt64 e1.toInt e2.toInt)
    let minus ← checked .overflow (negate d)
    let m1 ← checked .overflow (divide e1 minus)
    let m2 ← checked .overflow (divide e2 d)
    pure ⟨m1, m2⟩

def FitsInt64 (z : Int) : Prop := -2 ^ 63 ≤ z ∧ z < 2 ^ 63

instance (z : Int) : Decidable (FitsInt64 z) := inferInstanceAs (Decidable (_ ∧ _))

def fromRight : Aligned IdealMerge IdealMerge → Bool
  | .right _ => true
  | _ => false

/-- The three loops. The last one, in which only cells of the second row are left, asserts what the
other two check. -/
def cells (c : Multipliers) : List (Aligned IdealMerge IdealMerge) → Except AddFailure (List IdealMerge)
  | [] => .ok []
  | step :: steps =>
      let e := exactValue c.e1.toInt c.e2.toInt step
      if ¬ FitsInt64 e then .error .overflow
      else if FitsInt32 e then
        match cells c steps with
        | .error failure => .error failure
        | .ok sum => .ok ((addCellDl c step).toList ++ sum)
      else if (step :: steps).all fromRight then .error .assertion
      else .error .tooLarge

def sum (j : Nat) (r1 r2 : List IdealMerge) : Except AddFailure (List IdealMerge × List WtOp) := do
  let c ← pivot j r1 r2
  let row ← cells c (walk r1 r2)
  pure (row, (walk r1 r2).filterMap (wtOp c))

def addRowDl (j : Nat) (rows : Rows IdealMerge) (i1 i2 : Nat) : Except AddFailure (Rows IdealMerge × List WtOp) :=
  match rows i1, rows i2 with
  | some r1, some r2 => do
      let result ← sum j r1 r2
      pure (Function.update rows i1 (some result.1), result.2)
  | _, _ => .error .discarded

/-- Dividing the exponents of the pivot by their greatest common divisor, the first one with the sign
changed, stays within 32 bits. -/
def PivotFits (e1 e2 : Exponent) : Prop := e1 = BitVec.intMin 32 → e2 ≠ BitVec.intMin 32 ∧ 2 ∣ e2.toInt

instance (e1 e2 : Exponent) : Decidable (PivotFits e1 e2) := inferInstanceAs (Decidable (_ → _))

theorem toInt_ne_zero {e : Exponent} (nonzero : e ≠ 0) : e.toInt ≠ 0 := by
  simpa [← BitVec.toInt_inj] using nonzero

section
variable {e1 e2 : Exponent} (nonzero1 : e1 ≠ 0) (nonzero2 : e2 ≠ 0)

include nonzero1 in
theorem gcd_pos : 0 < Int.gcd e1.toInt e2.toInt :=
  Int.gcd_pos_of_ne_zero_left _ (toInt_ne_zero nonzero1)

theorem eq_intMin_of_le {e : Exponent} {d : Nat} (nonzero : e ≠ 0) (divides : (d : Int) ∣ e.toInt)
    (large : 2 ^ 31 ≤ d) : e = BitVec.intMin 32 := by
  have le := Nat.le_of_dvd (Int.natAbs_pos.mpr (toInt_ne_zero nonzero)) (Int.natCast_dvd.mp divides)
  have := FitsInt32.of_toInt e
  unfold FitsInt32 at this
  rw [eq_intMin_iff]
  omega

include nonzero1 nonzero2

theorem PivotFits.gcd_lt (fits : PivotFits e1 e2) : Int.gcd e1.toInt e2.toInt < 2 ^ 31 := by
  by_contra large
  have first := eq_intMin_of_le nonzero1 (Int.gcd_dvd_left ..) (not_lt.mp large)
  exact (fits first).1 (eq_intMin_of_le nonzero2 (Int.gcd_dvd_right ..) (not_lt.mp large))

omit nonzero1 nonzero2 in
theorem toInt_ofNat {d : Nat} (small : d < 2 ^ 31) : (BitVec.ofNat 32 d).toInt = d := by
  rw [← BitVec.ofInt_natCast]
  exact FitsInt32.toInt ⟨by omega, by omega⟩

omit nonzero1 nonzero2 in
theorem toInt_neg_ofNat {d : Nat} (small : d < 2 ^ 31) : (-BitVec.ofNat 32 d).toInt = -d := by
  rw [BitVec.toInt_neg, toInt_ofNat small, Int.bmod_def]
  split_ifs <;> omega

omit nonzero1 nonzero2 in
theorem divide_of {a b : Exponent} (nonzero : b.toInt ≠ 0) (possible : a = BitVec.intMin 32 → b.toInt ≠ -1) :
    divide a b = some (a.sdiv b) := by
  apply if_neg
  rw [not_or, not_and]
  refine ⟨?_, fun smallest eq => possible smallest (by rw [eq]; rfl)⟩
  rintro rfl
  exact nonzero rfl

theorem pivot_ok {j : Nat} {r1 r2 : List IdealMerge} (first : lastExponent j r1 = e1)
    (second : lastExponent j r2 = e2) (fits : PivotFits e1 e2) :
    ∃ c, pivot j r1 r2 = .ok c ∧ pivotMultipliers j r1 r2 = some c ∧
      c.e1.toInt = -(e1.toInt / Int.gcd e1.toInt e2.toInt) ∧
      c.e2.toInt = e2.toInt / Int.gcd e1.toInt e2.toInt ∧ -2 ^ 31 < c.e1.toInt := by
  have positive : 0 < Int.gcd e1.toInt e2.toInt := gcd_pos nonzero1
  have small := fits.gcd_lt nonzero1 nonzero2
  have plus := toInt_ofNat small
  have minus := toInt_neg_ofNat small
  have even : e1 = BitVec.intMin 32 → 2 ≤ Int.gcd e1.toInt e2.toInt := by
    intro smallest
    have divides : 2 ∣ Int.gcd e1.toInt e2.toInt := by
      rw [← Int.natCast_dvd_natCast, Int.coe_gcd]
      apply Int.dvd_coe_gcd
      · rw [(eq_intMin_iff e1).mp smallest]
        decide
      · exact (fits smallest).2
    exact Nat.le_of_dvd positive divides
  have different : BitVec.ofNat 32 (Int.gcd e1.toInt e2.toInt) ≠ BitVec.intMin 32 := by
    rw [Ne, eq_intMin_iff, plus]
    omega
  have left := divide_of (a := e1) (b := -BitVec.ofNat 32 (Int.gcd e1.toInt e2.toInt))
    (by rw [minus]; omega) fun smallest => by
      have := even smallest
      rw [minus]
      omega
  have right := divide_of (a := e2) (b := BitVec.ofNat 32 (Int.gcd e1.toInt e2.toInt))
    (by rw [plus]; omega) fun _ => by
      rw [plus]
      omega
  have value : multipliers e1 e2 = some
      ⟨e1.sdiv (-BitVec.ofNat 32 (Int.gcd e1.toInt e2.toInt)),
        e2.sdiv (BitVec.ofNat 32 (Int.gcd e1.toInt e2.toInt))⟩ := by
    simp only [multipliers, gcdInt64_eq, left, right, Option.bind_some, Option.map_some]
  have exact := multipliers_toInt nonzero1 nonzero2 value fun both => (fits both.1).1 both.2
  refine ⟨_, ?_, ?_, exact.1, exact.2, ?_⟩
  · simp only [pivot, first, second, nonzero1, nonzero2, or_self, if_false, gcdInt64_eq]
    exact bind_ok.mpr ⟨_, by rw [negate, if_neg different]; rfl, bind_ok.mpr ⟨_, by rw [left]; rfl,
      bind_ok.mpr ⟨_, by rw [right]; rfl, rfl⟩⟩⟩
  · simp only [pivotMultipliers, first, second, nonzero1, nonzero2, or_self, if_false, value]
  · rw [exact.1]
    have range := FitsInt32.of_toInt e1
    unfold FitsInt32 at range
    have upper : e1.toInt / Int.gcd e1.toInt e2.toInt < 2 ^ 31 := by
      apply Int.ediv_lt_of_lt_mul (by omega)
      nlinarith
    omega

theorem pivot_overflow {j : Nat} {r1 r2 : List IdealMerge} (first : lastExponent j r1 = e1)
    (second : lastExponent j r2 = e2) (overflows : ¬ PivotFits e1 e2) :
    pivot j r1 r2 = .error .overflow := by
  unfold PivotFits at overflows
  rw [Classical.not_imp] at overflows
  obtain ⟨smallest, other⟩ := overflows
  simp only [pivot, first, second, nonzero1, nonzero2, or_self, if_false, gcdInt64_eq]
  by_cases both : e2 = BitVec.intMin 32
  · subst smallest both
    have value : BitVec.ofNat 32 (Int.gcd (BitVec.intMin 32).toInt (BitVec.intMin 32).toInt) =
        BitVec.intMin 32 := by decide
    rw [value]
    rfl
  · have odd : ¬ 2 ∣ e2.toInt := fun divides => other ⟨both, divides⟩
    have one : Int.gcd e1.toInt e2.toInt = 1 := by
      rw [(eq_intMin_iff e1).mp smallest]
      have coprime : IsCoprime (-2 ^ 31 : Int) e2.toInt := by
        apply IsCoprime.neg_left
        apply IsCoprime.pow_left
        exact (Int.prime_two.coprime_iff_not_dvd).mpr odd
      exact Int.isCoprime_iff_gcd_eq_one.mp coprime
    rw [one, smallest]
    rfl

end

theorem fitsInt64 {c : Multipliers} (above : -2 ^ 31 < c.e1.toInt)
    (step : Aligned IdealMerge IdealMerge) : FitsInt64 (exactValue c.e1.toInt c.e2.toInt step) := by
  have product {a b : Int} {A : Nat} (ha : a.natAbs ≤ A) (hb : b.natAbs ≤ 2 ^ 31) :
      (a * b).natAbs ≤ A * 2 ^ 31 := by
    rw [Int.natAbs_mul]
    exact Nat.mul_le_mul ha hb
  have range (e : Exponent) : e.toInt.natAbs ≤ 2 ^ 31 := by
    have := FitsInt32.of_toInt e
    unfold FitsInt32 at this
    omega
  have below : c.e1.toInt.natAbs ≤ 2 ^ 31 - 1 := by
    have := FitsInt32.of_toInt c.e1
    unfold FitsInt32 at this
    omega
  unfold FitsInt64
  cases step with
  | left x =>
    have := product (range c.e2) (range (coeff x))
    simp only [exactValue]
    omega
  | right y =>
    have := product (range c.e1) (range (coeff y))
    simp only [exactValue]
    omega
  | both x y =>
    have first := product (range c.e2) (range (coeff x))
    have second := product below (range (coeff y))
    simp only [exactValue]
    omega

theorem of_cells_ok {c : Multipliers} {steps : List (Aligned IdealMerge IdealMerge)} {row : List IdealMerge}
    (returned : cells c steps = .ok row) :
    (∀ step ∈ steps, FitsInt32 (exactValue c.e1.toInt c.e2.toInt step)) ∧
      row = steps.filterMap (addCellDl c) := by
  induction steps generalizing row with
  | nil =>
    cases returned
    simp
  | cons step steps ih =>
    simp only [cells] at returned
    split_ifs at returned with wide fits tail
    cases later : cells c steps with
    | error failure => simp [later] at returned
    | ok sum =>
      rw [later] at returned
      cases returned
      obtain ⟨all, rfl⟩ := ih later
      refine ⟨List.forall_mem_cons.mpr ⟨fits, all⟩, ?_⟩
      cases stored : addCellDl c step with
      | none => rw [List.filterMap_cons_none stored, Option.toList_none, List.nil_append]
      | some x => rw [List.filterMap_cons_some stored, Option.toList_some, List.singleton_append]

theorem checked_ok {α : Type} {failure : AddFailure} {x : Option α} {v : α} :
    checked failure x = .ok v ↔ x = some v := by
  cases x <;> simp [checked]

/-- An addition that returns is the one of a build that wraps. -/
theorem sum_ok {j : Nat} {r1 r2 : List IdealMerge} {result : List IdealMerge × List WtOp}
    (returned : sum j r1 r2 = .ok result) : addRow j r1 r2 = some result := by
  obtain ⟨c, found, rest⟩ := bind_ok.mp returned
  obtain ⟨row, stored, done⟩ := bind_ok.mp rest
  obtain ⟨fits, rfl⟩ := of_cells_ok stored
  cases done
  refine addRow_eq_some_iff.mpr ⟨c, ?_, fun step member => decide_eq_true (fits step member), rfl⟩
  change pivotMultipliers j r1 r2 = some c
  unfold pivot at found
  unfold pivotMultipliers multipliers
  simp only at found
  split_ifs at found ⊢ with zero
  obtain ⟨minus, opposite, found⟩ := bind_ok.mp found
  obtain ⟨m1, first, found⟩ := bind_ok.mp found
  obtain ⟨m2, second, found⟩ := bind_ok.mp found
  cases found
  rw [checked_ok] at opposite first second
  unfold negate at opposite
  split_ifs at opposite
  cases opposite
  simp only [first, second, Option.bind_some, Option.map_some]

theorem sum_ok_two : addRow (α := IdealMerge) 0 [⟨0, 2⟩, ⟨1, 1⟩] [⟨0, 3⟩] = some ([⟨1, 3⟩], [.decrease 0]) :=
  sum_ok rfl

section
variable {c : Multipliers} (above : -2 ^ 31 < c.e1.toInt)
include above

theorem cells_ok {steps : List (Aligned IdealMerge IdealMerge)}
    (fits : ∀ step ∈ steps, FitsInt32 (exactValue c.e1.toInt c.e2.toInt step)) :
    cells c steps = .ok (steps.filterMap (addCellDl c)) := by
  induction steps with
  | nil => rfl
  | cons step steps ih =>
    have rest := ih fun s hs => fits s (.tail _ hs)
    simp only [cells, fitsInt64 above, not_true_eq_false, if_false, fits step (by simp), if_true, rest]
    cases stored : addCellDl c step with
    | none => rw [List.filterMap_cons_none stored, Option.toList_none, List.nil_append]
    | some x => rw [List.filterMap_cons_some stored, Option.toList_some, List.singleton_append]

-- The first cell that is too large decides.
theorem cells_error {before after : List (Aligned IdealMerge IdealMerge)}
    {step : Aligned IdealMerge IdealMerge}
    (fits : ∀ s ∈ before, FitsInt32 (exactValue c.e1.toInt c.e2.toInt s))
    (large : ¬ FitsInt32 (exactValue c.e1.toInt c.e2.toInt step)) :
    cells c (before ++ step :: after) =
      .error (if (step :: after).all fromRight then .assertion else .tooLarge) := by
  induction before with
  | nil =>
    simp only [List.nil_append, cells, fitsInt64 above, not_true_eq_false, if_false, large]
    split_ifs <;> rfl
  | cons s before ih =>
    have rest := ih fun t ht => fits t (.tail _ ht)
    simp only [List.cons_append, cells, fitsInt64 above, not_true_eq_false, if_false,
      fits s (by simp), if_true, rest]

end

def exactCoefficient (e1 e2 : Exponent) (r1 r2 : List IdealMerge) (k : Nat) : Int :=
  e2.toInt / Int.gcd e1.toInt e2.toInt * coefficient r1 k -
    e1.toInt / Int.gcd e1.toInt e2.toInt * coefficient r2 k

structure IsExact (j : Nat) (e1 e2 : Exponent) (r1 r2 sum : List IdealMerge) : Prop where
  sorted : RowSorted sum
  nonzero : ∀ x ∈ sum, x.e ≠ 0
  coefficients : ∀ k, coefficient sum k = exactCoefficient e1 e2 r1 r2 k
  eliminated : j ∉ columns sum

def Settles (j : Nat) (e1 e2 : Exponent) (rows : Rows IdealMerge) (i1 : Nat) (r1 r2 : List IdealMerge)
    (outcome : Except AddFailure (Rows IdealMerge × List WtOp)) : Prop :=
  outcome = .error .tooLarge ∨ ∃ result sum, outcome = .ok result ∧ result.1 i1 = some sum ∧
    IsExact j e1 e2 r1 r2 sum ∧ ∀ i, i ≠ i1 → result.1 i = rows i

/-- No coefficient is too large, or one of those that are has a column up to the last one of `r1`. -/
def EarlyOverflow (e1 e2 : Exponent) (r1 r2 : List IdealMerge) : Prop :=
  (∀ k, FitsInt32 (exactCoefficient e1 e2 r1 r2 k)) ∨
    ∃ z ∈ r1, ∃ k ≤ z.id, ¬ FitsInt32 (exactCoefficient e1 e2 r1 r2 k)

theorem exists_step {a b : Int} {r1 r2 : List IdealMerge} {k : Nat}
    (nonzero : b * coefficient r1 k + a * coefficient r2 k ≠ 0) :
    ∃ step ∈ walk r1 r2, step.key rowCell rowCell = k := by
  by_contra none
  simp only [not_exists, not_and] at none
  apply nonzero
  rw [coefficient, coefficient, ← exact_total]
  exact sum_none none _

theorem left_of_not_fromRight {r1 r2 : List IdealMerge} {step : Aligned IdealMerge IdealMerge}
    (member : step ∈ walk r1 r2) (left : ¬ fromRight step) :
    ∃ z ∈ r1, z.id = step.key rowCell rowCell := by
  have inside {z : IdealMerge} (value : step.left? = some z) : z ∈ r1 := by
    rw [← align_left rowCell rowCell r1 r2]
    exact List.mem_filterMap.mpr ⟨step, member, value⟩
  cases step with
  | left x => exact ⟨x, inside rfl, rfl⟩
  | right y => exact absurd rfl left
  | both x y => exact ⟨x, inside rfl, rfl⟩

section
variable {r1 r2 : List IdealMerge} (sorted1 : RowSorted r1) (sorted2 : RowSorted r2)
include sorted1 sorted2

theorem all_fromRight_iff {before after : List (Aligned IdealMerge IdealMerge)}
    {step : Aligned IdealMerge IdealMerge} (split : walk r1 r2 = before ++ step :: after) :
    (step :: after).all fromRight ↔ ∀ z ∈ r1, z.id < step.key rowCell rowCell := by
  have sorted := align_sorted sorted1 sorted2
  rw [show align rowCell rowCell r1 r2 = before ++ step :: after from split, List.pairwise_append] at sorted
  obtain ⟨_, tail, cross⟩ := sorted
  rw [List.all_eq_true]
  constructor
  · intro all z hz
    by_contra low
    rw [not_lt] at low
    rw [← align_left rowCell rowCell r1 r2] at hz
    obtain ⟨t, member, value⟩ := List.mem_filterMap.mp hz
    have key : t.key rowCell rowCell = z.id := by
      cases t <;> simp_all [Aligned.left?, Aligned.key, rowCell]
    rw [show align rowCell rowCell r1 r2 = before ++ step :: after from split] at member
    rcases List.mem_append.mp member with early | late
    · have lt := cross t early step (by simp)
      omega
    · have right := all t late
      cases t <;> simp [fromRight, Aligned.left?] at right value
  · intro above t member
    by_contra left
    obtain ⟨z, hz, key⟩ := left_of_not_fromRight (split ▸ List.mem_append_right before member) left
    have lt := above z hz
    rcases List.mem_cons.mp member with rfl | later
    · omega
    · have := (List.pairwise_cons.mp tail).1 t later
      omega

variable {e1 e2 : Exponent} {c : Multipliers}
  (value1 : c.e1.toInt = -(e1.toInt / Int.gcd e1.toInt e2.toInt))
  (value2 : c.e2.toInt = e2.toInt / Int.gcd e1.toInt e2.toInt)
include value1 value2

omit sorted1 sorted2 in
theorem exactCoefficient_eq (k : Nat) :
    exactCoefficient e1 e2 r1 r2 k = c.e2.toInt * coefficient r1 k + c.e1.toInt * coefficient r2 k := by
  rw [exactCoefficient, value1, value2]
  ring

theorem exactCoefficient_key {step : Aligned IdealMerge IdealMerge} (member : step ∈ walk r1 r2) :
    exactCoefficient e1 e2 r1 r2 (step.key rowCell rowCell) = exactValue c.e1.toInt c.e2.toInt step :=
  (exactCoefficient_eq value1 value2 _).trans (exactValue_eq sorted1 sorted2 _ _ member).symm

theorem fits_iff : (∀ k, FitsInt32 (exactCoefficient e1 e2 r1 r2 k)) ↔
    ∀ step ∈ walk r1 r2, FitsInt32 (exactValue c.e1.toInt c.e2.toInt step) := by
  constructor
  · intro all step member
    rw [← exactCoefficient_key sorted1 sorted2 value1 value2 member]
    exact all _
  · intro all k
    by_cases zero : exactCoefficient e1 e2 r1 r2 k = 0
    · rw [zero]
      decide
    · rw [exactCoefficient_eq value1 value2] at zero
      obtain ⟨step, member, rfl⟩ := exists_step zero
      rw [exactCoefficient_key sorted1 sorted2 value1 value2 member]
      exact all step member

end

theorem multipliers_ne_zero {e1 e2 : Exponent} {c : Multipliers} (nonzero1 : e1 ≠ 0) (nonzero2 : e2 ≠ 0)
    (value1 : c.e1.toInt = -(e1.toInt / Int.gcd e1.toInt e2.toInt))
    (value2 : c.e2.toInt = e2.toInt / Int.gcd e1.toInt e2.toInt) : c.e1 ≠ 0 ∧ c.e2 ≠ 0 := by
  have quotient {e : Exponent} (nonzero : e ≠ 0) (divides : (Int.gcd e1.toInt e2.toInt : Int) ∣ e.toInt) :
      e.toInt / Int.gcd e1.toInt e2.toInt ≠ 0 := by
    obtain ⟨q, hq⟩ := divides
    have nonzero' := toInt_ne_zero nonzero
    rw [hq] at nonzero' ⊢
    rw [Int.mul_ediv_cancel_left _ (left_ne_zero_of_mul nonzero')]
    exact right_ne_zero_of_mul nonzero'
  constructor
  · rintro zero
    rw [zero] at value1
    exact quotient nonzero1 (Int.gcd_dvd_left ..) (neg_eq_zero.mp value1.symm)
  · rintro zero
    rw [zero] at value2
    exact quotient nonzero2 (Int.gcd_dvd_right ..) value2.symm

theorem addCellDl_ne_zero {c : Multipliers} {r1 r2 : List IdealMerge} (m1 : c.e1 ≠ 0) (m2 : c.e2 ≠ 0)
    (nonzero1 : ∀ x ∈ r1, x.e ≠ 0) (nonzero2 : ∀ x ∈ r2, x.e ≠ 0)
    {step : Aligned IdealMerge IdealMerge} (member : step ∈ walk r1 r2)
    (fits : FitsInt32 (exactValue c.e1.toInt c.e2.toInt step)) {x : IdealMerge}
    (stored : addCellDl c step = some x) : x.e ≠ 0 := by
  have value : x.e.toInt = exactValue c.e1.toInt c.e2.toInt step := by
    rw [← fits.toInt]
    cases step with
    | left y | right y =>
      cases stored
      rfl
    | both y z =>
      simp only [addCellDl] at stored
      split_ifs at stored
      cases stored
      rfl
  have positive : exactValue c.e1.toInt c.e2.toInt step ≠ 0 := by
    cases step with
    | left y =>
      have hy : y ∈ r1 := by
        rw [← align_left rowCell rowCell r1 r2]
        exact List.mem_filterMap.mpr ⟨_, member, rfl⟩
      exact mul_ne_zero (toInt_ne_zero m2) (toInt_ne_zero (nonzero1 y hy))
    | right y =>
      have hy : y ∈ r2 := by
        rw [← align_right rowCell rowCell r1 r2]
        exact List.mem_filterMap.mpr ⟨_, member, rfl⟩
      exact mul_ne_zero (toInt_ne_zero m1) (toInt_ne_zero (nonzero2 y hy))
    | both y z =>
      intro zero
      simp [addCellDl, zero] at stored
  rintro zero
  rw [← value, zero] at positive
  exact positive rfl

section
variable {j i1 i2 : Nat} {rows : Rows IdealMerge} {r1 r2 : List IdealMerge} {x y : IdealMerge}
  (live1 : rows i1 = some r1) (live2 : rows i2 = some r2)
  (sorted1 : RowSorted r1) (sorted2 : RowSorted r2)
  (nonzero1 : ∀ x ∈ r1, x.e ≠ 0) (nonzero2 : ∀ x ∈ r2, x.e ≠ 0)
  (hx : x ∈ r1) (hy : y ∈ r2) (pivot1 : x.id = j) (pivot2 : y.id = j)

include sorted1 sorted2 nonzero1 nonzero2 hx hy pivot1 pivot2 in
theorem sum_isExact {c : Multipliers} (multipliers : pivotMultipliers j r1 r2 = some c)
    (value1 : c.e1.toInt = -(x.e.toInt / Int.gcd x.e.toInt y.e.toInt))
    (value2 : c.e2.toInt = y.e.toInt / Int.gcd x.e.toInt y.e.toInt)
    (fits : ∀ step ∈ walk r1 r2, FitsInt32 (exactValue c.e1.toInt c.e2.toInt step)) :
    IsExact j x.e y.e r1 r2 ((walk r1 r2).filterMap (addCellDl c)) := by
  have added : addRow j r1 r2 =
      some ((walk r1 r2).filterMap (addCellDl c), (walk r1 r2).filterMap (wtOp c)) :=
    addRow_eq_some_iff.mpr ⟨c, multipliers, fun step member => decide_eq_true (fits step member), rfl⟩
  obtain ⟨m1, m2⟩ := multipliers_ne_zero (nonzero1 x hx) (nonzero2 y hy) value1 value2
  refine ⟨addRow_sorted sorted1 sorted2 added, fun z hz => ?_, fun k => ?_, ?_⟩
  · obtain ⟨step, member, stored⟩ := List.mem_filterMap.mp hz
    exact addCellDl_ne_zero m1 m2 nonzero1 nonzero2 member (fits step member) stored
  · have same : (walk r1 r2).filterMap (addCellDl c) = combine c.e1 c.e2 r1 r2 :=
      List.filterMap_congr fun step member => addCellDl_eq (fits step member)
    rw [same, exactCoefficient_eq value1 value2]
    exact total_combine fits _
  · exact addRow_pivot sorted1 sorted2 (List.mem_map.mpr ⟨x, hx, pivot1⟩)
      (List.mem_map.mpr ⟨y, hy, pivot2⟩) added

include live1 live2 in
theorem addRowDl_eq : addRowDl j rows i1 i2 =
    (sum j r1 r2).map fun result => (Function.update rows i1 (some result.1), result.2) := by
  unfold addRowDl
  rw [live1, live2]
  change (sum j r1 r2 >>= _) = _
  cases sum j r1 r2 <;> rfl

include live1 live2 sorted1 sorted2 nonzero1 nonzero2 hx hy pivot1 pivot2 in
/-- An addition of two rows that contain the pivot settles exactly if its division does not overflow
and no cell that only the last loop sees is the first to be too large. -/
theorem addRowDl_settles_iff :
    Settles j x.e y.e rows i1 r1 r2 (addRowDl j rows i1 i2) ↔
      PivotFits x.e y.e ∧ EarlyOverflow x.e y.e r1 r2 := by
  have first : lastExponent j r1 = x.e := pivot1 ▸ lastExponent_of_mem sorted1 hx
  have second : lastExponent j r2 = y.e := pivot2 ▸ lastExponent_of_mem sorted2 hy
  rw [addRowDl_eq live1 live2]
  by_cases division : PivotFits x.e y.e
  swap
  · have failed : sum j r1 r2 = .error .overflow := by
      unfold sum
      rw [pivot_overflow (nonzero1 x hx) (nonzero2 y hy) first second division]
      rfl
    rw [failed]
    constructor
    · rintro (exit | ⟨result, sum, returned, _⟩)
      · cases exit
      · cases returned
    · exact fun ⟨fits, _⟩ => absurd fits division
  obtain ⟨c, found, multipliers, value1, value2, above⟩ :=
    pivot_ok (nonzero1 x hx) (nonzero2 y hy) first second division
  have unfolded : sum j r1 r2 =
      (cells c (walk r1 r2)).map fun row => (row, (walk r1 r2).filterMap (wtOp c)) := by
    unfold sum
    rw [found]
    change (cells c (walk r1 r2) >>= _) = _
    cases cells c (walk r1 r2) <;> rfl
  have fitsIff := fits_iff sorted1 sorted2 value1 value2
  rw [unfolded]
  by_cases fits : ∀ step ∈ walk r1 r2, FitsInt32 (exactValue c.e1.toInt c.e2.toInt step)
  · rw [cells_ok above fits]
    refine iff_of_true (.inr ⟨_, _, rfl, Function.update_self .., ?_, ?_⟩)
      ⟨division, .inl (fitsIff.mpr fits)⟩
    · exact sum_isExact sorted1 sorted2 nonzero1 nonzero2 hx hy pivot1 pivot2 multipliers value1 value2
        fits
    · exact fun i ne => Function.update_of_ne ne _ _
  · -- split the walk at the first cell that is too large
    have split : ∃ before step after, walk r1 r2 = before ++ step :: after ∧
        (∀ s ∈ before, FitsInt32 (exactValue c.e1.toInt c.e2.toInt s)) ∧
        ¬ FitsInt32 (exactValue c.e1.toInt c.e2.toInt step) := by
      simp only [not_forall] at fits
      obtain ⟨t, member, out⟩ := fits
      let large := fun s : Aligned IdealMerge IdealMerge => decide (¬ FitsInt32 (exactValue c.e1.toInt c.e2.toInt s))
      obtain ⟨step, found⟩ := Option.isSome_iff_exists.mp
        ((List.find?_isSome (p := large)).mpr ⟨t, member, decide_eq_true out⟩)
      obtain ⟨is, before, after, eq, small⟩ := List.find?_eq_some_iff_append.mp found
      exact ⟨before, step, after, eq, fun s hs => by simpa [large] using small s hs, of_decide_eq_true is⟩
    obtain ⟨before, step, after, split, small, large⟩ := split
    have member : step ∈ walk r1 r2 := by simp [split]
    have late := all_fromRight_iff sorted1 sorted2 split
    have value := exactCoefficient_key sorted1 sorted2 value1 value2 member
    rw [split, cells_error above small large]
    have late' : EarlyOverflow x.e y.e r1 r2 ↔ ¬ (step :: after).all fromRight := by
      rw [late]
      simp only [not_forall, not_lt]
      constructor
      · rintro (all | ⟨z, hz, k, below, out⟩)
        · exact absurd (fitsIff.mp all) fits
        · have known : exactCoefficient x.e y.e r1 r2 k ≠ 0 := by
            intro zero
            rw [zero] at out
            exact out (by decide)
          rw [exactCoefficient_eq value1 value2] at known
          obtain ⟨t, inWalk, rfl⟩ := exists_step known
          rw [exactCoefficient_key sorted1 sorted2 value1 value2 inWalk] at out
          have order := align_sorted sorted1 sorted2
          rw [show align rowCell rowCell r1 r2 = before ++ step :: after from split,
            List.pairwise_append] at order
          rw [split] at inWalk
          refine ⟨z, hz, ?_⟩
          rcases List.mem_append.mp inWalk with early | rest
          · exact absurd (small t early) out
          · rcases List.mem_cons.mp rest with rfl | later
            · exact below
            · exact ((List.pairwise_cons.mp order.2.1).1 t later).le.trans below
      · rintro ⟨z, hz, below⟩
        exact .inr ⟨z, hz, _, below, by rwa [value]⟩
    rw [late']
    by_cases tail : (step :: after).all fromRight
    · rw [if_pos tail]
      refine iff_of_false ?_ fun both => both.2 tail
      rintro (exit | ⟨result, sum, returned, _⟩)
      · cases exit
      · cases returned
    · rw [if_neg tail]
      exact iff_of_true (.inl rfl) ⟨division, tail⟩

end

theorem addRowDl_settles_two :
    Settles 0 2 3 (rowTable [[⟨0, 2⟩, ⟨1, 1⟩], [⟨0, 3⟩]]) 0 [⟨0, 2⟩, ⟨1, 1⟩] [⟨0, 3⟩]
        (addRowDl 0 (rowTable [[⟨0, 2⟩, ⟨1, 1⟩], [⟨0, 3⟩]]) 0 1) ↔
      PivotFits 2 3 ∧ EarlyOverflow 2 3 [⟨0, 2⟩, ⟨1, 1⟩] [⟨0, 3⟩] :=
  addRowDl_settles_iff rfl rfl (by decide) (by decide) (by decide) (by decide)
    (List.mem_cons_self (a := ⟨0, 2⟩)) (List.mem_cons_self (a := ⟨0, 3⟩)) rfl rfl

theorem not_settles_smallest :
    ¬ Settles 0 (BitVec.intMin 32) 1 (rowTable [[⟨0, BitVec.intMin 32⟩], [⟨0, 1⟩]]) 0
      [⟨0, BitVec.intMin 32⟩] [⟨0, 1⟩]
      (addRowDl 0 (rowTable [[⟨0, BitVec.intMin 32⟩], [⟨0, 1⟩]]) 0 1) := by
  have failed : addRowDl 0 (rowTable [[⟨0, BitVec.intMin 32⟩], [⟨0, 1⟩]]) 0 1 = .error .overflow := rfl
  rw [failed]
  rintro (exit | ⟨result, sum, returned, _⟩)
  · cases exit
  · cases returned

example : addRowDl 0 (rowTable [[⟨0, 3⟩], [⟨0, 2⟩, ⟨1, 2 ^ 30⟩]]) 0 1 = .error .assertion := rfl

end AddRow

end CadoNfs.Filter

/-!
# `weightSum` counts the cells of a sum

`weightSum` of `filter/merge_replay_matrix.c` walks over two rows like `add_row` and counts the cells that stay.
-/

namespace CadoNfs.Lib

variable {α β κ : Type*}

def Aligned.swap : Aligned α β → Aligned β α
  | left a => right a
  | right b => left b
  | both a b => both b a

theorem align_swap [LinearOrder κ] (ka : α → κ) (kb : β → κ) (as : List α) (bs : List β) :
    align kb ka bs as = (align ka kb as bs).map Aligned.swap := by
  induction as, bs using align_induction ka kb with
  | nilLeft bs => simp [Function.comp_def, Aligned.swap]
  | nilRight as => simp [Function.comp_def, Aligned.swap]
  | lt a as b bs h ih => rw [align_of_lt h, align_of_gt h, ih, List.map_cons, Aligned.swap]
  | gt a as b bs h ih => rw [align_of_gt h, align_of_lt h, ih, List.map_cons, Aligned.swap]
  | eq a as b bs h ih => rw [align_of_eq h, align_of_eq h.symm, ih, List.map_cons, Aligned.swap]

theorem align_length_le [LinearOrder κ] (ka : α → κ) (kb : β → κ) (as : List α) (bs : List β) :
    (align ka kb as bs).length ≤ as.length + bs.length := by
  induction as, bs using align_induction ka kb with
  | nilLeft bs => simp
  | nilRight as => simp
  | lt a as b bs h ih | gt a as b bs h ih | eq a as b bs h ih =>
    simp only [align_of_lt, align_of_gt, align_of_eq, h, List.length_cons] at ih ⊢
    omega

end CadoNfs.Lib

namespace CadoNfs.Filter
open Lib Typerow

class CountedCells (α : Type) [Typerow α] where
  cell : α → Prop
  cell_setRowCell : ∀ {x : α} (k : Nat), cell x → cell (setRowCell x k)
  weightCell_le : ∀ (c : Coeffs α) (step : Aligned α α), weightCell c step ≤ 1
  sum_cell : ∀ {j : Nat} {r1 r2 sum : List α} {ops : List WtOp}, RowSorted r1 → RowSorted r2 →
    j ∈ columns r1 → j ∈ columns r2 → (∀ x ∈ r1, cell x) → (∀ x ∈ r2, cell x) →
    addRow j r1 r2 = some (sum, ops) → ∀ x ∈ sum, cell x
  weightSum_eq : ∀ {j : Nat} {r1 r2 sum : List α} {ops : List WtOp}, RowSorted r1 → RowSorted r2 →
    j ∈ columns r1 → j ∈ columns r2 → (∀ x ∈ r1, cell x) → (∀ x ∈ r2, cell x) →
    addRow j r1 r2 = some (sum, ops) → weightSum j r1 r2 = sum.length
  weightSum_swap : ∀ {j : Nat} {r1 r2 sum : List α} {ops : List WtOp}, RowSorted r1 → RowSorted r2 →
    j ∈ columns r1 → j ∈ columns r2 → (∀ x ∈ r1, cell x) → (∀ x ∈ r2, cell x) →
    addRow j r1 r2 = some (sum, ops) → (coeffs j r2 r1).isSome → weightSum j r2 r1 = weightSum j r1 r2

theorem sum_eq_length {α : Type} [Typerow α] {c : Coeffs α} {steps : List (Aligned α α)}
    (counts : ∀ step ∈ steps, weightCell c step = (sumCell c step).toList.length) :
    (steps.map (weightCell c)).sum = (steps.filterMap (sumCell c)).length := by
  induction steps with
  | nil => rfl
  | cons step steps ih =>
    have head := counts step (by simp)
    rw [List.map_cons, List.sum_cons, ih fun s hs => counts s (.tail _ hs), head]
    cases stored : sumCell c step with
    | none => simp [List.filterMap_cons_none stored]
    | some x => simp [List.filterMap_cons_some stored, Nat.add_comm]

theorem weightSum_le {α : Type} [Typerow α] [CountedCells α] (j : Nat) (r1 r2 : List α) :
    weightSum j r1 r2 ≤ r1.length + r2.length := by
  unfold weightSum
  cases coeffs j r1 r2 with
  | none => exact Nat.zero_le _
  | some c =>
    have bound := List.sum_le_card_nsmul ((walk r1 r2).map (weightCell c)) 1 fun v member => by
      obtain ⟨step, _, rfl⟩ := List.mem_map.mp member
      exact CountedCells.weightCell_le c step
    have length := align_length_le rowCell rowCell r1 r2
    simp only [List.length_map, smul_eq_mul, mul_one] at bound
    exact bound.trans length

instance : CountedCells Nat where
  cell _ := True
  cell_setRowCell _ _ := trivial
  weightCell_le _ step := by cases step <;> simp [weightCell]
  sum_cell _ _ _ _ _ _ _ _ _ := trivial
  weightSum_eq _ _ _ _ _ _ added := by
    obtain ⟨c, _, _, result⟩ := addRow_eq_some_iff.mp added
    cases result
    refine sum_eq_length fun step _ => ?_
    cases step <;> rfl
  weightSum_swap {_ r1 r2 _ _} _ _ _ _ _ _ _ _ := by
    simp only [weightSum, coeffs, walk]
    rw [align_swap rowCell rowCell r1 r2, List.map_map]
    refine congrArg List.sum (List.map_congr_left fun step _ => ?_)
    cases step <;> rfl

namespace AddRow
variable {j : Nat} {r1 r2 sum : List IdealMerge} {ops : List WtOp}

theorem accepted_multipliers (sorted1 : RowSorted r1) (sorted2 : RowSorted r2) (inLeft : j ∈ columns r1)
    (inRight : j ∈ columns r2) (nonzero1 : ∀ x ∈ r1, x.e ≠ 0) (nonzero2 : ∀ x ∈ r2, x.e ≠ 0)
    (added : addRow j r1 r2 = some (sum, ops)) :
    ∃ (c : Multipliers) (e1 e2 : Exponent), lastExponent j r1 = e1 ∧ lastExponent j r2 = e2 ∧
      e1 ≠ 0 ∧ e2 ≠ 0 ∧ ¬ (e1 = BitVec.intMin 32 ∧ e2 = BitVec.intMin 32) ∧
      pivotMultipliers j r1 r2 = some c ∧ c.e1.toInt = -(e1.toInt / Int.gcd e1.toInt e2.toInt) ∧
      c.e2.toInt = e2.toInt / Int.gcd e1.toInt e2.toInt ∧
      (∀ step ∈ walk r1 r2, FitsInt32 (exactValue c.e1.toInt c.e2.toInt step)) ∧
      sum = (walk r1 r2).filterMap (addCellDl c) := by
  obtain ⟨c, found, accepted, result⟩ := addRow_eq_some_iff.mp added
  cases result
  have fits (step) (member : step ∈ walk r1 r2) :
      FitsInt32 (exactValue c.e1.toInt c.e2.toInt step) := of_decide_eq_true (accepted step member)
  obtain ⟨x, hx, pivot1⟩ := List.mem_map.mp inLeft
  obtain ⟨y, hy, pivot2⟩ := List.mem_map.mp inRight
  have first : lastExponent j r1 = x.e := pivot1 ▸ lastExponent_of_mem sorted1 hx
  have second : lastExponent j r2 = y.e := pivot2 ▸ lastExponent_of_mem sorted2 hy
  have both : .both x y ∈ walk r1 r2 :=
    (both_mem_align sorted1 sorted2).mpr ⟨hx, hy, pivot1.trans pivot2.symm⟩
  have multipliers : multipliers x.e y.e = some c := by
    have unfolded : pivotMultipliers j r1 r2 = some c := found
    rw [pivotMultipliers, first, second, if_neg (not_or.mpr ⟨nonzero1 x hx, nonzero2 y hy⟩)] at unfolded
    exact unfolded
  have proper := (exactValue_pivot (nonzero1 x hx) (nonzero2 y hy) multipliers (fits _ both)).1
  obtain ⟨value1, value2⟩ := multipliers_toInt (nonzero1 x hx) (nonzero2 y hy) multipliers proper
  exact ⟨c, x.e, y.e, first, second, nonzero1 x hx, nonzero2 y hy, proper, found, value1, value2, fits, rfl⟩

theorem swapped_multipliers {e1 e2 : Exponent} {c c' : Multipliers} (nonzero1 : e1 ≠ 0)
    (nonzero2 : e2 ≠ 0) (proper : ¬ (e1 = BitVec.intMin 32 ∧ e2 = BitVec.intMin 32))
    (value1 : c.e1.toInt = -(e1.toInt / Int.gcd e1.toInt e2.toInt))
    (value2 : c.e2.toInt = e2.toInt / Int.gcd e1.toInt e2.toInt) (found : multipliers e2 e1 = some c') :
    c'.e1 = -c.e2 ∧ c'.e2 = -c.e1 := by
  obtain ⟨other1, other2⟩ := multipliers_toInt nonzero2 nonzero1 found fun both => proper both.symm
  rw [Int.gcd_comm] at other1 other2
  rw [← value2] at other1
  rw [← neg_eq_iff_eq_neg.mpr value1] at other2
  constructor
  · rw [← BitVec.ofInt_toInt (x := c'.e1), other1, BitVec.ofInt_neg, BitVec.ofInt_toInt]
  · rw [← BitVec.ofInt_toInt (x := c'.e2), other2, BitVec.ofInt_neg, BitVec.ofInt_toInt]

theorem stepValue_swap (a b : BitVec 32) (step : Aligned IdealMerge IdealMerge) :
    stepValue (-b) (-a) step.swap = -stepValue a b step := by
  cases step with
  | left x | right x => simp [Aligned.swap, stepValue]
  | both x y =>
    simp only [Aligned.swap, stepValue, BitVec.neg_mul, BitVec.neg_add]
    rw [BitVec.sub_eq_add_neg, BitVec.add_comm]

end AddRow

open AddRow in
instance : CountedCells IdealMerge where
  cell x := x.e ≠ 0
  cell_setRowCell _ nonzero := nonzero
  weightCell_le c step := by
    change (if stepValue c.e1 c.e2 step = 0 then 0 else 1) ≤ 1
    split_ifs <;> simp
  sum_cell sorted1 sorted2 inLeft inRight nonzero1 nonzero2 added x member := by
    obtain ⟨c, e1, e2, _, _, nz1, nz2, _, _, value1, value2, fits, rfl⟩ :=
      accepted_multipliers sorted1 sorted2 inLeft inRight nonzero1 nonzero2 added
    obtain ⟨m1, m2⟩ := multipliers_ne_zero nz1 nz2 value1 value2
    obtain ⟨step, inWalk, stored⟩ := List.mem_filterMap.mp member
    exact addCellDl_ne_zero m1 m2 nonzero1 nonzero2 inWalk (fits step inWalk) stored
  weightSum_eq {j r1 r2 _ _} sorted1 sorted2 inLeft inRight nonzero1 nonzero2 added := by
    obtain ⟨c, e1, e2, _, _, nz1, nz2, _, found, value1, value2, fits, rfl⟩ :=
      accepted_multipliers sorted1 sorted2 inLeft inRight nonzero1 nonzero2 added
    obtain ⟨m1, m2⟩ := multipliers_ne_zero nz1 nz2 value1 value2
    have unfolded : coeffs j r1 r2 = some c := found
    simp only [weightSum, unfolded]
    refine sum_eq_length fun step member => ?_
    have exact := addCellDl_eq (fits step member)
    change (if stepValue c.e1 c.e2 step = 0 then 0 else 1) = (addCellDl c step).toList.length
    cases stored : addCellDl c step with
    | none =>
      have zero : stepValue c.e1 c.e2 step = 0 := by
        rw [exact] at stored
        cases step with
        | left x | right x => cases stored
        | both x y =>
          simp only [combineStep] at stored
          split_ifs at stored with zero
          exact zero
      rw [if_pos zero]
      rfl
    | some x =>
      have kept := addCellDl_ne_zero m1 m2 nonzero1 nonzero2 member (fits step member) stored
      have value : x.e = stepValue c.e1 c.e2 step := by
        rw [exact] at stored
        cases step with
        | left x | right x =>
          cases stored
          rfl
        | both x y =>
          simp only [combineStep] at stored
          split_ifs at stored
          cases stored
          rfl
      rw [if_neg (value ▸ kept)]
      rfl
  weightSum_swap {j r1 r2 _ _} sorted1 sorted2 inLeft inRight nonzero1 nonzero2 added defined := by
    obtain ⟨c, e1, e2, first, second, nz1, nz2, proper, found, value1, value2, _, _⟩ :=
      accepted_multipliers sorted1 sorted2 inLeft inRight nonzero1 nonzero2 added
    obtain ⟨c', other⟩ := Option.isSome_iff_exists.mp defined
    have multipliers : multipliers e2 e1 = some c' := by
      have unfolded : pivotMultipliers j r2 r1 = some c' := other
      rw [pivotMultipliers, first, second, if_neg (not_or.mpr ⟨nz2, nz1⟩)] at unfolded
      exact unfolded
    obtain ⟨same1, same2⟩ := swapped_multipliers nz1 nz2 proper value1 value2 multipliers
    have unfolded : coeffs j r1 r2 = some c := found
    simp only [weightSum, unfolded, other, walk]
    rw [align_swap rowCell rowCell r1 r2, List.map_map]
    refine congrArg List.sum (List.map_congr_left fun step _ => ?_)
    change (if stepValue c'.e1 c'.e2 step.swap = 0 then 0 else 1) = if stepValue c.e1 c.e2 step = 0 then 0 else 1
    rw [same1, same2, stepValue_swap]
    simp

end CadoNfs.Filter
