import CadoNfs.Lib.Combination
import CadoNfs.Filter.Typerow

/-!
# Row additions in a discrete logarithm build

The cells of a row have 32-bit exponents. `add_row` of `filter/merge.cpp` combines two rows so that
the pivot column cancels; it computes in 64 bits, which do not overflow, and checks the results. A
division by zero, or of the smallest integer by `-1`, traps.
-/

namespace CadoNfs.Filter
open Lib Typerow SparseEntry

abbrev Exponent := BitVec 32

structure IdealMerge where
  id : Nat
  e : Exponent
  deriving DecidableEq

instance : SparseEntry IdealMerge where
  key := IdealMerge.id
  coeff := IdealMerge.e
  entry := IdealMerge.mk
  key_entry _ _ := rfl
  coeff_entry _ _ := rfl

def divide (a b : Exponent) : Option Exponent :=
  if b = 0 ∨ a = BitVec.intMin 32 ∧ b = -1 then none else some (a.sdiv b)

def gcdUint64 (a b : Nat) : Nat :=
  if b = 0 then a else if b ≤ a then Nat.gcd (a % b) b else Nat.gcd a b

def gcdInt64 (a b : Int) : Nat := gcdUint64 a.natAbs b.natAbs

structure Multipliers where
  e1 : Exponent
  e2 : Exponent
  deriving DecidableEq

def multipliers (e1 e2 : Exponent) : Option Multipliers :=
  let d := BitVec.ofNat 32 (gcdInt64 e1.toInt e2.toInt)
  (divide e1 (-d)).bind fun m1 => (divide e2 d).map fun m2 => ⟨m1, m2⟩

theorem gcdInt64_eq (a b : Int) : gcdInt64 a b = Int.gcd a b := by
  unfold gcdInt64 gcdUint64 Int.gcd
  split_ifs with zero le
  · rw [zero, Nat.gcd_zero_right]
  · rw [Nat.gcd_comm a.natAbs, Nat.gcd_rec b.natAbs a.natAbs]
  · rfl

theorem divide_toInt {a b q : Exponent} (run : divide a b = some q) :
    b ≠ 0 ∧ q.toInt = a.toInt.tdiv b.toInt := by
  unfold divide at run
  split_ifs at run with trap
  cases run
  rw [not_or] at trap
  exact ⟨trap.1, BitVec.toInt_sdiv_of_ne_or_ne a b (not_and_or.mp trap.2)⟩

theorem FitsInt32.of_toInt (b : Exponent) : FitsInt32 b.toInt := by
  rw [← toInt_ofInt_eq_iff, BitVec.ofInt_toInt]

theorem eq_intMin_iff (b : Exponent) : b = BitVec.intMin 32 ↔ b.toInt = -2 ^ 31 := by
  rw [← BitVec.toInt_inj]
  rfl

theorem divide_mul_iff {m y : Exponent} (nonzero : m ≠ 0) :
    divide (y * m) m = some y ↔ FitsInt32 (m.toInt * y.toInt) := by
  have product : y * m = BitVec.ofInt 32 (m.toInt * y.toInt) := by
    rw [mul_comm m.toInt, BitVec.ofInt_mul, BitVec.ofInt_toInt, BitVec.ofInt_toInt]
  have nonzero' : m.toInt ≠ 0 := by simpa [← BitVec.toInt_inj] using nonzero
  constructor
  · intro run
    obtain ⟨_, quotient⟩ := divide_toInt run
    -- the remainder is a multiple of 2^32 that is smaller than m
    have remainder := Int.mul_tdiv_add_tmod (y * m).toInt m.toInt
    rw [← quotient] at remainder
    have small := Nat.mod_lt (y * m).toInt.natAbs (Int.natAbs_pos.mpr nonzero')
    rw [← Int.natAbs_tmod] at small
    have low := BitVec.le_toInt m
    have wrapped : (y * m).toInt = (m.toInt * y.toInt).bmod (2 ^ 32) := by
      rw [product, BitVec.toInt_ofInt]
    rw [Int.bmod_def] at wrapped
    have fits := FitsInt32.of_toInt (y * m)
    have same : (y * m).toInt = m.toInt * y.toInt := by
      generalize m.toInt * y.toInt = exact at *
      generalize (y * m).toInt = result at *
      have high := BitVec.toInt_lt (x := m)
      split_ifs at wrapped <;> omega
    rwa [← same]
  · intro fits
    have exact : (y * m).toInt = m.toInt * y.toInt := by rw [product, fits.toInt]
    have high := BitVec.toInt_lt (x := y)
    have possible : ¬ (y * m = BitVec.intMin 32 ∧ m = -1) := by
      rintro ⟨smallest, rfl⟩
      rw [eq_intMin_iff, exact, show (-1 : Exponent).toInt = -1 from rfl] at smallest
      omega
    have quotient : (y * m).sdiv m = y := by
      apply BitVec.eq_of_toInt_eq
      rw [BitVec.toInt_sdiv_of_ne_or_ne _ _ (not_and_or.mp possible), exact,
        Int.mul_tdiv_cancel_left _ nonzero']
    rw [divide, if_neg (not_or.mpr ⟨nonzero, possible⟩), quotient]

theorem multipliers_toInt {e1 e2 : Exponent} {c : Multipliers} (nonzero1 : e1 ≠ 0)
    (nonzero2 : e2 ≠ 0) (run : multipliers e1 e2 = some c)
    (proper : ¬ (e1 = BitVec.intMin 32 ∧ e2 = BitVec.intMin 32)) :
    c.e1.toInt = -(e1.toInt / Int.gcd e1.toInt e2.toInt) ∧
      c.e2.toInt = e2.toInt / Int.gcd e1.toInt e2.toInt := by
  obtain ⟨m1, first, run⟩ := Option.bind_eq_some_iff.mp run
  obtain ⟨m2, second, rfl⟩ := Option.map_eq_some_iff.mp run
  rw [gcdInt64_eq] at first second
  have divides1 : (Int.gcd e1.toInt e2.toInt : Int) ∣ e1.toInt := Int.gcd_dvd_left ..
  have divides2 : (Int.gcd e1.toInt e2.toInt : Int) ∣ e2.toInt := Int.gcd_dvd_right ..
  have small : Int.gcd e1.toInt e2.toInt < 2 ^ 31 := by
    by_contra large
    have extreme {e : Exponent} (nonzero : e ≠ 0) (divides : (Int.gcd e1.toInt e2.toInt : Int) ∣ e.toInt) :
        e = BitVec.intMin 32 := by
      have nonzero' : e.toInt ≠ 0 := by simpa [← BitVec.toInt_inj] using nonzero
      have le := Nat.le_of_dvd (Int.natAbs_pos.mpr nonzero') (Int.natCast_dvd.mp divides)
      have := FitsInt32.of_toInt e
      unfold FitsInt32 at this
      rw [eq_intMin_iff]
      omega
    exact proper ⟨extreme nonzero1 divides1, extreme nonzero2 divides2⟩
  generalize Int.gcd e1.toInt e2.toInt = d at *
  have positive : (BitVec.ofNat 32 d).toInt = d := by
    rw [← BitVec.ofInt_natCast]
    exact FitsInt32.toInt ⟨by omega, by omega⟩
  have negative : (-BitVec.ofNat 32 d).toInt = -d := by
    rw [BitVec.toInt_neg, positive, Int.bmod_def]
    split_ifs <;> omega
  constructor
  · rw [(divide_toInt first).2, negative, Int.tdiv_neg, Int.tdiv_eq_ediv_of_dvd divides1]
  · rw [(divide_toInt second).2, positive, Int.tdiv_eq_ediv_of_dvd divides2]

/-! ## `add_row` of merge -/

def lastExponent (j : Nat) (row : List IdealMerge) : Exponent :=
  (row.reverse.find? fun x => x.id = j).elim 0 IdealMerge.e

def addCellDl (c : Multipliers) : Aligned IdealMerge IdealMerge → Option IdealMerge
  | .left x => some ⟨x.id, BitVec.ofInt 32 (exactValue c.e1.toInt c.e2.toInt (.left x))⟩
  | .right y => some ⟨y.id, BitVec.ofInt 32 (exactValue c.e1.toInt c.e2.toInt (.right y))⟩
  | .both x y =>
      if exactValue c.e1.toInt c.e2.toInt (.both x y) = 0 then none
      else some ⟨x.id, BitVec.ofInt 32 (exactValue c.e1.toInt c.e2.toInt (.both x y))⟩

theorem lastExponent_of_mem {row : List IdealMerge} (sorted : row.Pairwise (·.id < ·.id))
    {x : IdealMerge} (member : x ∈ row) : lastExponent x.id row = x.e := by
  have apart : (row.map IdealMerge.id).Nodup := by
    rw [List.nodup_iff_pairwise_ne, List.pairwise_map]
    exact sorted.imp fun lt => lt.ne
  unfold lastExponent
  cases found : row.reverse.find? fun y => y.id = x.id with
  | none =>
    have missing := List.find?_eq_none.mp found x (List.mem_reverse.mpr member)
    simp at missing
  | some y =>
    have same := List.find?_some found
    have inside := List.mem_reverse.mp (List.mem_of_find?_eq_some found)
    rw [List.inj_on_of_nodup_map apart inside member (of_decide_eq_true same), Option.elim_some]

def pivotMultipliers (j : Nat) (r1 r2 : List IdealMerge) : Option Multipliers :=
  if lastExponent j r1 = 0 ∨ lastExponent j r2 = 0 then none
  else multipliers (lastExponent j r1) (lastExponent j r2)

theorem exactValue_pivot {x y : IdealMerge} {c : Multipliers} (nonzero1 : x.e ≠ 0)
    (nonzero2 : y.e ≠ 0) (run : multipliers x.e y.e = some c)
    (fits : FitsInt32 (exactValue c.e1.toInt c.e2.toInt (.both x y))) :
    ¬ (x.e = BitVec.intMin 32 ∧ y.e = BitVec.intMin 32) ∧
      exactValue c.e1.toInt c.e2.toInt (.both x y) = 0 := by
  have proper : ¬ (x.e = BitVec.intMin 32 ∧ y.e = BitVec.intMin 32) := by
    rintro ⟨left, right⟩
    rw [left, right] at run
    obtain rfl : ⟨1, 1⟩ = c := by
      have value : multipliers (BitVec.intMin 32) (BitVec.intMin 32) = some ⟨1, 1⟩ := by decide
      exact Option.some.inj (value.symm.trans run)
    simp only [exactValue, SparseEntry.coeff, left, right] at fits
    exact absurd fits (by decide)
  obtain ⟨value1, value2⟩ := multipliers_toInt nonzero1 nonzero2 run proper
  have divides1 : (Int.gcd x.e.toInt y.e.toInt : Int) ∣ x.e.toInt := Int.gcd_dvd_left ..
  have divides2 : (Int.gcd x.e.toInt y.e.toInt : Int) ∣ y.e.toInt := Int.gcd_dvd_right ..
  refine ⟨proper, ?_⟩
  simp only [exactValue, SparseEntry.coeff, value1, value2]
  generalize Int.gcd x.e.toInt y.e.toInt = d at *
  obtain ⟨p, hp⟩ := divides1
  obtain ⟨q, hq⟩ := divides2
  rw [hp, hq]
  rcases eq_or_ne (d : Int) 0 with zero | nonzero
  · simp [zero]
  · rw [Int.mul_ediv_cancel_left _ nonzero, Int.mul_ediv_cancel_left _ nonzero]
    ring

/-- A discrete logarithm build. -/
instance : Typerow IdealMerge where
  forDl := true
  rowCell := IdealMerge.id
  setRowCell x j := { x with id := j }
  Coeffs := Multipliers
  coeffs := pivotMultipliers
  sumCell := addCellDl
  accepts c step := decide (FitsInt32 (exactValue c.e1.toInt c.e2.toInt step))
  weightCell c step := if stepValue c.e1 c.e2 step = 0 then 0 else 1
  rowCell_setRowCell _ _ := rfl
  sumCell_key c step x stored := by
    cases step with
    | left y | right y =>
      cases stored
      rfl
    | both y z =>
      simp only [addCellDl] at stored
      split_ifs at stored
      cases stored
      rfl
  sumCell_left _ _ := by simp [addCellDl]
  sumCell_right _ _ := by simp [addCellDl]
  sumCell_pivot j r1 r2 c x y sorted1 sorted2 coeffs hx hy hxj hyj accepted := by
    subst hxj
    unfold pivotMultipliers at coeffs
    rw [lastExponent_of_mem sorted1 hx, ← hyj, lastExponent_of_mem sorted2 hy] at coeffs
    split_ifs at coeffs with zero
    obtain ⟨nonzero1, nonzero2⟩ := not_or.mp zero
    exact if_pos (exactValue_pivot nonzero1 nonzero2 coeffs (of_decide_eq_true accepted)).2

theorem addCellDl_eq {c : Multipliers} {step : Aligned IdealMerge IdealMerge}
    (fits : FitsInt32 (exactValue c.e1.toInt c.e2.toInt step)) :
    addCellDl c step = combineStep c.e1 c.e2 step := by
  have value := stepValue_eq c.e1 c.e2 step
  cases step with
  | left x | right x =>
    simp only [addCellDl, ← value]
    rfl
  | both x y =>
    have zero : exactValue c.e1.toInt c.e2.toInt (.both x y) = 0 ↔
        c.e2 * coeff x + c.e1 * coeff y = 0 := by
      rw [← fits.toInt, ← value, stepValue, ← BitVec.toInt_inj]
      rfl
    simp only [addCellDl, combineStep, zero, ← value]
    rfl

theorem addRow_dl {j : Nat} {r1 r2 sum : List IdealMerge} {ops : List WtOp}
    (accepted : addRow j r1 r2 = some (sum, ops)) : ∃ c, pivotMultipliers j r1 r2 = some c ∧
      (∀ step ∈ align key key r1 r2, FitsInt32 (exactValue c.e1.toInt c.e2.toInt step)) ∧
      sum = combine c.e1 c.e2 r1 r2 := by
  obtain ⟨c, pivot, checked, result⟩ := addRow_eq_some_iff.mp accepted
  have fits (step) (member : step ∈ align key key r1 r2) :
      FitsInt32 (exactValue c.e1.toInt c.e2.toInt step) := of_decide_eq_true (checked step member)
  refine ⟨c, pivot, fits, ?_⟩
  cases result
  exact List.filterMap_congr fun step member => addCellDl_eq (fits step member)

end CadoNfs.Filter
