import CadoNfs.Lib.MatrixSeries
import CadoNfs.Lib.ExceptRun

/-!
# Matrices of polynomials

`matpoly` of `linalg/bwc/lingen_matpoly_binary.cpp`: an explicit length and as many coefficients. `none` is
a failed assertion.
-/

namespace CadoNfs.Linalg

open Lib

structure Matpoly (R : Type) [Zero R] (m n : ℕ) where
  size : ℕ
  coeff : ℕ → Matrix (Fin m) (Fin n) R
  beyond : ∀ k, size ≤ k → coeff k = 0

namespace Matpoly

section

variable {R : Type} [Zero R] {m n : ℕ} (a : Matpoly R m n)

def truncate (k : ℕ) : Option (Matpoly R m n) :=
  if k ≤ a.size then some ⟨k, fun i => if i < k then a.coeff i else 0, fun _ le => if_neg (not_lt.mpr le)⟩ else none

def rshift (k : ℕ) : Option (Matpoly R m n) :=
  if k ≤ a.size then some ⟨a.size - k, fun i => a.coeff (k + i), fun _ le => a.beyond _ (by omega)⟩ else none

def truncateAndRshift (truncated shift : ℕ) : Option (Matpoly R m n × Matpoly R m n) :=
  (a.rshift shift).bind fun other => (a.truncate truncated).map fun this => (this, other)

def trueSize [DecidableEq R] : ℕ → ℕ
  | 0 => 0
  | k + 1 => if a.coeff k = 0 then trueSize k else k + 1

theorem coeff_of_trueSize_le [DecidableEq R] {k i : ℕ} (le : a.trueSize k ≤ i) (lt : i < k) : a.coeff i = 0 := by
  induction k with
  | zero => omega
  | succ k ih =>
    rw [trueSize] at le
    split_ifs at le with zero
    · rcases Nat.lt_succ_iff_lt_or_eq.mp lt with less | rfl
      · exact ih le less
      · exact zero
    · omega

def trim [DecidableEq R] : Matpoly R m n :=
  ⟨a.trueSize a.size, a.coeff, fun k le => by
    rcases Nat.lt_or_ge k a.size with lt | ge
    · exact a.coeff_of_trueSize_le le lt
    · exact a.beyond k ge⟩

end

variable {R : Type} [Semiring R] {m n l : ℕ}

theorem conv_beyond (a : Matpoly R m n) (b : Matpoly R n l) {k : ℕ} (le : a.size + b.size - 1 ≤ k) :
    conv a.coeff b.coeff k = 0 := by
  refine Finset.sum_eq_zero fun p member => ?_
  have sum := Finset.HasAntidiagonal.mem_antidiagonal.mp member
  rcases Nat.lt_or_ge p.1 a.size with inside | outside
  · rw [b.beyond p.2 (by omega), Matrix.mul_zero]
  · rw [a.beyond p.1 outside, Matrix.zero_mul]

def mul (a : Matpoly R m n) (b : Matpoly R n l) : Matpoly R m l :=
  ⟨a.size + b.size - 1, conv a.coeff b.coeff, fun _ le => conv_beyond a b le⟩

def mp (a : Matpoly R m n) (c : Matpoly R n l) : Matpoly R m l :=
  if a.size = 0 ∨ c.size = 0 then ⟨0, fun _ => 0, fun _ _ => rfl⟩
  else
    let nb := max a.size c.size - min a.size c.size + 1
    let shift := min a.size c.size - 1
    ⟨nb, fun k => if k < nb then conv a.coeff c.coeff (shift + k) else 0, fun _ le => if_neg (not_lt.mpr le)⟩

theorem mp_spec {a : Matpoly R m n} {c : Matpoly R n l} (positive : 0 < c.size) (le : c.size ≤ a.size) :
    (a.mp c).size = a.size - c.size + 1 ∧
      ∀ k < a.size - c.size + 1, (a.mp c).coeff k = conv a.coeff c.coeff (c.size - 1 + k) := by
  rw [mp, if_neg (by omega)]
  simp only [max_eq_left le, min_eq_right le]
  exact ⟨trivial, fun k lt => if_pos lt⟩

end Matpoly

end CadoNfs.Linalg

/-!
# Linear generators by recursion

`bw_lingen_single` and `bw_lingen_recursive` of `linalg/bwc/lingen.cpp`, with the lengths of
`lingen_expected_pi_length.cpp`. No checkpoint is stored, so that none is read.
-/

namespace CadoNfs.Linalg

open Lib

structure Bmstatus (b : ℕ) where
  t : ℕ
  delta : Fin b → ℕ
  done : Bool

inductive Stop
  | assertion
  | fuel

def assertAlways (p : Prop) [Decidable p] : Except Stop Unit := if p then .ok () else .error .assertion

def orAssert {α : Type} : Option α → Except Stop α
  | some a => .ok a
  | none => .error .assertion

def iceildiv (x y : ℕ) : ℕ := (x + y - 1) / y

/-- The loop assigns to its own variable, and the bounds stay as they are. -/
def getMinmaxDelta (delta : List ℕ) : ℕ × ℕ :=
  delta.foldl (fun (mindelta, maxdelta) x =>
    let x := max x maxdelta
    let _x := min x maxdelta
    (mindelta, maxdelta)) (2 ^ 32 - 1, 0)

/-- `l` is the size of the field in bits. -/
def expectedPiLength (m n l len : ℕ) : ℕ := 1 + iceildiv (len * m % 2 ^ 32) (m + n) + (iceildiv 64 (m * l) + 1)

def expectedPiLengthDelta (m n l : ℕ) {b : ℕ} (delta : Fin b → ℕ) (len : ℕ) : ℕ :=
  let (mi, ma) := getMinmaxDelta (List.ofFn delta)
  (expectedPiLength m n l len + ma + (2 ^ 32 - mi)) % 2 ^ 32

def expectedPiLengthLowerbound (m n l len : ℕ) : ℕ :=
  let res := 1 + len * m % 2 ^ 32 / (m + n)
  let safety := iceildiv 64 (m * l)
  if safety < res then res - safety else 0

section

variable {R : Type} [CommRing R] [DecidableEq R] (m n l : ℕ)

def splitLeft (E : Matpoly R m (m + n)) (used : ℕ) : Option (Matpoly R m (m + n) × Matpoly R m (m + n)) :=
  let half := E.size - E.size / 2
  E.truncateAndRshift half (half + 1 - used)

def rightOperand (E : Matpoly R m (m + n)) (used : ℕ) (piLeft : Matpoly R (m + n) (m + n)) :
    Option (Matpoly R m (m + n)) :=
  (if used ≠ piLeft.size then E.rshift (used - piLeft.size) else some E).map fun E => E.mp piLeft

abbrev Callback (R : Type) [CommRing R] (m n : ℕ) :=
  Bmstatus (m + n) → Matpoly R m (m + n) → Except Stop (Bmstatus (m + n) × Matpoly R (m + n) (m + n))

def bwLingenRecursive (callback : Callback R m n) : Callback R m n := fun bm E => do
  let half := E.size - E.size / 2
  let piExpectLowerbound := expectedPiLengthLowerbound m n l E.size
  let piLeftExpect := expectedPiLengthDelta m n l bm.delta half
  let piLeftExpectLowerbound := expectedPiLengthLowerbound m n l half
  let used := min piLeftExpect (half + 1)
  let (ELeft, E) ← orAssert (splitLeft m n E used)
  let (bm, piLeft) ← callback bm ELeft
  assertAlways (piLeft.size ≠ 0)
  if bm.done then
    pure (bm, piLeft)
  else
    -- `truncate_overflow` ends in a failed assertion.
    assertAlways (piLeft.size ≤ piLeftExpect)
    assertAlways (piLeftExpectLowerbound ≤ piLeft.size)
    assertAlways (piLeft.size ≤ used)
    let ERight ← orAssert (rightOperand m n E used piLeft)
    let piRightExpect := expectedPiLengthDelta m n l bm.delta ERight.size
    let piRightExpectLowerbound := expectedPiLengthLowerbound m n l ERight.size
    let (bm, piRight) ← callback bm ERight
    assertAlways (piRight.size ≤ piRightExpect)
    assertAlways (bm.done ∨ piRightExpectLowerbound ≤ piRight.size)
    let pi := (piLeft.mul piRight).trim
    assertAlways (bm.done ∨ piExpectLowerbound ≤ pi.size)
    pure (bm, pi)

def bwLingenSingle (recurse : ℕ → ℕ → Bool) (basecase : Callback R m n) : ℕ → ℕ → Callback R m n
  | 0, _, _, _ => .error .fuel
  | fuel + 1, depth, bm, E =>
    if !recurse depth E.size then basecase bm E
    else bwLingenRecursive m n l (bwLingenSingle recurse basecase fuel (depth + 1)) bm E

end

theorem assertAlways_ok {p : Prop} [Decidable p] {u : Unit} : assertAlways p = .ok u ↔ p := by
  rw [assertAlways]
  split_ifs with holds
  · exact iff_of_true rfl holds
  · exact iff_of_false (fun same => by cases same) holds

theorem orAssert_ok {α : Type} {o : Option α} {a : α} : orAssert o = .ok a ↔ o = some a := by
  cases o with
  | none => exact iff_of_false (fun same => by cases same) fun same => by cases same
  | some b => exact ⟨fun same => by cases same; rfl, fun same => by cases same; rfl⟩

variable {R : Type} [CommRing R] {m n l : ℕ}

/-- The call advanced by as many steps as `E` has coefficients, or by fewer when it is done. -/
structure Advances (bm : Bmstatus (m + n)) (E : Matpoly R m (m + n)) (bm' : Bmstatus (m + n))
  (pi : Matpoly R (m + n) (m + n)) : Prop where
  le : bm.t ≤ bm'.t
  within : bm'.t ≤ bm.t + E.size
  finished : bm'.done = false → bm'.t = bm.t + E.size
  vanishes : Vanishes (bm'.t - bm.t) (conv E.coeff pi.coeff)
  delta : ∑ j, bm'.delta j = ∑ j, bm.delta j + m * (bm'.t - bm.t)

variable {E : Matpoly R m (m + n)} {piLeft : Matpoly R (m + n) (m + n)} {used : ℕ}

theorem splitLeft_spec (shift : E.size - E.size / 2 + 1 - used ≤ E.size) :
    ∃ ELeft E', splitLeft m n E used = some (ELeft, E') ∧ ELeft.size = E.size - E.size / 2 ∧
      (∀ i < E.size - E.size / 2, ELeft.coeff i = E.coeff i) ∧ E'.size = E.size - (E.size - E.size / 2 + 1 - used) ∧
      ∀ i, E'.coeff i = E.coeff (E.size - E.size / 2 + 1 - used + i) := by
  have half : E.size - E.size / 2 ≤ E.size := Nat.sub_le _ _
  rw [splitLeft, Matpoly.truncateAndRshift, Matpoly.rshift, if_pos shift, Option.bind_some, Matpoly.truncate,
    if_pos half]
  exact ⟨_, _, rfl, rfl, fun i lt => if_pos lt, rfl, fun i => rfl⟩

theorem rightOperand_spec (two : 2 ≤ E.size) (positive : 0 < piLeft.size) (le : piLeft.size ≤ used)
    (le' : used ≤ E.size - E.size / 2 + 1)
    {ELeft E' : Matpoly R m (m + n)} (split : splitLeft m n E used = some (ELeft, E')) :
    ∃ ERight, rightOperand m n E' used piLeft = some ERight ∧ ERight.size = E.size / 2 ∧
      ∀ k < E.size / 2, ERight.coeff k = conv E.coeff piLeft.coeff (E.size - E.size / 2 + k) := by
  obtain ⟨_, E₁, split', -, -, size, coeff⟩ := @splitLeft_spec R _ m n E used (by omega)
  obtain ⟨rfl, rfl⟩ : _ = ELeft ∧ E₁ = E' := Prod.mk.inj (Option.some.inj (split'.symm.trans split))
  obtain ⟨E₂, shifted, size₂, coeff₂⟩ :
    ∃ E₂, (if used ≠ piLeft.size then E₁.rshift (used - piLeft.size) else some E₁) = some E₂ ∧
      E₂.size = E.size - (E.size - E.size / 2 + 1 - piLeft.size) ∧
      E₂.coeff = fun i => E.coeff (E.size - E.size / 2 + 1 - piLeft.size + i) := by
    by_cases same : used = piLeft.size
    · rw [if_neg (not_not.mpr same)]
      refine ⟨E₁, rfl, by rw [size, same], funext fun i => ?_⟩
      rw [coeff, same]
    · have fits : used - piLeft.size ≤ E₁.size := by omega
      rw [if_pos same, Matpoly.rshift, if_pos fits]
      refine ⟨_, rfl, by dsimp only; omega, funext fun i => ?_⟩
      dsimp only
      rw [coeff]
      congr 1
      omega
  have long : piLeft.size ≤ E₂.size := by omega
  obtain ⟨right_size, right_coeff⟩ := Matpoly.mp_spec positive long
  rw [rightOperand, shifted, Option.map_some]
  refine ⟨_, rfl, by omega, fun k lt => ?_⟩
  have index : E.size - E.size / 2 + 1 - piLeft.size + (piLeft.size - 1 + k) = E.size - E.size / 2 + k := by omega
  rw [right_coeff k (by omega), coeff₂, ← index]
  apply conv_shift
  intro a b lt sum
  rw [piLeft.beyond b (by omega), Matrix.mul_zero]

section

variable {callback : Callback R m n} {bm bm' : Bmstatus (m + n)} {pi : Matpoly R (m + n) (m + n)}

theorem Advances.of_left {ELeft : Matpoly R m (m + n)} (left : Advances bm ELeft bm' pi) (le : ELeft.size ≤ E.size)
    (low : ∀ i < ELeft.size, ELeft.coeff i = E.coeff i) (done : bm'.done = true) : Advances bm E bm' pi where
  le := left.le
  within := by
    have inside := left.within
    omega
  finished running := by
    rw [done] at running
    cases running
  vanishes i lt := by
    have inside := left.within
    rw [← left.vanishes i lt]
    exact conv_congr (fun a le => (low a (by omega)).symm) fun _ _ => rfl
  delta := left.delta

theorem Advances.trans {bm₁ : Bmstatus (m + n)} {ELeft ERight : Matpoly R m (m + n)}
    {piRight : Matpoly R (m + n) (m + n)}
    (left : Advances bm ELeft bm₁ piLeft) (running : bm₁.done = false) (right : Advances bm₁ ERight bm' piRight)
    (low : ∀ i < ELeft.size, ELeft.coeff i = E.coeff i) (size : ELeft.size + ERight.size = E.size)
    (high : ∀ k < ERight.size, ERight.coeff k = conv E.coeff piLeft.coeff (ELeft.size + k))
    (product : pi.coeff = conv piLeft.coeff piRight.coeff) : Advances bm E bm' pi := by
  have first := left.finished running
  have second := right.le
  have inside := right.within
  have zero : Vanishes ELeft.size (conv E.coeff piLeft.coeff) := by
    intro i lt
    rw [← left.vanishes i (by omega)]
    exact conv_congr (fun a le => (low a (by omega)).symm) fun _ _ => rfl
  have rest : Vanishes (bm'.t - bm₁.t) (conv (fun k => conv E.coeff piLeft.coeff (ELeft.size + k)) piRight.coeff) := by
    intro i lt
    rw [← right.vanishes i lt]
    exact conv_congr (fun a le => (high a (by omega)).symm) fun _ _ => rfl
  have steps : bm'.t - bm.t = ELeft.size + (bm'.t - bm₁.t) := by omega
  refine ⟨by omega, by omega, fun running' => ?_, ?_, ?_⟩
  · have last := right.finished running'
    omega
  · rw [steps, product, ← conv_assoc]
    exact zero.trans rest
  · have split : bm₁.t - bm.t = ELeft.size := by omega
    rw [right.delta, left.delta, steps, split]
    ring

variable [DecidableEq R]

theorem bwLingenRecursive_cases (ok : bwLingenRecursive m n l callback bm E = .ok (bm', pi)) :
    ∃ used ELeft E₁ bm₁ piLeft, used = min (expectedPiLengthDelta m n l bm.delta (E.size - E.size / 2))
      (E.size - E.size / 2 + 1) ∧
      splitLeft m n E used = some (ELeft, E₁) ∧ callback bm ELeft = .ok (bm₁, piLeft) ∧ 0 < piLeft.size ∧
      (bm₁.done = true ∧ bm' = bm₁ ∧ pi = piLeft ∨
        ∃ ERight piRight, bm₁.done = false ∧ piLeft.size ≤ used ∧ rightOperand m n E₁ used piLeft = some ERight ∧
          callback bm₁ ERight = .ok (bm', piRight) ∧ pi = (piLeft.mul piRight).trim) := by
  rw [bwLingenRecursive] at ok
  obtain ⟨⟨ELeft, E₁⟩, split, ok⟩ := bind_ok.mp ok
  obtain ⟨⟨bm₁, piLeft⟩, left, ok⟩ := bind_ok.mp ok
  obtain ⟨_, nonempty, ok⟩ := bind_ok.mp ok
  refine ⟨_, ELeft, E₁, bm₁, piLeft, rfl, orAssert_ok.mp split, left,
    Nat.pos_of_ne_zero (assertAlways_ok.mp nonempty), ?_⟩
  cases done : bm₁.done with
  | true =>
    rw [if_pos done] at ok
    cases ok
    exact .inl ⟨rfl, rfl, rfl⟩
  | false =>
    rw [if_neg (by rw [done]; exact Bool.false_ne_true)] at ok
    obtain ⟨_, _, ok⟩ := bind_ok.mp ok
    obtain ⟨_, _, ok⟩ := bind_ok.mp ok
    obtain ⟨_, fits, ok⟩ := bind_ok.mp ok
    obtain ⟨ERight, operand, ok⟩ := bind_ok.mp ok
    obtain ⟨⟨bm₂, piRight⟩, right, ok⟩ := bind_ok.mp ok
    obtain ⟨_, _, ok⟩ := bind_ok.mp ok
    obtain ⟨_, _, ok⟩ := bind_ok.mp ok
    obtain ⟨_, _, ok⟩ := bind_ok.mp ok
    cases ok
    exact .inr ⟨ERight, piRight, rfl, assertAlways_ok.mp fits, orAssert_ok.mp operand, right, rfl⟩

theorem bwLingenRecursive_advances (sound : ∀ bm E bm' pi, callback bm E = .ok (bm', pi) → Advances bm E bm' pi)
    (two : 2 ≤ E.size)
    (ok : bwLingenRecursive m n l callback bm E = .ok (bm', pi)) : Advances bm E bm' pi := by
  obtain ⟨used, ELeft, E₁, bm₁, piLeft, shift, split, left, nonempty, cases⟩ := bwLingenRecursive_cases ok
  have le : used ≤ E.size - E.size / 2 + 1 := shift.le.trans (min_le_right _ _)
  obtain ⟨_, _, split', size, low, -⟩ := @splitLeft_spec R _ m n E used (by omega)
  obtain ⟨rfl, rfl⟩ := Prod.mk.inj (Option.some.inj (split'.symm.trans split))
  have left := sound _ _ _ _ left
  rcases cases with ⟨done, rfl, rfl⟩ | ⟨ERight, piRight, running, fits, operand, right, rfl⟩
  · exact left.of_left (by omega) (by rwa [size]) done
  · obtain ⟨_, operand', size', high⟩ := rightOperand_spec two nonempty fits le split
    obtain rfl := Option.some.inj (operand'.symm.trans operand)
    exact left.trans running (sound _ _ _ _ right) (by rwa [size]) (by omega) (by rwa [size, size']) rfl

theorem assertAlways_ne_fuel {p : Prop} [Decidable p] : assertAlways p ≠ .error .fuel := by
  rw [assertAlways]
  split_ifs <;> exact fun same => by cases same

theorem orAssert_ne_fuel {α : Type} (o : Option α) : orAssert o ≠ .error .fuel := by
  cases o <;> exact fun same => by cases same

theorem bwLingenRecursive_ne_fuel (two : 2 ≤ E.size)
    (shorter : ∀ bm E', E'.size < E.size → callback bm E' ≠ .error .fuel) :
    bwLingenRecursive m n l callback bm E ≠ .error .fuel := by
  intro stuck
  rw [bwLingenRecursive] at stuck
  obtain ⟨⟨ELeft, E₁⟩, split, stuck⟩ := (bind_error.mp stuck).resolve_left (orAssert_ne_fuel _)
  have split := orAssert_ok.mp split
  obtain ⟨_, _, split', size, -, -⟩ := splitLeft_spec (show E.size - E.size / 2 + 1 - _ ≤ E.size by omega)
  obtain ⟨rfl, rfl⟩ := Prod.mk.inj (Option.some.inj (split'.symm.trans split))
  obtain ⟨⟨bm₁, piLeft⟩, -, stuck⟩ := (bind_error.mp stuck).resolve_left (shorter _ _ (by omega))
  obtain ⟨_, nonempty, stuck⟩ := (bind_error.mp stuck).resolve_left assertAlways_ne_fuel
  by_cases done : bm₁.done = true
  · rw [if_pos done] at stuck
    cases stuck
  · rw [if_neg done] at stuck
    obtain ⟨_, -, stuck⟩ := (bind_error.mp stuck).resolve_left assertAlways_ne_fuel
    obtain ⟨_, -, stuck⟩ := (bind_error.mp stuck).resolve_left assertAlways_ne_fuel
    obtain ⟨_, fits, stuck⟩ := (bind_error.mp stuck).resolve_left assertAlways_ne_fuel
    obtain ⟨ERight, operand, stuck⟩ := (bind_error.mp stuck).resolve_left (orAssert_ne_fuel _)
    obtain ⟨_, operand', size', -⟩ := rightOperand_spec two (Nat.pos_of_ne_zero (assertAlways_ok.mp nonempty))
      (assertAlways_ok.mp fits)
      (min_le_right _ _) split
    obtain rfl := Option.some.inj (operand'.symm.trans (orAssert_ok.mp operand))
    obtain ⟨⟨bm₂, piRight⟩, -, stuck⟩ := (bind_error.mp stuck).resolve_left (shorter _ _ (by omega))
    obtain ⟨_, -, stuck⟩ := (bind_error.mp stuck).resolve_left assertAlways_ne_fuel
    obtain ⟨_, -, stuck⟩ := (bind_error.mp stuck).resolve_left assertAlways_ne_fuel
    obtain ⟨_, -, stuck⟩ := (bind_error.mp stuck).resolve_left assertAlways_ne_fuel
    cases stuck

end

/-! ## Every cut of the recursion tree -/

section

variable [DecidableEq R] {recurse : ℕ → ℕ → Bool} {basecase : Callback R m n}

theorem bwLingenSingle_advances (sensible : ∀ depth L, recurse depth L = true → 2 ≤ L)
    (sound : ∀ bm E bm' pi, basecase bm E = .ok (bm', pi) → Advances bm E bm' pi) (fuel depth : ℕ)
      (bm : Bmstatus (m + n))
    (E : Matpoly R m (m + n)) (bm' : Bmstatus (m + n)) (pi : Matpoly R (m + n) (m + n))
    (ok : bwLingenSingle m n l recurse basecase fuel depth bm E = .ok (bm', pi)) : Advances bm E bm' pi := by
  induction fuel generalizing depth bm E bm' pi with
  | zero => cases ok
  | succ fuel ih =>
    rw [bwLingenSingle] at ok
    cases cut : recurse depth E.size with
    | false =>
      rw [cut] at ok
      exact sound _ _ _ _ ok
    | true =>
      rw [cut] at ok
      exact bwLingenRecursive_advances (ih (depth + 1)) (sensible _ _ cut) ok

theorem bwLingenSingle_ne_fuel (sensible : ∀ depth L, recurse depth L = true → 2 ≤ L)
    (total : ∀ bm E, basecase bm E ≠ .error .fuel)
    {fuel depth : ℕ} {bm : Bmstatus (m + n)} {E : Matpoly R m (m + n)} (enough : E.size < fuel) :
    bwLingenSingle m n l recurse basecase fuel depth bm E ≠ .error .fuel := by
  induction fuel generalizing depth bm E with
  | zero => omega
  | succ fuel ih =>
    rw [bwLingenSingle]
    cases cut : recurse depth E.size with
    | false => exact total _ _
    | true => exact bwLingenRecursive_ne_fuel (sensible _ _ cut) fun _ _ lt => ih (by omega)

/-- `E_right` is the part of `E * pi_left` from `half` on. -/
def RightExact (E : Matpoly R m (m + n)) (piLeft : Matpoly R (m + n) (m + n)) (ERight : Matpoly R m (m + n)) : Prop :=
  ERight.size = E.size - (E.size - E.size / 2) ∧
    ∀ k < ERight.size, ERight.coeff k = conv E.coeff piLeft.coeff (E.size - E.size / 2 + k)

theorem bwLingenRecursive_spec (sensible : ∀ depth L, recurse depth L = true → 2 ≤ L)
    (total : ∀ bm E, basecase bm E ≠ .error .fuel)
    (sound : ∀ bm E bm' pi, basecase bm E = .ok (bm', pi) → Advances bm E bm' pi) {E : Matpoly R m (m + n)}
      (two : 2 ≤ E.size) :
    (∀ fuel depth bm, E.size ≤ fuel →
      bwLingenRecursive m n l (bwLingenSingle m n l recurse basecase fuel depth) bm E = .error .assertion ∨
        ∃ bm' pi, bwLingenRecursive m n l (bwLingenSingle m n l recurse basecase fuel depth) bm E = .ok (bm', pi) ∧
          Advances bm E bm' pi) ∧
      ∀ used ELeft E₁ piLeft, splitLeft m n E used = some (ELeft, E₁) → 0 < piLeft.size → piLeft.size ≤ used →
        used ≤ E.size - E.size / 2 + 1 → ∃ ERight, rightOperand m n E₁ used piLeft = some ERight ∧
          RightExact E piLeft ERight := by
  constructor
  · intro fuel depth bm enough
    have sub := bwLingenSingle_advances (l := l) sensible sound fuel depth
    cases run : bwLingenRecursive m n l (bwLingenSingle m n l recurse basecase fuel depth) bm E with
    | ok r => exact .inr ⟨r.1, r.2, rfl, bwLingenRecursive_advances sub two run⟩
    | error stop =>
      cases stop with
      | assertion => exact .inl rfl
      | fuel => exact absurd run (bwLingenRecursive_ne_fuel two fun _ _ lt => bwLingenSingle_ne_fuel sensible total (by omega))
  · intro used ELeft E₁ piLeft split positive le le'
    obtain ⟨ERight, operand, size, high⟩ := rightOperand_spec two positive le le' split
    exact ⟨ERight, operand, by omega, fun k lt => high k (by omega)⟩

end

/-! ## One row over GF(2) -/

def shiftFirst : Matpoly (ZMod 2) (1 + 1) (1 + 1) where
  size := 2
  coeff k := if k = 0 then !![0, 0; 0, 1] else if k = 1 then !![1, 0; 0, 0] else 0
  beyond k le := by rw [if_neg (by omega), if_neg (by omega)]

def shiftSecond : Matpoly (ZMod 2) (1 + 1) (1 + 1) where
  size := 2
  coeff k := if k = 0 then !![1, 0; 1, 0] else if k = 1 then !![0, 0; 0, 1] else 0
  beyond k le := by rw [if_neg (by omega), if_neg (by omega)]

def rowBasecase : Callback (ZMod 2) 1 1 := fun bm E =>
  if E.size = 1 ∧ E.coeff 0 = !![1, 0] then
    .ok ({ bm with t := bm.t + 1, delta := bm.delta + ![1, 0] }, shiftFirst)
  else if E.size = 1 ∧ E.coeff 0 = !![1, 1] then
    .ok ({ bm with t := bm.t + 1, delta := bm.delta + ![0, 1] }, shiftSecond)
  else if E.size = 2 ∧ E.coeff 0 = 0 ∧ E.coeff 1 = !![1, 0] then
    .ok ({ bm with t := bm.t + 2, delta := bm.delta + ![2, 0] }, shiftFirst)
  else .error .assertion

theorem advances_add {bm : Bmstatus (1 + 1)} {E : Matpoly (ZMod 2) 1 (1 + 1)} {pi : Matpoly (ZMod 2) (1 + 1) (1 + 1)}
    {steps : ℕ}
    {d : Fin (1 + 1) → ℕ} (size : E.size = steps) (sum : ∑ j, d j = steps)
      (zero : Vanishes steps (conv E.coeff pi.coeff)) :
    Advances bm E { bm with t := bm.t + steps, delta := bm.delta + d } pi where
  le := Nat.le_add_right _ _
  within := by rw [size]
  finished _ := by rw [size]
  vanishes := by rwa [Nat.add_sub_cancel_left]
  delta := by
    simp only [Pi.add_apply]
    rw [Finset.sum_add_distrib, sum, Nat.add_sub_cancel_left, one_mul]

theorem rowBasecase_advances (bm : Bmstatus (1 + 1)) (E : Matpoly (ZMod 2) 1 (1 + 1)) (bm' : Bmstatus (1 + 1))
    (pi : Matpoly (ZMod 2) (1 + 1) (1 + 1)) (ok : rowBasecase bm E = .ok (bm', pi)) : Advances bm E bm' pi := by
  have one {A : ℕ → Matrix (Fin 1) (Fin (1 + 1)) (ZMod 2)} (zero : A 0 = 0) : Vanishes 1 A := fun i lt => by
    obtain rfl : i = 0 := by omega
    exact zero
  rw [rowBasecase] at ok
  split_ifs at ok with first second third
  · cases ok
    refine advances_add first.1 (by decide) (one ?_)
    rw [conv_zero, first.2]
    decide
  · cases ok
    refine advances_add second.1 (by decide) (one ?_)
    rw [conv_zero, second.2]
    decide
  · cases ok
    refine advances_add third.1 (by decide) fun i lt => ?_
    interval_cases i
    · rw [conv_zero, third.2.1, Matrix.zero_mul]
    · rw [conv_one, third.2.1, third.2.2, Matrix.zero_mul, zero_add]
      decide

theorem rowBasecase_ne_fuel (bm : Bmstatus (1 + 1)) (E : Matpoly (ZMod 2) 1 (1 + 1)) :
    rowBasecase bm E ≠ .error .fuel := by
  rw [rowBasecase]
  split_ifs <;> exact fun same => by cases same

def row : Matpoly (ZMod 2) 1 (1 + 1) where
  size := 2
  coeff k := if k = 0 then !![1, 0] else if k = 1 then !![0, 1] else 0
  beyond k le := by rw [if_neg (by omega), if_neg (by omega)]

theorem bwLingenRecursive_spec_row : ∃ bm' pi,
    bwLingenRecursive 1 1 1 (bwLingenSingle 1 1 1 (fun _ L => decide (2 ≤ L)) rowBasecase 2 1)
      ⟨0, 0, false⟩ row = .ok (bm', pi) ∧
      Advances ⟨0, 0, false⟩ row bm' pi := by
  have runs : (bwLingenRecursive 1 1 1 (bwLingenSingle 1 1 1 (fun _ L => decide (2 ≤ L)) rowBasecase 2 1)
    ⟨0, 0, false⟩ row).toOption.isSome := by
    decide
  have spec := @bwLingenRecursive_spec (ZMod 2) _ 1 1 1 _ (fun _ L => decide (2 ≤ L)) rowBasecase
    (fun _ _ => of_decide_eq_true)
    rowBasecase_ne_fuel rowBasecase_advances row le_rfl
  refine (spec.1 2 1 _ le_rfl).resolve_left fun stopped => ?_
  rw [stopped] at runs
  cases runs

def shortRow : Matpoly (ZMod 2) 1 (1 + 1) where
  size := 1
  coeff k := if k = 0 then !![1, 0] else 0
  beyond k le := if_neg (by omega)

/-- A recursion on length 1 finds two coefficients for `E_right` where none is left. -/
theorem not_rightExact_shortRow :
    (bwLingenSingle 1 1 1 (fun depth _ => decide (depth = 0)) rowBasecase 2 0
      ⟨0, 0, false⟩ shortRow).toOption.isSome = true ∧
      ∃ ELeft E₁ ERight, splitLeft 1 1 shortRow 2 = some (ELeft, E₁) ∧
        rowBasecase ⟨0, 0, false⟩ ELeft = .ok (⟨1, ![1, 0], false⟩, shiftFirst) ∧
        rightOperand 1 1 E₁ 2 shiftFirst = some ERight ∧ ¬ RightExact shortRow shiftFirst ERight := by
  have first : (0 : Fin (1 + 1) → ℕ) + ![1, 0] = ![1, 0] := zero_add _
  refine ⟨by decide, _, _, _, rfl, ?_, rfl, fun exact => ?_⟩
  · rw [rowBasecase, if_pos (by decide), first]
  · exact absurd exact.1 (by decide)

end CadoNfs.Linalg
