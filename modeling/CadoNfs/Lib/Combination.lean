import CadoNfs.Lib.Align

/-!
# Combinations of sparse vectors with machine coefficients

A sparse vector is a list of entries, each with a key and a signed 32-bit coefficient.
-/

namespace CadoNfs.Lib

def FitsInt32 (z : Int) : Prop := -2 ^ 31 ≤ z ∧ z < 2 ^ 31

instance (z : Int) : Decidable (FitsInt32 z) := inferInstanceAs (Decidable (_ ∧ _))

theorem toInt_ofInt_eq_iff (z : Int) : (BitVec.ofInt 32 z).toInt = z ↔ FitsInt32 z := by
  unfold FitsInt32
  constructor
  · intro same
    rw [← same]
    exact ⟨BitVec.le_toInt _, BitVec.toInt_lt⟩
  · rintro ⟨low, high⟩
    exact BitVec.toInt_ofInt_eq_self (by norm_num) low high

theorem FitsInt32.toInt {z : Int} (fits : FitsInt32 z) : (BitVec.ofInt 32 z).toInt = z :=
  (toInt_ofInt_eq_iff z).mpr fits

class SparseEntry (α : Type) where
  key : α → Nat
  coeff : α → BitVec 32
  entry : Nat → BitVec 32 → α
  key_entry : ∀ k c, key (entry k c) = k
  coeff_entry : ∀ k c, coeff (entry k c) = c

open SparseEntry

variable {α : Type} [SparseEntry α]

def stepValue (a b : BitVec 32) : Aligned α α → BitVec 32
  | .left x => b * coeff x
  | .right y => a * coeff y
  | .both x y => b * coeff x + a * coeff y

def combineStep (a b : BitVec 32) : Aligned α α → Option α
  | .left x => some (entry (key x) (b * coeff x))
  | .right y => some (entry (key y) (a * coeff y))
  | .both x y =>
      if b * coeff x + a * coeff y = 0 then none
      else some (entry (key x) (b * coeff x + a * coeff y))

def combine (a b : BitVec 32) (xs ys : List α) : List α :=
  (align key key xs ys).filterMap (combineStep a b)

def exactValue (a b : Int) : Aligned α α → Int
  | .left x => b * (coeff x).toInt
  | .right y => a * (coeff y).toInt
  | .both x y => b * (coeff x).toInt + a * (coeff y).toInt

theorem stepValue_eq (a b : BitVec 32) (step : Aligned α α) :
    stepValue a b step = BitVec.ofInt 32 (exactValue a.toInt b.toInt step) := by
  cases step <;> simp [stepValue, exactValue, BitVec.ofInt_add, BitVec.ofInt_mul]

/-! ## Linear functionals -/

/-- The value on a vector of the linear functional that is `f k` on the unit vector of key `k`. -/
def total (f : Nat → Int) (xs : List α) : Int := (xs.map fun x => (coeff x).toInt * f (key x)).sum

def coefficient (xs : List α) (k : Nat) : Int := total (fun i => if i = k then 1 else 0) xs

theorem total_filterMap (a b : BitVec 32) (f : Nat → Int) (steps : List (Aligned α α)) :
    total f (steps.filterMap (combineStep a b)) =
      (steps.map fun step => (stepValue a b step).toInt * f (step.key key key)).sum := by
  induction steps with
  | nil => rfl
  | cons step steps ih =>
    rw [List.map_cons, List.sum_cons, ← ih]
    cases step with
    | left x | right x =>
      simp [combineStep, total, stepValue, Aligned.key, key_entry, coeff_entry]
    | both x y =>
      by_cases zero : b * coeff x + a * coeff y = 0
      · simp [combineStep, stepValue, zero]
      · have kept : combineStep a b (.both x y) =
            some (entry (key x) (b * coeff x + a * coeff y)) := if_neg zero
        rw [List.filterMap_cons_some kept]
        simp only [total, stepValue, Aligned.key, List.map_cons, List.sum_cons, key_entry, coeff_entry]

theorem exact_total (a b : Int) (f : Nat → Int) (xs ys : List α) :
    ((align key key xs ys).map fun step => exactValue a b step * f (step.key key key)).sum =
      b * total f xs + a * total f ys := by
  let φ : Aligned α α → Int
    | .left x => b * ((coeff x).toInt * f (key x))
    | .right y => a * ((coeff y).toInt * f (key y))
    | .both x y => b * ((coeff x).toInt * f (key x)) + a * ((coeff y).toInt * f (key y))
  calc ((align key key xs ys).map fun step => exactValue a b step * f (step.key key key)).sum
      = ((align key key xs ys).map φ).sum := by
        refine congrArg List.sum (List.map_congr_left fun step member => ?_)
        cases step with
        | left x | right x => simp only [exactValue, Aligned.key, φ, mul_assoc]
        | both x y =>
          have same := key_eq_of_both_mem member
          simp only [exactValue, Aligned.key, φ, ← same, add_mul, mul_assoc]
    _ = b * total f xs + a * total f ys := by
        rw [sum_align φ fun _ _ => rfl]
        simp only [φ, total, List.sum_map_mul_left]

theorem total_combine {a b : BitVec 32} {xs ys : List α}
    (fits : ∀ step ∈ align key key xs ys, FitsInt32 (exactValue a.toInt b.toInt step))
    (f : Nat → Int) :
    total f (combine a b xs ys) = b.toInt * total f xs + a.toInt * total f ys := by
  rw [combine, total_filterMap, ← exact_total]
  refine congrArg List.sum (List.map_congr_left fun step member => ?_)
  rw [stepValue_eq, (fits step member).toInt]

theorem sum_single {β : Type*} {g : β → Nat} {l : List β} (sorted : l.Pairwise (g · < g ·))
    (value : β → Int) {x : β} (member : x ∈ l) :
    (l.map fun y => value y * if g y = g x then 1 else 0).sum = value x := by
  induction l with
  | nil => cases member
  | cons z l ih =>
    obtain ⟨above, tail⟩ := List.pairwise_cons.mp sorted
    rw [List.map_cons, List.sum_cons]
    rcases List.mem_cons.mp member with rfl | later
    · have others : (l.map fun y => value y * if g y = g x then 1 else 0).sum = 0 := by
        apply List.sum_eq_zero
        intro v hv
        obtain ⟨y, hy, rfl⟩ := List.mem_map.mp hv
        simp [(above y hy).ne']
      rw [others]
      simp
    · rw [ih tail later]
      simp [(above x later).ne]

theorem sum_none {β : Type*} {g : β → Nat} {l : List β} {k : Nat} (none : ∀ y ∈ l, g y ≠ k)
    (value : β → Int) : (l.map fun y => value y * if g y = k then 1 else 0).sum = 0 := by
  apply List.sum_eq_zero
  intro v hv
  obtain ⟨y, hy, rfl⟩ := List.mem_map.mp hv
  simp [none y hy]

section
variable {xs ys : List α} (left : xs.Pairwise (key · < key ·)) (right : ys.Pairwise (key · < key ·))
include left right

theorem exactValue_eq (a b : Int) {step : Aligned α α} (member : step ∈ align key key xs ys) :
    exactValue a b step = b * coefficient xs (step.key key key) + a * coefficient ys (step.key key key) := by
  rw [coefficient, coefficient, ← exact_total, sum_single (align_sorted left right) _ member]

theorem coefficient_combine (a b : BitVec 32) (k : Nat) :
    coefficient (combine a b xs ys) k =
      (BitVec.ofInt 32 (b.toInt * coefficient xs k + a.toInt * coefficient ys k)).toInt := by
  rw [coefficient, combine, total_filterMap]
  by_cases known : ∃ step ∈ align key key xs ys, step.key key key = k
  · obtain ⟨step, member, rfl⟩ := known
    rw [sum_single (align_sorted left right) _ member, stepValue_eq, exactValue_eq left right _ _ member]
  · push Not at known
    rw [sum_none known, coefficient, coefficient, ← exact_total, sum_none known]
    rfl

theorem coefficient_combine_iff (a b : BitVec 32) :
    (∀ k, coefficient (combine a b xs ys) k = b.toInt * coefficient xs k + a.toInt * coefficient ys k) ↔
      ∀ k, FitsInt32 (b.toInt * coefficient xs k + a.toInt * coefficient ys k) := by
  refine forall_congr' fun k => ?_
  rw [coefficient_combine left right, toInt_ofInt_eq_iff]

end

end CadoNfs.Lib
