import CadoNfs.Utils.ExponentVector

/-!
# The grammar of exponent vectors

A polynomial in `s` is a sequence of signed terms, a term a scalar and factors `*? s+ (^ <decimal_integer>)?`.
-/

namespace CadoNfs.Utils.FilterIo
open Lib

structure PolyFactor where
  star : Bool
  more : ℕ
  power : Option Text

structure PolyTerm where
  negative : Bool
  scalar : Text
  factors : List PolyFactor

structure PolyText where
  first : PolyTerm
  rest : List PolyTerm

namespace PolyFactor

variable (f : PolyFactor)

def exponentText : Text :=
  match f.power with
  | some digits => '^' :: digits
  | none => []

def text : Text := (if f.star then ['*'] else []) ++ (List.replicate (f.more + 1) 's' ++ f.exponentText)

def WellFormed : Prop := ∀ digits ∈ f.power, digits ≠ [] ∧ Digits 10 digits

def exponent : ℕ :=
  match f.power with
  | some digits => valueOf ugly 10 0 digits
  | none => 1

def degree : ℕ := f.more + f.exponent

end PolyFactor

namespace PolyTerm

variable (t : PolyTerm)

def text : Text := t.scalar ++ t.factors.flatMap PolyFactor.text

def WellFormed : Prop := Digits 10 t.scalar ∧ ∀ f ∈ t.factors, f.WellFormed

def scalarValue : ℕ := if t.scalar = [] then 1 else valueOf ugly 10 0 t.scalar

def coefficient : ℤ := if t.negative then -t.scalarValue else t.scalarValue

def degree : ℕ := (t.factors.map PolyFactor.degree).sum

def signedText : Text := (if t.negative then '-' else '+') :: t.text

end PolyTerm

namespace PolyText

variable (p : PolyText)

def terms : List PolyTerm := p.first :: p.rest

def text : Text :=
  (if p.first.negative then ['-'] else []) ++ p.first.text ++ p.rest.flatMap PolyTerm.signedText

def WellFormed : Prop := ∀ t ∈ p.terms, t.WellFormed

end PolyText

/-- The coefficients of the terms whose degrees are the same modulo `n` are added up. -/
def sumOf (n : ℕ) (terms : List PolyTerm) : List ℤ :=
  (List.range n).map fun i => ((terms.filter fun t => t.degree % n = i).map PolyTerm.coefficient).sum

def DegreesFit : ℕ → List PolyFactor → Prop
  | _, [] => True
  | j, f :: fs =>
    (j + (f.more + 1) < 2 ^ 31 ∧ f.exponent < 2 ^ 31 ∧ j + f.degree < 2 ^ 31) ∧ DegreesFit (j + f.degree) fs

instance decidableDegreesFit : (j : ℕ) → (fs : List PolyFactor) → Decidable (DegreesFit j fs)
  | _, [] => inferInstanceAs (Decidable True)
  | j, f :: fs =>
    have := decidableDegreesFit (j + f.degree) fs
    inferInstanceAs (Decidable (_ ∧ _))

/-- The scalar does not start with 0, and nothing overflows. -/
def PolyTerm.Fits (t : PolyTerm) : Prop :=
  t.scalar.head? ≠ some '0' ∧ t.scalarValue < 2 ^ 31 ∧ DegreesFit 0 t.factors

instance (t : PolyTerm) : Decidable t.Fits := inferInstanceAs (Decidable (_ ∧ _))

def PolyText.Hidden (p : PolyText) : Prop :=
  p.first.negative = false ∧ p.first.text = [] ∧ ∃ t ∈ p.rest.head?, t.negative = true

/-- Every term can be seen, and nothing overflows. -/
structure PolyText.Fits (n : ℕ) (p : PolyText) : Prop where
  terms : ∀ t ∈ p.terms, t.Fits
  sums : ∀ l, l <+: p.terms → ∀ x ∈ sumOf n l, InInt x
  shown : ¬p.Hidden

structure Stopped (s : Text) : Prop where
  letter : cur s ≠ 's'
  star : cur s ≠ '*'
  power : cur s ≠ '^'
  digit : 10 ≤ ugly (cur s)

variable {s t digits : Text} {fs : List PolyFactor} {fuel j m : ℕ}

theorem le_valueOf (m : ℕ) (digits : Text) : m ≤ valueOf ugly 10 m digits := by
  induction digits generalizing m with
  | nil => exact le_rfl
  | cons c digits ih =>
    rw [valueOf_cons]
    exact (show m ≤ m * 10 + ugly c by omega).trans (ih _)

theorem toInt_natCast (m : ℕ) : toInt m = if m < 2 ^ 31 then some (m : ℤ) else none := by
  refine if_congr ?_ rfl rfl
  rw [InInt]
  omega

theorem toInt_digit (m d : ℕ) : ((toInt (m * 10)).bind fun w => toInt (w + d)) =
    if m * 10 + d < 2 ^ 31 then some ((m * 10 + d : ℕ) : ℤ) else none := by
  have first := toInt_natCast (m * 10)
  have second := toInt_natCast (m * 10 + d)
  simp only [Nat.cast_mul, Nat.cast_add, Nat.cast_ofNat] at first second ⊢
  rw [first]
  by_cases small : m * 10 < 2 ^ 31
  · rw [if_pos small, Option.bind_some, second]
  · rw [if_neg small, if_neg (by omega)]
    rfl

theorem readInt_digits (digit : Digits 10 digits) (stop : 10 ≤ ugly (cur s)) (small : m < 2 ^ 31) :
    readInt m (digits ++ s) =
      if valueOf ugly 10 m digits < 2 ^ 31 then some (((valueOf ugly 10 m digits : ℕ) : ℤ), s) else none := by
  induction digits generalizing m with
  | nil =>
    rw [valueOf_nil, if_pos small, List.nil_append]
    cases s with
    | nil => rfl
    | cons c s => exact if_neg (not_lt.mpr stop)
  | cons c digits ih =>
    rw [Digits, List.forall_mem_cons] at digit
    have turn : readInt m (c :: (digits ++ s)) = ((toInt (m * 10)).bind fun w => toInt (w + ugly c)).bind fun w =>
        readInt w (digits ++ s) := by
      rw [readInt, if_pos digit.1, Option.bind_assoc]
      rfl
    rw [List.cons_append, turn, toInt_digit, valueOf_cons]
    by_cases fits : m * 10 + ugly c < 2 ^ 31
    · rw [if_pos fits, Option.bind_some]
      exact ih digit.2 fits
    · have grows := le_valueOf (m * 10 + ugly c) digits
      rw [if_neg fits, if_neg (by omega)]
      rfl

theorem countS_letters (k : ℕ) (small : j < 2 ^ 31) :
    countS j (List.replicate k 's' ++ s) = if j + k < 2 ^ 31 then countS (j + k : ℕ) s else none := by
  induction k generalizing j with
  | zero => rw [Nat.add_zero, if_pos small, List.replicate_zero, List.nil_append]
  | succ k ih =>
    have next := toInt_natCast (j + 1)
    rw [Nat.cast_add, Nat.cast_one] at next
    rw [List.replicate_succ, List.cons_append, countS, if_pos rfl, next]
    by_cases fits : j + 1 < 2 ^ 31
    · have rest := ih fits
      rw [Nat.cast_add, Nat.cast_one, Nat.add_assoc, Nat.add_comm 1 k] at rest
      rw [if_pos fits, Option.bind_eq_bind, Option.bind_some, rest]
    · rw [if_neg fits, if_neg (by omega)]
      rfl

theorem countS_stop (letter : cur s ≠ 's') (x : ℤ) : countS x s = some (x, s) := by
  cases s with
  | nil => rfl
  | cons c s => exact if_neg letter

def afterStar (fuel : ℕ) (j : ℤ) (t : Text) : Option (ℤ × Text) := do
  let (j, t) ← countS j t
  if cur t = '^' then do
    let (w, t) ← readInt 0 t.tail
    let w ← toInt (w - 1)
    let j ← toInt (j + w)
    parseFactors fuel j t
  else parseFactors fuel j t

theorem parseFactors_star (x : ℤ) (letter : cur s = 's') : parseFactors (fuel + 1) x ('*' :: s) = afterStar fuel x s := by
  rw [parseFactors]
  dsimp only
  rw [cur_cons, if_pos rfl, List.tail_cons, if_neg (not_not.mpr letter)]
  rfl

theorem parseFactors_letter (x : ℤ) (letter : cur s = 's') : parseFactors (fuel + 1) x s = afterStar fuel x s := by
  have noStar : ¬cur s = '*' := by
    rw [letter]
    decide
  rw [parseFactors]
  dsimp only
  rw [if_neg noStar, if_neg (not_not.mpr letter)]
  rfl

theorem parseFactors_stop (x : ℤ) (stopped : Stopped s) : parseFactors (fuel + 1) x s = some (x, s) := by
  rw [parseFactors]
  dsimp only
  rw [if_neg stopped.star, if_pos stopped.letter]

def factorsDegree (fs : List PolyFactor) : ℕ := (fs.map PolyFactor.degree).sum

def factorsResult (j : ℕ) (fs : List PolyFactor) (s : Text) : Option (ℤ × Text) :=
  if DegreesFit j fs then some (((j + factorsDegree fs : ℕ) : ℤ), s) else none

theorem factorsResult_cons (f : PolyFactor) : factorsResult j (f :: fs) s =
    if j + (f.more + 1) < 2 ^ 31 ∧ f.exponent < 2 ^ 31 ∧ j + f.degree < 2 ^ 31 then factorsResult (j + f.degree) fs s
    else none := by
  have degree : factorsDegree (f :: fs) = f.degree + factorsDegree fs := by
    rw [factorsDegree, List.map_cons, List.sum_cons]
    rfl
  unfold factorsResult
  by_cases here : j + (f.more + 1) < 2 ^ 31 ∧ f.exponent < 2 ^ 31 ∧ j + f.degree < 2 ^ 31
  · rw [if_pos here]
    exact if_congr (and_iff_right here) (by rw [degree, Nat.add_assoc]) rfl
  · rw [if_neg here, if_neg fun all => here all.1]

theorem afterStar_replicate (k : ℕ) (small : j < 2 ^ 31) : afterStar fuel j (List.replicate k 's' ++ s) =
    if j + k < 2 ^ 31 then afterStar fuel (j + k : ℕ) s else none := by
  rw [afterStar, countS_letters k small]
  split_ifs
  · rfl
  · rfl

variable (fuel) in
theorem afterStar_power (digit : Digits 10 digits) (stop : 10 ≤ ugly (cur s)) {k : ℕ} (positive : 0 < k) :
    afterStar fuel k ('^' :: digits ++ s) =
      if valueOf ugly 10 0 digits < 2 ^ 31 ∧ k - 1 + valueOf ugly 10 0 digits < 2 ^ 31 then
        parseFactors fuel (k - 1 + valueOf ugly 10 0 digits : ℕ) s
      else none := by
  have read : readInt 0 (digits ++ s) = _ := readInt_digits (m := 0) digit stop (by decide)
  have other : cur ('^' :: (digits ++ s)) ≠ 's' := by
    rw [cur_cons]
    decide
  rw [afterStar, List.cons_append, countS_stop other, Option.bind_eq_bind, Option.bind_some]
  dsimp only
  rw [cur_cons, if_pos rfl, List.tail_cons, read]
  by_cases fits : valueOf ugly 10 0 digits < 2 ^ 31
  · have less : toInt ((valueOf ugly 10 0 digits : ℕ) - 1 : ℤ) = some ((valueOf ugly 10 0 digits : ℕ) - 1 : ℤ) :=
      if_pos ⟨by omega, by omega⟩
    have sum : (k : ℤ) + ((valueOf ugly 10 0 digits : ℕ) - 1) = ((k - 1 + valueOf ugly 10 0 digits : ℕ) : ℤ) := by omega
    rw [if_pos fits, Option.bind_eq_bind, Option.bind_some]
    dsimp only
    rw [less, Option.bind_some, sum, toInt_natCast]
    by_cases all : k - 1 + valueOf ugly 10 0 digits < 2 ^ 31
    · rw [if_pos all, if_pos ⟨fits, all⟩]
      rfl
    · rw [if_neg all, if_neg fun both => all both.2]
      rfl
  · rw [if_neg fits, if_neg fun both => fits both.1]
    rfl

theorem afterStar_letters {f : PolyFactor} (wellFormed : f.WellFormed) (stop : 10 ≤ ugly (cur s)) (small : j < 2 ^ 31)
    (factors : ∀ j : ℕ, j < 2 ^ 31 → parseFactors fuel j s = factorsResult j fs t)
    (next : ∀ j : ℕ, j < 2 ^ 31 → afterStar fuel j s = factorsResult j fs t) :
    afterStar fuel j (List.replicate (f.more + 1) 's' ++ (f.exponentText ++ s)) = factorsResult j (f :: fs) t := by
  rw [afterStar_replicate _ small, factorsResult_cons, PolyFactor.degree]
  cases power : f.power with
  | none =>
    have exponent : f.exponent = 1 := by rw [PolyFactor.exponent, power]
    have text : f.exponentText = [] := by rw [PolyFactor.exponentText, power]
    rw [exponent, text, List.nil_append]
    by_cases fits : j + (f.more + 1) < 2 ^ 31
    · rw [if_pos fits, if_pos ⟨fits, by decide, fits⟩, next _ fits]
    · rw [if_neg fits, if_neg fun all => fits all.1]
  | some digits =>
    have exponent : f.exponent = valueOf ugly 10 0 digits := by rw [PolyFactor.exponent, power]
    have text : f.exponentText = '^' :: digits := by rw [PolyFactor.exponentText, power]
    obtain ⟨-, digit⟩ := wellFormed digits power
    have read := afterStar_power fuel digit stop (show 0 < j + (f.more + 1) by omega)
    have degree : j + (f.more + 1) - 1 + valueOf ugly 10 0 digits = j + (f.more + valueOf ugly 10 0 digits) := by omega
    rw [exponent, text, read, degree]
    by_cases letters : j + (f.more + 1) < 2 ^ 31
    · by_cases fits : valueOf ugly 10 0 digits < 2 ^ 31 ∧ j + (f.more + valueOf ugly 10 0 digits) < 2 ^ 31
      · rw [if_pos letters, if_pos fits, if_pos ⟨letters, fits⟩, factors _ fits.2]
      · rw [if_pos letters, if_neg fits, if_neg fun all => fits all.2]
    · rw [if_neg letters, if_neg fun all => letters all.1]

theorem stop_factors (stopped : Stopped s) (fs : List PolyFactor) : 10 ≤ ugly (cur (fs.flatMap PolyFactor.text ++ s)) := by
  cases fs with
  | nil => exact stopped.digit
  | cons f fs =>
    obtain ⟨star, more, power⟩ := f
    cases star with
    | true =>
      change 10 ≤ ugly '*'
      decide
    | false =>
      change 10 ≤ ugly 's'
      decide

theorem parseFactors_text (stopped : Stopped s) (wellFormed : ∀ f ∈ fs, f.WellFormed) (small : j < 2 ^ 31)
    (enough : fs.length < fuel) :
    parseFactors fuel j (fs.flatMap PolyFactor.text ++ s) = factorsResult j fs s ∧
      afterStar fuel j (fs.flatMap PolyFactor.text ++ s) = factorsResult j fs s := by
  induction fs generalizing j fuel with
  | nil =>
    obtain ⟨fuel, rfl⟩ := Nat.exists_eq_succ_of_ne_zero (Nat.ne_of_gt enough)
    have loop : parseFactors (fuel + 1) j s = factorsResult j [] s := by
      rw [parseFactors_stop _ stopped]
      rfl
    refine ⟨loop, ?_⟩
    rw [List.flatMap_nil, List.nil_append, afterStar, countS_stop stopped.letter]
    exact (if_neg stopped.power).trans loop
  | cons f fs ih =>
    rw [List.forall_mem_cons] at wellFormed
    have inner {fuel : ℕ} (enough : fs.length < fuel) (small : j < 2 ^ 31) : afterStar fuel j
        (List.replicate (f.more + 1) 's' ++ (f.exponentText ++ (fs.flatMap PolyFactor.text ++ s))) =
          factorsResult j (f :: fs) s :=
      afterStar_letters wellFormed.1 (stop_factors stopped fs) small
        (fun j small => (ih wellFormed.2 small enough).1) fun j small => (ih wellFormed.2 small enough).2
    obtain ⟨fuel, rfl⟩ := Nat.exists_eq_succ_of_ne_zero (Nat.ne_of_gt (Nat.zero_lt_of_lt enough))
    have enough' : fs.length < fuel := Nat.lt_of_succ_lt_succ enough
    have letter : cur (List.replicate (f.more + 1) 's' ++ (f.exponentText ++ (fs.flatMap PolyFactor.text ++ s))) = 's' := rfl
    by_cases star : f.star = true
    · have text : (f :: fs).flatMap PolyFactor.text ++ s =
          '*' :: (List.replicate (f.more + 1) 's' ++ (f.exponentText ++ (fs.flatMap PolyFactor.text ++ s))) := by
        rw [List.flatMap_cons, PolyFactor.text, if_pos star]
        simp only [List.append_assoc, List.cons_append, List.nil_append]
      have loop := (parseFactors_star (j : ℤ) letter).trans (inner enough' small)
      rw [text]
      refine ⟨loop, ?_⟩
      have other : cur ('*' :: (List.replicate (f.more + 1) 's' ++
          (f.exponentText ++ (fs.flatMap PolyFactor.text ++ s)))) ≠ 's' := by
        rw [cur_cons]
        decide
      rw [afterStar, countS_stop other, Option.bind_eq_bind, Option.bind_some]
      dsimp only
      rw [cur_cons, if_neg (by decide)]
      exact loop
    · have text : (f :: fs).flatMap PolyFactor.text ++ s =
          List.replicate (f.more + 1) 's' ++ (f.exponentText ++ (fs.flatMap PolyFactor.text ++ s)) := by
        rw [List.flatMap_cons, PolyFactor.text, if_neg star]
        simp only [List.append_assoc, List.nil_append]
      rw [text]
      exact ⟨(parseFactors_letter (j : ℤ) letter).trans (inner enough' small), inner (enough'.trans (Nat.lt_succ_self _)) small⟩

theorem ugly_eq_zero {c : Char} : ugly c = 0 ↔ c = '0' := by
  constructor
  · intro zero
    rw [ugly] at zero
    split_ifs at zero with digit upper lower
    · have low : 48 ≤ c.toNat := digit.1
      exact Char.toNat_inj.mp (show c.toNat = 48 by omega)
    · have low : 65 ≤ c.toNat := upper.1
      omega
    · have low : 97 ≤ c.toNat := lower.1
      omega
  · rintro rfl
    rfl

variable {n : ℕ} {v : List ℤ} {t : PolyTerm}

theorem scalar_head (stopped : Stopped s) (t : PolyTerm) : ugly (cur (t.text ++ s)) ≠ 0 ↔ t.scalar.head? ≠ some '0' := by
  obtain ⟨negative, scalar, factors⟩ := t
  cases scalar with
  | nil =>
    have stop := stop_factors stopped factors
    refine iff_of_true (fun zero => ?_) nofun
    change ugly (cur (factors.flatMap PolyFactor.text ++ s)) = 0 at zero
    omega
  | cons c digits =>
    change ugly c ≠ 0 ↔ some c ≠ some '0'
    rw [Ne, ugly_eq_zero, Ne, Option.some.injEq]

theorem scalarValue_eq (head : t.scalar.head? ≠ some '0') :
    (if ((valueOf ugly 10 0 t.scalar : ℕ) : ℤ) = 0 then 1 else ((valueOf ugly 10 0 t.scalar : ℕ) : ℤ)) = t.scalarValue := by
  obtain ⟨negative, scalar, factors⟩ := t
  cases scalar with
  | nil => rfl
  | cons c digits =>
    have nonzero : ugly c ≠ 0 := fun zero => head (congrArg some (ugly_eq_zero.mp zero))
    have grows := le_valueOf (0 * 10 + ugly c) digits
    rw [if_neg (by rw [valueOf_cons]; omega), PolyTerm.scalarValue, if_neg (by simp)]

theorem scalarValue_small (t : PolyTerm) : valueOf ugly 10 0 t.scalar < 2 ^ 31 ↔ t.scalarValue < 2 ^ 31 := by
  rw [PolyTerm.scalarValue]
  split_ifs with none
  · rw [none]
    decide
  · rfl

theorem length_factors (fs : List PolyFactor) : fs.length ≤ (fs.flatMap PolyFactor.text ++ s).length := by
  induction fs with
  | nil => exact Nat.zero_le _
  | cons f fs ih =>
    have letter : 0 < f.text.length := by
      rw [PolyFactor.text, List.length_append, List.length_append, List.length_replicate]
      omega
    rw [List.flatMap_cons, List.append_assoc, List.length_append, List.length_cons]
    omega

theorem parseIntTerm_text (stopped : Stopped s) (wellFormed : t.WellFormed) :
    parseIntTerm n t.negative v (t.text ++ s) =
      if t.Fits ∧ InInt (v.getD (t.degree % n) 0 + t.coefficient) then
        some (v.set (t.degree % n) (v.getD (t.degree % n) 0 + t.coefficient), s)
      else none := by
  have scalar : readInt 0 (t.text ++ s) = if valueOf ugly 10 0 t.scalar < 2 ^ 31 then
      some (((valueOf ugly 10 0 t.scalar : ℕ) : ℤ), t.factors.flatMap PolyFactor.text ++ s) else none := by
    rw [PolyTerm.text, List.append_assoc]
    exact readInt_digits (m := 0) wellFormed.1 (stop_factors stopped t.factors) (by decide)
  have factors : parseFactors ((t.factors.flatMap PolyFactor.text ++ s).length + 1) 0
      (t.factors.flatMap PolyFactor.text ++ s) =
        if DegreesFit 0 t.factors then some (((0 + t.degree : ℕ) : ℤ), s) else none :=
    (parseFactors_text (j := 0) stopped wellFormed.2 (by decide) (Nat.lt_succ_of_le (length_factors t.factors))).1
  rw [Nat.zero_add] at factors
  rw [parseIntTerm]
  by_cases head : t.scalar.head? ≠ some '0'
  · rw [guard, if_pos ((scalar_head stopped t).mpr head), scalar]
    by_cases small : t.scalarValue < 2 ^ 31
    · rw [if_pos ((scalarValue_small t).mpr small)]
      dsimp only [Option.bind_eq_bind, Option.pure_def, Option.bind_some]
      rw [factors, scalarValue_eq head]
      by_cases degrees : DegreesFit 0 t.factors
      · have value : (if t.negative = true then -(t.scalarValue : ℤ) else t.scalarValue) = t.coefficient := rfl
        have fits : t.Fits := ⟨head, small, degrees⟩
        rw [if_pos degrees]
        dsimp only [Option.bind_some]
        rw [value, Int.toNat_natCast, toInt]
        by_cases range : InInt (v.getD (t.degree % n) 0 + t.coefficient)
        · rw [if_pos range, if_pos ⟨fits, range⟩]
          rfl
        · rw [if_neg range, if_neg fun all => range all.2]
          rfl
      · have noFit : ¬(t.Fits ∧ InInt (v.getD (t.degree % n) 0 + t.coefficient)) := fun all => degrees all.1.2.2
        rw [if_neg degrees, if_neg noFit]
        rfl
    · rw [if_neg fun value => small ((scalarValue_small t).mp value), if_neg fun all => small all.1.2.1]
      rfl
  · rw [guard, if_neg fun nonzero => head ((scalar_head stopped t).mp nonzero), if_neg fun all => head all.1.1]
    rfl

variable {l ts : List PolyTerm} {i : ℕ}

def addTerm (n : ℕ) (v : List ℤ) (t : PolyTerm) : List ℤ :=
  v.set (t.degree % n) (v.getD (t.degree % n) 0 + t.coefficient)

def TermsFit (n : ℕ) : List ℤ → List PolyTerm → Prop
  | _, [] => True
  | v, t :: ts => (t.Fits ∧ InInt (v.getD (t.degree % n) 0 + t.coefficient)) ∧ TermsFit n (addTerm n v t) ts

instance decidableTermsFit (n : ℕ) : (v : List ℤ) → (ts : List PolyTerm) → Decidable (TermsFit n v ts)
  | _, [] => inferInstanceAs (Decidable True)
  | v, t :: ts =>
    have := decidableTermsFit n (addTerm n v t) ts
    inferInstanceAs (Decidable (_ ∧ _))

theorem getElem?_sumOf (small : i < n) (l : List PolyTerm) :
    (sumOf n l)[i]? = some ((l.filter fun t => t.degree % n = i).map PolyTerm.coefficient).sum := by
  rw [sumOf, List.getElem?_map, List.getElem?_range small]
  rfl

theorem length_sumOf (n : ℕ) (l : List PolyTerm) : (sumOf n l).length = n := by
  rw [sumOf, List.length_map, List.length_range]

theorem sumOf_nil (n : ℕ) : sumOf n [] = List.replicate n 0 := by
  rw [List.eq_replicate_iff]
  refine ⟨length_sumOf n [], fun x among => ?_⟩
  obtain ⟨i, -, rfl⟩ := List.mem_map.mp among
  rfl

theorem addTerm_sumOf (positive : 0 < n) (l : List PolyTerm) (t : PolyTerm) :
    addTerm n (sumOf n l) t = sumOf n (l ++ [t]) := by
  have place := Nat.mod_lt t.degree positive
  refine List.ext_getElem? fun i => ?_
  by_cases small : i < n
  · rw [addTerm, List.getElem?_set, getElem?_sumOf small, getElem?_sumOf small, List.filter_append, List.map_append,
      List.sum_append, length_sumOf]
    by_cases same : t.degree % n = i
    · subst same
      rw [if_pos rfl, if_pos place, List.getD, getElem?_sumOf place]
      simp
    · rw [if_neg same]
      simp [same]
  · rw [List.getElem?_eq_none, List.getElem?_eq_none]
    · rw [length_sumOf]
      exact not_lt.mp small
    · rw [addTerm, List.length_set, length_sumOf]
      exact not_lt.mp small

theorem foldl_addTerm (positive : 0 < n) (l ts : List PolyTerm) :
    ts.foldl (addTerm n) (sumOf n l) = sumOf n (l ++ ts) := by
  induction ts generalizing l with
  | nil => rw [List.foldl_nil, List.append_nil]
  | cons t ts ih => rw [List.foldl_cons, addTerm_sumOf positive, ih, List.append_assoc, List.singleton_append]

theorem inInt_addTerm (positive : 0 < n) (before : ∀ x ∈ sumOf n l, InInt x) :
    InInt ((sumOf n l).getD (t.degree % n) 0 + t.coefficient) ↔ ∀ x ∈ sumOf n (l ++ [t]), InInt x := by
  have place : t.degree % n < (sumOf n l).length := by
    rw [length_sumOf]
    exact Nat.mod_lt _ positive
  rw [← addTerm_sumOf positive, addTerm]
  constructor
  · intro here x among
    rcases List.mem_or_eq_of_mem_set among with old | rfl
    · exact before x old
    · exact here
  · intro all
    exact all _ (List.mem_set place _)

theorem termsFit_iff (positive : 0 < n) (before : ∀ x ∈ sumOf n l, InInt x) : TermsFit n (sumOf n l) ts ↔
    (∀ t ∈ ts, t.Fits) ∧ ∀ l', l' <+: ts → ∀ x ∈ sumOf n (l ++ l'), InInt x := by
  induction ts generalizing l with
  | nil =>
    refine iff_of_true trivial ⟨nofun, fun l' pre => ?_⟩
    rw [List.prefix_nil.mp pre, List.append_nil]
    exact before
  | cons t ts ih =>
    rw [TermsFit, addTerm_sumOf positive, inInt_addTerm positive before, List.forall_mem_cons]
    constructor
    · rintro ⟨⟨fits, here⟩, rest⟩
      obtain ⟨all, sums⟩ := (ih here).mp rest
      refine ⟨⟨fits, all⟩, fun l' pre => ?_⟩
      rcases List.prefix_cons_iff.mp pre with rfl | ⟨l'', rfl, tail⟩
      · rw [List.append_nil]
        exact before
      · rw [List.append_cons]
        exact sums l'' tail
    · rintro ⟨⟨fits, all⟩, sums⟩
      have here := sums [t] (by simp)
      refine ⟨⟨fits, here⟩, (ih here).mpr ⟨all, fun l' pre => ?_⟩⟩
      rw [← List.append_cons]
      exact sums (t :: l') (by simpa using pre)

def Terminated (s : Text) : Prop := ∃ c s', s = c :: s' ∧ (c = ',' ∨ c = ':' ∨ c = '\n' ∨ c = Char.ofNat 0)

theorem Terminated.cases (terminated : Terminated s) :
    ∃ c s', s = c :: s' ∧ c ≠ 's' ∧ c ≠ '*' ∧ c ≠ '^' ∧ 10 ≤ ugly c ∧ c ≠ '-' ∧ c ≠ '+' := by
  obtain ⟨c, s', rfl, ends⟩ := terminated
  refine ⟨c, s', rfl, ?_⟩
  rcases ends with rfl | rfl | rfl | rfl <;> decide

theorem stopped_cons {c : Char} (ends : c ≠ 's' ∧ c ≠ '*' ∧ c ≠ '^' ∧ 10 ≤ ugly c) : Stopped (c :: s) :=
  ⟨ends.1, ends.2.1, ends.2.2.1, ends.2.2.2⟩

theorem Terminated.stopped (terminated : Terminated s) : Stopped s := by
  obtain ⟨c, s', rfl, letter, star, power, digit, -⟩ := terminated.cases
  exact stopped_cons ⟨letter, star, power, digit⟩

theorem stopped_terms (terminated : Terminated s) (ts : List PolyTerm) :
    Stopped (ts.flatMap PolyTerm.signedText ++ s) := by
  cases ts with
  | nil => exact terminated.stopped
  | cons t ts =>
    rw [List.flatMap_cons, PolyTerm.signedText, List.cons_append, List.cons_append]
    refine stopped_cons ?_
    split_ifs <;> decide

variable (n v fuel) in
theorem termsResult (stopped : Stopped s) (wellFormed : t.WellFormed) :
    ((parseIntTerm n t.negative v (t.text ++ s)).bind fun r => parseIntTerms n fuel false r.1 r.2) =
      if t.Fits ∧ InInt (v.getD (t.degree % n) 0 + t.coefficient) then parseIntTerms n fuel false (addTerm n v t) s
      else none := by
  rw [parseIntTerm_text stopped wellFormed]
  split_ifs
  · rfl
  · rfl

theorem parseIntTerms_text (terminated : Terminated s) (wellFormed : ∀ t ∈ ts, t.WellFormed) (enough : ts.length < fuel) :
    parseIntTerms n fuel false v (ts.flatMap PolyTerm.signedText ++ s) =
      if TermsFit n v ts then some (ts.foldl (addTerm n) v, s) else none := by
  induction ts generalizing v fuel with
  | nil =>
    obtain ⟨fuel, rfl⟩ := Nat.exists_eq_succ_of_ne_zero (Nat.ne_of_gt enough)
    obtain ⟨c, s', rfl, -, -, -, -, minus, plus⟩ := terminated.cases
    rw [List.flatMap_nil, List.nil_append, parseIntTerms, cur_cons, if_neg minus, if_neg Bool.false_ne_true, if_neg plus]
    rfl
  | cons t ts ih =>
    obtain ⟨fuel, rfl⟩ := Nat.exists_eq_succ_of_ne_zero (Nat.ne_of_gt (Nat.zero_lt_of_lt enough))
    rw [List.forall_mem_cons] at wellFormed
    have rest := ih (v := addTerm n v t) wellFormed.2 (Nat.lt_of_succ_lt_succ enough)
    have turn := termsResult fuel n v (stopped_terms terminated ts) wellFormed.1
    have text : (t :: ts).flatMap PolyTerm.signedText ++ s =
        (if t.negative then '-' else '+') :: (t.text ++ (ts.flatMap PolyTerm.signedText ++ s)) := by
      rw [List.flatMap_cons, PolyTerm.signedText, List.cons_append, List.cons_append, List.append_assoc]
    have loop : parseIntTerms n (fuel + 1) false v ((t :: ts).flatMap PolyTerm.signedText ++ s) =
        (parseIntTerm n t.negative v (t.text ++ (ts.flatMap PolyTerm.signedText ++ s))).bind fun r =>
          parseIntTerms n fuel false r.1 r.2 := by
      rw [text, parseIntTerms, cur_cons, List.tail_cons]
      cases t.negative with
      | true => rfl
      | false => rfl
    rw [loop, turn, rest]
    by_cases here : t.Fits ∧ InInt (v.getD (t.degree % n) 0 + t.coefficient)
    · rw [if_pos here]
      exact if_congr (and_iff_right here).symm rfl rfl
    · rw [if_neg here, if_neg fun all => here all.1]

theorem length_terms (terminated : Terminated s) (ts : List PolyTerm) :
    ts.length < (ts.flatMap PolyTerm.signedText ++ s).length := by
  induction ts with
  | nil =>
    obtain ⟨c, s', rfl, -⟩ := terminated
    exact Nat.succ_pos _
  | cons t ts ih =>
    rw [List.flatMap_cons, List.append_assoc, List.length_append, PolyTerm.signedText, List.length_cons, List.length_cons]
    omega

namespace PolyText

variable {p : PolyText}

theorem head_first (terminated : Terminated s) (wellFormed : p.WellFormed) (shown : ¬p.Hidden)
    (positive : p.first.negative = false) : cur (p.first.text ++ (p.rest.flatMap PolyTerm.signedText ++ s)) ≠ '-' := by
  by_cases empty : p.first.text = []
  · rw [empty, List.nil_append]
    cases rest : p.rest with
    | nil =>
      obtain ⟨c, s', rfl, -, -, -, -, minus, -⟩ := terminated.cases
      exact minus
    | cons t ts =>
      have plus : t.negative = false := Bool.eq_false_iff.mpr fun negative =>
        shown ⟨positive, empty, t, by rw [rest]; rfl, negative⟩
      rw [List.flatMap_cons, PolyTerm.signedText, plus, if_neg Bool.false_ne_true, List.cons_append, List.cons_append,
        cur_cons]
      decide
  · obtain ⟨digit, -⟩ := wellFormed p.first (.head _)
    cases scalar : p.first.scalar with
    | cons c digits =>
      have small : ugly c < 10 := digit c (by rw [scalar]; exact (.head _))
      rw [PolyTerm.text, scalar, List.cons_append, List.cons_append, cur_cons]
      rintro rfl
      exact absurd small (by decide)
    | nil =>
      cases factors : p.first.factors with
      | nil => exact absurd (by rw [PolyTerm.text, scalar, factors]; rfl) empty
      | cons f fs =>
        rw [PolyTerm.text, scalar, factors, List.nil_append, List.flatMap_cons, PolyFactor.text, List.replicate_succ]
        cases f.star with
        | true => exact (by decide : '*' ≠ '-')
        | false => exact (by decide : 's' ≠ '-')

theorem parseVector_shown (positive : 0 < n) (terminated : Terminated s) (wellFormed : p.WellFormed) (shown : ¬p.Hidden) :
    parseVector n (p.text ++ s) = if TermsFit n (sumOf n []) p.terms then some (sumOf n p.terms, s) else none := by
  obtain ⟨first, rest⟩ := List.forall_mem_cons.mp wellFormed
  have enough : p.rest.length < (p.text ++ s).length := by
    have rest := length_terms terminated p.rest
    rw [text, List.append_assoc, List.length_append]
    exact rest.trans_le (Nat.le_add_left _ _)
  have later := parseIntTerms_text (n := n) (v := addTerm n (sumOf n []) p.first) terminated rest enough
  have turn := termsResult (p.text ++ s).length n (sumOf n []) (stopped_terms terminated p.rest) first
  have sum : p.rest.foldl (addTerm n) (addTerm n (sumOf n []) p.first) = sumOf n p.terms := by
    rw [addTerm_sumOf positive, foldl_addTerm positive]
    rfl
  rw [later, sum] at turn
  have loop : parseVector n (p.text ++ s) =
      (parseIntTerm n p.first.negative (sumOf n []) (p.first.text ++ (p.rest.flatMap PolyTerm.signedText ++ s))).bind fun r =>
        parseIntTerms n (p.text ++ s).length false r.1 r.2 := by
    rw [parseVector, parseIntTerms, sumOf_nil]
    by_cases negative : p.first.negative = true
    · have head : p.text ++ s = '-' :: (p.first.text ++ (p.rest.flatMap PolyTerm.signedText ++ s)) := by
        rw [text, if_pos negative]
        simp only [List.append_assoc, List.cons_append, List.nil_append]
      rw [if_pos (by rw [head]; rfl), negative]
      rw [show (p.text ++ s).tail = p.first.text ++ (p.rest.flatMap PolyTerm.signedText ++ s) by rw [head]; rfl]
      rfl
    · have head : p.text ++ s = p.first.text ++ (p.rest.flatMap PolyTerm.signedText ++ s) := by
        rw [text, if_neg negative]
        simp only [List.append_assoc, List.nil_append]
      have positive := Bool.eq_false_iff.mpr negative
      rw [if_neg (by rw [head]; exact head_first terminated wellFormed shown positive), if_pos rfl, positive]
      rw [show parseIntTerm n false (List.replicate n 0) (p.text ++ s) = parseIntTerm n false (List.replicate n 0)
        (p.first.text ++ (p.rest.flatMap PolyTerm.signedText ++ s)) by rw [head]]
      rfl
  rw [loop, turn]
  by_cases here : p.first.Fits ∧ InInt ((sumOf n []).getD (p.first.degree % n) 0 + p.first.coefficient)
  · rw [if_pos here]
    exact if_congr (and_iff_right here).symm rfl rfl
  · rw [if_neg here, if_neg fun all => here all.1]

theorem Hidden.text (hidden : p.Hidden) : ∃ t ts, p.rest = t :: ts ∧ t.negative = true ∧ p.text = text ⟨t, ts⟩ := by
  obtain ⟨positive, empty, t, head, negative⟩ := hidden
  obtain ⟨ts, rest⟩ := List.head?_eq_some_iff.mp head
  refine ⟨t, ts, rest, negative, ?_⟩
  rw [PolyText.text, PolyText.text, positive, empty, rest, List.flatMap_cons, PolyTerm.signedText, if_pos negative,
    if_pos negative]
  rfl

theorem Hidden.first (hidden : p.Hidden) : p.first.degree = 0 ∧ p.first.coefficient = 1 := by
  obtain ⟨positive, empty, -⟩ := hidden
  obtain ⟨scalar, factors⟩ := List.append_eq_nil_iff.mp empty
  have none : p.first.factors = [] := by
    refine List.eq_nil_iff_forall_not_mem.mpr fun f among => ?_
    have nothing := List.flatMap_eq_nil_iff.mp factors f among
    rw [PolyFactor.text] at nothing
    simp at nothing
  constructor
  · rw [PolyTerm.degree, none]
    rfl
  · rw [PolyTerm.coefficient, positive, PolyTerm.scalarValue, if_pos scalar]
    rfl

theorem parseVector_text (positive : 0 < n) (wellFormed : p.WellFormed) : ∃ l, l <:+ p.terms ∧ (∀ t ∈ p.terms, t.negative →
    t ∈ l) ∧ (l = p.terms ↔ ¬p.Hidden) ∧ ∀ s, Terminated s → parseVector n (p.text ++ s) =
      if TermsFit n (sumOf n []) l then some (sumOf n l, s) else none := by
  by_cases hidden : p.Hidden
  · obtain ⟨t, ts, rest, negative, same⟩ := hidden.text
    have all : p.terms = p.first :: t :: ts := by rw [terms, rest]
    have shown : ¬Hidden ⟨t, ts⟩ := fun again => by
      rw [Hidden, negative] at again
      cases again.1
    have dropped : PolyText.WellFormed ⟨t, ts⟩ := fun u among => wellFormed u (by
      rw [all]
      exact List.mem_cons_of_mem _ among)
    refine ⟨t :: ts, all ▸ List.suffix_cons _ _, fun u among minus => ?_, ?_, fun s terminated => ?_⟩
    · rw [all] at among
      rcases List.mem_cons.mp among with rfl | later
      · rw [hidden.1] at minus
        cases minus
      · exact later
    · refine iff_of_false (fun eq => ?_) (not_not.mpr hidden)
      rw [all] at eq
      exact absurd (congrArg List.length eq) (by simp)
    · rw [same]
      exact parseVector_shown positive terminated dropped shown
  · exact ⟨p.terms, List.suffix_refl _, fun _ among _ => among, iff_of_true rfl hidden, fun s terminated =>
      parseVector_shown positive terminated wellFormed hidden⟩

theorem parseVector_iff (positive : 0 < n) (terminated : Terminated s) (wellFormed : p.WellFormed) :
    parseVector n (p.text ++ s) = some (sumOf n p.terms, s) ↔ p.Fits n := by
  have zero : ∀ x ∈ sumOf n [], InInt x := by
    rw [sumOf_nil]
    intro x among
    rw [List.eq_of_mem_replicate among]
    decide
  by_cases hidden : p.Hidden
  · refine iff_of_false (fun read => ?_) fun fits => fits.shown hidden
    obtain ⟨t, ts, rest, negative, same⟩ := hidden.text
    have shown : ¬Hidden ⟨t, ts⟩ := fun again => by
      rw [Hidden, negative] at again
      cases again.1
    have dropped : PolyText.WellFormed ⟨t, ts⟩ := fun u among => wellFormed u (by
      rw [terms, rest]
      exact List.mem_cons_of_mem _ among)
    rw [same, parseVector_shown positive terminated dropped shown] at read
    split_ifs at read
    obtain ⟨degree, one⟩ := hidden.first
    have entry := congrArg (fun r => r.1[0]?) (Option.some.inj read)
    have first : (sumOf n p.terms)[0]? = (sumOf n (terms ⟨t, ts⟩))[0]?.map (1 + ·) := by
      rw [getElem?_sumOf positive, getElem?_sumOf positive, terms, rest, List.filter_cons_of_pos (by simp [degree]),
        List.map_cons, List.sum_cons, one]
      rfl
    simp only [first, getElem?_sumOf positive, Option.map_some, Option.some.injEq] at entry
    omega
  · rw [parseVector_shown positive terminated wellFormed hidden]
    have fits : TermsFit n (sumOf n []) p.terms ↔ _ := termsFit_iff positive zero
    simp only [List.nil_append] at fits
    constructor
    · intro read
      split_ifs at read with all
      obtain ⟨each, sums⟩ := fits.mp all
      exact ⟨each, sums, hidden⟩
    · intro all
      exact if_pos (fits.mpr ⟨all.terms, all.sums⟩)

end PolyText

end CadoNfs.Utils.FilterIo
