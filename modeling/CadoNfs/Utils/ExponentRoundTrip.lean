import CadoNfs.Utils.ExponentGrammar
import CadoNfs.Utils.RelationRoundTrip

/-!
# Exponent vectors are read back

The terms that `format_to` prints, as a polynomial of the grammar. They add up to the vector unless the coefficient of
`s^3` is not 0.
-/

namespace CadoNfs.Utils.FilterIo
open Lib

def entryFactors (i : ℕ) : List PolyFactor :=
  if i = 1 then [⟨false, 0, none⟩] else if i = 2 then [⟨false, 1, none⟩]
  else if 3 < i then [⟨false, 0, some (Nat.toDigits 10 i)⟩] else []

instance (digits : Text) : Decidable (Digits 10 digits) := List.decidableBAll (fun c => ugly c < 10) digits

instance (f : PolyFactor) : Decidable f.WellFormed :=
  inferInstanceAs (Decidable (∀ digits ∈ f.power, digits ≠ [] ∧ Digits 10 digits))

instance (t : PolyTerm) : Decidable t.WellFormed := inferInstanceAs (Decidable (_ ∧ ∀ f ∈ t.factors, f.WellFormed))

instance (p : PolyText) : Decidable p.WellFormed := inferInstanceAs (Decidable (∀ t ∈ p.terms, t.WellFormed))

instance (e : List ℤ) : Decidable (Readable e) := inferInstanceAs (Decidable (_ ∧ _))

def entryTerm (i : ℕ) (x : ℤ) : PolyTerm := ⟨x < 0, scalarText x.natAbs, entryFactors i⟩

def entryTerms : ℕ → List ℤ → List PolyTerm
  | _, [] => []
  | i, x :: xs => if x = 0 then entryTerms (i + 1) xs else entryTerm i x :: entryTerms (i + 1) xs

variable {n i k : ℕ} {x : ℤ} {xs e : List ℤ} {l : List PolyTerm} {p : PolyText} {s : Text}

theorem digits_toDigits (m : ℕ) : Digits 10 (Nat.toDigits 10 m) :=
  (prints_ugly.mono (show 10 ≤ 16 by decide)).digit_lt (by decide)

theorem value_toDigits (m : ℕ) : valueOf ugly 10 0 (Nat.toDigits 10 m) = m :=
  (prints_ugly.mono (show 10 ≤ 16 by decide)).valueOf_toDigits (by decide)

theorem entryFactors_wellFormed (i : ℕ) : ∀ f ∈ entryFactors i, f.WellFormed := by
  rw [entryFactors]
  split_ifs
  · rw [List.forall_mem_singleton]
    exact nofun
  · rw [List.forall_mem_singleton]
    exact nofun
  · rw [List.forall_mem_singleton]
    rintro digits ⟨⟩
    exact ⟨Nat.toDigits_ne_nil, digits_toDigits i⟩
  · exact nofun

theorem entryTerm_wellFormed (i : ℕ) (x : ℤ) : (entryTerm i x).WellFormed := by
  refine ⟨?_, entryFactors_wellFormed i⟩
  rw [entryTerm, scalarText]
  split_ifs
  · exact fun _ member => absurd member List.not_mem_nil
  · exact digits_toDigits _

theorem text_entryTerm (i : ℕ) (x : ℤ) : (entryTerm i x).text = scalarText x.natAbs ++ powerText i := by
  rw [PolyTerm.text, entryTerm, entryFactors, powerText]
  split_ifs
  · rfl
  · rfl
  · rw [List.flatMap_singleton]
    rfl
  · rfl

theorem scalarValue_entryTerm (i : ℕ) (x : ℤ) : (entryTerm i x).scalarValue = x.natAbs := by
  rw [PolyTerm.scalarValue, entryTerm]
  by_cases one : x.natAbs = 1
  · rw [scalarText, if_pos one, if_pos rfl, one]
  · rw [scalarText, if_neg one, if_neg Nat.toDigits_ne_nil, value_toDigits]

theorem coefficient_entryTerm (i : ℕ) (x : ℤ) : (entryTerm i x).coefficient = x := by
  rw [PolyTerm.coefficient, scalarValue_entryTerm]
  have sign : (entryTerm i x).negative = decide (x < 0) := rfl
  simp only [sign, decide_eq_true_iff]
  split_ifs <;> omega

theorem exponent_toDigits (i : ℕ) : PolyFactor.exponent ⟨false, 0, some (Nat.toDigits 10 i)⟩ = i := value_toDigits i

theorem degree_entryTerm (i : ℕ) (x : ℤ) : (entryTerm i x).degree = powerIndex i := by
  rw [PolyTerm.degree, entryTerm, entryFactors, powerIndex]
  rcases Nat.lt_or_ge 3 i with large | small
  · rw [if_neg (by omega), if_neg (by omega), if_pos large, if_neg large.ne', List.map_singleton, List.sum_singleton,
      PolyFactor.degree, exponent_toDigits, Nat.zero_add]
  · interval_cases i
    · rfl
    · rfl
    · rfl
    · rfl

theorem degreesFit_entryFactors (small : i < 2 ^ 31) : DegreesFit 0 (entryFactors i) := by
  rw [entryFactors]
  split_ifs
  · decide
  · decide
  · rw [DegreesFit, PolyFactor.degree, exponent_toDigits, Nat.zero_add, Nat.zero_add, Nat.zero_add]
    exact ⟨⟨by norm_num, small, (Nat.zero_add i).symm ▸ small⟩, trivial⟩
  · trivial

theorem fits_entryTerm (small : i < 2 ^ 31) (nonzero : x ≠ 0) (range : InInt x) : (entryTerm i x).Fits ↔ x ≠ -2 ^ 31 := by
  have value : (entryTerm i x).scalarValue < 2 ^ 31 ↔ x ≠ -2 ^ 31 := by
    rw [scalarValue_entryTerm]
    rw [InInt] at range
    omega
  have head : (entryTerm i x).scalar.head? ≠ some '0' := by
    rw [entryTerm, scalarText]
    split_ifs
    · exact (Option.some_ne_none _).symm
    · obtain ⟨c, t, eq, nonzero⟩ := (prints_ugly.mono (show 10 ≤ 16 by decide)).toDigits_head (by decide)
        (Int.natAbs_pos.mpr nonzero)
      rw [eq, List.head?_cons, Ne, Option.some.injEq, ← ugly_eq_zero]
      exact nonzero
  rw [PolyTerm.Fits, value]
  exact ⟨fun fits => fits.2.1, fun other => ⟨head, other, degreesFit_entryFactors small⟩⟩

theorem mem_entryTerms {t : PolyTerm} : t ∈ entryTerms i xs ↔ ∃ j x, xs[j]? = some x ∧ x ≠ 0 ∧ t = entryTerm (i + j) x := by
  induction xs generalizing i with
  | nil => exact iff_of_false nofun (by rintro ⟨j, x, ⟨⟩, -⟩)
  | cons y xs ih =>
    have later : t ∈ entryTerms (i + 1) xs ↔ ∃ j x, (y :: xs)[j + 1]? = some x ∧ x ≠ 0 ∧ t = entryTerm (i + (j + 1)) x := by
      rw [ih]
      simp only [List.getElem?_cons_succ, Nat.add_assoc, Nat.add_comm 1]
    have split : (∃ j x, (y :: xs)[j]? = some x ∧ x ≠ 0 ∧ t = entryTerm (i + j) x) ↔
        (y ≠ 0 ∧ t = entryTerm i y) ∨ t ∈ entryTerms (i + 1) xs := by
      rw [later]
      constructor
      · rintro ⟨j, x, at_j, nonzero, rfl⟩
        cases j with
        | zero =>
          obtain rfl := Option.some.inj at_j
          exact .inl ⟨nonzero, rfl⟩
        | succ j => exact .inr ⟨j, x, at_j, nonzero, rfl⟩
      · rintro (⟨nonzero, rfl⟩ | ⟨j, x, at_j, nonzero, rfl⟩)
        · exact ⟨0, y, rfl, nonzero, rfl⟩
        · exact ⟨j + 1, x, at_j, nonzero, rfl⟩
    rw [split, entryTerms]
    by_cases zero : y = 0
    · rw [if_pos zero]
      exact ⟨.inr, fun among => among.resolve_left fun here => here.1 zero⟩
    · rw [if_neg zero, List.mem_cons]
      exact or_congr_left (and_iff_right zero).symm

theorem formatTerms_false (i : ℕ) (xs : List ℤ) : formatTerms i false xs = (entryTerms i xs).flatMap PolyTerm.signedText := by
  induction xs generalizing i with
  | nil => rfl
  | cons x xs ih =>
    rw [formatTerms, entryTerms]
    by_cases zero : x = 0
    · rw [if_pos zero, if_pos zero]
      exact ih (i + 1)
    · have sign : (entryTerm i x).negative = decide (x < 0) := rfl
      rw [if_neg zero, if_neg zero, List.flatMap_cons, ← ih, formatTerm_eq zero, PolyTerm.signedText, text_entryTerm, sign]
      by_cases negative : x < 0
      · rw [if_pos negative, if_pos (decide_eq_true negative)]
        rfl
      · rw [if_neg negative, if_neg Bool.false_ne_true, if_neg (mt of_decide_eq_true negative)]
        rfl

theorem formatTerms_text (nonzero : ∃ x ∈ xs, x ≠ 0) : ∃ p : PolyText, p.terms = entryTerms i xs ∧
    formatTerms i true xs = p.text := by
  induction xs generalizing i with
  | nil =>
    obtain ⟨x, ⟨⟩, -⟩ := nonzero
  | cons x xs ih =>
    by_cases zero : x = 0
    · obtain ⟨y, among, other⟩ := nonzero
      have later : ∃ y ∈ xs, y ≠ 0 := ⟨y, (List.mem_cons.mp among).resolve_left fun eq => other (eq.trans zero), other⟩
      rw [formatTerms, entryTerms, if_pos zero, if_pos zero]
      exact ih later
    · have sign : (entryTerm i x).negative = decide (x < 0) := rfl
      refine ⟨⟨entryTerm i x, entryTerms (i + 1) xs⟩, ?_, ?_⟩
      · rw [entryTerms, if_neg zero]
        rfl
      · rw [formatTerms, if_neg zero, formatTerm_eq zero, formatTerms_false, PolyText.text, text_entryTerm, sign]
        by_cases negative : x < 0
        · rw [if_pos negative, if_pos (decide_eq_true negative), List.append_assoc, List.append_assoc]
        · rw [if_neg negative, if_pos rfl, if_neg (mt of_decide_eq_true negative)]

theorem entryTerms_append (i : ℕ) (xs : List ℤ) (x : ℤ) :
    entryTerms i (xs ++ [x]) = entryTerms i xs ++ if x = 0 then [] else [entryTerm (i + xs.length) x] := by
  induction xs generalizing i with
  | nil =>
    rw [List.nil_append, entryTerms]
    rfl
  | cons y xs ih =>
    rw [List.cons_append, entryTerms, entryTerms, ih, List.length_cons, Nat.add_assoc, Nat.add_comm 1]
    split_ifs
    · rfl
    · rfl
    · rfl
    · rfl

theorem prefix_entryTerms (pre : l <+: entryTerms i xs) : ∃ k, l = entryTerms i (xs.take k) := by
  induction xs generalizing i l with
  | nil => exact ⟨0, List.prefix_nil.mp pre⟩
  | cons x xs ih =>
    rw [entryTerms] at pre
    by_cases zero : x = 0
    · rw [if_pos zero] at pre
      obtain ⟨k, rfl⟩ := ih pre
      refine ⟨k + 1, ?_⟩
      rw [List.take_succ_cons, entryTerms, if_pos zero]
    · rw [if_neg zero] at pre
      rcases List.prefix_cons_iff.mp pre with rfl | ⟨l', rfl, rest⟩
      · exact ⟨0, rfl⟩
      · obtain ⟨k, rfl⟩ := ih rest
        refine ⟨k + 1, ?_⟩
        rw [List.take_succ_cons, entryTerms, if_neg zero]

theorem sumOf_entryTerms (positive : 0 < n) (few : xs.length ≤ n) (three : xs[3]?.getD 0 = 0) :
    sumOf n (entryTerms 0 xs) = xs ++ List.replicate (n - xs.length) 0 := by
  induction xs using List.reverseRecOn with
  | nil => exact sumOf_nil n
  | append_singleton xs x ih =>
    rw [List.length_append, List.length_singleton] at few
    have before : xs[3]?.getD 0 = 0 := by
      rcases Nat.lt_or_ge 3 xs.length with inside | outside
      · rwa [List.getElem?_append_left inside] at three
      · rw [List.getElem?_eq_none outside]
        rfl
    have known := ih (by omega) before
    have room : List.replicate (n - xs.length) (0 : ℤ) = 0 :: List.replicate (n - (xs.length + 1)) 0 := by
      rw [← List.replicate_succ]
      congr 1
      omega
    rw [entryTerms_append, List.length_append, List.length_singleton, List.append_assoc, List.singleton_append]
    by_cases zero : x = 0
    · rw [if_pos zero, List.append_nil, known, room, zero]
    · have place : (entryTerm (0 + xs.length) x).degree % n = xs.length := by
        rw [degree_entryTerm, Nat.zero_add, powerIndex, if_neg, Nat.mod_eq_of_lt (by omega)]
        intro at_three
        rw [← at_three, List.getElem?_concat_length] at three
        exact zero three
      rw [if_neg zero, ← addTerm_sumOf positive, addTerm, place, coefficient_entryTerm, known, room]
      simp

theorem nextNegative_head {t : PolyTerm} (head : (entryTerms i xs).head? = some t) (negative : t.negative = true) :
    NextNegative xs := by
  induction xs generalizing i with
  | nil => cases head
  | cons x xs ih =>
    rw [entryTerms] at head
    by_cases zero : x = 0
    · rw [if_pos zero] at head
      simpa [NextNegative, zero] using ih head
    · rw [if_neg zero, List.head?_cons] at head
      obtain rfl := Option.some.inj head
      have less : x < 0 := of_decide_eq_true negative
      simp [NextNegative, zero, less]

theorem not_hidden (terms : p.terms = entryTerms 0 e) (readable : Readable e) : ¬p.Hidden := by
  intro hidden
  obtain ⟨degree, one⟩ := hidden.first
  obtain ⟨-, -, t, head, negative⟩ := hidden
  cases e with
  | nil => cases terms
  | cons x xs =>
    rw [entryTerms] at terms
    by_cases zero : x = 0
    · rw [if_pos zero] at terms
      obtain ⟨j, y, at_j, nonzero, first⟩ := mem_entryTerms.mp (terms ▸ List.mem_cons_self : p.first ∈ entryTerms 1 xs)
      rw [first, degree_entryTerm, powerIndex] at degree
      split_ifs at degree with three
      · obtain rfl : j = 2 := by omega
        refine nonzero ?_
        have none := readable.1
        rwa [List.getElem?_cons_succ, at_j] at none
      · omega
    · rw [if_neg zero] at terms
      obtain ⟨first, rest⟩ := List.cons.inj terms
      rw [first, coefficient_entryTerm] at one
      rw [rest] at head
      exact readable.2 ⟨congrArg some one, nextNegative_head head negative⟩

theorem inInt_zero : InInt 0 := by decide

theorem parseVector_formatVector (positive : 0 < n) (small : n < 2 ^ 31) (length : e.length = n)
    (range : ∀ x ∈ e, InInt x) (nonzero : ∃ x ∈ e, x ≠ 0) (terminated : Terminated s) :
    parseVector n (formatVector e ++ s) = some (e, s) ↔ Readable e ∧ -2 ^ 31 ∉ e := by
  obtain ⟨p, terms, text⟩ := formatTerms_text (i := 0) nonzero
  have wellFormed : p.WellFormed := fun t among => by
    rw [terms] at among
    obtain ⟨j, x, -, -, rfl⟩ := mem_entryTerms.mp among
    exact entryTerm_wellFormed _ x
  have fits {j : ℕ} {x : ℤ} (at_j : e[j]? = some x) (nonzero : x ≠ 0) : (entryTerm (0 + j) x).Fits ↔ x ≠ -2 ^ 31 := by
    obtain ⟨inside, -⟩ := List.getElem?_eq_some_iff.mp at_j
    exact fits_entryTerm (by omega) nonzero (range x (List.mem_of_getElem? at_j))
  rw [formatVector, text]
  constructor
  · intro read
    obtain ⟨l, -, minus, -, parse⟩ := PolyText.parseVector_text positive wellFormed
    rw [parse s terminated] at read
    split_ifs at read with all
    have sum : sumOf n l = e := congrArg Prod.fst (Option.some.inj read)
    constructor
    · -- What follows does not matter, so that it may be a comma.
      have comma := parse [','] ⟨',', [], rfl, .inl rfl⟩
      rw [if_pos all, sum, ← text] at comma
      have back := parse_formatTerms (s := []) length (by simpa [exponentVector] using nonzero) (.inl rfl)
      rw [parseVector_exponentVector comma] at back
      exact readBack_eq_iff.mp (congrArg Prod.fst (Option.some.inj back)).symm
    · intro least
      obtain ⟨j, at_j⟩ := List.mem_iff_getElem?.mp least
      have among : entryTerm (0 + j) (-2 ^ 31) ∈ p.terms := terms ▸ mem_entryTerms.mpr ⟨j, _, at_j, by decide, rfl⟩
      have zero : ∀ x ∈ sumOf n [], InInt x := by
        rw [sumOf_nil]
        intro x among
        exact List.eq_of_mem_replicate among ▸ inInt_zero
      exact (fits at_j (by decide)).mp (((termsFit_iff positive zero).mp all).1 _ (minus _ among rfl)) rfl
  · rintro ⟨readable, other⟩
    have sum : sumOf n p.terms = e := by
      rw [terms, sumOf_entryTerms positive length.le readable.1, length, Nat.sub_self, List.replicate_zero, List.append_nil]
    have read := (PolyText.parseVector_iff positive terminated wellFormed).mpr ⟨fun t among => ?_, fun l pre x among => ?_,
      not_hidden terms readable⟩
    · rwa [sum] at read
    · rw [terms] at among
      obtain ⟨j, x, at_j, nonzero, rfl⟩ := mem_entryTerms.mp among
      exact (fits at_j nonzero).mpr fun least => other (least ▸ List.mem_of_getElem? at_j)
    · rw [terms] at pre
      obtain ⟨k, rfl⟩ := prefix_entryTerms pre
      have three : (e.take k)[3]?.getD 0 = 0 := by
        rw [List.getElem?_take]
        split_ifs
        · exact readable.1
        · rfl
      have few : (e.take k).length ≤ n := (List.length_take_le' k e).trans length.le
      rw [sumOf_entryTerms positive few three] at among
      rcases List.mem_append.mp among with taken | room
      · exact range x (List.mem_of_mem_take taken)
      · exact List.eq_of_mem_replicate room ▸ inInt_zero

theorem parse_exponentVector_iff (n : ℕ) (e : List ℤ) (p : PolyText) (s : Text) (positive : 0 < n) (small : n < 2 ^ 31)
    (length : e.length = n) (range : ∀ x ∈ e, InInt x) (nonzero : ∃ x ∈ e, x ≠ 0) (terminated : Terminated s)
    (wellFormed : p.WellFormed) :
    (parseVector n (formatVector e ++ s) = some (e, s) ↔ Readable e ∧ -2 ^ 31 ∉ e) ∧
      (parseVector n (p.text ++ s) = some (sumOf n p.terms, s) ↔ p.Fits n) :=
  ⟨parseVector_formatVector positive small length range nonzero terminated,
    PolyText.parseVector_iff positive terminated wellFormed⟩

def twoTerms : PolyText :=
  ⟨⟨true, [], [⟨false, 0, none⟩]⟩, [⟨false, ['2'], [⟨true, 0, none⟩, ⟨true, 0, none⟩]⟩]⟩

theorem parse_exponentVector_twoTerms :
    parseVector 5 (formatVector [1, 0, 3, 0, -1] ++ [',']) = some ([1, 0, 3, 0, -1], [',']) ∧ twoTerms.Fits 5 := by
  have both := parse_exponentVector_iff 5 [1, 0, 3, 0, -1] twoTerms [','] (by decide) (by decide) rfl (by decide)
    (by decide) ⟨',', [], rfl, .inl rfl⟩ (by decide)
  exact ⟨both.1.mpr (by decide), both.2.mp (by decide)⟩

theorem parseVector_cube : ¬∀ (n : ℕ) (e : List ℤ) (s : Text), 0 < n → n < 2 ^ 31 → e.length = n → (∀ x ∈ e, InInt x) →
    (∃ x ∈ e, x ≠ 0) → Terminated s → parseVector n (formatVector e ++ s) = some (e, s) := by
  intro all
  have read := all 4 [0, 0, 0, 1] [','] (by decide) (by decide) rfl (by decide) (by decide) ⟨',', [], rfl, .inl rfl⟩
  exact absurd read (by decide)

end CadoNfs.Utils.FilterIo
