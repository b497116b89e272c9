import CadoNfs.Utils.RelationCollates
import CadoNfs.Utils.RelationExponents

/-!
# The primes of a relation line

Lines of the documented grammar with integer exponents.
-/

namespace CadoNfs.Utils.FilterIo
open Lib PrimeType

structure PrimeText where
  minus : Bool
  digits : Text
  exponent : Option (Bool × Text)

namespace PrimeText

def sign (minus : Bool) : Text := if minus then ['-'] else []

def exponentText (x : PrimeText) : Text :=
  match x.exponent with
  | none => []
  | some (minus, digits) => '/' :: (sign minus ++ digits)

def text (x : PrimeText) : Text := sign x.minus ++ x.digits ++ x.exponentText

structure Grammatical (x : PrimeText) : Prop where
  nonempty : x.digits ≠ []
  digits : Digits 16 x.digits
  exponent : ∀ y ∈ x.exponent, Digits 10 y.2 ∧ y.2.head? ≠ some '0'

structure WellFormed (bits : ℕ) (x : PrimeText) : Prop extends x.Grammatical where
  value : valueOf ugly 16 0 x.digits < 2 ^ min bits 64

def signed (minus : Bool) (e : ℤ) : ℤ := if minus then -e else e

def exponentValue (x : PrimeText) : ℤ :=
  match x.exponent with
  | none => 1
  | some (minus, digits) =>
    let w := valueOf ugly 10 0 digits
    signed minus (if w = 0 then 1 else w)

def word (x : PrimeText) : Word ℤ := ⟨x.text, valueOf ugly 16 0 x.digits, signed x.minus x.exponentValue⟩

def wrapped (bits : ℕ) (x : PrimeText) : Word ℤ := ⟨x.text, valueOf ugly 16 0 x.digits % 2 ^ 64 % 2 ^ bits, x.word.e⟩

variable {bits : ℕ} {x : PrimeText} {s : Text} {c : Char}

theorem ugly_eq_zero {c : Char} (zero : ugly c = 0) : c = '0' := by
  rw [ugly] at zero
  split_ifs at zero with dec upper lower
  · have le : '0'.toNat ≤ c.toNat := dec.1
    exact Char.ext (UInt32.toNat_inj.mp (le_antisymm (Nat.sub_eq_zero_iff_le.mp zero) le))
  · have le : 'A'.toNat ≤ c.toNat := upper.1
    have : 65 ≤ c.toNat := le
    omega
  · have le : 'a'.toNat ≤ c.toNat := lower.1
    have : 97 ≤ c.toNat := le
    omega

theorem parseScalar_text {digits : Text} (digit : Digits 10 digits) (head : digits.head? ≠ some '0') (stops : Stops c) :
    parseScalar (digits ++ c :: s) =
      some (if valueOf ugly 10 0 digits = 0 then 1 else valueOf ugly 10 0 digits, c :: s) := by
  have allowed : ugly (cur (digits ++ c :: s)) ≠ 0 := by
    cases digits with
    | nil =>
      rw [List.nil_append, cur_cons, stops.ugly]
      decide
    | cons d digits => exact fun zero => head (by rw [List.head?_cons, ← ugly_eq_zero zero]; rfl)
  rw [parseScalar, digit.readNumber (by decide) stops.ugly]
  simp [guard, allowed]

theorem minus_text {base : ℕ} {digits : Text} (digit : Digits base digits) (small : base ≤ 16) (stops : Stops c)
    (minus : Bool) :
    (cur (sign minus ++ digits ++ c :: s) == '-') = minus ∧
      (if minus then (sign minus ++ digits ++ c :: s).tail else sign minus ++ digits ++ c :: s) = digits ++ c :: s := by
  cases minus with
  | true => exact ⟨rfl, rfl⟩
  | false =>
    have other : c ≠ '-' := fun eq => by
      have := stops.ugly
      rcases stops with rfl | rfl | rfl | rfl | rfl <;> cases eq
    refine ⟨?_, rfl⟩
    simpa [sign] using digit.head_ne small '-' rfl other

theorem parse_exponent {digits : Text} (digit : Digits 10 digits) (head : digits.head? ≠ some '0') (stops : Stops c)
    (minus : Bool) : intExponent.parse (sign minus ++ digits ++ c :: s) =
      some (signed minus (if valueOf ugly 10 0 digits = 0 then 1 else valueOf ugly 10 0 digits), c :: s) := by
  obtain ⟨is_minus, rest⟩ := minus_text (s := s) digit (by decide) stops minus
  simp only [intExponent, is_minus, rest, parseScalar_text digit head stops]
  cases minus <;> simp [signed]

theorem WellFormed.wrapped_eq (wf : x.WellFormed bits) : x.wrapped bits = x.word := by
  have value := wf.value
  rw [wrapped, Nat.mod_eq_of_lt (value.trans_le (Nat.pow_le_pow_right two_pos (min_le_right ..))),
    Nat.mod_eq_of_lt (value.trans_le (Nat.pow_le_pow_right two_pos (min_le_left ..)))]
  rfl

theorem reads {σ : Type} [LinearOrder σ] {T : PrimeType σ ℤ} (integers : T.exponent = intExponent)
    (grammatical : x.Grammatical) : T.Reads (x.wrapped T.bits) where
  head := by
    obtain ⟨minus, digits, exponent⟩ := x
    cases minus with
    | true => exact ⟨'-', _, rfl, by decide, by decide⟩
    | false =>
      cases digits with
      | nil => exact absurd rfl grammatical.nonempty
      | cons d digits =>
        have lt := grammatical.digits d (.head _)
        refine ⟨d, _, rfl, ?_, ?_⟩ <;> rintro rfl <;> exact absurd lt (by decide)
  parse := by
    intro st c s stop
    have stops : Stops c := stop.imp_right (Or.imp_right .inl)
    have not_slash : c ≠ '/' := by rcases stop with rfl | rfl | rfl <;> decide
    have digits := grammatical.digits
    cases exponent : x.exponent with
    | none =>
      have text : (x.wrapped T.bits).text ++ c :: s = sign x.minus ++ x.digits ++ c :: s := by
        simp [wrapped, PrimeText.text, exponentText, exponent]
      obtain ⟨is_minus, rest⟩ := minus_text (s := s) digits le_rfl stops x.minus
      rw [text, parsePrime]
      simp only [is_minus, rest, digits.readNumber le_rfl stops.ugly, cur_cons, not_slash, if_false, integers]
      cases minus : x.minus <;> simp [wrapped, word, signed, exponentValue, exponent, minus, intExponent]
    | some y =>
      obtain ⟨y_minus, y_digits⟩ := y
      obtain ⟨digit, head⟩ := grammatical.exponent _ exponent
      have text : (x.wrapped T.bits).text ++ c :: s =
          sign x.minus ++ x.digits ++ '/' :: (sign y_minus ++ y_digits ++ c :: s) := by
        simp [wrapped, PrimeText.text, exponentText, exponent]
      have slash : Stops '/' := .inr (.inr (.inr (.inr rfl)))
      obtain ⟨is_minus, rest⟩ := minus_text (s := sign y_minus ++ y_digits ++ c :: s) digits le_rfl slash x.minus
      rw [text, parsePrime]
      simp only [is_minus, rest, digits.readNumber le_rfl slash.ugly, cur_cons, if_true, List.tail_cons, integers,
        parse_exponent digit head stops]
      cases minus : x.minus <;> simp [wrapped, word, signed, exponentValue, exponent, minus, intExponent]

end PrimeText

structure Line (base bits : ℕ) where
  ab : AbText
  sides : List (List PrimeText)
  base_le : base ≤ 16
  ab_wf : ab.WellFormed base
  nonempty : sides ≠ []
  primes_wf : ∀ side ∈ sides, ∀ x ∈ side, x.WellFormed bits

namespace Line

variable {base bits : ℕ} (L : Line base bits)

def words : List (List (Word ℤ)) := L.sides.map (List.map PrimeText.word)

def text : Text := L.ab.text ++ (sidesText L.words ++ ['\n'])

theorem reads {σ : Type} [LinearOrder σ] {T : PrimeType σ ℤ} (integers : T.exponent = intExponent) (same_bits : T.bits = bits) :
    ∀ side ∈ L.words, ∀ w ∈ side, T.Reads w := by
  intro side member w inside
  obtain ⟨texts, in_sides, rfl⟩ := List.mem_map.mp member
  obtain ⟨x, in_texts, rfl⟩ := List.mem_map.mp inside
  have wf := L.primes_wf texts in_sides x in_texts
  rw [← wf.wrapped_eq, ← same_bits]
  exact x.reads integers wf.toGrammatical

end Line

end CadoNfs.Utils.FilterIo

/-!
# Printed relations

What `format_to` prints is a text of `a`, `b` and words, so that the lemmas about `parse` say what is read back.
-/

namespace CadoNfs.Utils.FilterIo
open Lib PrimeType

namespace AbBlock

def abText (base : ℕ) (x : AbBlock) : AbText :=
  ⟨x.a < 0, Nat.toDigits base x.a.natAbs, Nat.toDigits base x.b.natAbs, none⟩

def InRange (t : AbType) (x : AbBlock) : Prop :=
  t = .uint64 → (-2 ^ 63 ≤ x.a ∧ x.a < 2 ^ 63) ∧ 0 ≤ x.b ∧ x.b < 2 ^ 64

def Readable (t : AbType) (x : AbBlock) : Prop := (t = .uint64 → x.a ≠ -2 ^ 63) ∧ 0 ≤ x.b ∧ x.activeSides = (0, 1)

variable {base : ℕ} {t : AbType} {x : AbBlock} {s : Text}

theorem digits_toDigits (one_lt : 1 < base) (small : base ≤ 16) (n : ℕ) : Digits base (Nat.toDigits base n) :=
  (prints_ugly.mono small).digit_lt one_lt

theorem valueOf_toDigits (one_lt : 1 < base) (small : base ≤ 16) (n : ℕ) :
    valueOf ugly base 0 (Nat.toDigits base n) = n := (prints_ugly.mono small).valueOf_toDigits one_lt

theorem format_eq (nonneg : 0 ≤ x.b) : x.format base = (x.abText base).text := by
  have not_neg : ¬x.b < 0 := not_lt.mpr nonneg
  by_cases negative : x.a < 0 <;>
    simp [format, formatInt, AbText.text, AbText.activeText, abText, not_neg, negative]

theorem abText_wf (one_lt : 1 < base) (small : base ≤ 16) : (x.abText base).WellFormed base where
  a := digits_toDigits one_lt small _
  b := digits_toDigits one_lt small _
  activeSides := nofun

theorem cast_eq (one_lt : 1 < base) (small : base ≤ 16) (in_range : x.InRange t) :
    (x.abText base).cast t base = if t = .uint64 ∧ x.a = -2 ^ 63 then none else some (x.a.natAbs : ℤ) := by
  rw [AbText.cast, abText, valueOf_toDigits one_lt small]
  cases t with
  | uint64 =>
    obtain ⟨⟨low, high⟩, -⟩ := in_range rfl
    rw [AbType.word, AbType.signed, Nat.mod_eq_of_lt (by omega)]
    by_cases least : x.a = -2 ^ 63
    · rw [if_neg (by omega), if_pos ⟨rfl, least⟩]
    · rw [if_pos (by omega), if_neg fun both => least both.2]
  | mpz => rfl

theorem block_eq (one_lt : 1 < base) (small : base ≤ 16) (in_range : x.InRange t) (nonneg : 0 ≤ x.b) :
    (x.abText base).block t base x.a.natAbs = ⟨x.a, x.b, (0, 1)⟩ := by
  have word : t.word x.b.natAbs = x.b.natAbs := by
    cases t with
    | uint64 => exact Nat.mod_eq_of_lt (by have := (in_range rfl).2; omega)
    | mpz => rfl
  have a : (if x.a < 0 then -(x.a.natAbs : ℤ) else x.a.natAbs) = x.a := by
    split_ifs <;> omega
  simp only [AbText.block, abText, AbText.sides, valueOf_toDigits one_lt small, word, decide_eq_true_eq, a]
  rw [Int.natAbs_of_nonneg nonneg]

theorem parse_negative (one_lt : 1 < base) (small : base ≤ 16) (negative : x.b < 0) :
    ∀ r ∈ parseAb t base (x.format base ++ s), cur r.2 = '-' := by
  have wf : AbText.WellFormed base ⟨x.a < 0, Nat.toDigits base x.a.natAbs, [], none⟩ :=
    ⟨digits_toDigits one_lt small _, nofun, nofun⟩
  have parsed := AbText.parse (t := t) (c := '-') (s := Nat.toDigits base x.b.natAbs ++ s) wf small rfl (by decide)
  have text : x.format base ++ s = AbText.text ⟨x.a < 0, Nat.toDigits base x.a.natAbs, [], none⟩ ++
      '-' :: (Nat.toDigits base x.b.natAbs ++ s) := by
    by_cases negative_a : x.a < 0 <;> simp [format, formatInt, AbText.text, AbText.activeText, negative, negative_a]
  intro r member
  rw [text, parsed] at member
  obtain ⟨w, -, rfl⟩ := Option.map_eq_some_iff.mp member
  rfl

end AbBlock

variable {σ E : Type} [LinearOrder σ]

namespace PrimeType

structure Prints (T : PrimeType σ E) (x : Prime σ E) (words : List (Word E)) : Prop where
  nonempty : words ≠ []
  format : T.format x = some (sideText words)
  reads : ∀ w ∈ words, T.Reads w

theorem sideText_append {ws vs : List (Word E)} (ws_ne : ws ≠ []) (vs_ne : vs ≠ []) :
    sideText (ws ++ vs) = sideText ws ++ ',' :: sideText vs := by
  cases ws with
  | nil => exact absurd rfl ws_ne
  | cons w ws =>
    cases vs with
    | nil => exact absurd rfl vs_ne
    | cons v vs =>
      rw [List.cons_append, sideText_cons, sideText_cons, sideText_cons]
      simp

variable {T : PrimeType σ E} {words : Prime σ E → List (Word E)} {primes : List (Prime σ E)}

theorem intercalate_sideText (prints : ∀ x ∈ primes, T.Prints x (words x)) :
    List.intercalate [','] (primes.map fun x => sideText (words x)) = sideText (primes.flatMap words) := by
  induction primes with
  | nil => rfl
  | cons x primes ih =>
    rw [List.forall_mem_cons] at prints
    cases primes with
    | nil => simp [List.intercalate]
    | cons y primes =>
      have ne : (y :: primes).flatMap words ≠ [] := by
        rw [List.flatMap_cons]
        exact List.append_ne_nil_of_left_ne_nil (prints.2 y (.head _)).nonempty _
      rw [List.flatMap_cons, sideText_append prints.1.nonempty ne, ← ih prints.2]
      simp [List.intercalate]

theorem mapM_eq_some {α β : Type} {f : α → Option β} {g : α → β} {xs : List α} (all : ∀ x ∈ xs, f x = some (g x)) :
    xs.mapM f = some (xs.map g) := by
  induction xs with
  | nil => rfl
  | cons x xs ih =>
    rw [List.forall_mem_cons] at all
    rw [List.mapM_cons, all.1, ih all.2]
    rfl

theorem formatPrimes_eq (prints : ∀ x ∈ primes, T.Prints x (words x)) :
    T.formatPrimes primes = some (sideText (primes.flatMap words)) := by
  have formats := mapM_eq_some fun x member => (prints x member).format
  rw [formatPrimes, formats]
  exact congrArg some (intercalate_sideText prints)

end PrimeType

namespace Relation

def sides {E : Type} (words : Prime ℤ E → List (Word E)) (primes : List (Prime ℤ E)) (n : ℕ) : List (List (Word E)) :=
  (List.range n).map fun (k : ℕ) => (primes.filter fun x => x.side = (k : ℤ)).flatMap words

theorem formatSides_eq {E : Type} {T : PrimeType ℤ E} {base : ℕ} {R : Relation ℤ E} {words : Prime ℤ E → List (Word E)}
    (in_range : ∀ x ∈ R.primes, 0 ≤ x.side ∧ x.side < R.nsides) (prints : ∀ x ∈ R.primes, T.Prints x (words x)) :
    R.formatSides T base = some (R.ab.format base ++ sidesText (sides words R.primes R.nsides.toNat)) := by
  have formats : (List.range R.nsides.toNat).mapM
      (fun (k : ℕ) => T.formatPrimes (R.primes.filter fun x => x.side = (k : ℤ))) =
      some ((List.range R.nsides.toNat).map fun (k : ℕ) =>
        sideText ((R.primes.filter fun x => x.side = (k : ℤ)).flatMap words)) :=
    mapM_eq_some fun k _ => formatPrimes_eq fun x member => prints x (List.mem_of_mem_filter member)
  rw [formatSides, formats, guard, if_pos in_range]
  simp [sidesText, sides, List.flatMap_map]

theorem formatIndices_eq {E : Type} {T : PrimeType Unit E} {base : ℕ} {R : Relation Unit E}
    {words : Prime Unit E → List (Word E)} (prints : ∀ x ∈ R.primes, T.Prints x (words x)) :
    R.formatIndices T base = some (R.ab.format base ++ sidesText [R.primes.flatMap words]) := by
  rw [formatIndices, formatPrimes_eq prints]
  simp [sidesText]

def RoundTrips (T : PrimeType σ E) (t : AbType) (base : ℕ) (format : Relation σ E → Option Text) (R : Relation σ E) :
    Prop :=
  ∃ text, format R = some text ∧ ∃ R' s, T.parse t base '\n' (text ++ ['\n']) = some (R', s) ∧ R'.ab = R.ab ∧
    R'.primes = R.primes

variable {T : PrimeType σ E} {t : AbType} {base : ℕ} {R : Relation σ E} {sides : List (List (Word E))}

theorem parse_eq_none {text : Text} (no_colon : ∀ r ∈ parseAb t base text, cur r.2 ≠ ':' ∧ cur r.2 ≠ ',') :
    T.parse t base '\n' text = none := by
  rw [PrimeType.parse]
  cases parsed : parseAb t base text with
  | none => rfl
  | some r =>
    obtain ⟨ab, s⟩ := r
    obtain ⟨not_colon, not_comma⟩ := no_colon (ab, s) parsed
    simp only [Option.bind_eq_bind, Option.bind_some]
    rw [parseLoop, if_pos (.inl rfl), if_neg not_colon]
    simp [guard, not_comma]

theorem reads_roundTrips_iff {format : Relation σ E → Option Text} (one_lt : 1 < base) (small : base ≤ 16)
    (in_range : R.ab.InRange t) (formats : format R = some (R.ab.format base ++ sidesText sides))
    (reads : ∀ side ∈ sides, ∀ w ∈ side, T.Reads w) :
    R.RoundTrips T t base format ↔ R.ab.Readable t ∧ sides ≠ [] ∧
      T.exponent.sortAndCompress ((T.entries 0 sides).foldl T.exponent.appendOrCollate []).reverse = R.primes := by
  have trips_iff : R.RoundTrips T t base format ↔ ∃ R' s,
      T.parse t base '\n' (R.ab.format base ++ (sidesText sides ++ ['\n'])) = some (R', s) ∧ R'.ab = R.ab ∧
        R'.primes = R.primes := by
    constructor
    · rintro ⟨text, eq, rest⟩
      rw [formats] at eq
      rwa [← Option.some.inj eq, List.append_assoc] at rest
    · intro rest
      refine ⟨_, formats, ?_⟩
      rwa [List.append_assoc]
  rw [trips_iff]
  rcases lt_or_ge R.ab.b 0 with negative | nonneg
  · have minus := AbBlock.parse_negative (t := t) (s := sidesText sides ++ ['\n']) one_lt small negative
    refine iff_of_false ?_ fun conditions => absurd conditions.1.2.1 (not_le.mpr negative)
    rintro ⟨R', s, parsed, -⟩
    rw [parse_eq_none fun r member => by rw [minus r member]; decide] at parsed
    cases parsed
  · rw [AbBlock.format_eq nonneg]
    by_cases empty : sides = []
    · refine iff_of_false ?_ fun conditions => conditions.2.1 empty
      rintro ⟨R', s, parsed, -⟩
      subst empty
      rw [parse_eq_none fun r member => ?_] at parsed
      · cases parsed
      · rw [show sidesText ([] : List (List (Word E))) ++ ['\n'] = ['\n'] from rfl,
          AbText.parse (AbBlock.abText_wf one_lt small) small rfl (by decide)] at member
        obtain ⟨w, -, rfl⟩ := Option.map_eq_some_iff.mp member
        rw [cur_cons]
        decide
    · rw [parse_text (AbBlock.abText_wf one_lt small) small empty reads, AbBlock.cast_eq one_lt small in_range]
      by_cases least : t = .uint64 ∧ R.ab.a = -2 ^ 63
      · refine iff_of_false ?_ fun conditions => conditions.1.1 least.1 least.2
        rintro ⟨R', s, parsed, -⟩
        rw [if_pos least] at parsed
        cases parsed
      · rw [if_neg least, Option.map_some, AbBlock.block_eq one_lt small in_range nonneg]
        have not_least : t = .uint64 → R.ab.a ≠ -2 ^ 63 := fun word a => least ⟨word, a⟩
        constructor
        · rintro ⟨R', s, parsed, ab, primes⟩
          cases parsed
          exact ⟨⟨not_least, nonneg, (congrArg AbBlock.activeSides ab).symm⟩, empty, primes⟩
        · rintro ⟨⟨-, -, active⟩, -, primes⟩
          refine ⟨_, _, rfl, ?_, primes⟩
          rw [← active]

end Relation

end CadoNfs.Utils.FilterIo

/-!
# Printed primes, read again

As many entries as there are in a sorted list give that list only if they are its entries and no two neighbours have
the same prime.
-/

namespace CadoNfs.Utils.FilterIo
open Lib ExponentType PrimeType

variable {σ E : Type} [LinearOrder σ]

/-! ## Collating and compressing cannot lengthen -/

namespace ExponentType

variable (X : ExponentType E) (xs s : List (Prime σ E)) {ys : List (Prime σ E)}

theorem length_appendOrCollate (x : Prime σ E) : (X.appendOrCollate s x).length ≤ s.length + 1 ∧
    ((X.appendOrCollate s x).length = s.length + 1 → X.appendOrCollate s x = x :: s) := by
  cases s with
  | nil => exact ⟨le_rfl, fun _ => rfl⟩
  | cons y s =>
    by_cases same : x.p = y.p ∧ y.side = x.side
    · have collate : X.appendOrCollate (y :: s) x = { y with e := X.add y.e x.e } :: s := if_pos same
      rw [collate]
      exact ⟨by simp, fun length => absurd length (by simp)⟩
    · have append : X.appendOrCollate (y :: s) x = x :: y :: s := if_neg same
      rw [append]
      exact ⟨le_rfl, fun _ => rfl⟩

omit [LinearOrder σ] in
theorem length_compress (x : Prime σ E) : (X.compress s x).length ≤ s.length + 1 ∧
    ((X.compress s x).length = s.length + 1 → X.compress s x = x :: s) := by
  cases s with
  | nil => exact ⟨le_rfl, fun _ => rfl⟩
  | cons y s =>
    by_cases same : x.p = y.p
    · rw [compress_same same]
      split_ifs
      · exact ⟨by simp; omega, fun length => absurd length (by simp; omega)⟩
      · exact ⟨by simp, fun length => absurd length (by simp)⟩
    · rw [compress_fresh (by rintro z ⟨⟩; exact same)]
      exact ⟨le_rfl, fun _ => rfl⟩

omit [LinearOrder σ] in
theorem length_foldl {f : List (Prime σ E) → Prime σ E → List (Prime σ E)}
    (one : ∀ s x, (f s x).length ≤ s.length + 1 ∧ ((f s x).length = s.length + 1 → f s x = x :: s)) :
    (xs.foldl f s).length ≤ s.length + xs.length ∧
      ((xs.foldl f s).length = s.length + xs.length → xs.foldl f s = xs.reverse ++ s) := by
  induction xs generalizing s with
  | nil => exact ⟨le_rfl, fun _ => rfl⟩
  | cons x xs ih =>
    obtain ⟨le, eq⟩ := one s x
    obtain ⟨le', eq'⟩ := ih (f s x)
    rw [List.foldl_cons, List.length_cons]
    refine ⟨by omega, fun length => ?_⟩
    rw [eq' (by omega), eq (by omega)]
    simp

def collate (xs : List (Prime σ E)) : List (Prime σ E) := (xs.foldl X.appendOrCollate []).reverse

variable {X}

theorem collate_eq_self {xs : List (Prime σ E)} (distinct : xs.Pairwise fun x y => x.key ≠ y.key) :
    X.collate xs = xs := by
  have keep : ∀ s : List (Prime σ E), (∀ y ∈ s.head?, ∀ x ∈ xs.head?, y.key ≠ x.key) →
      xs.foldl X.appendOrCollate s = xs.reverse ++ s := by
    induction xs with
    | nil => exact fun s _ => rfl
    | cons x xs ih =>
      intro s apart
      obtain ⟨first, distinct⟩ := List.pairwise_cons.mp distinct
      have append : X.appendOrCollate s x = x :: s := by
        cases s with
        | nil => rfl
        | cons y s => exact if_neg fun same => apart y rfl x rfl (Prime.key_eq_iff.mpr ⟨same.2, same.1.symm⟩)
      rw [List.foldl_cons, append, ih distinct (x :: s) fun y last z next => ?_]
      · simp
      · obtain rfl := Option.some.inj last
        exact first z (List.mem_of_mem_head? next)
  rw [collate, keep [] nofun, List.append_nil, List.reverse_reverse]

theorem sorted_distinct [LinearOrder E] (sorted : ys.Pairwise fun x y => x.rank ≤ y.rank) (separated : Separated ys) :
    ys.Pairwise fun x y => x.key ≠ y.key := by
  have less : ys.Pairwise fun x y => x.key < y.key := by
    induction ys with
    | nil => exact .nil
    | cons x ys ih =>
      obtain ⟨first, sorted⟩ := List.pairwise_cons.mp sorted
      have later := ih sorted separated.tail
      refine List.pairwise_cons.mpr ⟨fun z member => ?_, later⟩
      cases ys with
      | nil => cases member
      | cons y ys =>
        have other : x.key ≠ y.key := fun same => separated.fresh y rfl (Prime.key_eq_iff.mp same).2
        have next : x.key < y.key := lt_of_le_of_ne (Prime.key_le_of_rank_le (first y (.head _))) other
        rcases List.mem_cons.mp member with rfl | member
        · exact next
        · exact next.trans (List.rel_of_pairwise_cons later member)
  exact less.imp ne_of_lt

/-- The sorted entries `ys` are the result of as many entries `xs` iff `xs` are `ys` in some order and no neighbours in
`ys` have the same prime. -/
theorem sortAndCompress_collate_iff {xs : List (Prime σ E)} [LinearOrder E] (order : ∀ e f, X.le e f ↔ e ≤ f)
    (sorted : ys.Pairwise fun x y => x.rank ≤ y.rank) (length : xs.length = ys.length) :
    X.sortAndCompress (X.collate xs) = ys ↔ Separated ys ∧ xs.Perm ys := by
  constructor
  · intro eq
    refine ⟨eq ▸ sortAndCompress_separated, ?_⟩
    obtain ⟨collated_le, collated_eq⟩ := length_foldl xs [] X.length_appendOrCollate
    obtain ⟨le, same⟩ := length_foldl (X.sort (X.collate xs)) [] X.length_compress
    have sort_length := (X.perm_sort (X.collate xs)).length_eq
    have result_length : ((X.sort (X.collate xs)).foldl X.compress []).length = ys.length := by
      rw [← eq]
      exact (List.length_reverse ..).symm
    have collate_length : (X.collate xs).length = (xs.foldl X.appendOrCollate []).length := List.length_reverse ..
    simp only [List.length_nil, Nat.zero_add] at collated_le collated_eq le same
    have collated := collated_eq (by omega)
    have compressed := same (by omega)
    rw [List.append_nil] at collated compressed
    have result : X.sort (X.collate xs) = ys := by
      rw [← eq]
      change _ = ((X.sort (X.collate xs)).foldl X.compress []).reverse
      rw [compressed, List.reverse_reverse]
    have collate_self : X.collate xs = xs := by rw [collate, collated, List.reverse_reverse]
    rw [collate_self] at result
    exact result ▸ (X.perm_sort xs).symm
  · rintro ⟨separated, perm⟩
    have distinct := sorted_distinct sorted separated
    have collate_self : X.collate xs = xs :=
      collate_eq_self (perm.symm.pairwise distinct fun other => other.symm)
    rw [collate_self]
    exact sortAndCompress_eq_self order sorted separated perm

end ExponentType

/-! ## The entries of printed sides -/

section
variable {T : PrimeType ℤ E} {primes : List (Prime ℤ E)} (words : Prime ℤ E → List (Word E))

theorem entries_append (k : ℤ) (sides : List (List (Word E))) (last : List (Word E)) :
    T.entries k (sides ++ [last]) = T.entries k sides ++ last.map fun w => ⟨T.side (k + sides.length), w.p, w.e⟩ := by
  induction sides generalizing k with
  | nil => simp [entries]
  | cons side sides ih =>
    rw [List.cons_append, entries, ih, entries, List.append_assoc]
    congr 4
    simp [Int.add_assoc, Int.add_comm]

theorem filter_side (sorted : primes.Pairwise fun x y => x.side ≤ y.side) (n : ℕ) :
    (primes.filter fun x => x.side < ((n + 1 : ℕ) : ℤ)) =
      (primes.filter fun x => x.side < (n : ℤ)) ++ primes.filter fun x => x.side = (n : ℤ) := by
  have split := filter_split (sorted.filter fun x => x.side < ((n + 1 : ℕ) : ℤ)) (n : ℤ)
  simp only [List.filter_filter] at split
  rw [split]
  have none_after : (primes.filter fun x => decide ((n : ℤ) < x.side) && decide (x.side < ((n + 1 : ℕ) : ℤ))) = [] := by
    refine List.filter_eq_nil_iff.mpr fun x _ => ?_
    simp only [Bool.and_eq_true, decide_eq_true_eq]
    omega
  rw [none_after, List.append_nil]
  congr 1
  · refine List.filter_congr fun x _ => ?_
    rw [Bool.and_eq_left_iff_imp]
    simp only [decide_eq_true_eq]
    omega
  · refine List.filter_congr fun x _ => ?_
    rw [Bool.and_eq_left_iff_imp]
    simp only [decide_eq_true_eq]
    omega

theorem entries_sides (side : ∀ k, T.side k = k) (sorted : primes.Pairwise fun x y => x.side ≤ y.side)
    (nonneg : ∀ x ∈ primes, 0 ≤ x.side) (n : ℕ) : T.entries 0 (Relation.sides words primes n) =
      (primes.filter fun x => x.side < (n : ℤ)).flatMap fun x => (words x).map fun w => ⟨x.side, w.p, w.e⟩ := by
  induction n with
  | zero =>
    have none_below : (primes.filter fun x => x.side < ((0 : ℕ) : ℤ)) = [] :=
      List.filter_eq_nil_iff.mpr fun x member => by simpa using nonneg x member
    rw [none_below]
    rfl
  | succ n ih =>
    have snoc : Relation.sides words primes (n + 1) =
        Relation.sides words primes n ++ [(primes.filter fun x => x.side = (n : ℤ)).flatMap words] := by
      simp [Relation.sides, List.range_succ]
    have length : (Relation.sides words primes n).length = n := by simp [Relation.sides]
    rw [snoc, entries_append, ih, filter_side sorted, List.flatMap_append, length, Int.zero_add, side, List.map_flatMap]
    congr 1
    refine List.flatMap_congr fun x member => List.map_congr_left fun w _ => ?_
    rw [of_decide_eq_true (List.mem_filter.mp member).2]

end

/-! ## Exponents in unary -/

section
variable {bits base : ℕ} {x : Prime σ ℤ} {xs : List (Prime σ ℤ)}

def copyText (base : ℕ) (x : Prime σ ℤ) : PrimeText := ⟨x.e < 0, Nat.toDigits base x.p, none⟩

def copies (bits base : ℕ) (x : Prime σ ℤ) : List (Word ℤ) :=
  List.replicate x.e.natAbs ((copyText base x).wrapped bits)

def reread (bits base : ℕ) (x : Prime σ ℤ) : Prime σ ℤ :=
  { x with p := valueOf ugly 16 0 (Nat.toDigits base x.p) % 2 ^ 64 % 2 ^ bits }

def unary (x : Prime σ ℤ) : List (Prime σ ℤ) := List.replicate x.e.natAbs { x with e := if x.e < 0 then -1 else 1 }

omit [LinearOrder σ] in
theorem copyText_grammatical (one_lt : 1 < base) (small : base ≤ 16) : (copyText base x).Grammatical where
  nonempty := Nat.toDigits_ne_nil
  digits c member := ((prints_ugly.mono small).digit_lt one_lt c member).trans_le small
  exponent := nofun

omit [LinearOrder σ] in
theorem copies_eq : (copies bits base x).map (fun w => (⟨x.side, w.p, w.e⟩ : Prime σ ℤ)) =
    unary (reread bits base x) := by
  rw [copies, List.map_replicate, unary]
  congr 2
  by_cases negative : x.e < 0 <;>
    simp [PrimeText.wrapped, PrimeText.word, PrimeText.exponentValue, PrimeText.signed, copyText, reread, negative]

omit [LinearOrder σ] in
theorem sideText_copies : sideText (copies bits base x) =
    formatUnary base (if x.e < 0 then ['-'] else []) x.p x.e.natAbs := by
  rw [sideText, copies, List.map_replicate, formatUnary]
  congr 2
  by_cases negative : x.e < 0 <;>
    simp [PrimeText.wrapped, PrimeText.text, PrimeText.sign, PrimeText.exponentText, copyText, negative]

theorem reads_copies {T : PrimeType σ ℤ} (integers : T.exponent = intExponent) (one_lt : 1 < base) (small : base ≤ 16) :
    ∀ w ∈ copies T.bits base x, T.Reads w := by
  intro w member
  rw [(List.mem_replicate.mp member).2]
  exact PrimeText.reads integers (copyText_grammatical one_lt small)

omit [LinearOrder σ] in
theorem copies_ne (nonzero : x.e ≠ 0) : copies bits base x ≠ [] := by
  rw [copies, Ne, List.replicate_eq_nil_iff]
  exact Int.natAbs_ne_zero.mpr nonzero

theorem prints_sieve {x : Prime ℤ ℤ} (pos : 0 < x.e) : (sieveType bits).Prints x (copies bits 10 x) where
  nonempty := copies_ne pos.ne'
  format := by
    rw [sideText_copies, if_neg pos.not_gt]
    exact if_pos pos.le
  reads := reads_copies (T := sieveType bits) rfl (by decide) (by decide)

theorem prints_indexed {x : Prime Unit ℤ} (nonzero : x.e ≠ 0) : (indexedType bits).Prints x (copies bits 16 x) where
  nonempty := copies_ne nonzero
  format := by
    rw [sideText_copies]
    exact if_neg nonzero
  reads := reads_copies (T := indexedType bits) rfl (by decide) le_rfl

theorem runs_replicate (xs : List (Prime σ ℤ)) {y : Prime σ ℤ} (n : ℕ) {e : ℤ} (sum : (n + 1 : ℕ) * y.e = e) :
    runs (List.replicate (n + 1) y ++ xs) = runs ({ y with e } :: xs) := by
  induction n generalizing e with
  | zero =>
    rw [← sum]
    simp
  | succ n ih =>
    have merge := runs_cons_same (x := y) (y := { y with e := (n + 1 : ℕ) * y.e }) xs rfl
    rw [List.replicate_succ, List.cons_append, runs_congr y (ih rfl), merge, ← sum]
    congr 3
    push_cast
    ring

theorem runs_unary (nonzero : x.e ≠ 0) : runs (unary x ++ xs) = runs (x :: xs) := by
  obtain ⟨n, eq⟩ := Nat.exists_eq_succ_of_ne_zero (Int.natAbs_ne_zero.mpr nonzero)
  rw [unary, eq]
  refine runs_replicate xs n ?_
  by_cases negative : x.e < 0
  · simp only [negative, if_true]
    omega
  · simp only [negative, if_false]
    omega

theorem runs_flatMap_unary (nonzero : ∀ x ∈ xs, x.e ≠ 0) : runs (xs.flatMap unary) = runs xs := by
  induction xs with
  | nil => rfl
  | cons x xs ih =>
    rw [List.forall_mem_cons] at nonzero
    rw [List.flatMap_cons, runs_unary nonzero.1, runs_congr x (ih nonzero.2)]

theorem collate_flatMap_unary (nonzero : ∀ x ∈ xs, x.e ≠ 0) :
    intExponent.collate (xs.flatMap unary) = intExponent.collate xs := by
  rw [collate, collate, appendOrCollate_eq_runs, appendOrCollate_eq_runs, runs_flatMap_unary nonzero]

omit [LinearOrder σ] in
theorem reread_eq (lt : x.p < 2 ^ min bits 64) : reread bits 16 x = x := by
  have value := AbBlock.valueOf_toDigits (show 1 < 16 by decide) le_rfl x.p
  rw [reread, value, Nat.mod_eq_of_lt (lt.trans_le (Nat.pow_le_pow_right two_pos (min_le_right ..))),
    Nat.mod_eq_of_lt (lt.trans_le (Nat.pow_le_pow_right two_pos (min_le_left ..)))]

end

end CadoNfs.Utils.FilterIo
