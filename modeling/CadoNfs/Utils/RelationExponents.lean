import CadoNfs.Utils.RelationParse

/-!
# Exponent vectors as text

`format_to` prints a polynomial in `s`, but no power for the coefficient of `s^3`: `parse` adds that coefficient to the
constant one. It prints nothing for a constant coefficient 1: before a minus `parse` does not see it.
-/

namespace CadoNfs.Utils.FilterIo
open Lib

def scalarText (m : ℕ) : Text := if m = 1 then [] else Nat.toDigits 10 m

def powerText (i : ℕ) : Text :=
  if i = 1 then ['s'] else if i = 2 then ['s', 's'] else if 3 < i then 's' :: '^' :: Nat.toDigits 10 i else []

def powerIndex (i : ℕ) : ℕ := if i = 3 then 0 else i

def EndsTerm (c : Char) : Prop := c = '+' ∨ c = '-' ∨ c = ',' ∨ c = ':' ∨ c = '\n'

variable {i n m fuel : ℕ} {c : Char} {s : Text} {x : ℤ} {first : Bool} {v : List ℤ}

theorem EndsTerm.ugly (ends : EndsTerm c) : ugly c = 255 := by
  rcases ends with rfl | rfl | rfl | rfl | rfl <;> rfl

theorem EndsTerm.ne (ends : EndsTerm c) : c ≠ 's' ∧ c ≠ '*' ∧ c ≠ '^' := by
  rcases ends with rfl | rfl | rfl | rfl | rfl <;> decide

theorem formatTerm_eq (nonzero : x ≠ 0) : formatTerm i x first =
    (if x < 0 then ['-'] else if first then [] else ['+']) ++ (scalarText x.natAbs ++ powerText i) := by
  have scalar : (if x < -1 then formatInt 10 x else if x = -1 then ['-'] else if x = 1 then (if first then [] else ['+'])
      else if first then formatInt 10 x else '+' :: formatInt 10 x) =
      (if x < 0 then ['-'] else if first then [] else ['+']) ++ scalarText x.natAbs := by
    rcases lt_trichotomy x 0 with negative | zero | positive
    · by_cases one : x = -1
      · subst one
        rfl
      · have less : x < -1 := by omega
        have not_one : x.natAbs ≠ 1 := by omega
        simp [less, negative, formatInt, scalarText, not_one]
    · exact absurd zero nonzero
    · have not_less : ¬x < -1 := by omega
      have not_neg : ¬x < 0 := by omega
      have not_minus : x ≠ -1 := by omega
      by_cases one : x = 1
      · subst one
        cases first <;> rfl
      · have not_one : x.natAbs ≠ 1 := by omega
        cases first <;> simp [not_less, not_neg, not_minus, one, formatInt, scalarText, not_one]
  rw [formatTerm, scalar, List.append_assoc]
  rfl

theorem parsePower_stop (fuel : ℕ) (ends : EndsTerm c) (j : ℕ) : parsePower (fuel + 1) j (c :: s) = (j, c :: s) := by
  obtain ⟨not_s, not_star, -⟩ := ends.ne
  rw [parsePower, cur_cons, if_neg not_star]
  exact if_pos not_s

theorem parsePower_text (fuel : ℕ) (ends : EndsTerm c) :
    parsePower (fuel + 2) 0 (powerText i ++ c :: s) = (powerIndex i, c :: s) := by
  obtain ⟨not_s, not_star, not_power⟩ := ends.ne
  have takes : (c :: s).takeWhile (· = 's') = [] := by simp [not_s]
  have drops : (c :: s).dropWhile (· = 's') = c :: s := by simp [not_s]
  rcases Nat.lt_or_ge 3 i with large | small
  · have text : powerText i ++ c :: s = 's' :: '^' :: (Nat.toDigits 10 i ++ c :: s) := by
      rw [powerText, if_neg (by omega), if_neg (by omega), if_pos large]
      rfl
    have number : readNumber ugly 10 0 (Nat.toDigits 10 i ++ c :: s) = (i, c :: s) := by
      refine (prints_ugly.mono (by decide)).readNumber_toDigits (by decide) fun d member => ?_
      obtain rfl : c = d := by simpa using member
      rw [ends.ugly]
      decide
    have rest := parsePower_stop (s := s) fuel ends (0 + 1 + i - 1)
    rw [text, parsePower]
    simpa [number, powerIndex, large.ne'] using rest
  · have rest (j : ℕ) := parsePower_stop (s := s) fuel ends j
    interval_cases i
    · exact parsePower_stop _ ends 0
    · rw [show powerText 1 ++ c :: s = 's' :: c :: s from rfl, parsePower]
      simp [not_power, not_s, rest, powerIndex]
    · rw [show powerText 2 ++ c :: s = 's' :: 's' :: c :: s from rfl, parsePower]
      simp [not_power, not_s, rest, powerIndex]
    · exact parsePower_stop _ ends 0

theorem parseScalar_scalarText (pos : 0 < m) (ends : EndsTerm c ∨ c = 's') :
    parseScalar (scalarText m ++ c :: s) = some (m, c :: s) := by
  have stop : ugly c = 255 := ends.elim EndsTerm.ugly fun eq => eq ▸ rfl
  by_cases one : m = 1
  · subst one
    have number : readNumber ugly 10 0 (c :: s) = (0, c :: s) := by
      rw [readNumber, if_neg (by rw [stop]; decide)]
    simp [parseScalar, scalarText, stop, number, guard]
  · have prints := prints_ugly.mono (show 10 ≤ 16 by decide)
    obtain ⟨d, t, eq, nonzero⟩ := prints.toDigits_head (by decide) pos
    have number : readNumber ugly 10 0 (Nat.toDigits 10 m ++ c :: s) = (m, c :: s) := by
      refine prints.readNumber_toDigits (by decide) fun d member => ?_
      obtain rfl : c = d := by simpa using member
      omega
    have head : ugly (cur (Nat.toDigits 10 m ++ c :: s)) ≠ 0 := by
      rw [eq]
      exact nonzero
    simp [parseScalar, scalarText, one, number, guard, head, pos.ne']

theorem parseTerm_text (pos : 0 < m) (ends : EndsTerm c) (negative : Bool) :
    parseTerm n negative v (scalarText m ++ powerText i ++ c :: s) =
      some (v.modify (powerIndex i % n) (· + if negative then -(m : ℤ) else m), c :: s) := by
  have head : ∃ d u, powerText i ++ c :: s = d :: u ∧ (EndsTerm d ∨ d = 's') := by
    rw [powerText]
    split_ifs
    · exact ⟨'s', _, rfl, .inr rfl⟩
    · exact ⟨'s', _, rfl, .inr rfl⟩
    · exact ⟨'s', _, rfl, .inr rfl⟩
    · exact ⟨c, s, rfl, .inl ends⟩
  obtain ⟨d, u, eq, after⟩ := head
  have scalar := parseScalar_scalarText (s := u) pos after
  rw [← eq] at scalar
  have long : (powerText i ++ c :: s).length + 1 = (powerText i ++ s).length + 2 := by simp; omega
  have power := parsePower_text (i := i) (s := s) (powerText i ++ s).length ends
  rw [← long] at power
  rw [parseTerm, List.append_assoc, scalar]
  simp only [Option.bind_eq_bind, Option.bind_some, power]
  rfl

def NextNegative (xs : List ℤ) : Prop := ∃ y ∈ xs.find? (· ≠ 0), y < 0

instance (xs : List ℤ) : Decidable (NextNegative xs) := inferInstanceAs (Decidable (∃ y ∈ xs.find? (· ≠ 0), y < 0))

def readTerms (n : ℕ) : ℕ → Bool → List ℤ → List ℤ → List ℤ
  | _, _, v, [] => v
  | i, first, v, x :: xs =>
    if x = 0 then readTerms n (i + 1) first v xs
    else if first ∧ x = 1 ∧ powerText i = [] ∧ NextNegative xs then readTerms n (i + 1) false v xs
    else readTerms n (i + 1) false (v.modify (powerIndex i % n) (· + x)) xs

theorem cur_formatTerms (i : ℕ) (xs : List ℤ) (ends : c = ',' ∨ c = ':' ∨ c = '\n') :
    ∃ d u, formatTerms i false xs ++ c :: s = d :: u ∧ EndsTerm d ∧ (d = '-' ↔ NextNegative xs) := by
  induction xs generalizing i with
  | nil =>
    refine ⟨c, s, rfl, .inr (.inr ends), iff_of_false ?_ (by rintro ⟨y, absurd, -⟩; cases absurd)⟩
    rcases ends with rfl | rfl | rfl <;> decide
  | cons x xs ih =>
    by_cases zero : x = 0
    · rw [formatTerms, if_pos zero]
      simpa [NextNegative, zero] using ih (i + 1)
    · rw [formatTerms, if_neg zero, formatTerm_eq zero]
      by_cases negative : x < 0
      · exact ⟨'-', _, by rw [if_pos negative]; rfl, .inr (.inl rfl), by simp [NextNegative, zero, negative]⟩
      · exact ⟨'+', _, by rw [if_neg negative]; rfl, .inl rfl, by simpa [NextNegative, zero] using negative⟩

theorem parseTerms_minus (minus : cur s = '-') : parseTerms n fuel true v s = parseTerms n fuel false v s := by
  cases fuel with
  | zero => rfl
  | succ fuel => rw [parseTerms, parseTerms, if_pos minus, if_pos minus]

theorem cur_scalarText {d : Char} (pos : 0 < m) :
    cur (scalarText m ++ (powerText i ++ d :: s)) = '-' ↔ m = 1 ∧ powerText i = [] ∧ d = '-' := by
  by_cases one : m = 1
  · subst one
    rw [scalarText, if_pos rfl, List.nil_append]
    cases power : powerText i with
    | nil => simp
    | cons h t =>
      have head : h = 's' := by
        rw [powerText] at power
        split_ifs at power <;> exact (List.cons.inj power).1.symm
      simp [head]
  · obtain ⟨h, t, eq, -⟩ := (prints_ugly.mono (show 10 ≤ 16 by decide)).toDigits_head (by decide) pos
    have digit := (prints_ugly.mono (show 10 ≤ 16 by decide)).digit_lt (n := m)
      (by decide) h (eq ▸ List.mem_cons_self ..)
    rw [scalarText, if_neg one, eq]
    refine iff_of_false (fun minus => ?_) fun all => one all.1
    rw [show h = '-' from minus] at digit
    exact absurd digit (by decide)

theorem parseTerms_text (i : ℕ) (first : Bool) (v xs : List ℤ) (some_term : first → ∃ x ∈ xs, x ≠ 0)
    (ends : c = ',' ∨ c = ':' ∨ c = '\n') (enough : xs.countP (· ≠ 0) < fuel) :
    parseTerms n fuel first v (formatTerms i first xs ++ c :: s) = some (readTerms n i first v xs, c :: s) := by
  induction xs generalizing i v first fuel with
  | nil =>
    cases first with
    | true => simp at some_term
    | false =>
      obtain ⟨fuel, rfl⟩ := Nat.exists_eq_succ_of_ne_zero (Nat.ne_of_gt enough)
      have other : c ≠ '-' ∧ c ≠ '+' := by rcases ends with rfl | rfl | rfl <;> decide
      simp [parseTerms, formatTerms, other, readTerms]
  | cons x xs ih =>
    by_cases zero : x = 0
    · rw [formatTerms, if_pos zero, readTerms, if_pos zero]
      refine ih (i + 1) first v (fun is_first => ?_) (by simpa [zero] using enough)
      obtain ⟨y, member, nonzero⟩ := some_term is_first
      exact ⟨y, (List.mem_cons.mp member).resolve_left fun eq => nonzero (eq.trans zero), nonzero⟩
    · obtain ⟨fuel, rfl⟩ := Nat.exists_eq_succ_of_ne_zero (Nat.ne_of_gt (Nat.zero_lt_of_lt enough))
      have pos : 0 < x.natAbs := Int.natAbs_pos.mpr zero
      obtain ⟨d, u, eq, after, minus_iff⟩ := cur_formatTerms (c := c) (s := s) (i + 1) xs ends
      have few : xs.countP (· ≠ 0) < fuel := by simpa [zero] using enough
      have term (negative : Bool) := parseTerm_text (n := n) (v := v) (i := i) (s := u) pos after negative
      rw [← eq] at term
      rw [formatTerms, if_neg zero, formatTerm_eq zero, readTerms, if_neg zero, List.append_assoc, List.append_assoc]
      simp only [List.append_assoc] at term
      by_cases negative : x < 0
      · have value : (-(x.natAbs : ℤ)) = x := by omega
        have minus := term true
        rw [if_pos rfl, value] at minus
        rw [if_pos negative, if_neg (by omega), parseTerms, ← ih (i + 1) false _ nofun few]
        simp only [List.cons_append, List.nil_append, cur_cons, if_true, List.tail_cons, List.append_assoc, minus,
          Option.bind_eq_bind, Option.bind_some]
      · have value : (x.natAbs : ℤ) = x := by omega
        have plus := term false
        rw [if_neg (by decide), value] at plus
        rw [if_neg negative]
        cases first with
        | true =>
          have lost_iff := cur_scalarText (s := u) (i := i) (d := d) pos
          rw [← eq, minus_iff] at lost_iff
          rw [if_pos rfl, List.nil_append, List.append_assoc]
          by_cases lost : x = 1 ∧ powerText i = [] ∧ NextNegative xs
          · -- Nothing was printed for the coefficient.
            obtain ⟨rfl, power, next⟩ := lost
            have minus := lost_iff.mpr ⟨rfl, power, next⟩
            rw [if_pos ⟨rfl, rfl, power, next⟩, parseTerms_minus minus, show scalarText (Int.natAbs 1) = [] from rfl,
              power]
            exact ih (i + 1) false _ nofun (few.trans (Nat.lt_succ_self _))
          · have not_minus : cur (scalarText x.natAbs ++ (powerText i ++ (formatTerms (i + 1) false xs ++ c :: s))) ≠
              '-' :=
              fun minus => lost ⟨by have := (lost_iff.mp minus).1; omega, (lost_iff.mp minus).2⟩
            rw [if_neg (fun all => lost all.2), parseTerms, ← ih (i + 1) false _ nofun few, if_neg not_minus]
            simp only [if_true, plus, Option.bind_eq_bind, Option.bind_some]
        | false =>
          rw [if_neg (by decide), if_neg (fun all => absurd all.1 (by decide)), parseTerms,
            ← ih (i + 1) false _ nofun few]
          simp [plus]

/-! ## What is read back -/

theorem powerText_eq_nil : powerText i = [] ↔ i = 0 ∨ i = 3 := by
  rw [powerText]
  split_ifs
  · simp; omega
  · simp; omega
  · simp; omega
  · simp; omega

theorem modify_append (before after : List ℤ) (y : ℤ) (f : ℤ → ℤ) :
    (before ++ y :: after).modify before.length f = before ++ f y :: after := by
  induction before with
  | nil => rfl
  | cons z before ih => exact congrArg (z :: ·) ih

theorem readTerms_false (before xs : List ℤ) (length : before.length + xs.length = n)
    (powers : ∀ j x, xs[j]? = some x → x ≠ 0 → before.length + j ≠ 3) :
    readTerms n before.length false (before ++ List.replicate xs.length 0) xs = before ++ xs := by
  induction xs generalizing before with
  | nil => rfl
  | cons x xs ih =>
    have later := ih (before ++ [x]) (by simp at length ⊢; omega) fun j y at_j nonzero => by
      have := powers (j + 1) y at_j nonzero
      rw [List.length_append, List.length_singleton]
      omega
    simp only [List.length_append, List.length_singleton, List.append_assoc, List.singleton_append] at later
    by_cases zero : x = 0
    · rw [readTerms, if_pos zero]
      rw [zero] at later ⊢
      exact later
    · have index : powerIndex before.length % n = before.length := by
        rw [powerIndex, if_neg (by simpa using powers 0 x rfl zero)]
        exact Nat.mod_eq_of_lt (by simp at length; omega)
      have added : (before ++ List.replicate (x :: xs).length 0).modify before.length (· + x) =
          before ++ x :: List.replicate xs.length 0 := by
        rw [List.length_cons, List.replicate_succ, modify_append]
        simp
      rw [readTerms, if_neg zero, if_neg (by simp), index, added]
      exact later

theorem readTerms_first (xs : List ℤ) (i : ℕ) (v : List ℤ)
    (printed : ∀ j x, xs[j]? = some x → x ≠ 0 → powerText (i + j) ≠ []) :
    readTerms n i true v xs = readTerms n i false v xs := by
  induction xs generalizing i v with
  | nil => rfl
  | cons x xs ih =>
    by_cases zero : x = 0
    · rw [readTerms, readTerms, if_pos zero, if_pos zero]
      refine ih (i + 1) v fun j y at_j nonzero => ?_
      have := printed (j + 1) y at_j nonzero
      rwa [show i + (j + 1) = i + 1 + j by omega] at this
    · rw [readTerms, readTerms, if_neg zero, if_neg zero, if_neg, if_neg (by simp)]
      exact fun lost => printed 0 x rfl zero lost.2.2.1

theorem readTerms_three (xs : List ℤ) (i : ℕ) (first : Bool) (v : List ℤ) (length : i + xs.length ≤ n) :
    (readTerms n i first v xs)[3]? = v[3]? := by
  induction xs generalizing i first v with
  | nil => rfl
  | cons x xs ih =>
    have length' : i + 1 + xs.length ≤ n := by simp at length; omega
    have other : powerIndex i % n ≠ 3 := by
      have less : powerIndex i < n := by
        rw [powerIndex]
        split_ifs <;> omega
      rw [Nat.mod_eq_of_lt less, powerIndex]
      split_ifs <;> omega
    rw [readTerms]
    split_ifs
    · exact ih _ _ _ length'
    · exact ih _ _ _ length'
    · rw [ih _ _ _ length', List.getElem?_modify_ne _ _ other]

/-- No coefficient of `s^3`, and no constant coefficient 1 before a minus. -/
def Readable (e : List ℤ) : Prop := e[3]?.getD 0 = 0 ∧ ¬(e.head? = some 1 ∧ NextNegative e.tail)

def readBack (e : List ℤ) : List ℤ := readTerms e.length 0 true (List.replicate e.length 0) e

theorem readBack_eq_iff {e : List ℤ} : readBack e = e ↔ Readable e := by
  rw [readBack, Readable]
  constructor
  · intro same
    have three := readTerms_three e 0 true (List.replicate e.length 0) (Nat.zero_add _).le
    rw [same] at three
    have no_three : e[3]?.getD 0 = 0 := by
      rw [three, List.getElem?_replicate]
      split_ifs <;> rfl
    refine ⟨no_three, ?_⟩
    rintro ⟨one, next⟩
    cases e with
    | nil => cases one
    | cons x xs =>
      obtain rfl := Option.some.inj one
      have rest := readTerms_false (n := xs.length + 1) [0] xs (Nat.add_comm ..) fun j y at_j nonzero three => by
        obtain rfl : j = 2 := by rw [List.length_singleton] at three; omega
        simp [at_j] at no_three
        exact nonzero no_three
      rw [readTerms, if_neg one_ne_zero, if_pos ⟨rfl, rfl, powerText_eq_nil.mpr (.inl rfl), next⟩] at same
      exact absurd (rest.symm.trans same) (by simp)
  · rintro ⟨no_three, kept⟩
    cases e with
    | nil => rfl
    | cons x xs =>
      have powers : ∀ (j : ℕ) (y : ℤ), xs[j]? = some y → y ≠ 0 → 1 + j ≠ 3 := by
        intro j y at_j nonzero three
        obtain rfl : j = 2 := by omega
        simp [at_j] at no_three
        exact nonzero no_three
      have rest := readTerms_false (n := xs.length + 1) [x] xs (Nat.add_comm ..) powers
      by_cases zero : x = 0
      · subst zero
        have printed : ∀ (j : ℕ) (y : ℤ), xs[j]? = some y → y ≠ 0 → powerText (1 + j) ≠ [] := by
          intro j y at_j nonzero none
          rcases powerText_eq_nil.mp none with zero | three
          · omega
          · exact powers j y at_j nonzero three
        rw [readTerms, if_pos rfl]
        exact (readTerms_first xs 1 _ printed).trans rest
      · have added : (List.replicate (x :: xs).length (0 : ℤ)).modify (powerIndex 0 % (x :: xs).length) (· + x) =
            [x] ++ List.replicate xs.length 0 := by
          simp [powerIndex, List.replicate_succ]
        rw [readTerms, if_neg zero, if_neg fun lost => kept ⟨by rw [List.head?_cons, lost.2.1], lost.2.2.2⟩, added]
        exact rest

end CadoNfs.Utils.FilterIo
