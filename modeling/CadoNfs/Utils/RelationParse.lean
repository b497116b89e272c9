import CadoNfs.Utils.RelationBlocks

/-!
# What the relation parser reads

The text of a relation is made of the text of `a` and `b` and, for each side, of the texts of its primes.
-/

namespace CadoNfs.Utils.FilterIo
open Lib

def Stops (c : Char) : Prop := c = ',' ∨ c = ':' ∨ c = '\n' ∨ c = '@' ∨ c = '/'

theorem Stops.ugly {c : Char} (stops : Stops c) : ugly c = 255 := by
  rcases stops with rfl | rfl | rfl | rfl | rfl <;> rfl

theorem prints_ugly : Prints ugly 16 := by
  unfold Prints
  decide

@[simp] theorem cur_cons (c : Char) (s : Text) : cur (c :: s) = c := rfl

def Digits (base : ℕ) (text : Text) : Prop := ∀ c ∈ text, ugly c < base

theorem Digits.readNumber {base : ℕ} {text s : Text} {c : Char} (digits : Digits base text) (small : base ≤ 16)
    (stop : ugly c = 255) : readNumber ugly base 0 (text ++ c :: s) = (valueOf ugly base 0 text, c :: s) := by
  refine readNumber_append digits fun d member => ?_
  obtain rfl : c = d := by simpa using member
  omega

theorem Digits.head_ne {base : ℕ} {text s : Text} {c : Char} (digits : Digits base text) (small : base ≤ 16) (d : Char)
    (not_digit : ugly d = 255) (other : c ≠ d) : cur (text ++ c :: s) ≠ d := by
  cases text with
  | nil => exact other
  | cons x text =>
    intro same
    have lt := digits x (.head _)
    rw [show x = d from same, not_digit] at lt
    omega

structure AbText where
  negative : Bool
  a : Text
  b : Text
  activeSides : Option (Text × Text)

namespace AbText

def activeText (x : AbText) : Text :=
  match x.activeSides with
  | some (side0, side1) => '@' :: side0 ++ ',' :: side1
  | none => []

def text (x : AbText) : Text := (if x.negative then ['-'] else []) ++ x.a ++ ',' :: x.b ++ x.activeText

structure WellFormed (base : ℕ) (x : AbText) : Prop where
  a : Digits base x.a
  b : Digits base x.b
  activeSides : ∀ sides ∈ x.activeSides, Digits 10 sides.1 ∧ Digits 10 sides.2

def sides (x : AbText) : ℕ × ℕ :=
  match x.activeSides with
  | some (side0, side1) => (valueOf ugly 10 0 side0, valueOf ugly 10 0 side1)
  | none => (0, 1)

def block (t : AbType) (base : ℕ) (x : AbText) (w : ℤ) : AbBlock :=
  ⟨if x.negative then -w else w, t.word (valueOf ugly base 0 x.b), x.sides⟩

def cast (t : AbType) (base : ℕ) (x : AbText) : Option ℤ := t.signed (t.word (valueOf ugly base 0 x.a))

def Fits (t : AbType) (base : ℕ) (x : AbText) : Prop := t = .uint64 → valueOf ugly base 0 x.a % 2 ^ 64 < 2 ^ 63

variable {x : AbText} {t : AbType} {base : ℕ} {s : Text}

theorem fits_iff : x.Fits t base ↔ ∃ w, x.cast t base = some w := by
  cases t with
  | uint64 =>
    by_cases fits : valueOf ugly base 0 x.a % 2 ^ 64 < 2 ^ 63
    · exact iff_of_true (fun _ => fits) ⟨_, if_pos fits⟩
    · refine iff_of_false (fun all => fits (all rfl)) ?_
      rintro ⟨w, eq⟩
      cases (if_neg fits).symm.trans eq
  | mpz => exact iff_of_true nofun ⟨_, rfl⟩

theorem readNumber_a (wf : x.WellFormed base) (small : base ≤ 16) {u : Text} :
    (cur (x.text ++ u) == '-') = x.negative ∧
      readNumber ugly base 0 (if x.negative then (x.text ++ u).tail else x.text ++ u) =
        (valueOf ugly base 0 x.a, ',' :: x.b ++ x.activeText ++ u) := by
  obtain ⟨negative, a, b, activeSides⟩ := x
  cases negative with
  | true =>
    refine ⟨rfl, ?_⟩
    simp only [text, if_true, List.cons_append, List.nil_append, List.tail_cons, List.append_assoc]
    exact wf.a.readNumber small rfl
  | false =>
    simp only [text, Bool.false_eq_true, if_false, List.cons_append, List.nil_append, List.append_assoc]
    exact ⟨by simpa using wf.a.head_ne small '-' rfl (by decide), wf.a.readNumber small rfl⟩

theorem parse {c : Char} (wf : x.WellFormed base) (small : base ≤ 16) (stop : ugly c = 255) (not_at : c ≠ '@') :
    parseAb t base (x.text ++ c :: s) = (x.cast t base).map fun w => (x.block t base w, c :: s) := by
  obtain ⟨sign, number⟩ := readNumber_a wf small (u := c :: s)
  unfold parseAb
  simp only [sign, number]
  cases found : x.cast t base with
  | none => simp [show t.signed (t.word (valueOf ugly base 0 x.a)) = none from found]
  | some w =>
    simp only [show t.signed (t.word (valueOf ugly base 0 x.a)) = some w from found]
    cases active : x.activeSides with
    | none => simp [cur, wf.b.readNumber small stop, not_at, block, sides, activeText, active]
    | some sides =>
      obtain ⟨digits0, digits1⟩ := wf.activeSides sides active
      have b := wf.b.readNumber (c := '@') (s := sides.1 ++ ',' :: sides.2 ++ c :: s) small rfl
      have side0 := digits0.readNumber (c := ',') (s := sides.2 ++ c :: s) (by decide) rfl
      simp only [List.append_assoc, List.cons_append] at b side0
      simp [cur, b, side0, digits1.readNumber (by decide) stop, block, AbText.sides, activeText, active]

end AbText

structure Word (E : Type) where
  text : Text
  p : ℕ
  e : E

variable {σ E : Type} [LinearOrder σ]

namespace PrimeType

structure Reads (T : PrimeType σ E) (w : Word E) : Prop where
  head : ∃ c t, w.text = c :: t ∧ c ≠ ':' ∧ c ≠ '\n'
  parse : ∀ st c s, c = ',' ∨ c = ':' ∨ c = '\n' → T.parsePrime st (w.text ++ c :: s) =
    some ({ st with primes := T.exponent.appendOrCollate st.primes ⟨T.side st.side, w.p, w.e⟩ }, c :: s)

def sideText (words : List (Word E)) : Text := List.intercalate [','] (words.map Word.text)

def sidesText (sides : List (List (Word E))) : Text := sides.flatMap fun words => ':' :: sideText words

theorem sideText_cons (w : Word E) (words : List (Word E)) :
    sideText (w :: words) = w.text ++ words.flatMap fun w => ',' :: w.text := by
  induction words generalizing w with
  | nil => simp [sideText, List.intercalate]
  | cons v words ih =>
    have split : sideText (w :: v :: words) = w.text ++ ',' :: sideText (v :: words) := by
      simp [sideText, List.intercalate]
    rw [split, ih]
    simp

variable (T : PrimeType σ E)

def entries : ℤ → List (List (Word E)) → List (Prime σ E)
  | _, [] => []
  | k, words :: sides => (words.map fun w => ⟨T.side k, w.p, w.e⟩) ++ entries (k + 1) sides

def State.append (st : State σ E) (primes : List (Prime σ E)) : State σ E :=
  { st with primes := primes.foldl T.exponent.appendOrCollate st.primes }

variable {T} {delim c : Char} (st : State σ E) (first : Bool) (fuel : ℕ) {s : Text}

theorem parseLoop_stop (stop : c = delim ∨ c = '\n') :
    T.parseLoop delim (fuel + 1) false st (c :: s) = some (st, c :: s) := by
  rw [parseLoop, if_neg]
  rintro (absurd | ⟨-, other, not_newline⟩)
  · cases absurd
  · exact stop.elim other not_newline

omit [LinearOrder σ] in
theorem exists_next (stop : c = ':' ∨ c = '\n') (words : List (Word E)) :
    ∃ d u, (words.flatMap fun w => ',' :: w.text) ++ c :: s = d :: u ∧ (d = ',' ∨ d = ':' ∨ d = '\n') := by
  cases words with
  | nil => exact ⟨c, s, rfl, .inr stop⟩
  | cons v words => exact ⟨',', _, rfl, .inl rfl⟩

theorem parseLoop_words (delims : delim = ':' ∨ delim = '\n') (stop : c = ':' ∨ c = '\n') (words : List (Word E))
    (reads : ∀ w ∈ words, T.Reads w) :
    T.parseLoop delim (words.length + fuel) false st ((words.flatMap fun w => ',' :: w.text) ++ c :: s) =
      T.parseLoop delim fuel false (st.append T (words.map fun w => ⟨T.side st.side, w.p, w.e⟩)) (c :: s) := by
  induction words generalizing st with
  | nil =>
    rw [List.length_nil, Nat.zero_add]
    rfl
  | cons w words ih =>
    rw [List.forall_mem_cons] at reads
    obtain ⟨d, u, same, after⟩ := exists_next (s := s) stop words
    have one := reads.1.parse st d u after
    have rest := ih (st.append T [⟨T.side st.side, w.p, w.e⟩]) reads.2
    rw [show (w :: words).length + fuel = words.length + fuel + 1 by simp [Nat.add_right_comm], List.flatMap_cons,
      List.append_assoc, same, List.cons_append]
    rw [same] at rest
    have enter : ',' ≠ delim := by rcases delims with rfl | rfl <;> decide
    have entering : false = true ∨ ',' ≠ Char.ofNat 0 ∧ ',' ≠ delim ∧ ',' ≠ '\n' := .inr ⟨by decide, enter, by decide⟩
    rw [parseLoop]
    refine (if_pos entering).trans ((if_neg (by decide : ¬ ',' = ':')).trans ?_)
    simp [guard, one]
    exact rest

theorem skipSides_stop {side : ℤ} (stop : c = delim ∨ c ≠ ':') : skipSides delim side (c :: s) = (side, c :: s) := by
  rw [skipSides, if_neg]
  rintro ⟨other, colon⟩
  exact stop.elim other (fun not_colon => not_colon colon)

theorem parseLoop_colon (enter : first ∨ delim = '\n') :
    T.parseLoop delim (fuel + 1) first st (':' :: s) =
      let r := skipSides delim (st.side + 1) s
      let st := { st with side := r.1, sorted := false }
      if cur r.2 = delim ∨ cur r.2 = '\n' then some (st, r.2)
      else (T.parsePrime st r.2).bind fun r => T.parseLoop delim fuel false r.1 r.2 := by
  have entering : first ∨ ':' ≠ Char.ofNat 0 ∧ ':' ≠ delim ∧ ':' ≠ '\n' :=
    enter.imp id (by rintro rfl; decide)
  rw [parseLoop]
  exact (if_pos entering).trans (if_pos rfl)

theorem parseLoop_side (delims : delim = ':' ∨ delim = '\n') (enter : first ∨ delim = '\n') (stop : c = ':' ∨ c = '\n')
    (w : Word E) (words : List (Word E)) (reads : ∀ v ∈ w :: words, T.Reads v) :
    T.parseLoop delim (words.length + fuel + 1) first st (':' :: sideText (w :: words) ++ c :: s) =
      T.parseLoop delim fuel false (State.append T { st with side := st.side + 1, sorted := false }
        ((w :: words).map fun w => ⟨T.side (st.side + 1), w.p, w.e⟩)) (c :: s) := by
  rw [List.forall_mem_cons] at reads
  obtain ⟨d, u, same, after⟩ := exists_next (s := s) stop words
  obtain ⟨h, t, head, not_colon, not_newline⟩ := reads.1.head
  have one := reads.1.parse { st with side := st.side + 1, sorted := false } d u after
  have rest := parseLoop_words (s := s) (State.append T { st with side := st.side + 1, sorted := false }
    [⟨T.side (st.side + 1), w.p, w.e⟩]) fuel delims stop words reads.2
  have other : h ≠ delim := by rcases delims with rfl | rfl <;> assumption
  have skip : skipSides delim (st.side + 1) (w.text ++ d :: u) = (st.side + 1, w.text ++ d :: u) := by
    rw [head]
    exact skipSides_stop (.inr not_colon)
  have going : ¬(cur (w.text ++ d :: u) = delim ∨ cur (w.text ++ d :: u) = '\n') := by
    rw [head]
    rintro (absurd | absurd)
    · exact other absurd
    · exact not_newline absurd
  rw [same] at rest
  rw [List.cons_append, parseLoop_colon st first _ enter, sideText_cons, List.append_assoc, same, skip]
  refine (if_neg going).trans ?_
  rw [one]
  exact rest

theorem parseLoop_empty (enter : first ∨ delim = '\n') (stop : c = delim ∨ c = '\n') :
    T.parseLoop delim (fuel + 1) first st (':' :: c :: s) =
      some ({ st with side := st.side + 1, sorted := false }, c :: s) := by
  have skip : skipSides delim (st.side + 1) (c :: s) = (st.side + 1, c :: s) :=
    skipSides_stop (stop.imp id fun newline => by rw [newline]; decide)
  rw [parseLoop_colon st first fuel enter, skip]
  exact if_pos stop

theorem parseLoop_colons (not_colon : delim ≠ ':') (enter : first ∨ delim = '\n') :
    T.parseLoop delim (fuel + 1) first st (':' :: ':' :: s) =
      T.parseLoop delim (fuel + 1) true { st with side := st.side + 1, sorted := false } (':' :: s) := by
  have skip : skipSides delim (st.side + 1) (':' :: s) = skipSides delim (st.side + 1 + 1) s := by
    rw [skipSides, if_pos ⟨not_colon.symm, rfl⟩]
  rw [parseLoop_colon st first fuel enter, parseLoop_colon _ true fuel (.inl rfl), skip]

theorem parseLoop_sides (words : List (Word E)) (sides : List (List (Word E)))
    (reads : ∀ side ∈ words :: sides, ∀ w ∈ side, T.Reads w) :
    T.parseLoop '\n' (((words :: sides).map List.length).sum + 1 + fuel) first st
      (sidesText (words :: sides) ++ '\n' :: s) =
      some (State.append T { st with side := st.side + (words :: sides).length, sorted := false }
        (T.entries (st.side + 1) (words :: sides)), '\n' :: s) := by
  induction sides generalizing words st first with
  | nil =>
    cases words with
    | nil =>
      rw [show (([[]] : List (List (Word E))).map List.length).sum + 1 + fuel = fuel + 1 by simp [Nat.add_comm]]
      exact parseLoop_empty st first fuel (.inr rfl) (.inl rfl)
    | cons w words =>
      have side := parseLoop_side (T := T) (s := s) st first (fuel + 1) (.inr rfl) (.inr rfl) (.inr rfl) w words
        (reads _ (.head _))
      rw [parseLoop_stop _ _ (.inl rfl)] at side
      rw [show (([w :: words] : List (List (Word E))).map List.length).sum + 1 + fuel = words.length + (fuel + 1) + 1 by
        simp; omega]
      simpa [sidesText, entries] using side
  | cons next sides ih =>
    have later := ih { st with side := st.side + 1, sorted := false } true next (List.forall_mem_cons.mp reads).2
    cases words with
    | nil =>
      have colons := parseLoop_colons (T := T) (s := sideText next ++ sidesText sides ++ '\n' :: s) st first
        (((next :: sides).map List.length).sum + fuel) (by decide : '\n' ≠ ':') (.inr rfl)
      rw [show (([] :: next :: sides).map List.length).sum + 1 + fuel = ((next :: sides).map List.length).sum + fuel +
        1 by
        simp; omega]
      rw [show ((next :: sides).map List.length).sum + 1 + fuel = ((next :: sides).map List.length).sum + fuel + 1 by
        omega] at later
      have text : sidesText ([] :: next :: sides) ++ '\n' :: s =
          ':' :: ':' :: (sideText next ++ sidesText sides ++ '\n' :: s) := by
        simp [sidesText, sideText, List.intercalate]
      have text' : sidesText (next :: sides) ++ '\n' :: s = ':' :: (sideText next ++ sidesText sides ++ '\n' :: s) := by
        simp [sidesText]
      rw [text, colons, ← text', later]
      simp [entries, Int.add_assoc, Int.add_comm]
    | cons w words =>
      have side := parseLoop_side (T := T) (s := sideText next ++ sidesText sides ++ '\n' :: s) st first
        (((next :: sides).map List.length).sum + 1 + fuel) (.inr rfl) (.inr rfl) (.inl rfl) w words
        (reads _ (.head _))
      have after := ih (State.append T { st with side := st.side + 1, sorted := false }
        ((w :: words).map fun w => ⟨T.side (st.side + 1), w.p, w.e⟩)) false next (List.forall_mem_cons.mp reads).2
      have text : sidesText ((w :: words) :: next :: sides) ++ '\n' :: s =
          ':' :: sideText (w :: words) ++ ':' :: (sideText next ++ sidesText sides ++ '\n' :: s) := by
        simp [sidesText]
      have text' : sidesText (next :: sides) ++ '\n' :: s = ':' :: (sideText next ++ sidesText sides ++ '\n' :: s) := by
        simp [sidesText]
      rw [show (((w :: words) :: next :: sides).map List.length).sum + 1 + fuel =
        words.length + (((next :: sides).map List.length).sum + 1 + fuel) + 1 by simp; omega, text, side, ← text',
          after]
      simp [entries, State.append, List.foldl_append, Int.add_assoc, Int.add_comm]

theorem length_le_sidesText (sides : List (List (Word E))) (reads : ∀ side ∈ sides, ∀ w ∈ side, T.Reads w) :
    (sides.map List.length).sum ≤ (sidesText sides).length := by
  induction sides with
  | nil => simp
  | cons words sides ih =>
    rw [List.forall_mem_cons] at reads
    have rest := ih reads.2
    have words_le : words.length ≤ (sideText words).length := by
      cases words with
      | nil => simp
      | cons w words =>
        obtain ⟨c, t, eq, -⟩ := (reads.1 w (.head _)).head
        have separators : words.length ≤ (words.flatMap fun w => ',' :: w.text).length := by
          induction words with
          | nil => simp
          | cons v words ih => simp; omega
        rw [sideText_cons, eq]
        simp
        omega
    simp [sidesText] at rest ⊢
    omega

theorem parse_text {x : AbText} {t : AbType} {base : ℕ} (wf : x.WellFormed base) (small : base ≤ 16)
    {sides : List (List (Word E))} (nonempty : sides ≠ []) (reads : ∀ side ∈ sides, ∀ w ∈ side, T.Reads w) :
    T.parse t base '\n' (x.text ++ (sidesText sides ++ '\n' :: s)) = (x.cast t base).map fun w =>
      (⟨x.block t base w, T.exponent.sortAndCompress ((T.entries 0 sides).foldl T.exponent.appendOrCollate []).reverse,
        sides.length⟩, '\n' :: s) := by
  cases sides with
  | nil => exact absurd rfl nonempty
  | cons words sides =>
    have enough := length_le_sidesText (words :: sides) reads
    obtain ⟨fuel, fuel_eq⟩ := Nat.exists_eq_add_of_le enough
    have loop := parseLoop_sides (T := T) (s := s) ⟨-1, true, []⟩ true (fuel + s.length + 1) words sides reads
    have colon : sidesText (words :: sides) ++ '\n' :: s = ':' :: (sideText words ++ sidesText sides ++ '\n' :: s) := by
      simp [sidesText]
    have length : (sidesText (words :: sides) ++ '\n' :: s).length + 1 =
        ((words :: sides).map List.length).sum + 1 + (fuel + s.length + 1) := by
      rw [List.length_append, fuel_eq]
      simp
      omega
    have ab := AbText.parse (t := t) (c := ':') (s := sideText words ++ sidesText sides ++ '\n' :: s) wf small rfl
      (by decide)
    rw [← colon] at ab
    rw [PrimeType.parse, ab]
    cases x.cast t base with
    | none => rfl
    | some w =>
      simp only [Option.map_some, Option.bind_eq_bind, Option.bind_some, length, loop]
      simp [State.append]

theorem parse_side {x : AbText} {t : AbType} {base : ℕ} (wf : x.WellFormed base) (small : base ≤ 16)
    {words : List (Word E)} (reads : ∀ w ∈ words, T.Reads w) (stop : c = ':' ∨ c = '\n') :
    T.parse t base ':' (x.text ++ (':' :: sideText words ++ c :: s)) = (x.cast t base).map fun w =>
      (⟨x.block t base w, T.exponent.sortAndCompress
        ((T.entries 0 [words]).foldl T.exponent.appendOrCollate []).reverse,
        1⟩, c :: s) := by
  have loop : T.parseLoop ':' ((':' :: sideText words ++ c :: s).length + 1) true ⟨-1, true, []⟩
      (':' :: sideText words ++ c :: s) = some (State.append T ⟨0, false, []⟩ (T.entries 0 [words]), c :: s) := by
    cases words with
    | nil => exact parseLoop_empty _ true _ (.inl rfl) stop
    | cons w words =>
      have enough := length_le_sidesText [w :: words] (by simpa using reads)
      obtain ⟨fuel, fuel_eq⟩ := Nat.exists_eq_add_of_le enough
      have length : (':' :: sideText (w :: words) ++ c :: s).length + 1 = words.length + (fuel + s.length + 2) + 1 := by
        simp [sidesText] at fuel_eq ⊢
        omega
      rw [length, parseLoop_side _ _ _ (.inl rfl) (.inl rfl) stop w words reads]
      rw [show fuel + s.length + 2 = fuel + s.length + 1 + 1 from rfl, parseLoop_stop _ _ stop]
      simp [entries]
  have ab := AbText.parse (t := t) (c := ':') (s := sideText words ++ c :: s) wf small rfl (by decide)
  rw [← List.cons_append] at ab
  rw [PrimeType.parse, ab]
  cases x.cast t base with
  | none => rfl
  | some w =>
    simp only [Option.map_some, Option.bind_eq_bind, Option.bind_some, loop]
    simp [State.append]

end PrimeType

end CadoNfs.Utils.FilterIo
