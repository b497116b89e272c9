import CadoNfs.Utils.RelationFormat

/-!
# Relations that are used again

`filter_rels` of `utils/filter_io.hpp` parses each line into a slot of a ring of relations.
-/

namespace CadoNfs.Utils.FilterIo
open Lib PrimeType

inductive Layout : Type 1
  | relNumber
  | ab (t : AbType) (base : ℕ)
  | abIgnore (base : ℕ)
  | primes {σ E : Type} [LinearOrder σ] (T : PrimeType σ E) (parent : Layout)
  | primecount (parent : Layout)
  | sm (parent : Layout)
  | line (parent : Layout)

def null : Char := Char.ofNat 0

def parseAbIgnore (base : ℕ) (s : Text) : Option Text := do
  let s := (if cur s = '-' then s.tail else s).dropWhile (ugly · < base)
  guard (cur s = ',')
  let s := s.tail.dropWhile (ugly · < base)
  if cur s = '@' then
    let s := s.tail.dropWhile (ugly · < 10)
    guard (cur s = ',')
    return s.tail.dropWhile (ugly · < 10)
  else return s

def skipPrime (s : Text) : Text :=
  (if cur s = '-' then s.tail else s).dropWhile fun c => c ≠ null ∧ c ≠ ',' ∧ c ≠ ':' ∧ c ≠ '\n'

-- `weight` is a `size_t`.
def countLoop (delim : Char) : ℕ → Bool → ℕ → Text → Option (ℕ × Text)
  | 0, _, _, _ => none
  | fuel + 1, first, weight, s =>
    if first ∨ cur s ≠ null ∧ cur s ≠ delim then
      if cur s = ':' then
        let s := s.dropWhile fun c => c ≠ delim ∧ c = ':'
        if cur s = delim then some (weight, s) else countLoop delim fuel false ((weight + 1) % 2 ^ 64) (skipPrime s)
      else do
        guard (cur s = ',')
        countLoop delim fuel false ((weight + 1) % 2 ^ 64) (skipPrime s.tail)
    else some (weight, s)

namespace Layout

def Data : Layout → Type
  | relNumber => Unit
  | ab _ _ => AbBlock
  | abIgnore _ => Unit
  | @primes σ E _ _ parent => (List (Prime σ E) × ℤ) × parent.Data
  | primecount parent => ℕ × parent.Data
  | sm parent => List ℕ × parent.Data
  | line parent => Text × parent.Data

def fresh : (L : Layout) → L.Data
  | relNumber => ()
  | ab _ _ => ⟨0, 0, (0, 1)⟩
  | abIgnore _ => ()
  | primes _ parent => (([], 0), parent.fresh)
  | primecount parent => (0, parent.fresh)
  | sm parent => ([], parent.fresh)
  | line parent => ([], parent.fresh)

/-- `parse` of an object that has been used. `rel_number` does not read, and a null character comes from it. -/
def parse : (L : Layout) → Char → L.Data → Text → Option (L.Data × Text)
  | relNumber, _, d, _ => some (d, [])
  | ab t base, _, _, s => parseAb t base s
  | abIgnore base, _, _, s => (parseAbIgnore base s).map ((), ·)
  | primes T parent, delim, d, s => do
    let (d, s) ← parent.parse '\n' d.2 s
    let (st, s) ← T.parseLoop delim (s.length + 1) true ⟨-1, true, []⟩ s
    let primes := st.primes.reverse
    return ((((if st.sorted then primes else T.exponent.sortAndCompress primes), st.side + 1), d), s)
  | primecount parent, delim, (weight, d), s => do
    let (d, s) ← parent.parse '\n' d s
    let s := s.dropWhile fun c => c ≠ null ∧ c ≠ ':'
    let (weight, s) ← countLoop delim (s.length + 1) true weight s
    return ((weight, d), s)
  | sm parent, _, d, s => do
    let (d, s) ← parent.parse ':' d.2 s
    let (values, s) ← parseSm (s.length + 1) true s
    return ((values, d), s)
  | line parent, _, d, s => do
    let (d, rest) ← parent.parse '\n' d.2 s
    return ((s.takeWhile fun c => c ≠ null ∧ c ≠ '\n', d), rest)

def weights : (L : Layout) → L.Data → List ℕ
  | relNumber, _ => []
  | ab _ _, _ => []
  | abIgnore _, _ => []
  | primes _ parent, d => parent.weights d.2
  | primecount parent, d => d.1 :: parent.weights d.2
  | sm parent, d => parent.weights d.2
  | line parent, d => parent.weights d.2

def addTo : (L : Layout) → L.Data → L.Data → L.Data
  | relNumber, _, d => d
  | ab _ _, _, d => d
  | abIgnore _, _, d => d
  | primes _ parent, old, d => (d.1, parent.addTo old.2 d.2)
  | primecount parent, old, d => ((old.1 + d.1) % 2 ^ 64, parent.addTo old.2 d.2)
  | sm parent, old, d => (d.1, parent.addTo old.2 d.2)
  | line parent, old, d => (d.1, parent.addTo old.2 d.2)

end Layout

/-! ## The weights of a used object -/

variable {delim : Char} {s : Text}

variable (delim s) in
theorem countLoop_eq (fuel : ℕ) (first : Bool) {weight : ℕ} (lt : weight < 2 ^ 64) (n : ℕ) :
    countLoop delim fuel first ((n + weight) % 2 ^ 64) s =
      (countLoop delim fuel first weight s).map fun r => ((n + r.1) % 2 ^ 64, r.2) := by
  induction fuel generalizing first weight s with
  | zero => rfl
  | succ fuel ih =>
    have next : ((n + weight) % 2 ^ 64 + 1) % 2 ^ 64 = (n + (weight + 1) % 2 ^ 64) % 2 ^ 64 := by omega
    have rest (s : Text) : countLoop delim fuel false (((n + weight) % 2 ^ 64 + 1) % 2 ^ 64) s =
        (countLoop delim fuel false ((weight + 1) % 2 ^ 64) s).map fun r => ((n + r.1) % 2 ^ 64, r.2) := by
      rw [next]
      exact ih s false (Nat.mod_lt _ (by decide))
    rw [countLoop, countLoop]
    by_cases goes_on : first ∨ cur s ≠ null ∧ cur s ≠ delim
    · rw [if_pos goes_on, if_pos goes_on]
      by_cases colon : cur s = ':'
      · rw [if_pos colon, if_pos colon]
        by_cases stop : cur (s.dropWhile fun c => c ≠ delim ∧ c = ':') = delim
        · rw [if_pos stop, if_pos stop, Option.map_some]
        · rw [if_neg stop, if_neg stop, rest]
      · rw [if_neg colon, if_neg colon]
        by_cases comma : cur s = ','
        · rw [guard, if_pos comma]
          exact rest _
        · rw [guard, if_neg comma]
          rfl
    · rw [if_neg goes_on, if_neg goes_on, Option.map_some]

namespace Layout

variable {L : Layout} {d e : L.Data}

def Bounded (L : Layout) (d : L.Data) : Prop := ∀ w ∈ L.weights d, w < 2 ^ 64

def NoWeight (L : Layout) (d : L.Data) : Prop := ∀ w ∈ L.weights d, w = 0

theorem noWeight_fresh (L : Layout) : L.NoWeight L.fresh := by
  induction L with
  | relNumber => nofun
  | ab => nofun
  | abIgnore => nofun
  | primecount parent ih => exact List.forall_mem_cons.mpr ⟨rfl, ih⟩
  | primes _ parent ih => exact ih
  | sm parent ih => exact ih
  | line parent ih => exact ih

theorem NoWeight.bounded (none : L.NoWeight d) : L.Bounded d := fun w member => by
  rw [none w member]
  decide

theorem bounded_addTo (L : Layout) (old d : L.Data) : L.Bounded (L.addTo old d) := by
  induction L with
  | relNumber => nofun
  | ab => nofun
  | abIgnore => nofun
  | primecount parent ih => exact List.forall_mem_cons.mpr ⟨Nat.mod_lt _ (by decide), ih old.2 d.2⟩
  | primes _ parent ih => exact ih old.2 d.2
  | sm parent ih => exact ih old.2 d.2
  | line parent ih => exact ih old.2 d.2

theorem parse_eq (L : Layout) (delim : Char) {old : L.Data} (bounded : L.Bounded old) (s : Text) :
    L.parse delim old s = (L.parse delim L.fresh s).map fun r => (L.addTo old r.1, r.2) := by
  induction L generalizing delim s with
  | relNumber => rfl
  | ab t base =>
    rw [parse, parse]
    exact Option.map_id'.symm
  | abIgnore base =>
    rw [parse, parse, Option.map_map]
    rfl
  | primes T parent ih =>
    change (parent.parse '\n' old.2 s).bind _ = ((parent.parse '\n' parent.fresh s).bind _).map _
    rw [ih '\n' bounded]
    cases parent.parse '\n' parent.fresh s with
    | none => rfl
    | some r =>
      simp only [Option.map_some, Option.bind_eq_bind, Option.bind_some]
      cases T.parseLoop delim (r.2.length + 1) true ⟨-1, true, []⟩ r.2 <;> rfl
  | primecount parent ih =>
    obtain ⟨weight, old⟩ := old
    obtain ⟨lt, parent_bounded⟩ := List.forall_mem_cons.mp bounded
    have counted (fuel : ℕ) (s : Text) : countLoop delim fuel true weight s =
        (countLoop delim fuel true 0 s).map fun r => ((weight + r.1) % 2 ^ 64, r.2) := by
      have shifted := countLoop_eq delim s fuel true (show 0 < 2 ^ 64 by decide) weight
      rwa [Nat.add_zero, Nat.mod_eq_of_lt lt] at shifted
    change (parent.parse '\n' old s).bind _ = ((parent.parse '\n' parent.fresh s).bind _).map _
    rw [ih '\n' parent_bounded]
    cases parent.parse '\n' parent.fresh s with
    | none => rfl
    | some r =>
      simp only [Option.map_some, Option.bind_eq_bind, Option.bind_some]
      rw [counted]
      cases countLoop delim _ true 0 (r.2.dropWhile fun c => c ≠ null ∧ c ≠ ':') <;> rfl
  | sm parent ih =>
    change (parent.parse ':' old.2 s).bind _ = ((parent.parse ':' parent.fresh s).bind _).map _
    rw [ih ':' bounded]
    cases parent.parse ':' parent.fresh s with
    | none => rfl
    | some r =>
      simp only [Option.map_some, Option.bind_eq_bind, Option.bind_some]
      cases parseSm (r.2.length + 1) true r.2 <;> rfl
  | line parent ih =>
    change (parent.parse '\n' old.2 s).bind _ = ((parent.parse '\n' parent.fresh s).bind _).map _
    rw [ih '\n' bounded]
    cases parent.parse '\n' parent.fresh s <;> rfl

theorem addTo_parse_fresh (L : Layout) {r : L.Data × Text} (parsed : L.parse delim L.fresh s = some r) :
    L.addTo L.fresh r.1 = r.1 := by
  have same := L.parse_eq delim L.noWeight_fresh.bounded s
  rw [parsed, Option.map_some] at same
  exact congrArg Prod.fst (Option.some.inj same).symm

theorem parse_bounded (L : Layout) {r : L.Data × Text} (parsed : L.parse delim L.fresh s = some r) :
    L.Bounded r.1 := by
  rw [← L.addTo_parse_fresh parsed]
  exact L.bounded_addTo _ _

theorem addTo_eq_self_iff (L : Layout) {old d : L.Data} (old_bounded : L.Bounded old) (bounded : L.Bounded d) :
    L.addTo old d = d ↔ L.NoWeight old := by
  induction L with
  | relNumber => exact ⟨fun _ => nofun, fun _ => rfl⟩
  | ab => exact ⟨fun _ => nofun, fun _ => rfl⟩
  | abIgnore => exact ⟨fun _ => nofun, fun _ => rfl⟩
  | primecount parent ih =>
    obtain ⟨old_lt, old_bounded⟩ := List.forall_mem_cons.mp old_bounded
    obtain ⟨lt, bounded⟩ := List.forall_mem_cons.mp bounded
    have wrap : (old.1 + d.1) % 2 ^ 64 = d.1 ↔ old.1 = 0 := by omega
    have parts : parent.primecount.NoWeight old ↔ old.1 = 0 ∧ parent.NoWeight old.2 := List.forall_mem_cons
    rw [parts, ← ih old_bounded bounded, ← wrap]
    exact Prod.ext_iff
  | primes _ parent ih => exact Prod.ext_iff.trans ((and_iff_right rfl).trans (ih old_bounded bounded))
  | sm parent ih => exact Prod.ext_iff.trans ((and_iff_right rfl).trans (ih old_bounded bounded))
  | line parent ih => exact Prod.ext_iff.trans ((and_iff_right rfl).trans (ih old_bounded bounded))

end Layout

/-! ## The weight of a line -/

def PrimeLike (text : Text) : Prop := text ≠ [] ∧ ∀ c ∈ text, c ≠ null ∧ c ≠ ',' ∧ c ≠ ':' ∧ c ≠ '\n'

theorem PrimeText.Grammatical.primeLike {x : PrimeText} (grammatical : x.Grammatical) : PrimeLike x.text := by
  have digit {base : ℕ} (small : base ≤ 16) {digits : Text} (all : Digits base digits) (c : Char) (among : c ∈ digits) :
      c ≠ null ∧ c ≠ ',' ∧ c ≠ ':' ∧ c ≠ '\n' := by
    have lt := all c among
    refine ⟨?_, ?_, ?_, ?_⟩ <;> rintro rfl <;> exact absurd (lt.trans_le small) (by decide)
  have minus {b : Bool} (c : Char) (among : c ∈ PrimeText.sign b) : c ≠ null ∧ c ≠ ',' ∧ c ≠ ':' ∧ c ≠ '\n' := by
    cases b with
    | true =>
      rw [List.mem_singleton.mp among]
      decide
    | false => cases among
  refine ⟨fun empty => grammatical.nonempty (List.append_eq_nil_iff.mp (List.append_eq_nil_iff.mp empty).1).2, ?_⟩
  intro c among
  rcases List.mem_append.mp among with among | among
  · rcases List.mem_append.mp among with among | among
    · exact minus c among
    · exact digit le_rfl grammatical.digits c among
  · rw [PrimeText.exponentText] at among
    cases exponent : x.exponent with
    | none =>
      rw [exponent] at among
      cases among
    | some y =>
      rw [exponent] at among
      rcases List.mem_cons.mp among with rfl | among
      · decide
      · rcases List.mem_append.mp among with among | among
        · exact minus c among
        · exact digit (by decide) (grammatical.exponent y exponent).1 c among

theorem skipPrime_append {text : Text} (primeLike : PrimeLike text) (stop : cur s = ',' ∨ cur s = ':' ∨ cur s = '\n') :
    skipPrime (text ++ s) = s := by
  obtain ⟨c, s, rfl⟩ : ∃ c s', s = c :: s' := by
    cases s with
    | nil => rcases stop with stop | stop | stop <;> cases stop
    | cons c s => exact ⟨c, s, rfl⟩
  have skips {text : Text} (among : ∀ c ∈ text, c ≠ null ∧ c ≠ ',' ∧ c ≠ ':' ∧ c ≠ '\n') :
      ((text ++ c :: s).dropWhile fun c => c ≠ null ∧ c ≠ ',' ∧ c ≠ ':' ∧ c ≠ '\n') = c :: s := by
    rw [List.dropWhile_append_of_pos fun c member => by simpa using among c member, List.dropWhile_cons_of_neg]
    rcases stop with rfl | rfl | rfl <;> decide
  obtain ⟨nonempty, all⟩ := primeLike
  cases text with
  | nil => exact absurd rfl nonempty
  | cons d text =>
    rw [skipPrime, List.cons_append, cur_cons]
    split
    · exact skips fun c member => all c (.tail _ member)
    · exact skips all

section
variable {E : Type} {fuel : ℕ} {first : Bool} {weight : ℕ}

theorem countLoop_comma : countLoop '\n' (fuel + 1) first weight (',' :: s) =
    countLoop '\n' fuel false ((weight + 1) % 2 ^ 64) (skipPrime s) := by
  rw [countLoop]
  simp [cur, guard, null]

theorem countLoop_cons_colon : countLoop '\n' (fuel + 1) first weight (':' :: s) =
    if cur (s.dropWhile fun c => c ≠ '\n' ∧ c = ':') = '\n' then some (weight, s.dropWhile fun c => c ≠ '\n' ∧ c = ':')
    else countLoop '\n' fuel false ((weight + 1) % 2 ^ 64) (skipPrime (s.dropWhile fun c => c ≠ '\n' ∧ c = ':')) := by
  have goes_on : first = true ∨ cur (':' :: s) ≠ null ∧ cur (':' :: s) ≠ '\n' :=
    .inr ⟨show ':' ≠ null by decide, show ':' ≠ '\n' by decide⟩
  rw [countLoop, if_pos goes_on, if_pos (show cur (':' :: s) = ':' from rfl), List.dropWhile_cons_of_pos (by decide)]

theorem countLoop_colon (other : cur s ≠ ':' ∧ cur s ≠ '\n') : countLoop '\n' (fuel + 1) first weight (':' :: s) =
    countLoop '\n' fuel false ((weight + 1) % 2 ^ 64) (skipPrime s) := by
  have skips : (s.dropWhile fun c => c ≠ '\n' ∧ c = ':') = s := by
    cases s with
    | nil => rfl
    | cons c s => rw [List.dropWhile_cons_of_neg (by simpa using fun _ => other.1)]
  rw [countLoop_cons_colon, skips, if_neg other.2]

theorem countLoop_colons (first' : Bool) : countLoop '\n' (fuel + 1) first weight (':' :: ':' :: s) =
    countLoop '\n' (fuel + 1) first' weight (':' :: s) := by
  rw [countLoop_cons_colon, countLoop_cons_colon, List.dropWhile_cons_of_pos (by decide)]

theorem countLoop_words (lt : weight < 2 ^ 64) {words : List (Word E)} (like : ∀ w ∈ words, PrimeLike w.text)
    (stop : cur s = ':' ∨ cur s = '\n') :
    countLoop '\n' (words.length + fuel) false weight (words.flatMap (fun w => ',' :: w.text) ++ s) =
      countLoop '\n' fuel false ((weight + words.length) % 2 ^ 64) s := by
  induction words generalizing weight with
  | nil =>
    rw [List.length_nil, Nat.zero_add, Nat.add_zero, Nat.mod_eq_of_lt lt]
    rfl
  | cons w words ih =>
    obtain ⟨like_w, like⟩ := List.forall_mem_cons.mp like
    have next : cur (words.flatMap (fun w => ',' :: w.text) ++ s) = ',' ∨
        cur (words.flatMap (fun w => ',' :: w.text) ++ s) = ':' ∨
          cur (words.flatMap (fun w => ',' :: w.text) ++ s) = '\n' := by
      cases words with
      | nil => exact .inr stop
      | cons v words => exact .inl rfl
    have sum : ((weight + 1) % 2 ^ 64 + words.length) % 2 ^ 64 = (weight + (words.length + 1)) % 2 ^ 64 := by
      omega
    rw [List.length_cons, Nat.succ_add, List.flatMap_cons, List.cons_append, List.cons_append, List.append_assoc,
      countLoop_comma, skipPrime_append like_w next, ih (Nat.mod_lt _ (by decide)) like, sum]

theorem PrimeLike.head {text : Text} (like : PrimeLike text) (s : Text) :
    cur (text ++ s) ≠ ':' ∧ cur (text ++ s) ≠ '\n' := by
  obtain ⟨nonempty, all⟩ := like
  cases text with
  | nil => exact absurd rfl nonempty
  | cons c text => exact ⟨(all c (.head _)).2.2.1, (all c (.head _)).2.2.2⟩

theorem countLoop_sides (lt : weight < 2 ^ 64) {sides : List (List (Word E))}
    (like : ∀ side ∈ sides, ∀ w ∈ side, PrimeLike w.text) (nonempty : sides ≠ [] ∨ first = false) :
    countLoop '\n' ((sides.map List.length).sum + fuel + 1) first weight (sidesText sides ++ '\n' :: s) =
      some ((weight + (sides.map List.length).sum) % 2 ^ 64, '\n' :: s) := by
  induction sides generalizing weight first with
  | nil =>
    obtain rfl := nonempty.resolve_left (absurd rfl)
    rw [List.map_nil, List.sum_nil, Nat.mod_eq_of_lt (show weight + 0 < 2 ^ 64 from lt), countLoop]
    rfl
  | cons words sides ih =>
    obtain ⟨like_words, like_sides⟩ := List.forall_mem_cons.mp like
    have text : sidesText (words :: sides) ++ '\n' :: s = ':' :: (sideText words ++ (sidesText sides ++ '\n' :: s)) := by
      simp [sidesText]
    rw [text, List.map_cons, List.sum_cons]
    cases words with
    | nil =>
      rw [List.length_nil, Nat.zero_add, sideText, List.map_nil, List.intercalate_nil, List.nil_append]
      cases sides with
      | nil =>
        rw [List.map_nil, List.sum_nil, Nat.mod_eq_of_lt (show weight + 0 < 2 ^ 64 from lt), countLoop_cons_colon]
        rfl
      | cons next sides =>
        have rest : countLoop '\n' (((next :: sides).map List.length).sum + fuel + 1) true weight
            (sidesText (next :: sides) ++ '\n' :: s) = _ := ih lt like_sides (.inl (List.cons_ne_nil _ _))
        have later : sidesText (next :: sides) ++ '\n' :: s =
            ':' :: (sideText next ++ (sidesText sides ++ '\n' :: s)) := by
          simp [sidesText]
        rw [later] at rest ⊢
        rw [countLoop_colons true, rest]
    | cons w words =>
      obtain ⟨like_w, like_words⟩ := List.forall_mem_cons.mp like_words
      have stop : cur (sidesText sides ++ '\n' :: s) = ':' ∨ cur (sidesText sides ++ '\n' :: s) = '\n' := by
        cases sides with
        | nil => exact .inr rfl
        | cons next sides => exact .inl rfl
      have next : cur (words.flatMap (fun w => ',' :: w.text) ++ (sidesText sides ++ '\n' :: s)) = ',' ∨
          cur (words.flatMap (fun w => ',' :: w.text) ++ (sidesText sides ++ '\n' :: s)) = ':' ∨
            cur (words.flatMap (fun w => ',' :: w.text) ++ (sidesText sides ++ '\n' :: s)) = '\n' := by
        cases words with
        | nil => exact .inr stop
        | cons v words => exact .inl rfl
      have turns : (w :: words).length + (sides.map List.length).sum + fuel + 1 =
          words.length + ((sides.map List.length).sum + fuel + 1) + 1 := by
        rw [List.length_cons]
        omega
      have sum : (((weight + 1) % 2 ^ 64 + words.length) % 2 ^ 64 + (sides.map List.length).sum) % 2 ^ 64 =
          (weight + ((w :: words).length + (sides.map List.length).sum)) % 2 ^ 64 := by
        rw [List.length_cons]
        omega
      rw [turns, sideText_cons, List.append_assoc, countLoop_colon (like_w.head _), skipPrime_append like_w next,
        countLoop_words (Nat.mod_lt _ (by decide)) like_words stop,
        ih (Nat.mod_lt _ (by decide)) like_sides (.inr rfl), sum]

end

theorem dropWhile_digits {base : ℕ} {digits : Text} (all : Digits base digits) (small : base ≤ 16) {c : Char}
    (stop : ugly c = 255) : (digits ++ c :: s).dropWhile (ugly · < base) = c :: s := by
  rw [List.dropWhile_append_of_pos fun d member => decide_eq_true (all d member), List.dropWhile_cons_of_neg]
  simp only [stop, decide_eq_true_eq]
  omega

theorem parseAbIgnore_text {base : ℕ} {x : AbText} (wf : x.WellFormed base) (small : base ≤ 16) :
    parseAbIgnore base (x.text ++ ':' :: s) = some (':' :: s) := by
  obtain ⟨negative, a, b, activeSides⟩ := x
  have sign : (if cur (AbText.text ⟨negative, a, b, activeSides⟩ ++ ':' :: s) = '-' then
      (AbText.text ⟨negative, a, b, activeSides⟩ ++ ':' :: s).tail
      else AbText.text ⟨negative, a, b, activeSides⟩ ++ ':' :: s) =
        a ++ ',' :: (b ++ (AbText.activeText ⟨negative, a, b, activeSides⟩ ++ ':' :: s)) := by
    cases negative with
    | true => simp [AbText.text, cur, AbText.activeText]
    | false =>
      have other := wf.a.head_ne (s := b ++ (AbText.activeText ⟨false, a, b, activeSides⟩ ++ ':' :: s)) small '-' rfl
        (show ',' ≠ '-' by decide)
      simp only [AbText.text, Bool.false_eq_true, if_false, List.nil_append, List.append_assoc, List.cons_append]
      exact if_neg other
  have after {digits : Text} {base : ℕ} (all : Digits base digits) (small : base ≤ 16) {c : Char} (stop : ugly c = 255)
      (s : Text) : (digits ++ c :: s).dropWhile (ugly · < base) = c :: s := dropWhile_digits all small stop
  rw [parseAbIgnore, sign, dropWhile_digits wf.a small rfl]
  cases activeSides with
  | none => simp [AbText.activeText, guard, cur, after wf.b small (show ugly ':' = 255 from rfl)]
  | some sides =>
    obtain ⟨side0, side1⟩ := wf.activeSides sides rfl
    simp [AbText.activeText, guard, cur, after wf.b small (show ugly '@' = 255 from rfl),
      after side0 (by decide) (show ugly ',' = 255 from rfl), after side1 (by decide) (show ugly ':' = 255 from rfl)]

theorem Line.weight_eq {base bits : ℕ} (L : Line base bits) :
    (Layout.primecount (.abIgnore base)).parse '\n' (Layout.primecount (.abIgnore base)).fresh L.text =
      some (((L.sides.map List.length).sum % 2 ^ 64, ()), ['\n']) := by
  have like : ∀ side ∈ L.words, ∀ w ∈ side, PrimeLike w.text := by
    intro side member w inside
    obtain ⟨texts, in_sides, rfl⟩ := List.mem_map.mp member
    obtain ⟨x, in_texts, rfl⟩ := List.mem_map.mp inside
    exact (L.primes_wf texts in_sides x in_texts).toGrammatical.primeLike
  have nonempty : L.words ≠ [] := fun none => L.nonempty (List.map_eq_nil_iff.mp none)
  have count : (L.words.map List.length).sum = (L.sides.map List.length).sum := by
    rw [Line.words, List.map_map]
    congr 2
    funext side
    exact List.length_map ..
  have enough := length_le_sidesText (T := indexedType bits) L.words (L.reads rfl rfl)
  obtain ⟨rest, text⟩ : ∃ rest, sidesText L.words ++ ['\n'] = ':' :: rest := by
    cases words : L.words with
    | nil => exact absurd words nonempty
    | cons words sides => exact ⟨_, rfl⟩
  obtain ⟨fuel, length⟩ := Nat.exists_eq_add_of_le enough
  have counted : countLoop '\n' ((L.words.map List.length).sum + (fuel + 1) + 1) true 0 (sidesText L.words ++ ['\n']) = _ :=
    countLoop_sides (by decide) like (.inl nonempty)
  have turns : (sidesText L.words ++ ['\n']).length + 1 = (L.words.map List.length).sum + (fuel + 1) + 1 := by
    rw [List.length_append, length, List.length_singleton]
    omega
  rw [← turns, text, Nat.zero_add, count] at counted
  change ((parseAbIgnore base L.text).map ((), ·)).bind _ = _
  rw [Line.text, text, parseAbIgnore_text L.ab_wf L.base_le]
  simp only [Option.map_some, Option.bind_eq_bind]
  exact congrArg (Option.bind · _) counted

def sizeBufRel : ℕ := 2 ^ 15

theorem sizeBufRel_pos : 0 < sizeBufRel := Nat.two_pow_pos 15

structure Slot (L : Layout) where
  num : ℕ
  data : L.Data

/-- What the callbacks of all levels do to the relation of each line. They leave the weights as they are. -/
structure Callbacks (L : Layout) where
  run : ℕ → Slot L → Slot L
  weights_run : ∀ n rel, L.weights (run n rel).data = L.weights rel.data

/-- `parse_helper`, for a relation or for a `std::variant`, which is set to a new relation before -/
def parseHelper (L : Layout) (variant : Bool) (rel : Slot L) (num : ℕ) (s : Text) : Option (Slot L) :=
  (L.parse '\n' (if variant then L.fresh else rel.data) s).map fun r => ⟨num, r.1⟩

/-- The relations that the callbacks get, for the lines from the `n`-th one on. A slot is scheduled again when all
callbacks have completed. -/
def feed (L : Layout) (variant : Bool) (callbacks : Callbacks L) :
    ℕ → (ℕ → Slot L) → List (ℕ × Text) → Option (List (Slot L))
  | _, _, [] => some []
  | n, rels, (num, s) :: lines => do
    let slot := n % sizeBufRel
    let rel ← parseHelper L variant (rels slot) num s
    let seen ← feed L variant callbacks (n + 1) (Function.update rels slot (callbacks.run n rel)) lines
    return rel :: seen

def filterRels (L : Layout) (variant : Bool) (callbacks : Callbacks L) (lines : List (ℕ × Text)) :
    Option (List (Slot L)) := feed L variant callbacks 0 (fun _ => ⟨0, L.fresh⟩) lines

def parseFresh (L : Layout) (line : ℕ × Text) : Option (Slot L) := parseHelper L false ⟨0, L.fresh⟩ line.1 line.2

section
variable {L : Layout} {callbacks : Callbacks L} {rel fresh : Slot L} {line : ℕ × Text}

theorem parseHelper_variant (rel : Slot L) (line : ℕ × Text) :
    parseHelper L true rel line.1 line.2 = parseFresh L line := rfl

theorem parseHelper_eq (parsed : parseFresh L line = some fresh) (bounded : L.Bounded rel.data) :
    L.Bounded fresh.data ∧ (parseHelper L false rel line.1 line.2 = some fresh ↔ L.NoWeight rel.data) := by
  obtain ⟨r, read, rfl⟩ := Option.map_eq_some_iff.mp parsed
  change L.parse '\n' L.fresh line.2 = some r at read
  have fresh_bounded := L.parse_bounded read
  refine ⟨fresh_bounded, ?_⟩
  rw [← L.addTo_eq_self_iff bounded fresh_bounded, parseHelper, if_neg Bool.false_ne_true,
    L.parse_eq '\n' bounded, read]
  simp

def weightsBefore (L : Layout) (n : ℕ) (rels : ℕ → Slot L) (seen : List (Slot L)) (j : ℕ) : List ℕ :=
  if j < sizeBufRel then L.weights (rels ((n + j) % sizeBufRel)).data
  else (seen[j - sizeBufRel]?.map fun rel => L.weights rel.data).getD []

theorem weightsBefore_succ (callbacks : Callbacks L) (n : ℕ) (rels : ℕ → Slot L) (seen : List (Slot L)) (j : ℕ) :
    weightsBefore L (n + 1) (Function.update rels (n % sizeBufRel) (callbacks.run n rel)) seen j =
      weightsBefore L n rels (rel :: seen) (j + 1) := by
  have size_pos := sizeBufRel_pos
  rw [weightsBefore, weightsBefore, show n + 1 + j = n + (j + 1) by omega]
  generalize sizeBufRel = size at size_pos ⊢
  rcases lt_trichotomy (j + 1) size with lt | eq | gt
  · have other : (n + (j + 1)) % size ≠ n % size := fun same => by
      have cancelled : j + 1 ≡ 0 [MOD size] := Nat.ModEq.add_left_cancel' n same
      exact absurd (Nat.le_of_dvd (Nat.succ_pos j) (Nat.modEq_zero_iff_dvd.mp cancelled)) lt.not_ge
    rw [if_pos (by omega), if_pos lt, Function.update_of_ne other]
  · rw [if_pos (by omega), if_neg (by omega), eq, Nat.add_mod_right, Function.update_self, callbacks.weights_run]
    simp
  · rw [if_neg (by omega), if_neg (by omega), show j + 1 - size = j - size + 1 by omega,
      List.getElem?_cons_succ]

theorem feed_variant (lines : List (ℕ × Text)) (n : ℕ) (rels : ℕ → Slot L) :
    feed L true callbacks n rels lines = lines.mapM (parseFresh L) := by
  induction lines generalizing n rels with
  | nil => rfl
  | cons line lines ih =>
    rw [feed, parseHelper_variant, List.mapM_cons]
    simp only [ih]

/-- The callbacks see all lines as they are if and only if no slot has a weight when it is used. -/
theorem feed_iff {lines : List (ℕ × Text)} {n : ℕ} {rels : ℕ → Slot L} {seen : List (Slot L)}
    (parsed : lines.mapM (parseFresh L) = some seen) (bounded : ∀ slot, L.Bounded (rels slot).data) :
    feed L false callbacks n rels lines = some seen ↔
      ∀ j < lines.length, ∀ w ∈ weightsBefore L n rels seen j, w = 0 := by
  induction lines generalizing n rels seen with
  | nil =>
    cases parsed
    exact ⟨fun _ => nofun, fun _ => rfl⟩
  | cons line lines ih =>
    rw [List.mapM_cons] at parsed
    obtain ⟨rel, first, parsed⟩ := Option.bind_eq_some_iff.mp parsed
    obtain ⟨seen, rest, parsed⟩ := Option.bind_eq_some_iff.mp parsed
    cases parsed
    obtain ⟨rel_bounded, same⟩ := parseHelper_eq first (bounded (n % sizeBufRel))
    have kept : ∀ slot, L.Bounded (Function.update rels (n % sizeBufRel) (callbacks.run n rel) slot).data := by
      intro slot
      by_cases this : slot = n % sizeBufRel
      · rw [this, Function.update_self, Layout.Bounded, callbacks.weights_run]
        exact rel_bounded
      · rw [Function.update_of_ne this]
        exact bounded slot
    have later := ih (n := n + 1) rest kept
    have head : weightsBefore L n rels (rel :: seen) 0 = L.weights (rels (n % sizeBufRel)).data := by
      rw [weightsBefore, if_pos sizeBufRel_pos, Nat.add_zero]
    simp only [weightsBefore_succ] at later
    rw [List.length_cons, Nat.forall_lt_succ_left', head, ← later, ← Layout.NoWeight, ← same]
    constructor
    · intro fed
      obtain ⟨x, parsed, fed⟩ := Option.bind_eq_some_iff.mp fed
      obtain ⟨xs, fed, eq⟩ := Option.bind_eq_some_iff.mp fed
      cases eq
      exact ⟨parsed, fed⟩
    · rintro ⟨parsed, fed⟩
      rw [feed, parsed, Option.bind_eq_bind, Option.bind_some, fed]
      rfl

end

theorem filterRels_eq_iff (L : Layout) (variant : Bool) (callbacks : Callbacks L) {lines : List (ℕ × Text)}
    {seen : List (Slot L)} (parsed : lines.mapM (parseFresh L) = some seen) :
    filterRels L variant callbacks lines = some seen ↔
      variant ∨ ∀ j, j + sizeBufRel < lines.length → ∀ rel ∈ seen[j]?, L.NoWeight rel.data := by
  cases variant with
  | true =>
    rw [filterRels, feed_variant, parsed]
    simp
  | false =>
    rw [filterRels, feed_iff parsed fun _ => L.noWeight_fresh.bounded, or_iff_right Bool.false_ne_true]
    constructor
    · intro clean j inside rel among w member
      refine clean (j + sizeBufRel) inside w ?_
      rw [weightsBefore, if_neg (by omega), Nat.add_sub_cancel, Option.mem_def.mp among]
      exact member
    · intro clean j inside w member
      rw [weightsBefore] at member
      split at member
      · exact L.noWeight_fresh w member
      · next wraps =>
        cases here : seen[j - sizeBufRel]? with
        | none =>
          rw [here] at member
          cases member
        | some rel =>
          rw [here] at member
          exact clean (j - sizeBufRel) (by omega) rel here w member

/-- The callbacks see each line as a new relation would read it if and only if the slots are variants, or no line
that has another one `sizeBufRel` places behind has a weight. -/
theorem filterRels_iff (L : Layout) (variant : Bool) (callbacks : Callbacks L) (lines : List (ℕ × Text))
    (seen : List (Slot L)) (parsed : lines.mapM (parseFresh L) = some seen) :
    (filterRels L variant callbacks lines = some seen ↔
      variant ∨ ∀ j, j + sizeBufRel < lines.length → ∀ rel ∈ seen[j]?, L.NoWeight rel.data) ∧
    ∀ (base bits : ℕ) (line : Line base bits) (num : ℕ), parseFresh (.primecount (.abIgnore base)) (num, line.text) =
      some ⟨num, ((line.sides.map List.length).sum % 2 ^ 64, ())⟩ := by
  refine ⟨filterRels_eq_iff L variant callbacks parsed, fun base bits line num => ?_⟩
  rw [parseFresh, parseHelper, if_neg Bool.false_ne_true]
  exact congrArg (Option.map _) line.weight_eq

/-! ## The second pass of `purge` -/

def purgeLayout : Layout := .line (.primecount (.abIgnore 16))

def noCallbacks (L : Layout) : Callbacks L := ⟨fun _ rel => rel, fun _ _ => rfl⟩

def fiveSeven : Text := ['1', ',', '1', ':', '5', ',', '7', '\n']

def fiveSevenRel : Slot purgeLayout := ⟨0, (['1', ',', '1', ':', '5', ',', '7'], (2, ()))⟩

theorem parseFresh_fiveSeven : parseFresh purgeLayout (0, fiveSeven) = some fiveSevenRel := rfl

theorem parseFresh_replicate (n : ℕ) :
    (List.replicate n (0, fiveSeven)).mapM (parseFresh purgeLayout) = some (List.replicate n fiveSevenRel) := by
  rw [mapM_eq_some (g := fun _ => fiveSevenRel) fun line among => by
    rw [List.eq_of_mem_replicate among]
    exact parseFresh_fiveSeven, List.map_replicate]

/-- The last line is parsed into the slot of the first one, which is reset. -/
theorem filterRels_variant :
    filterRels purgeLayout true (noCallbacks _) (List.replicate (sizeBufRel + 1) (0, fiveSeven)) =
      some (List.replicate (sizeBufRel + 1) fiveSevenRel) :=
  (filterRels_iff purgeLayout true (noCallbacks _) _ _ (parseFresh_replicate _)).1.mpr (.inl rfl)

theorem filterRels_slotAgain : ∃ seen,
    (List.replicate (sizeBufRel + 1) (0, fiveSeven)).mapM (parseFresh purgeLayout) = some seen ∧
      filterRels purgeLayout false (noCallbacks _) (List.replicate (sizeBufRel + 1) (0, fiveSeven)) ≠ some seen := by
  have parsed := parseFresh_replicate (sizeBufRel + 1)
  refine ⟨_, parsed, fun same => ?_⟩
  have clean := ((filterRels_eq_iff purgeLayout false (noCallbacks _) parsed).mp same).resolve_left Bool.false_ne_true
  have first : (List.replicate (sizeBufRel + 1) fiveSevenRel)[0]? = some fiveSevenRel :=
    List.getElem?_replicate_of_lt (by omega)
  have none := clean 0 (by rw [List.length_replicate]; omega) fiveSevenRel first 2 (.head _)
  cases none

end CadoNfs.Utils.FilterIo
