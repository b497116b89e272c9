import CadoNfs.Cadofactor.Client
import CadoNfs.Lib.Utf8

/-!
# The placeholders of a command

`substitute` of `rust/cado-nfs-client/src/main.rs` on the bytes of the command, which is `Rust.substitute` on its
characters, and `Template.safe_substitute`, which the Python client calls.
-/

namespace CadoNfs.Cadofactor
open Lib

abbrev byte (c : Char) : UInt8 := .ofNat c.toNat

def charOf (b : UInt8) : Char := .ofNat b.toNat

namespace Rust

def identBytes : Bytes → Bytes
  | [] => []
  | b :: rest => if (charOf b).isDigit then [] else (b :: rest).takeWhile fun b => isIdent (charOf b)

def expandBytes (map : Text → Option Text) (name : Bytes) : Option Bytes :=
  (ofUtf8 name).map fun name => utf8 (expand map name)

def substituteBytes (map : Text → Option Text) : Bytes → Option Bytes
  | [] => some []
  | b :: rest =>
    if b ≠ byte '$' then (substituteBytes map rest).map (String.utf8EncodeChar (charOf b) ++ ·)
    else
      match rest with
      | [] => some [byte '$']
      | b' :: inner =>
        if b' = byte '$' then (substituteBytes map inner).map (byte '$' :: ·)
        else if b' = byte '{' then
          if byte '}' ∈ inner then
            (expandBytes map (inner.takeWhile (· ≠ byte '}'))).bind fun text =>
              (substituteBytes map ((inner.dropWhile (· ≠ byte '}')).drop 1)).map (text ++ ·)
          else (substituteBytes map (b' :: inner)).map (byte '$' :: ·)
        else
          match identBytes (b' :: inner) with
          | [] => (substituteBytes map (b' :: inner)).map (byte '$' :: ·)
          | b :: name =>
            (expandBytes map (b :: name)).bind fun text =>
              (substituteBytes map (inner.drop name.length)).map (text ++ ·)
  termination_by bytes => bytes.length
  decreasing_by
    all_goals simp only [List.length_cons, List.length_drop]
    all_goals try omega
    have shorter := (@List.dropWhile_suffix _ inner fun b => decide (b ≠ byte '}')).length_le
    omega

end Rust

namespace Template

/-- `[_a-z][_a-z0-9]*`, of ASCII, in any case. -/
def identifier : Text → Text
  | [] => []
  | c :: rest => if c.isAlpha ∨ c = '_' then c :: rest.takeWhile fun c => c.isAlphanum || c = '_' else []

def IsIdentifier (name : Text) : Prop := name ≠ [] ∧ identifier name = name

/-- `pattern.sub(convert, template)`: after `$`, the escape, a name, a name in braces, or nothing. -/
def safeSubstitute (map : Text → Option Text) : Text → Text
  | [] => []
  | c :: rest =>
    if c ≠ '$' then c :: safeSubstitute map rest
    else
      match rest with
      | [] => ['$']
      | c' :: inner =>
        if c' = '$' then '$' :: safeSubstitute map inner
        else
          match identifier (c' :: inner) with
          | c :: named =>
            (map (c :: named)).getD ('$' :: c :: named) ++ safeSubstitute map (inner.drop named.length)
          | [] =>
            if c' = '{' ∧ identifier inner ≠ [] ∧ (inner.drop (identifier inner).length).head? = some '}' then
              (map (identifier inner)).getD ('$' :: '{' :: identifier inner ++ ['}']) ++
                safeSubstitute map (inner.drop ((identifier inner).length + 1))
            else '$' :: safeSubstitute map (c' :: inner)
  termination_by text => text.length
  decreasing_by all_goals simp only [List.length_cons, List.length_drop]; omega

end Template

open Rust Template

/-! ## The two scanners, step by step -/

namespace Rust

variable {map : Text → Option Text}

theorem substituteGo_enough {fuel fuel' : ℕ} {text : Text} (enough : text.length ≤ fuel)
    (enough' : text.length ≤ fuel') : substituteGo map fuel text = substituteGo map fuel' text := by
  induction fuel generalizing fuel' text with
  | zero =>
    obtain rfl := List.length_eq_zero_iff.mp (Nat.le_zero.mp enough)
    cases fuel' <;> rfl
  | succ fuel ih =>
    cases text with
    | nil => cases fuel' <;> rfl
    | cons c rest =>
      obtain ⟨fuel', rfl⟩ := Nat.exists_eq_succ_of_ne_zero (show fuel' ≠ 0 by rintro rfl; simp at enough')
      simp only [List.length_cons, Nat.succ_le_succ_iff, Nat.succ_eq_add_one] at enough enough'
      have same {text : Text} (shorter : text.length ≤ rest.length) :
          substituteGo map fuel text = substituteGo map fuel' text :=
        ih (shorter.trans enough) (shorter.trans enough')
      simp only [substituteGo]
      split_ifs with other
      · rw [same le_rfl]
      · split
        · rw [same (by simp)]
        · rename_i inner
          split
          · rw [same le_rfl]
          · rename_i next eq
            have shorter := (@List.dropWhile_suffix _ inner fun c => decide (c ≠ '}')).length_le
            rw [eq, List.length_cons] at shorter
            rw [same (by rw [List.length_cons]; omega)]
        · split_ifs
          · rw [same le_rfl]
          · rw [same (by rw [List.length_drop]; omega)]

theorem substituteGo_eq (map : Text → Option Text) {fuel : ℕ} {text : Text} (enough : text.length ≤ fuel) :
    substituteGo map fuel text = substitute map text := substituteGo_enough enough le_rfl

theorem takeWhile_of_not_mem {α : Type*} [DecidableEq α] {a : α} {l : List α} (absent : a ∉ l) (rest : List α) :
    (l ++ a :: rest).takeWhile (· ≠ a) = l ∧ (l ++ a :: rest).dropWhile (· ≠ a) = a :: rest := by
  have all : ∀ b ∈ l, decide (b ≠ a) = true := by
    intro b member
    rw [decide_eq_true_eq]
    exact fun eq => absent (eq ▸ member)
  rw [List.takeWhile_append_of_pos all, List.dropWhile_append_of_pos all, List.takeWhile_cons_of_neg (by simp),
    List.dropWhile_cons_of_neg (by simp), List.append_nil]
  exact ⟨rfl, rfl⟩

theorem dropWhile_eq_nil_of_not_mem {α : Type*} [DecidableEq α] {a : α} {l : List α} (absent : a ∉ l) :
    l.dropWhile (· ≠ a) = [] := by
  rw [List.dropWhile_eq_nil_iff]
  intro b member
  rw [decide_eq_true_eq]
  exact fun eq => absent (eq ▸ member)

theorem substitute_of_ne {c : Char} (other : c ≠ '$') (rest : Text) :
    substitute map (c :: rest) = pushBytes c ++ substitute map rest := if_pos other

theorem substitute_escape (rest : Text) : substitute map ('$' :: '$' :: rest) = '$' :: substitute map rest :=
  congrArg ('$' :: ·) (substituteGo_eq map (Nat.le_succ rest.length))

theorem substitute_brace {name : Text} (inside : '}' ∉ name) (rest : Text) :
    substitute map ('$' :: '{' :: (name ++ '}' :: rest)) = expand map name ++ substitute map rest := by
  obtain ⟨taken, dropped⟩ := takeWhile_of_not_mem inside rest
  have enough : rest.length ≤ ('{' :: (name ++ '}' :: rest)).length := by
    simp only [List.length_cons, List.length_append]
    omega
  rw [substitute, List.length_cons, substituteGo, if_neg (by decide)]
  simp only [taken, dropped, substituteGo_eq map enough]

theorem substitute_open {rest : Text} (unclosed : '}' ∉ rest) :
    substitute map ('$' :: '{' :: rest) = '$' :: substitute map ('{' :: rest) := by
  rw [substitute, List.length_cons, substituteGo, if_neg (by decide)]
  simp only [dropWhile_eq_nil_of_not_mem unclosed, substituteGo_eq map le_rfl]

theorem substitute_bare {rest : Text} (dollar : rest.head? ≠ some '$') (brace : rest.head? ≠ some '{') :
    substitute map ('$' :: rest) =
      if ident rest = [] then '$' :: substitute map rest
      else expand map (ident rest) ++ substitute map (rest.drop (ident rest).length) := by
  have shorter : (rest.drop (ident rest).length).length ≤ rest.length := by
    rw [List.length_drop]
    omega
  rw [substitute, List.length_cons, substituteGo, if_neg (by decide), substituteGo_eq map le_rfl,
    substituteGo_eq map shorter]
  · rintro rest rfl
    exact dollar rfl
  · rintro inner rfl
    exact brace rfl

end Rust

namespace Template

variable {map : Text → Option Text}

theorem not_alpha_of_digit {c : Char} (digit : c.isDigit = true) : ¬(c.isAlpha = true ∨ c = '_') := by
  simp only [Char.isDigit, Bool.and_eq_true, decide_eq_true_eq, UInt32.le_iff_toNat_le] at digit
  have high : c.val.toNat ≤ 57 := digit.2
  rintro (alpha | rfl)
  · simp only [Char.isAlpha, Char.isUpper, Char.isLower, Bool.or_eq_true, Bool.and_eq_true, decide_eq_true_eq,
      UInt32.le_iff_toNat_le, ge_iff_le] at alpha
    have upper : 'A'.val.toNat = 65 := rfl
    have lower : 'a'.val.toNat = 97 := rfl
    omega
  · exact absurd high (by decide)

theorem identifier_eq_ident (text : Text) : identifier text = ident text := by
  cases text with
  | nil => rfl
  | cons c rest =>
    rw [identifier, ident]
    by_cases digit : c.isDigit
    · rw [if_neg (not_alpha_of_digit digit), if_pos digit]
    · rw [if_neg digit]
      have plain : isIdent c = decide (c.isAlpha ∨ c = '_') := by
        rw [isIdent, Char.isAlphanum, Bool.eq_false_iff.mpr digit, Bool.or_false]
        simp
      by_cases first : c.isAlpha = true ∨ c = '_'
      · rw [if_pos first, List.takeWhile_cons_of_pos (by rw [plain, decide_eq_true first])]
        rfl
      · rw [if_neg first, List.takeWhile_cons_of_neg (by rw [plain, decide_eq_false first]; exact Bool.false_ne_true)]

theorem identifier_prefix (text : Text) : ∃ rest, text = identifier text ++ rest := by
  cases text with
  | nil => exact ⟨[], rfl⟩
  | cons c text =>
    rw [identifier]
    split_ifs
    · exact ⟨_, congrArg (c :: ·) List.takeWhile_append_dropWhile.symm⟩
    · exact ⟨_, rfl⟩

theorem identifier_append_brace (name rest : Text) : identifier (name ++ '}' :: rest) = identifier name := by
  cases name with
  | nil => rfl
  | cons c name =>
    have stops (l : Text) : (l ++ '}' :: rest).takeWhile (fun c => c.isAlphanum || c = '_') =
        l.takeWhile fun c => c.isAlphanum || c = '_' := by
      induction l with
      | nil => exact List.takeWhile_cons_of_neg (by decide)
      | cons d l ih => rw [List.cons_append, List.takeWhile_cons, List.takeWhile_cons, ih]
    rw [List.cons_append, identifier, identifier, stops]

theorem safeSubstitute_of_ne {c : Char} (other : c ≠ '$') (rest : Text) :
    safeSubstitute map (c :: rest) = c :: safeSubstitute map rest := by
  rw [safeSubstitute.eq_def]
  exact if_pos other

theorem safeSubstitute_escape (rest : Text) :
    safeSubstitute map ('$' :: '$' :: rest) = '$' :: safeSubstitute map rest := by
  rw [safeSubstitute.eq_def]
  simp only [ne_eq, not_true, if_false, if_true]

theorem safeSubstitute_bare {rest : Text} (dollar : rest.head? ≠ some '$') (brace : rest.head? ≠ some '{') :
    safeSubstitute map ('$' :: rest) =
      if identifier rest = [] then '$' :: safeSubstitute map rest
      else (map (identifier rest)).getD ('$' :: identifier rest) ++
        safeSubstitute map (rest.drop (identifier rest).length) := by
  rw [safeSubstitute.eq_def]
  cases rest with
  | nil =>
    rw [safeSubstitute]
    rfl
  | cons c inner =>
    have dollar' : c ≠ '$' := fun eq => dollar (congrArg some eq)
    have brace' : c ≠ '{' := fun eq => brace (congrArg some eq)
    simp only [ne_eq, not_true, if_false, dollar', brace', false_and]
    cases named : identifier (c :: inner) with
    | nil => rfl
    | cons d named => rfl

theorem safeSubstitute_open {inner : Text}
    (other : ¬(identifier inner ≠ [] ∧ (inner.drop (identifier inner).length).head? = some '}')) :
    safeSubstitute map ('$' :: '{' :: inner) = '$' :: safeSubstitute map ('{' :: inner) := by
  have none : identifier ('{' :: inner) = [] := rfl
  rw [safeSubstitute.eq_def]
  simp only [ne_eq, not_true, if_false, Char.reduceEq, none, true_and]
  rw [if_neg other]

theorem safeSubstitute_braced {name : Text} (form : IsIdentifier name) (rest : Text) :
    safeSubstitute map ('$' :: '{' :: (name ++ '}' :: rest)) =
      (map name).getD ('$' :: '{' :: name ++ ['}']) ++ safeSubstitute map rest := by
  have named : identifier (name ++ '}' :: rest) = name := (identifier_append_brace name rest).trans form.2
  have none : identifier ('{' :: (name ++ '}' :: rest)) = [] := rfl
  rw [safeSubstitute.eq_def]
  simp [named, none, form.1]

theorem safeSubstitute_unclosed {inner : Text} (unclosed : '}' ∉ inner) :
    safeSubstitute map ('$' :: '{' :: inner) = '$' :: safeSubstitute map ('{' :: inner) := by
  apply safeSubstitute_open
  rintro ⟨-, close⟩
  exact unclosed (List.drop_subset _ _ (List.mem_of_head? close))

theorem safeSubstitute_invalid {name : Text} (inside : '}' ∉ name) (form : ¬IsIdentifier name) (rest : Text) :
    safeSubstitute map ('$' :: '{' :: (name ++ '}' :: rest)) =
      '$' :: safeSubstitute map ('{' :: (name ++ '}' :: rest)) := by
  apply safeSubstitute_open
  rw [identifier_append_brace]
  rintro ⟨nonempty, close⟩
  obtain ⟨more, eq⟩ := identifier_prefix name
  have dropped : (name ++ '}' :: rest).drop (identifier name).length = more ++ '}' :: rest := by
    rw [eq, List.append_assoc, ← eq, List.drop_left]
  rw [dropped] at close
  cases more with
  | nil =>
    rw [List.append_nil] at eq
    exact form ⟨eq ▸ nonempty, eq.symm⟩
  | cons c more =>
    have here : c = '}' := Option.some.inj close
    exact inside (eq ▸ List.mem_append_right _ (here ▸ List.mem_cons_self))

end Template

/-! ## The bytes of the command -/

@[elab_as_elim]
theorem scan_induction {motive : Text → Prop} (text : Text) (nil : motive [])
    (char : ∀ c rest, c ≠ '$' → motive rest → motive (c :: rest))
    (escape : ∀ rest, motive rest → motive ('$' :: '$' :: rest))
    (brace : ∀ name rest, '}' ∉ name → motive rest → motive ('$' :: '{' :: (name ++ '}' :: rest)))
    (unclosed : ∀ rest, '}' ∉ rest → motive ('{' :: rest) → motive ('$' :: '{' :: rest))
    (bare : ∀ rest, rest.head? ≠ some '$' → rest.head? ≠ some '{' →
      (∀ text, text.length ≤ rest.length → motive text) → motive ('$' :: rest)) : motive text := by
  induction h : text.length using Nat.strong_induction_on generalizing text with
  | _ n ih =>
    have later {text' : Text} (shorter : text'.length < text.length) : motive text' :=
      ih text'.length (h ▸ shorter) text' rfl
    cases text with
    | nil => exact nil
    | cons c rest =>
      by_cases other : c = '$'
      swap
      · exact char c rest other (later (Nat.lt_succ_self _))
      subst other
      by_cases dollar : rest.head? = some '$'
      · obtain ⟨rest, rfl⟩ := List.head?_eq_some_iff.mp dollar
        exact escape rest (later (by simp))
      by_cases open' : rest.head? = some '{'
      · obtain ⟨rest, rfl⟩ := List.head?_eq_some_iff.mp open'
        by_cases close : '}' ∈ rest
        · obtain ⟨name, rest, rfl, inside⟩ := List.eq_append_cons_of_mem close
          exact brace name rest inside (later (by simp; omega))
        · exact unclosed rest close (later (Nat.lt_succ_self _))
      · exact bare rest dollar open' fun text shorter => later (Nat.lt_succ_of_le shorter)

namespace Rust

variable {map : Text → Option Text}

theorem charOf_byte {c : Char} (ascii : c.toNat < 128) : charOf (byte c) = c := by
  rw [charOf, UInt8.toNat_ofNat', Nat.mod_eq_of_lt (by omega), Char.ofNat_toNat]

theorem utf8_pushBytes (c : Char) :
    utf8 (pushBytes c) = (String.utf8EncodeChar c).flatMap fun b => String.utf8EncodeChar (charOf b) :=
  List.flatMap_map _ _ _

theorem substituteBytes_append {before : Bytes} (plain : byte '$' ∉ before) (rest : Bytes) :
    substituteBytes map (before ++ rest) =
      (substituteBytes map rest).map ((before.flatMap fun b => String.utf8EncodeChar (charOf b)) ++ ·) := by
  induction before with
  | nil => exact Option.map_id'.symm
  | cons b before ih =>
    rw [List.mem_cons, not_or] at plain
    rw [List.cons_append, substituteBytes.eq_def]
    simp only [if_pos (Ne.symm plain.1), ih plain.2, Option.map_map]
    congr 1
    funext text
    exact (List.append_assoc _ _ _).symm

theorem expandBytes_utf8 (name : Text) : expandBytes map (utf8 name) = some (utf8 (expand map name)) := by
  rw [expandBytes, ofUtf8_utf8]
  rfl

theorem isIdent_ascii {c : Char} (ident : isIdent c = true) : c.toNat < 128 := by
  have value : c.val.toNat = c.toNat := rfl
  simp only [isIdent, Char.isAlphanum, Char.isAlpha, Char.isUpper, Char.isLower, Char.isDigit, Bool.or_eq_true,
    Bool.and_eq_true, decide_eq_true_eq, UInt32.le_iff_toNat_le, ge_iff_le, value] at ident
  have upper : 'Z'.toNat = 90 := rfl
  have lower : 'z'.toNat = 122 := rfl
  have nine : '9'.toNat = 57 := rfl
  rcases ident with ((upper' | lower') | digit) | rfl
  · exact upper'.2.trans_lt (by decide)
  · exact lower'.2.trans_lt (by decide)
  · exact digit.2.trans_lt (by decide)
  · decide

theorem toNat_charOf (b : UInt8) : (charOf b).toNat = b.toNat := by
  have small := b.toNat_lt
  have valid : b.toNat.isValidChar := .inl (by omega)
  rw [charOf, Char.toNat_ofNat, if_pos valid]

theorem takeWhile_isIdent_large {c : Char} (large : 128 ≤ c.toNat) (rest : Bytes) :
    (String.utf8EncodeChar c ++ rest).takeWhile (fun b => isIdent (charOf b)) = [] := by
  obtain ⟨b, bytes, eq⟩ := List.exists_cons_of_ne_nil (@String.utf8EncodeChar_ne_nil c)
  have high : 128 ≤ b.toNat := le_of_mem_utf8EncodeChar large (eq ▸ List.mem_cons_self)
  have other : ¬isIdent (charOf b) = true := fun ident => by
    have := isIdent_ascii ident
    rw [toNat_charOf] at this
    omega
  rw [eq, List.cons_append]
  exact List.takeWhile_cons_of_neg other

theorem takeWhile_isIdent_utf8 (text : Text) :
    (utf8 text).takeWhile (fun b => isIdent (charOf b)) = utf8 (text.takeWhile isIdent) := by
  induction text with
  | nil => rfl
  | cons c rest ih =>
    rcases lt_or_ge c.toNat 128 with small | large
    · rw [utf8_cons, utf8EncodeChar_ascii small, List.singleton_append, List.takeWhile_cons, List.takeWhile_cons,
        charOf_byte small, ih]
      cases isIdent c with
      | false => rfl
      | true => exact (congrArg (· ++ _) (utf8EncodeChar_ascii small)).symm
    · have other : ¬isIdent c = true := fun ident => absurd (isIdent_ascii ident) (not_lt.mpr large)
      rw [utf8_cons, takeWhile_isIdent_large large, List.takeWhile_cons_of_neg other, utf8_nil]

theorem identBytes_utf8 (text : Text) : identBytes (utf8 text) = utf8 (ident text) := by
  cases text with
  | nil => rfl
  | cons c rest =>
    rcases lt_or_ge c.toNat 128 with small | large
    · have encoded : utf8 (c :: rest) = byte c :: utf8 rest := by
        rw [utf8_cons, utf8EncodeChar_ascii small]
        rfl
      rw [encoded, identBytes, ident, charOf_byte small, ← encoded, takeWhile_isIdent_utf8]
      split_ifs
      · rfl
      · rfl
    · have other : ¬isIdent c = true := fun ident => absurd (isIdent_ascii ident) (not_lt.mpr large)
      have none : ident (c :: rest) = [] := by
        rw [ident, List.takeWhile_cons_of_neg other, ite_self]
      obtain ⟨b, bytes, eq⟩ := List.exists_cons_of_ne_nil (@String.utf8EncodeChar_ne_nil c)
      have stops := takeWhile_isIdent_large large (utf8 rest)
      rw [none, utf8_cons]
      rw [eq, List.cons_append] at stops ⊢
      rw [identBytes, stops, ite_self, utf8_nil]

theorem substituteBytes_escape (rest : Bytes) :
    substituteBytes map (byte '$' :: byte '$' :: rest) = (substituteBytes map rest).map (byte '$' :: ·) := by
  rw [substituteBytes.eq_def]
  simp only [ne_eq, not_true, if_false, if_true]

theorem substituteBytes_brace {name : Bytes} (inside : byte '}' ∉ name) (rest : Bytes) :
    substituteBytes map (byte '$' :: byte '{' :: (name ++ byte '}' :: rest)) =
      (expandBytes map name).bind fun text => (substituteBytes map rest).map (text ++ ·) := by
  obtain ⟨taken, dropped⟩ := takeWhile_of_not_mem inside rest
  have close : byte '}' ∈ name ++ byte '}' :: rest := List.mem_append_right _ (.head _)
  have other : byte '{' ≠ byte '$' := by decide
  rw [substituteBytes.eq_def]
  simp only [ne_eq, not_true, if_false, if_neg other, if_true, if_pos close]
  rw [taken, dropped]
  rfl

theorem substituteBytes_unclosed {rest : Bytes} (unclosed : byte '}' ∉ rest) :
    substituteBytes map (byte '$' :: byte '{' :: rest) =
      (substituteBytes map (byte '{' :: rest)).map (byte '$' :: ·) := by
  have other : byte '{' ≠ byte '$' := by decide
  rw [substituteBytes.eq_def]
  simp only [ne_eq, not_true, if_false, if_neg other, if_true, if_neg unclosed]

theorem substituteBytes_bare {rest : Bytes} (dollar : rest.head? ≠ some (byte '$'))
    (brace : rest.head? ≠ some (byte '{')) :
    substituteBytes map (byte '$' :: rest) =
      if identBytes rest = [] then (substituteBytes map rest).map (byte '$' :: ·)
      else (expandBytes map (identBytes rest)).bind fun text =>
        (substituteBytes map (rest.drop (identBytes rest).length)).map (text ++ ·) := by
  rw [substituteBytes.eq_def]
  cases rest with
  | nil =>
    rw [substituteBytes.eq_def]
    rfl
  | cons b inner =>
    have dollar' : b ≠ byte '$' := fun eq => dollar (congrArg some eq)
    have brace' : b ≠ byte '{' := fun eq => brace (congrArg some eq)
    simp only [ne_eq, not_true, if_false, if_neg dollar', if_neg brace']
    cases named : identBytes (b :: inner) with
    | nil => rfl
    | cons d named => rfl

theorem ident_prefix (text : Text) : ∃ rest, text = ident text ++ rest := by
  rw [← Template.identifier_eq_ident]
  exact Template.identifier_prefix text

theorem substituteBytes_utf8 (map : Text → Option Text) (text : Text) :
    substituteBytes map (utf8 text) = some (utf8 (substitute map text)) := by
  induction text using scan_induction with
  | nil => exact substituteBytes.eq_def map []
  | char c rest other ih =>
    have plain : byte '$' ∉ String.utf8EncodeChar c := mt (mem_utf8EncodeChar_iff (by decide)).mp other
    rw [utf8_cons, substituteBytes_append plain, ih, substitute_of_ne other, utf8_append, utf8_pushBytes]
    rfl
  | escape rest ih =>
    have step := @substituteBytes_escape map (utf8 rest)
    rw [ih] at step
    rw [substitute_escape]
    exact step
  | brace name rest inside ih =>
    have step := @substituteBytes_brace map _ (mt (mem_utf8_iff (by decide)).mp inside) (utf8 rest)
    rw [ih, expandBytes_utf8] at step
    rw [substitute_brace inside, utf8_append, utf8_cons, utf8_cons, utf8_append, utf8_cons]
    exact step
  | unclosed rest unclosed ih =>
    have step := @substituteBytes_unclosed map _ (mt (mem_utf8_iff (by decide)).mp unclosed)
    rw [substitute_open unclosed]
    exact step.trans (congrArg (Option.map _) ih)
  | bare rest dollar brace ih =>
    have step := @substituteBytes_bare map _ (mt (head_utf8 (by decide)) dollar)
      (mt (head_utf8 (by decide)) brace)
    rw [substitute_bare dollar brace]
    refine step.trans ?_
    rw [identBytes_utf8]
    obtain ⟨more, eq⟩ := ident_prefix rest
    by_cases none : ident rest = []
    · rw [if_pos none, none, utf8_nil, if_pos rfl, ih rest le_rfl]
      rfl
    · have bytes : utf8 (ident rest) ≠ [] := fun empty => none (utf8_injective empty)
      have dropped : (utf8 rest).drop (utf8 (ident rest)).length = utf8 more := by
        have encoded := (congrArg utf8 eq).trans (utf8_append _ _)
        exact (congrArg (List.drop (utf8 (ident rest)).length) encoded).trans List.drop_left
      have dropped' : rest.drop (ident rest).length = more :=
        (congrArg (List.drop (ident rest).length) eq).trans List.drop_left
      have shorter : more.length ≤ rest.length := by
        rw [eq, List.length_append]
        omega
      rw [if_neg none, if_neg bytes, expandBytes_utf8, dropped, dropped', ih more shorter, utf8_append]
      rfl

end Rust

open Template Rust

/-- The commands of ASCII characters in which every name in braces is the id of a file. -/
inductive Intact (ids : Text → Prop) : Text → Prop
  | nil : Intact ids []
  | char {c rest} : c ≠ '$' → c.toNat < 128 → Intact ids rest → Intact ids (c :: rest)
  | escape {rest} : Intact ids rest → Intact ids ('$' :: '$' :: rest)
  | brace {name rest} : IsIdentifier name → ids name → '}' ∉ name → Intact ids rest →
      Intact ids ('$' :: '{' :: (name ++ '}' :: rest))
  | unclosed {rest} : '}' ∉ rest → Intact ids ('{' :: rest) → Intact ids ('$' :: '{' :: rest)
  | bare {rest} : rest.head? ≠ some '$' → rest.head? ≠ some '{' → Intact ids rest → Intact ids ('$' :: rest)

variable {map : Text → Option Text}

theorem pushBytes_ascii {c : Char} (ascii : c.toNat < 128) : pushBytes c = [c] := by
  rw [pushBytes, utf8EncodeChar_ascii ascii, List.map_singleton]
  exact congrArg (fun c => [c]) (charOf_byte ascii)

theorem ident_plain (text : Text) : ∀ c ∈ ident text, c ≠ '$' ∧ c.toNat < 128 := by
  have names (l : Text) : ∀ c ∈ l.takeWhile isIdent, c ≠ '$' ∧ c.toNat < 128 := by
    intro c member
    have ident := List.mem_takeWhile_imp member
    refine ⟨?_, isIdent_ascii ident⟩
    rintro rfl
    cases ident
  cases text with
  | nil => exact fun _ member => absurd member List.not_mem_nil
  | cons c rest =>
    rw [ident]
    split_ifs
    · exact fun _ member => absurd member List.not_mem_nil
    · exact names _

theorem substitute_append {before : Text} (plain : ∀ c ∈ before, c ≠ '$' ∧ c.toNat < 128) (rest : Text) :
    substitute map (before ++ rest) = before ++ substitute map rest := by
  induction before with
  | nil => rfl
  | cons c before ih =>
    rw [List.forall_mem_cons] at plain
    rw [List.cons_append, substitute_of_ne plain.1.1, pushBytes_ascii plain.1.2, ih plain.2]
    rfl

theorem safeSubstitute_append {before : Text} (plain : ∀ c ∈ before, c ≠ '$' ∧ c.toNat < 128) (rest : Text) :
    safeSubstitute map (before ++ rest) = before ++ safeSubstitute map rest := by
  induction before with
  | nil => rfl
  | cons c before ih =>
    rw [List.forall_mem_cons] at plain
    rw [List.cons_append, safeSubstitute_of_ne plain.1.1, ih plain.2]
    rfl

theorem bare_cases {rest : Text} (dollar : rest.head? ≠ some '$') (brace : rest.head? ≠ some '{') :
    ∃ written before after, rest = before ++ after ∧ (∀ c ∈ before, c ≠ '$' ∧ c.toNat < 128) ∧
      substitute map ('$' :: rest) = written ++ substitute map after ∧
      safeSubstitute map ('$' :: rest) = written ++ safeSubstitute map after ∧
      (written.head? = some '$' ∨ ∃ name, map name = some written) := by
  rw [substitute_bare dollar brace, safeSubstitute_bare dollar brace, identifier_eq_ident]
  obtain ⟨after, eq⟩ := ident_prefix rest
  split_ifs with none
  · exact ⟨['$'], [], rest, rfl, fun _ member => absurd member List.not_mem_nil, rfl, rfl, .inl rfl⟩
  · have dropped : rest.drop (ident rest).length = after :=
      (congrArg (List.drop (ident rest).length) eq).trans List.drop_left
    refine ⟨expand map (ident rest), ident rest, after, eq, ident_plain rest, by rw [dropped], ?_, ?_⟩
    · rw [dropped]
      rfl
    · rw [expand]
      cases found : map (ident rest) with
      | none => exact .inl rfl
      | some text => exact .inr ⟨_, found⟩

theorem substitute_eq_of_intact {ids : Text → Prop} (known : ∀ id, ids id → (map id).isSome = true) {command : Text}
    (intact : Intact ids command) : substitute map command = safeSubstitute map command := by
  induction intact with
  | nil => exact (safeSubstitute.eq_def map []).symm
  | char other ascii _ ih => rw [substitute_of_ne other, safeSubstitute_of_ne other, pushBytes_ascii ascii, ih]; rfl
  | escape _ ih => rw [substitute_escape, safeSubstitute_escape, ih]
  | brace form id inside _ ih =>
    obtain ⟨text, found⟩ := Option.isSome_iff_exists.mp (known _ id)
    rw [substitute_brace inside, safeSubstitute_braced form, ih, expand, found]
    rfl
  | unclosed close _ ih => rw [substitute_open close, safeSubstitute_unclosed close, ih]
  | bare dollar brace _ ih =>
    obtain ⟨written, before, after, rfl, plain, rust, python, -⟩ := @bare_cases map _ dollar brace
    rw [substitute_append plain, safeSubstitute_append plain] at ih
    rw [rust, python, List.append_cancel_left ih]

/-! ## Where they differ -/

theorem exists_perm_of_append_eq {α : Type*} {x v a b : List α} (eq : x ++ (v ++ a) = v ++ b) :
    ∃ y, y.Perm x ∧ y ++ a = b := by
  have first : x ++ v <+: v ++ b := ⟨a, by rw [List.append_assoc, eq]⟩
  obtain ⟨y, moved⟩ := List.prefix_of_prefix_length_le (List.prefix_append v b) first (by simp)
  refine ⟨y, ?_, ?_⟩
  · have perm : (v ++ y).Perm (v ++ x) := moved ▸ List.perm_append_comm
    exact (List.perm_append_left_iff v).mp perm
  · rw [← List.append_assoc, ← moved, List.append_assoc] at eq
    exact List.append_cancel_left eq

theorem append_ne_of_append_ne {α : Type*} {P : α → Prop} {x v a b : List α}
    (ih : ∀ y : List α, y ≠ [] → (∀ c ∈ y, P c) → y ++ a ≠ b) (nonempty : x ≠ []) (all : ∀ c ∈ x, P c) :
    x ++ (v ++ a) ≠ v ++ b := by
  intro eq
  obtain ⟨moved, perm, eq⟩ := exists_perm_of_append_eq eq
  exact ih moved (fun empty => nonempty (empty ▸ perm).nil_eq.symm) (fun c member => all c (perm.mem_iff.mp member)) eq

theorem append_ne_cons {α : Type*} {x s t : List α} {c : α} (nonempty : x ≠ []) (absent : c ∉ x) :
    x ++ s ≠ c :: t := by
  obtain ⟨d, x, rfl⟩ := List.exists_cons_of_ne_nil nonempty
  intro eq
  rw [List.cons_append, List.cons.injEq] at eq
  exact absent (eq.1 ▸ List.mem_cons_self)

theorem pushBytes_large {c : Char} (large : 128 ≤ c.toNat) :
    1 < (pushBytes c).length ∧ ∀ d ∈ pushBytes c, 128 ≤ d.toNat := by
  constructor
  · have value : ¬c.val ≤ 127 := by
      rw [UInt32.le_iff_toNat_le]
      exact not_le.mpr large
    have more := mt Char.utf8Size_eq_one_iff.mp value
    have positive := c.utf8Size_pos
    rw [pushBytes, List.length_map, String.length_utf8EncodeChar]
    omega
  · intro d member
    obtain ⟨b, there, rfl⟩ := List.mem_map.mp member
    exact (le_of_mem_utf8EncodeChar large there).trans_eq (toNat_charOf b).symm

theorem expand_cases (map : Text → Option Text) (name : Text) :
    expand map name = '$' :: name ∧ map name = none ∨ ∃ text, expand map name = text ∧ map name = some text := by
  rw [expand]
  cases map name with
  | none => exact .inl ⟨rfl, rfl⟩
  | some text => exact .inr ⟨text, rfl, rfl⟩

theorem surplus_bytes (command : Text) : ∀ surplus : Text, surplus ≠ [] → (∀ c ∈ surplus, 128 ≤ c.toNat) →
    surplus ++ substitute map command ≠ safeSubstitute map command := by
  have absent {surplus : Text} (large : ∀ c ∈ surplus, 128 ≤ c.toNat) {c : Char} (ascii : c.toNat < 128) :
      c ∉ surplus := fun member => absurd (large c member) (not_le.mpr ascii)
  induction command using scan_induction with
  | nil =>
    intro surplus nonempty large eq
    rw [safeSubstitute.eq_def] at eq
    exact nonempty (List.append_eq_nil_iff.mp eq).1
  | char c rest other ih =>
    intro surplus nonempty large
    rw [safeSubstitute_of_ne other, substitute_of_ne other]
    rcases lt_or_ge c.toNat 128 with small | high
    · exact append_ne_cons nonempty (absent large small)
    · obtain ⟨d, surplus, rfl⟩ := List.exists_cons_of_ne_nil nonempty
      intro eq
      rw [List.cons_append, List.cons.injEq, ← List.append_assoc] at eq
      obtain ⟨more, bytes⟩ := pushBytes_large high
      refine ih (surplus ++ pushBytes c) ?_ ?_ eq.2
      · exact List.append_ne_nil_of_right_ne_nil _ (List.length_pos_iff.mp (by omega))
      · intro e member
        rcases List.mem_append.mp member with before | after
        · exact large e (List.mem_cons_of_mem d before)
        · exact bytes e after
  | escape rest ih =>
    intro surplus nonempty large
    rw [safeSubstitute_escape]
    exact append_ne_cons nonempty (absent large (by decide))
  | brace name rest inside ih =>
    intro surplus nonempty large
    by_cases form : IsIdentifier name
    · rw [substitute_brace inside, safeSubstitute_braced form]
      rcases expand_cases map name with ⟨-, none⟩ | ⟨text, written, found⟩
      · rw [none]
        exact append_ne_cons nonempty (absent large (by decide))
      · rw [written, found, Option.getD_some]
        exact append_ne_of_append_ne ih nonempty large
    · rw [safeSubstitute_invalid inside form]
      exact append_ne_cons nonempty (absent large (by decide))
  | unclosed rest close ih =>
    intro surplus nonempty large
    rw [safeSubstitute_unclosed close]
    exact append_ne_cons nonempty (absent large (by decide))
  | bare rest dollar brace ih =>
    intro surplus nonempty large
    obtain ⟨written, before, after, rfl, -, rust, python, dollar | ⟨name, found⟩⟩ := @bare_cases map _ dollar brace
    · obtain ⟨written, rfl⟩ := List.head?_eq_some_iff.mp dollar
      rw [python]
      exact append_ne_cons nonempty (absent large (by decide))
    · rw [rust, python]
      exact append_ne_of_append_ne (ih after (by simp)) nonempty large

def Tame (map : Text → Option Text) : Prop := ∀ name text, map name = some text → IsIdentifier name ∨ text = ['x']

theorem surplus_braces (tame : Tame map) (command : Text) : ∀ surplus : Text, surplus ≠ [] →
    (∀ c ∈ surplus, c = '{' ∨ c = '}') → surplus ++ safeSubstitute map command ≠ substitute map command := by
  have absent {surplus : Text} (braces : ∀ c ∈ surplus, c = '{' ∨ c = '}') {c : Char} (first : c ≠ '{')
      (second : c ≠ '}') : c ∉ surplus := fun member => (braces c member).elim first second
  induction command using scan_induction with
  | nil =>
    intro surplus nonempty braces eq
    exact nonempty (List.append_eq_nil_iff.mp eq).1
  | char c rest other ih =>
    intro surplus nonempty braces eq
    rw [safeSubstitute_of_ne other, substitute_of_ne other] at eq
    rcases lt_or_ge c.toNat 128 with small | high
    · rw [pushBytes_ascii small] at eq
      exact append_ne_of_append_ne (v := [c]) ih nonempty braces eq
    · obtain ⟨more, bytes⟩ := pushBytes_large high
      obtain ⟨d, text, pushed⟩ := List.exists_cons_of_length_pos (show 0 < (pushBytes c).length by omega)
      have large : 128 ≤ d.toNat := bytes d (pushed ▸ List.mem_cons_self)
      rw [pushed] at eq
      refine append_ne_cons nonempty (absent braces ?_ ?_) eq
      · rintro rfl
        exact absurd large (by decide)
      · rintro rfl
        exact absurd large (by decide)
  | escape rest ih =>
    intro surplus nonempty braces
    rw [substitute_escape]
    exact append_ne_cons nonempty (absent braces (by decide) (by decide))
  | brace name rest inside ih =>
    intro surplus nonempty braces
    rw [substitute_brace inside]
    rcases expand_cases map name with ⟨written, none⟩ | ⟨text, written, found⟩
    · rw [written]
      exact append_ne_cons nonempty (absent braces (by decide) (by decide))
    · rw [written]
      by_cases form : IsIdentifier name
      · rw [safeSubstitute_braced form, found, Option.getD_some]
        exact append_ne_of_append_ne ih nonempty braces
      · rw [(tame name text found).resolve_left form]
        exact append_ne_cons nonempty (absent braces (by decide) (by decide))
  | unclosed rest close ih =>
    intro surplus nonempty braces
    rw [substitute_open close]
    exact append_ne_cons nonempty (absent braces (by decide) (by decide))
  | bare rest dollar brace ih =>
    intro surplus nonempty braces
    obtain ⟨written, before, after, rfl, -, rust, python, dollar | ⟨name, found⟩⟩ := @bare_cases map _ dollar brace
    · obtain ⟨written, rfl⟩ := List.head?_eq_some_iff.mp dollar
      rw [rust]
      exact append_ne_cons nonempty (absent braces (by decide) (by decide))
    · rw [rust, python]
      exact append_ne_of_append_ne (ih after (by simp)) nonempty braces

theorem braces_lost (tame : Tame map) (name rest : Text) :
    name ++ substitute map rest ≠ '{' :: safeSubstitute map (name ++ '}' :: rest) := by
  induction name with
  | nil =>
    rw [List.nil_append, List.nil_append, safeSubstitute_of_ne (by decide)]
    exact (surplus_braces tame rest ['{', '}'] (by decide) (by simp)).symm
  | cons c name ih =>
    intro eq
    rw [List.cons_append, List.cons.injEq] at eq
    obtain ⟨rfl, eq⟩ := eq
    rw [List.cons_append, safeSubstitute_of_ne (by decide)] at eq
    exact ih eq

theorem intact_of_eq (tame : Tame map) (command : Text) (eq : substitute map command = safeSubstitute map command) :
    Intact (fun id => (map id).isSome = true) command := by
  induction command using scan_induction with
  | nil => exact .nil
  | char c rest other ih =>
    rw [substitute_of_ne other, safeSubstitute_of_ne other] at eq
    rcases lt_or_ge c.toNat 128 with small | high
    · rw [pushBytes_ascii small] at eq
      exact .char other small (ih (List.cons.inj eq).2)
    · exfalso
      obtain ⟨more, bytes⟩ := pushBytes_large high
      cases pushed : pushBytes c with
      | nil =>
        rw [pushed] at more
        cases more
      | cons d surplus =>
        rw [pushed] at eq more bytes
        rw [List.cons_append, List.cons.injEq] at eq
        refine surplus_bytes rest surplus ?_ (fun e member => bytes e (List.mem_cons_of_mem d member)) eq.2
        rintro rfl
        exact lt_irrefl 1 more
  | escape rest ih =>
    rw [substitute_escape, safeSubstitute_escape, List.cons.injEq] at eq
    exact .escape (ih eq.2)
  | brace name rest inside ih =>
    rw [substitute_brace inside] at eq
    by_cases form : IsIdentifier name
    · rw [safeSubstitute_braced form] at eq
      rcases expand_cases map name with ⟨written, none⟩ | ⟨text, written, found⟩
      · exfalso
        rw [written, none, Option.getD_none, List.cons_append, List.cons_append, List.cons_append, List.cons_append,
          List.cons.injEq] at eq
        cases name with
        | nil => exact form.1 rfl
        | cons c name =>
          have first : c = '{' := (List.cons.inj eq.2).1
          have none : identifier (c :: name) = [] := by rw [first]; rfl
          rw [form.2] at none
          cases none
      · rw [written, found, Option.getD_some] at eq
        exact .brace form (by rw [found]; rfl) inside (ih (List.append_cancel_left eq))
    · exfalso
      rw [safeSubstitute_invalid inside form, safeSubstitute_of_ne (by decide)] at eq
      rcases expand_cases map name with ⟨written, none⟩ | ⟨text, written, found⟩
      · rw [written, List.cons_append, List.cons.injEq] at eq
        exact braces_lost tame name rest eq.2
      · rw [written, (tame name text found).resolve_left form, List.cons_append, List.cons.injEq] at eq
        exact absurd eq.1 (by decide)
  | unclosed rest close ih =>
    rw [substitute_open close, safeSubstitute_unclosed close, List.cons.injEq] at eq
    exact .unclosed close (ih eq.2)
  | bare rest dollar brace ih =>
    obtain ⟨written, before, after, rfl, plain, rust, python, -⟩ := @bare_cases map _ dollar brace
    rw [rust, python] at eq
    have same := congrArg (before ++ ·) (List.append_cancel_left eq)
    refine .bare dollar brace (ih _ le_rfl ?_)
    rw [substitute_append plain, safeSubstitute_append plain]
    exact same

theorem substitute_iff_of_identifiers (names : ∀ id, (map id).isSome = true → IsIdentifier id) (command : Text) :
    substituteBytes map (utf8 command) = some (utf8 (safeSubstitute map command)) ↔
      Intact (fun id => (map id).isSome = true) command := by
  rw [substituteBytes_utf8, Option.some.injEq, utf8_injective.eq_iff]
  constructor
  · exact intact_of_eq (fun name text found => .inl (names name (by rw [found]; rfl))) command
  · exact substitute_eq_of_intact fun _ known => known

/-- For the files with these ids, both clients make the same command if and only if the command is intact; when the
ids are identifiers, this is so for each choice of names. -/
theorem substitute_iff_intact (ids : Text → Prop) (command : Text) :
    ((∀ map : Text → Option Text, (∀ id, (map id).isSome = true ↔ ids id) →
        substituteBytes map (utf8 command) = some (utf8 (safeSubstitute map command))) ↔ Intact ids command) ∧
      ((∀ id, ids id → IsIdentifier id) → ∀ map : Text → Option Text, (∀ id, (map id).isSome = true ↔ ids id) →
        (substituteBytes map (utf8 command) = some (utf8 (safeSubstitute map command)) ↔ Intact ids command)) := by
  refine ⟨⟨fun all => ?_, fun intact map known => ?_⟩, fun names map known => ?_⟩
  · classical
    let map : Text → Option Text := fun id => if ids id then some ['x'] else none
    have known (id : Text) : (map id).isSome = true ↔ ids id := by
      by_cases member : ids id
      · simp [map, member]
      · simp [map, member]
    have tame : Tame map := by
      intro name text found
      by_cases member : ids name
      · exact .inr (by simpa [map, member] using found.symm)
      · simp [map, member] at found
    have eq := all map known
    rw [substituteBytes_utf8, Option.some.injEq] at eq
    have intact := intact_of_eq tame command (utf8_injective eq)
    simpa only [known] using intact
  · rw [substituteBytes_utf8, substitute_eq_of_intact (fun id member => (known id).mpr member) intact]
  · rw [substitute_iff_of_identifiers fun id member => names id ((known id).mp member)]
    simp only [known]

theorem unknown_brace :
    ¬∀ (map : Text → Option Text) (command : Text),
      substituteBytes map (utf8 command) = some (utf8 (safeSubstitute map command)) := by
  intro all
  have eq := all (fun _ => none) ['$', '{', 'X', '}']
  rw [substituteBytes_utf8, Option.some.injEq, utf8_injective.eq_iff] at eq
  have rust : substitute (fun _ => none) ['$', '{', 'X', '}'] = ['$', 'X'] := rfl
  have python : safeSubstitute (fun _ => none) ('$' :: '{' :: (['X'] ++ '}' :: [])) = _ :=
    safeSubstitute_braced ⟨by decide, rfl⟩ []
  rw [List.singleton_append, Option.getD_none] at python
  rw [rust, python] at eq
  cases eq

end CadoNfs.Cadofactor
