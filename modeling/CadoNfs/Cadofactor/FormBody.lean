import CadoNfs.Cadofactor.Substitute

/-!
# Form bodies

`parse_form` and `urldecode` of `rust/cado-wu-server/src/main.rs`. `None` stands for a panic.
-/

namespace CadoNfs.Cadofactor.FormBody
open Lib

def continuation (b : UInt8) : Bool := 0x80 ≤ b && b ≤ 0xBF

def secondByte (b b' : UInt8) : Bool :=
  b == 0xE0 && 0xA0 ≤ b' && b' ≤ 0xBF || 0xE1 ≤ b && b ≤ 0xEC && continuation b' ||
    b == 0xED && 0x80 ≤ b' && b' ≤ 0x9F || 0xEE ≤ b && b ≤ 0xEF && continuation b' ||
    b == 0xF0 && 0x90 ≤ b' && b' ≤ 0xBF || 0xF1 ≤ b && b ≤ 0xF3 && continuation b' ||
    b == 0xF4 && 0x80 ≤ b' && b' ≤ 0x8F

def invalidLength (b : UInt8) (rest : Bytes) : ℕ :=
  match rest with
  | [] => 1
  | b' :: rest =>
    if ¬secondByte b b' then 1
    else if b < 0xF0 then 2
    else
      match rest with
      | [] => 2
      | b'' :: _ => if continuation b'' then 3 else 2

def fromUtf8Lossy : Bytes → Text
  | [] => []
  | b :: rest =>
    match (b :: rest).toByteArray.utf8DecodeChar? 0 with
    | some c => c :: fromUtf8Lossy (rest.drop (c.utf8Size - 1))
    | none => Char.ofNat 0xFFFD :: fromUtf8Lossy (rest.drop (invalidLength b rest - 1))
  termination_by bytes => bytes.length
  decreasing_by all_goals simp only [List.length_cons, List.length_drop]; omega

def hexDigit (c : Char) : Option ℕ :=
  if c.isDigit then some (c.toNat - '0'.toNat)
  else if 'a' ≤ c ∧ c ≤ 'f' then some (c.toNat - 'a'.toNat + 10)
  else if 'A' ≤ c ∧ c ≤ 'F' then some (c.toNat - 'A'.toNat + 10)
  else none

/-- `u8::from_str_radix(src, 16)`, which takes a sign. -/
def fromStrRadix16 (src : Text) : Option UInt8 :=
  let digits := if src.head? = some '+' then src.drop 1 else src
  if digits = [] then none
  else
    (digits.foldlM (fun n c => (hexDigit c).bind fun d => if n * 16 + d < 256 then some (n * 16 + d) else none)
      0).map UInt8.ofNat

def urldecode : Bytes → Option Text
  | [] => some []
  | b :: rest =>
    if b = byte '+' then (urldecode rest).map (' ' :: ·)
    else if b = byte '%' ∧ 2 ≤ rest.length then
      (ofUtf8 (rest.take 2)).bind fun digits =>
        match fromStrRadix16 digits with
        | some value => (urldecode (rest.drop 2)).map (charOf value :: ·)
        | none => (urldecode rest).map ('%' :: ·)
    else (urldecode rest).map (charOf b :: ·)
  termination_by bytes => bytes.length
  decreasing_by all_goals simp only [List.length_cons, List.length_drop]; omega

def splitOnce (pair : Text) : Option (Text × Text) :=
  if '=' ∈ pair then some (pair.takeWhile (· ≠ '='), (pair.dropWhile (· ≠ '=')).drop 1) else none

def insertPairs : List Text → List (Text × Text) → Option (List (Text × Text))
  | [], m => some m
  | pair :: pairs, m =>
    match splitOnce pair with
    | none => insertPairs pairs m
    | some (k, v) =>
      (urldecode (utf8 k)).bind fun k => (urldecode (utf8 v)).bind fun v => insertPairs pairs (dictSet m k v)

def parseForm (body : Bytes) : Option (List (Text × Text)) := insertPairs ((fromUtf8Lossy body).splitOn '&') []

structure Unreserved where
  safe : Char → Bool
  plain : ∀ c, safe c = true → c.isAlphanum = true ∨ c ∈ ['*', '-', '.', '_', '~']

def upperHex (d : ℕ) : Char := Char.ofNat (if d < 10 then '0'.toNat + d else 'A'.toNat + (d - 10))

def encodeByte (unreserved : Unreserved) (b : UInt8) : Text :=
  if b = byte ' ' then ['+']
  else if unreserved.safe (charOf b) then [charOf b]
  else ['%', upperHex (b.toNat / 16), upperHex (b.toNat % 16)]

def encodeText (unreserved : Unreserved) (text : Text) : Text := (utf8 text).flatMap (encodeByte unreserved)

def encodePair (unreserved : Unreserved) (pair : Text × Text) : Text :=
  encodeText unreserved pair.1 ++ '=' :: encodeText unreserved pair.2

def formBody (unreserved : Unreserved) (pairs : List (Text × Text)) : Bytes :=
  utf8 (['&'].intercalate (pairs.map (encodePair unreserved)))

def Whole (rest : Text) : Prop :=
  2 ≤ (utf8 rest).length → ∃ digits after, rest = digits ++ after ∧ (utf8 digits).length = 2

def Sliceable (text : Text) : Prop := ∀ before rest, text = before ++ '%' :: rest → Whole rest

theorem sliceable_nil : Sliceable [] := by
  intro before rest eq
  simp at eq

theorem sliceable_percent {text : Text} : Sliceable ('%' :: text) ↔ Whole text ∧ Sliceable text := by
  constructor
  · intro all
    exact ⟨all [] text rfl, fun before rest eq => all ('%' :: before) rest (congrArg ('%' :: ·) eq)⟩
  · rintro ⟨whole, all⟩ before rest eq
    cases before with
    | nil =>
      obtain rfl := (List.cons.inj eq).2
      exact whole
    | cons c before => exact all before rest (List.cons.inj eq).2

theorem sliceable_append {before : Text} (none : '%' ∉ before) (text : Text) :
    Sliceable (before ++ text) ↔ Sliceable text := by
  induction before with
  | nil => rfl
  | cons c before ih =>
    rw [List.mem_cons, not_or] at none
    rw [← ih none.2]
    constructor
    · exact fun all before' rest eq => all (c :: before') rest (congrArg (c :: ·) eq)
    · intro all before' rest eq
      cases before' with
      | nil => exact absurd (List.cons.inj eq).1 (Ne.symm none.1)
      | cons d before' => exact all before' rest (List.cons.inj eq).2

theorem percent_not_mem_of_radix {src : Text} {value : UInt8} (parsed : fromStrRadix16 src = some value) :
    '%' ∉ src := by
  have digits (n : ℕ) (l : Text) (value : ℕ) (read : l.foldlM (fun n c => (hexDigit c).bind fun d =>
      if n * 16 + d < 256 then some (n * 16 + d) else none) n = some value) : '%' ∉ l := by
    induction l generalizing n with
    | nil => exact List.not_mem_nil
    | cons c l ih =>
      rw [List.foldlM_cons] at read
      obtain ⟨next, first, rest⟩ := Option.bind_eq_some_iff.mp read
      rw [List.mem_cons, not_or]
      refine ⟨?_, ih next rest⟩
      rintro rfl
      cases first
  unfold fromStrRadix16 at parsed
  simp only at parsed
  split_ifs at parsed with sign empty empty
  · obtain ⟨n, read, -⟩ := Option.map_eq_some_iff.mp parsed
    obtain ⟨src, rfl⟩ := List.head?_eq_some_iff.mp sign
    rw [List.mem_cons, not_or]
    exact ⟨by decide, digits 0 src n read⟩
  · obtain ⟨n, read, -⟩ := Option.map_eq_some_iff.mp parsed
    exact digits 0 src n read

theorem urldecode_append {before : Bytes} (plus : byte '+' ∉ before) (percent : byte '%' ∉ before) (rest : Bytes) :
    urldecode (before ++ rest) = (urldecode rest).map (before.map charOf ++ ·) := by
  induction before with
  | nil => exact Option.map_id'.symm
  | cons b before ih =>
    rw [List.mem_cons, not_or] at plus percent
    rw [List.cons_append, urldecode.eq_def]
    simp only [if_neg (Ne.symm plus.1), Ne.symm percent.1, false_and, if_false, ih plus.2 percent.2, Option.map_map]
    rfl

theorem urldecode_isSome_iff (text : Text) : (urldecode (utf8 text)).isSome = true ↔ Sliceable text := by
  induction h : text.length using Nat.strong_induction_on generalizing text with
  | _ n ih =>
    have later {text' : Text} (shorter : text'.length < text.length) :
        (urldecode (utf8 text')).isSome = true ↔ Sliceable text' := ih text'.length (h ▸ shorter) text' rfl
    cases text with
    | nil =>
      rw [utf8_nil, urldecode.eq_def]
      exact iff_of_true rfl sliceable_nil
    | cons c rest =>
      have tail := later (Nat.lt_succ_self rest.length)
      by_cases plus : c = '+'
      · have step : urldecode (utf8 (c :: rest)) = (urldecode (utf8 rest)).map (' ' :: ·) := by
          rw [plus]
          exact (urldecode.eq_def (byte '+' :: utf8 rest)).trans (if_pos rfl)
        rw [step, Option.isSome_map, tail, plus]
        exact (sliceable_append (show '%' ∉ ['+'] by decide) rest).symm
      by_cases percent : c = '%'
      swap
      · have none {a : Char} (ascii : a.toNat < 128) (other : c ≠ a) : byte a ∉ String.utf8EncodeChar c :=
          mt (mem_utf8EncodeChar_iff ascii).mp other
        rw [utf8_cons, urldecode_append (none (by decide) plus) (none (by decide) percent), Option.isSome_map, tail]
        exact (sliceable_append (show '%' ∉ [c] by simpa using Ne.symm percent) rest).symm
      have step := urldecode.eq_def (byte '%' :: utf8 rest)
      simp only [if_neg (show byte '%' ≠ byte '+' by decide), true_and] at step
      have encoded : utf8 (c :: rest) = byte '%' :: utf8 rest := by
        rw [percent]
        rfl
      rw [encoded, step, percent, sliceable_percent, ← tail]
      by_cases two : 2 ≤ (utf8 rest).length
      swap
      · rw [if_neg two, Option.isSome_map]
        exact (and_iff_right fun holds => absurd holds two).symm
      rw [if_pos two]
      by_cases whole : ∃ digits after, rest = digits ++ after ∧ (utf8 digits).length = 2
      · obtain ⟨digits, after, eq, length⟩ := whole
        have bytes : utf8 rest = utf8 digits ++ utf8 after := eq ▸ utf8_append digits after
        have taken : (utf8 rest).take 2 = utf8 digits := by rw [bytes, ← length, List.take_left]
        have dropped : (utf8 rest).drop 2 = utf8 after := by rw [bytes, ← length, List.drop_left]
        have holds : Whole rest := fun _ => ⟨digits, after, eq, length⟩
        rw [taken, ofUtf8_utf8, Option.bind_some, and_iff_right holds]
        cases parsed : fromStrRadix16 digits with
        | none => exact iff_of_eq (congrArg (· = true) Option.isSome_map)
        | some value =>
          have shorter : after.length < rest.length + 1 := by
            rw [eq, List.length_append]
            omega
          simp only [dropped, Option.isSome_map]
          rw [later shorter, tail, eq, sliceable_append (percent_not_mem_of_radix parsed)]
      · have broken : ofUtf8 ((utf8 rest).take 2) = none := by
          rw [Option.eq_none_iff_forall_ne_some]
          intro digits decoded
          have bytes := ofUtf8_eq_some decoded
          obtain ⟨after, eq⟩ := prefix_of_utf8_append (bytes ▸ List.take_append_drop 2 (utf8 rest))
          refine whole ⟨digits, after, eq.symm, ?_⟩
          rw [← bytes, List.length_take]
          omega
        rw [broken, Option.bind_none]
        exact iff_of_false Bool.false_ne_true fun holds => whole (holds.1 two)

theorem insertPairs_isSome_iff (pairs : List Text) (m : List (Text × Text)) :
    (insertPairs pairs m).isSome = true ↔
      ∀ pair ∈ pairs, ∀ k v, splitOnce pair = some (k, v) → Sliceable k ∧ Sliceable v := by
  induction pairs generalizing m with
  | nil => exact iff_of_true rfl fun _ member => absurd member List.not_mem_nil
  | cons pair pairs ih =>
    rw [List.forall_mem_cons, insertPairs]
    split
    · rename_i none
      rw [ih, none]
      exact (and_iff_right fun _ _ found => by cases found).symm
    · rename_i k v found
      have here : (∀ k' v', splitOnce pair = some (k', v') → Sliceable k' ∧ Sliceable v') ↔ Sliceable k ∧ Sliceable v := by
        constructor
        · exact fun all => all k v found
        · intro both k' v' found'
          rw [found] at found'
          cases found'
          exact both
      rw [here, ← urldecode_isSome_iff k, ← urldecode_isSome_iff v]
      cases urldecode (utf8 k) with
      | none => simp
      | some k =>
        cases urldecode (utf8 v) with
        | none => simp
        | some v => simpa using ih _

theorem parseForm_isSome_iff (body : Bytes) :
    (parseForm body).isSome = true ↔
      ∀ pair ∈ (fromUtf8Lossy body).splitOn '&', ∀ k v, splitOnce pair = some (k, v) → Sliceable k ∧ Sliceable v :=
  insertPairs_isSome_iff _ _

def bytewise (text : Text) : Text := (utf8 text).map charOf

theorem fromUtf8Lossy_utf8 (text : Text) : fromUtf8Lossy (utf8 text) = text := by
  induction text with
  | nil => exact fromUtf8Lossy.eq_def []
  | cons c text ih =>
    obtain ⟨b, bytes, eq⟩ := List.exists_cons_of_ne_nil (@String.utf8EncodeChar_ne_nil c)
    have length : (b :: bytes).length = c.utf8Size := eq ▸ String.length_utf8EncodeChar c
    have encoded : utf8 (c :: text) = b :: (bytes ++ utf8 text) := by
      rw [utf8_cons, eq, List.cons_append]
    have decoded : (b :: (bytes ++ utf8 text)).toByteArray.utf8DecodeChar? 0 = some c := by
      rw [← encoded, utf8_toByteArray]
      exact List.utf8DecodeChar?_utf8Encode_cons
    have dropped : (bytes ++ utf8 text).drop (c.utf8Size - 1) = utf8 text := by
      rw [← length, List.length_cons, Nat.add_sub_cancel, List.drop_left]
    rw [encoded, fromUtf8Lossy.eq_def]
    simp only [decoded, dropped, ih]

theorem hexDigit_upperHex : ∀ d < 16, hexDigit (upperHex d) = some d := by decide

theorem upperHex_ascii : ∀ d < 16, (upperHex d).isAlphanum = true ∧ upperHex d ≠ '+' := by decide

theorem fromStrRadix16_upperHex (b : UInt8) :
    fromStrRadix16 [upperHex (b.toNat / 16), upperHex (b.toNat % 16)] = some b := by
  have small := b.toNat_lt
  have high : b.toNat / 16 < 16 := by omega
  have low : b.toNat % 16 < 16 := by omega
  have sum : b.toNat / 16 * 16 + b.toNat % 16 = b.toNat := by omega
  have plain : [upperHex (b.toNat / 16), upperHex (b.toNat % 16)].head? ≠ some '+' := fun eq =>
    (upperHex_ascii _ high).2 (Option.some.inj eq)
  unfold fromStrRadix16
  simp only [if_neg plain]
  simp [hexDigit_upperHex _ high, hexDigit_upperHex _ low, sum, show b.toNat / 16 < 256 by omega, b.toNat_lt]

variable (unreserved : Unreserved)

theorem safe_ascii {c : Char} (safe : unreserved.safe c = true) :
    c.toNat < 128 ∧ c ≠ '+' ∧ c ≠ '%' ∧ c ≠ '&' ∧ c ≠ '=' := by
  rcases unreserved.plain c safe with word | other
  · have ascii : c.toNat < 128 := Rust.isIdent_ascii (by rw [Rust.isIdent, word, Bool.true_or])
    have differs {d : Char} (other : d.isAlphanum = false) : c ≠ d := by
      rintro rfl
      rw [other] at word
      cases word
    exact ⟨ascii, differs rfl, differs rfl, differs rfl, differs rfl⟩
  · simp only [List.mem_cons, List.not_mem_nil, or_false] at other
    rcases other with rfl | rfl | rfl | rfl | rfl <;> decide

theorem encodeByte_plain (b : UInt8) : ∀ c ∈ encodeByte unreserved b, c ≠ '&' ∧ c ≠ '=' := by
  have small := b.toNat_lt
  have hex {d : ℕ} (digit : d < 16) : upperHex d ≠ '&' ∧ upperHex d ≠ '=' := by
    have word := (upperHex_ascii d digit).1
    refine ⟨fun eq => ?_, fun eq => ?_⟩ <;> rw [eq] at word <;> cases word
  rw [encodeByte]
  split_ifs with space safe
  · simp
  · obtain ⟨-, -, -, plain⟩ := safe_ascii unreserved safe
    simpa using plain
  · simpa using ⟨hex (show b.toNat / 16 < 16 by omega), hex (show b.toNat % 16 < 16 by omega)⟩

theorem utf8_hex {d e : ℕ} (first : d < 16) (second : e < 16) :
    utf8 ['%', upperHex d, upperHex e] = byte '%' :: utf8 [upperHex d, upperHex e] ∧
      (utf8 [upperHex d, upperHex e]).length = 2 := by
  have ascii {d : ℕ} (digit : d < 16) : (upperHex d).toNat < 128 :=
    Rust.isIdent_ascii (by rw [Rust.isIdent, (upperHex_ascii d digit).1, Bool.true_or])
  refine ⟨rfl, ?_⟩
  rw [utf8_cons, utf8_cons, utf8EncodeChar_ascii (ascii first), utf8EncodeChar_ascii (ascii second)]
  rfl

theorem urldecode_encodeByte (b : UInt8) (rest : Bytes) :
    urldecode (utf8 (encodeByte unreserved b) ++ rest) = (urldecode rest).map (charOf b :: ·) := by
  rw [encodeByte]
  split_ifs with space safe
  · rw [space]
    exact (urldecode.eq_def (byte '+' :: rest)).trans (if_pos rfl)
  · obtain ⟨ascii, plus, percent, -⟩ := safe_ascii unreserved safe
    have none {a : Char} (small : a.toNat < 128) (other : charOf b ≠ a) :
        byte a ∉ String.utf8EncodeChar (charOf b) := mt (mem_utf8EncodeChar_iff small).mp other
    have pushed : (String.utf8EncodeChar (charOf b)).map charOf = [charOf b] := pushBytes_ascii ascii
    rw [utf8_cons, utf8_nil, List.append_nil, urldecode_append (none (by decide) plus) (none (by decide) percent), pushed]
    rfl
  · have small := b.toNat_lt
    obtain ⟨encoded, two⟩ := utf8_hex (show b.toNat / 16 < 16 by omega) (show b.toNat % 16 < 16 by omega)
    have step := urldecode.eq_def
      (byte '%' :: (utf8 [upperHex (b.toNat / 16), upperHex (b.toNat % 16)] ++ rest))
    have long : 2 ≤ (utf8 [upperHex (b.toNat / 16), upperHex (b.toNat % 16)] ++ rest).length := by
      rw [List.length_append, two]
      omega
    have taken (l : Bytes) (length : l.length = 2) : (l ++ rest).take 2 = l ∧ (l ++ rest).drop 2 = rest := by
      rw [← length, List.take_left, List.drop_left]
      exact ⟨rfl, rfl⟩
    simp only [if_neg (show byte '%' ≠ byte '+' by decide), true_and, if_pos long, taken _ two, ofUtf8_utf8,
      Option.bind_some, fromStrRadix16_upperHex] at step
    rw [encoded]
    exact step

theorem urldecode_encodeText (text : Text) : urldecode (utf8 (encodeText unreserved text)) = some (bytewise text) := by
  have bytes (l : Bytes) : urldecode (utf8 (l.flatMap (encodeByte unreserved))) = some (l.map charOf) := by
    induction l with
    | nil => exact urldecode.eq_def []
    | cons b l ih => rw [List.flatMap_cons, utf8_append, urldecode_encodeByte, ih, Option.map_some, List.map_cons]
  exact bytes (utf8 text)

theorem encodeText_plain (text : Text) : '&' ∉ encodeText unreserved text ∧ '=' ∉ encodeText unreserved text := by
  constructor
  · intro member
    obtain ⟨b, -, there⟩ := List.mem_flatMap.mp member
    exact (encodeByte_plain unreserved b _ there).1 rfl
  · intro member
    obtain ⟨b, -, there⟩ := List.mem_flatMap.mp member
    exact (encodeByte_plain unreserved b _ there).2 rfl

theorem splitOnce_encodePair (e : Text × Text) :
    splitOnce (encodePair unreserved e) = some (encodeText unreserved e.1, encodeText unreserved e.2) := by
  obtain ⟨taken, dropped⟩ := Rust.takeWhile_of_not_mem (encodeText_plain unreserved e.1).2 (encodeText unreserved e.2)
  have there : '=' ∈ encodePair unreserved e := List.mem_append_right _ (.head _)
  rw [splitOnce, if_pos there, encodePair, taken, dropped]
  rfl

theorem insertPairs_encode (pairs m : List (Text × Text)) :
    insertPairs (pairs.map (encodePair unreserved)) m =
      some ((pairs.map fun e => (bytewise e.1, bytewise e.2)).foldl (fun d e => dictSet d e.1 e.2) m) := by
  induction pairs generalizing m with
  | nil => rfl
  | cons e pairs ih =>
    rw [List.map_cons, insertPairs, splitOnce_encodePair]
    simp only [urldecode_encodeText, Option.bind_some]
    exact ih _

theorem parseForm_formBody (pairs : List (Text × Text)) :
    parseForm (formBody unreserved pairs) = some (dictFrom (pairs.map fun e => (bytewise e.1, bytewise e.2))) := by
  rw [parseForm, formBody, fromUtf8Lossy_utf8]
  cases pairs with
  | nil => rfl
  | cons e pairs =>
    have free : ∀ l ∈ (e :: pairs).map (encodePair unreserved), '&' ∉ l := by
      intro l member
      obtain ⟨e, -, rfl⟩ := List.mem_map.mp member
      rw [encodePair, List.mem_append, List.mem_cons]
      rintro (left | eq | right)
      · exact (encodeText_plain unreserved e.1).1 left
      · exact absurd eq (by decide)
      · exact (encodeText_plain unreserved e.2).1 right
    rw [List.splitOn_intercalate '&' free (by simp)]
    exact insertPairs_encode unreserved (e :: pairs) []

def Ascii (text : Text) : Prop := ∀ c ∈ text, c.toNat < 128

theorem bytewise_injective : Function.Injective bytewise := by
  intro s t eq
  have injective : Function.Injective charOf := by
    intro b b' same
    have codes := congrArg Char.toNat same
    rw [Rust.toNat_charOf, Rust.toNat_charOf] at codes
    exact UInt8.toNat_inj.mp codes
  exact utf8_injective (injective.list_map eq)

theorem bytewise_of_ascii {text : Text} (ascii : Ascii text) : bytewise text = text := by
  induction text with
  | nil => rfl
  | cons c text ih =>
    rw [Ascii, List.forall_mem_cons] at ascii
    have pushed : (String.utf8EncodeChar c).map charOf = [c] := pushBytes_ascii ascii.1
    rw [bytewise, utf8_cons, List.map_append, pushed]
    exact congrArg (c :: ·) (ih ascii.2)

theorem length_le_bytewise (text : Text) :
    text.length ≤ (bytewise text).length ∧ (¬Ascii text → text.length < (bytewise text).length) := by
  induction text with
  | nil => exact ⟨le_rfl, fun other => absurd (fun _ member => absurd member List.not_mem_nil) other⟩
  | cons c text ih =>
    have positive := c.utf8Size_pos
    have length : (bytewise (c :: text)).length = c.utf8Size + (bytewise text).length := by
      rw [bytewise, utf8_cons, List.map_append, List.length_append, List.length_map, String.length_utf8EncodeChar]
      rfl
    rw [length, List.length_cons]
    refine ⟨by omega, fun other => ?_⟩
    rcases lt_or_ge c.toNat 128 with small | large
    · have later : ¬Ascii text := fun ascii => other (List.forall_mem_cons.mpr ⟨small, ascii⟩)
      have := ih.2 later
      omega
    · have more := (pushBytes_large large).1
      rw [Rust.pushBytes, List.length_map, String.length_utf8EncodeChar] at more
      omega

theorem perm_bytewise_iff (pairs : List (Text × Text)) :
    (pairs.map fun e => (bytewise e.1, bytewise e.2)).Perm pairs ↔ ∀ e ∈ pairs, Ascii e.1 ∧ Ascii e.2 := by
  constructor
  · intro perm
    by_contra other
    push Not at other
    obtain ⟨e, member, strange⟩ := other
    have sums := (perm.map fun e => e.1.length + e.2.length).sum_eq
    rw [List.map_map] at sums
    refine absurd sums.symm (List.sum_lt_sum _ _ (fun e _ => ?_) ⟨e, member, ?_⟩).ne
    · exact Nat.add_le_add (length_le_bytewise e.1).1 (length_le_bytewise e.2).1
    · by_cases first : Ascii e.1
      · exact Nat.add_lt_add_of_le_of_lt (length_le_bytewise e.1).1 ((length_le_bytewise e.2).2 (strange first))
      · exact Nat.add_lt_add_of_lt_of_le ((length_le_bytewise e.1).2 first) (length_le_bytewise e.2).1
  · intro ascii
    have same : (pairs.map fun e => (bytewise e.1, bytewise e.2)) = pairs := by
      refine (List.map_congr_left fun e member => ?_).trans (List.map_id pairs)
      rw [bytewise_of_ascii (ascii e member).1, bytewise_of_ascii (ascii e member).2]
      rfl
    rw [same]

/-- No panic for a body whose percent signs come before whole characters, and ASCII pairs come back. -/
theorem parseForm_iff (body : Bytes) (unreserved : Unreserved) (pairs : List (Text × Text)) :
    ((parseForm body).isSome = true ↔
      ∀ pair ∈ (fromUtf8Lossy body).splitOn '&', ∀ k v, splitOnce pair = some (k, v) → Sliceable k ∧ Sliceable v) ∧
    ((pairs.map Prod.fst).Nodup →
      ((∃ m, parseForm (formBody unreserved pairs) = some m ∧ m.Perm pairs) ↔
        ∀ e ∈ pairs, Ascii e.1 ∧ Ascii e.2)) := by
  refine ⟨parseForm_isSome_iff body, fun distinct => ?_⟩
  have nodup : ((pairs.map fun e => (bytewise e.1, bytewise e.2)).map Prod.fst).Nodup := by
    have keys : (pairs.map fun e => (bytewise e.1, bytewise e.2)).map Prod.fst = (pairs.map Prod.fst).map bytewise := by
      rw [List.map_map, List.map_map]
      rfl
    rw [keys]
    exact distinct.map bytewise_injective
  rw [parseForm_formBody, dictFrom_of_nodup nodup, ← perm_bytewise_iff]
  constructor
  · rintro ⟨m, eq, perm⟩
    cases eq
    exact perm
  · exact fun perm => ⟨_, rfl, perm⟩

def browsers : Unreserved where
  safe c := c.isAlphanum || ['*', '-', '.', '_'].contains c
  plain c safe := by
    rcases Bool.or_eq_true_iff.mp safe with word | other
    · exact .inl word
    · right
      simp only [List.contains_iff_mem, List.mem_cons, List.not_mem_nil, or_false] at other ⊢
      tauto

theorem not_ascii :
    ¬(∀ body, (parseForm body).isSome = true) ∧
      ¬∀ pairs : List (Text × Text), (pairs.map Prod.fst).Nodup →
        ∃ m, parseForm (formBody browsers pairs) = some m ∧ m.Perm pairs := by
  constructor
  · intro all
    have returns := all (utf8 ['k', '=', '%', 'a', 'é'])
    rw [parseForm_isSome_iff, fromUtf8Lossy_utf8] at returns
    have pieces : ['k', '=', '%', 'a', 'é'] ∈ List.splitOn '&' ['k', '=', '%', 'a', 'é'] := by decide
    obtain ⟨digits, after, eq, two⟩ := (returns _ pieces ['k'] ['%', 'a', 'é'] rfl).2 [] _ rfl (by decide)
    rcases digits with _ | ⟨c, _ | ⟨d, digits⟩⟩
    · cases two
    · obtain ⟨rfl, -⟩ := List.cons.inj eq
      exact absurd two (by decide)
    · obtain ⟨rfl, rest⟩ := List.cons.inj eq
      obtain ⟨rfl, -⟩ := List.cons.inj rest
      rw [utf8_cons, utf8_cons, List.length_append, List.length_append] at two
      have long : 1 < (String.utf8EncodeChar 'é').length := by decide
      have first : (String.utf8EncodeChar 'a').length = 1 := by decide
      omega
  · intro all
    obtain ⟨m, parsed, perm⟩ := all [(['k'], ['é'])] (by simp)
    rw [parseForm_formBody, Option.some.injEq] at parsed
    have member : ((['k'], ['é']) : Text × Text) ∈ m := perm.symm.subset (List.mem_singleton_self _)
    rw [← parsed] at member
    exact absurd (mem_dictFrom member) (by decide)

end CadoNfs.Cadofactor.FormBody
