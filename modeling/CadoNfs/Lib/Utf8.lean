import Mathlib

/-!
# Texts as bytes

The UTF-8 encoding of a text and its inverse.
-/

namespace CadoNfs.Lib

def utf8 (text : List Char) : List UInt8 := text.flatMap String.utf8EncodeChar

def ofUtf8 (bytes : List UInt8) : Option (List Char) := bytes.toByteArray.utf8Decode?.map Array.toList

@[simp] theorem utf8_nil : utf8 [] = [] := rfl

@[simp] theorem utf8_cons (c : Char) (text : List Char) : utf8 (c :: text) = String.utf8EncodeChar c ++ utf8 text := rfl

@[simp] theorem utf8_append (s t : List Char) : utf8 (s ++ t) = utf8 s ++ utf8 t := List.flatMap_append

theorem utf8EncodeChar_ascii {c : Char} (ascii : c.toNat < 128) :
    String.utf8EncodeChar c = [UInt8.ofNat c.toNat] := by
  rw [String.utf8EncodeChar]
  exact if_pos (by change c.toNat ≤ 127; omega)

theorem le_of_mem_utf8EncodeChar {c : Char} (large : 128 ≤ c.toNat) {b : UInt8}
    (member : b ∈ String.utf8EncodeChar c) : 128 ≤ b.toNat := by
  have value : c.val.toNat = c.toNat := rfl
  unfold String.utf8EncodeChar at member
  simp only [value] at member
  split_ifs at member with h1 h2 h3
  · omega
  all_goals
    simp only [List.mem_cons, List.not_mem_nil, or_false] at member
    rcases member with rfl | rfl | rfl | rfl <;> simp [UInt8.toNat_ofNat'] <;> omega

theorem mem_utf8EncodeChar_iff {a c : Char} (ascii : a.toNat < 128) :
    UInt8.ofNat a.toNat ∈ String.utf8EncodeChar c ↔ c = a := by
  have value : (UInt8.ofNat a.toNat).toNat = a.toNat := by
    rw [UInt8.toNat_ofNat']
    exact Nat.mod_eq_of_lt (by omega)
  constructor
  · intro member
    rcases lt_or_ge c.toNat 128 with small | large
    · rw [utf8EncodeChar_ascii small, List.mem_singleton] at member
      have same := congrArg UInt8.toNat member
      rw [value, UInt8.toNat_ofNat', Nat.mod_eq_of_lt (by omega)] at same
      exact Char.toNat_inj.mp same.symm
    · have := le_of_mem_utf8EncodeChar large member
      omega
  · rintro rfl
    rw [utf8EncodeChar_ascii ascii]
    exact List.mem_singleton_self _

theorem mem_utf8_iff {a : Char} {text : List Char} (ascii : a.toNat < 128) :
    UInt8.ofNat a.toNat ∈ utf8 text ↔ a ∈ text := by
  simp only [utf8, List.mem_flatMap, mem_utf8EncodeChar_iff ascii, exists_eq_right]

theorem head_utf8 {a : Char} {text : List Char} (ascii : a.toNat < 128)
    (head : (utf8 text).head? = some (UInt8.ofNat a.toNat)) : text.head? = some a := by
  cases text with
  | nil => cases head
  | cons c text =>
    obtain ⟨b, bytes, eq⟩ := List.exists_cons_of_ne_nil (@String.utf8EncodeChar_ne_nil c)
    rw [utf8_cons, eq, List.cons_append, List.head?_cons, Option.some.injEq] at head
    have same : c = a := (mem_utf8EncodeChar_iff ascii).mp (eq ▸ head ▸ List.mem_cons_self)
    rw [same, List.head?_cons]

theorem utf8_toByteArray (text : List Char) : (utf8 text).toByteArray = text.utf8Encode := rfl

theorem ofUtf8_utf8 (text : List Char) : ofUtf8 (utf8 text) = some text := by
  rw [ofUtf8, utf8_toByteArray, List.utf8Decode?_utf8Encode]
  simp

theorem ofUtf8_eq_some {bytes : List UInt8} {text : List Char} (decoded : ofUtf8 bytes = some text) :
    bytes = utf8 text := by
  obtain ⟨chars, found, rfl⟩ := Option.map_eq_some_iff.mp decoded
  have whole : bytes.toByteArray.utf8Decode?.isSome := by rw [found]; rfl
  have encoded := @ByteArray.utf8Encode_get_utf8Decode? bytes.toByteArray whole
  simp only [found, Option.get_some] at encoded
  have same : (utf8 chars.toList).toByteArray = bytes.toByteArray := encoded
  simpa using (congrArg (fun b : ByteArray => b.data.toList) same).symm

theorem prefix_of_utf8_append {s t : List Char} {bytes : List UInt8} (eq : utf8 s ++ bytes = utf8 t) : s <+: t := by
  apply List.isPrefix_of_utf8Encode_append_eq_utf8Encode bytes.toByteArray
  rw [← utf8_toByteArray, ← utf8_toByteArray, ← eq, List.toByteArray_append]

theorem utf8_injective : Function.Injective utf8 := by
  intro s t eq
  have same := ofUtf8_utf8 s
  rw [eq, ofUtf8_utf8] at same
  exact (Option.some.inj same).symm

end CadoNfs.Lib
