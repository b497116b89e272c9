import CadoNfs.Utils.RelationExponents

/-!
# Exponent vectors in `int` arithmetic

`exponent_vector<n>::parse` of `src/utils/filter_io.hpp`, where an overflow is undefined. What it reads without one is
what it reads in integers.
-/

namespace CadoNfs.Utils.FilterIo
open Lib

def InInt (x : ℤ) : Prop := -2 ^ 31 ≤ x ∧ x < 2 ^ 31

instance (x : ℤ) : Decidable (InInt x) := inferInstanceAs (Decidable (_ ∧ _))

def toInt (x : ℤ) : Option ℤ := if InInt x then some x else none

def readInt : ℤ → Text → Option (ℤ × Text)
  | w, [] => some (w, [])
  | w, c :: s =>
    if ugly c < 10 then do
      let w ← toInt (w * 10)
      let w ← toInt (w + ugly c)
      readInt w s
    else some (w, c :: s)

def countS : ℤ → Text → Option (ℤ × Text)
  | j, [] => some (j, [])
  | j, c :: s =>
    if c = 's' then do
      let j ← toInt (j + 1)
      countS j s
    else some (j, c :: s)

def parseFactors : ℕ → ℤ → Text → Option (ℤ × Text)
  | 0, _, _ => none
  | fuel + 1, j, s =>
    let t := if cur s = '*' then s.tail else s
    if cur t ≠ 's' then some (j, s)
    else do
      let (j, t) ← countS j t
      if cur t = '^' then do
        let (w, t) ← readInt 0 t.tail
        let w ← toInt (w - 1)
        let j ← toInt (j + w)
        parseFactors fuel j t
      else parseFactors fuel j t

def parseIntTerm (n : ℕ) (negative : Bool) (v : List ℤ) (s : Text) : Option (List ℤ × Text) := do
  guard (ugly (cur s) ≠ 0)
  let (w, s) ← readInt 0 s
  let scalar := if w = 0 then 1 else w
  let (j, s) ← parseFactors (s.length + 1) 0 s
  let x ← toInt (v.getD (j.toNat % n) 0 + if negative then -scalar else scalar)
  return (v.set (j.toNat % n) x, s)

def parseIntTerms (n : ℕ) : ℕ → Bool → List ℤ → Text → Option (List ℤ × Text)
  | 0, _, _, _ => none
  | fuel + 1, first, v, s =>
    if cur s = '-' then do
      let (v, s) ← parseIntTerm n true v s.tail
      parseIntTerms n fuel false v s
    else if first then do
      let (v, s) ← parseIntTerm n false v s
      parseIntTerms n fuel false v s
    else if cur s = '+' then do
      let (v, s) ← parseIntTerm n false v s.tail
      parseIntTerms n fuel false v s
    else some (v, s)

def parseVector (n : ℕ) (s : Text) : Option (List ℤ × Text) :=
  parseIntTerms n (s.length + 1) true (List.replicate n 0) s

def formatVector (e : List ℤ) : Text := formatTerms 0 true e

theorem toInt_eq_some {x y : ℤ} : toInt x = some y ↔ x = y ∧ InInt y := by
  unfold toInt
  split_ifs with range
  · rw [Option.some.injEq]
    exact ⟨fun eq => ⟨eq, eq ▸ range⟩, And.left⟩
  · exact ⟨nofun, fun ⟨eq, bounds⟩ => absurd (eq ▸ bounds) range⟩

variable {s t : Text} {v v' : List ℤ} {n fuel : ℕ} {j j' w w' : ℤ} {negative first : Bool}

theorem readInt_readNumber {m : ℕ} (read : readInt m s = some (w, t)) :
    ∃ m' : ℕ, w = m' ∧ readNumber ugly 10 m s = (m', t) := by
  induction s generalizing m with
  | nil =>
    obtain ⟨rfl, rfl⟩ : (m : ℤ) = w ∧ [] = t := by simpa [readInt] using read
    exact ⟨m, rfl, rfl⟩
  | cons c s ih =>
    rw [readInt] at read
    split_ifs at read with digit
    · simp only [Option.bind_eq_bind, Option.bind_eq_some_iff, toInt_eq_some] at read
      obtain ⟨_, ⟨rfl, -⟩, _, ⟨rfl, -⟩, rest⟩ := read
      obtain ⟨m', rfl, number⟩ := ih (m := m * 10 + ugly c) (by exact_mod_cast rest)
      exact ⟨m', rfl, by rw [readNumber, if_pos digit, number]⟩
    · obtain ⟨rfl, rfl⟩ : (m : ℤ) = w ∧ c :: s = t := by simpa using read
      exact ⟨m, rfl, by rw [readNumber, if_neg digit]⟩

theorem countS_takeWhile (read : countS j s = some (j', t)) :
    j' = j + (s.takeWhile (· = 's')).length ∧ t = s.dropWhile (· = 's') := by
  induction s generalizing j with
  | nil =>
    obtain ⟨rfl, rfl⟩ : j = j' ∧ [] = t := by simpa [countS] using read
    simp
  | cons c s ih =>
    rw [countS] at read
    split_ifs at read with letter
    · simp only [Option.bind_eq_bind, Option.bind_eq_some_iff, toInt_eq_some] at read
      obtain ⟨_, ⟨rfl, -⟩, rest⟩ := read
      obtain ⟨count, dropped⟩ := ih rest
      simp only [letter, decide_true, List.takeWhile_cons_of_pos, List.dropWhile_cons_of_pos, List.length_cons]
      exact ⟨by push_cast; omega, dropped⟩
    · obtain ⟨rfl, rfl⟩ : j = j' ∧ c :: s = t := by simpa using read
      simp [letter]

theorem takeWhile_pos (letter : cur s = 's') : 0 < (s.takeWhile (· = 's')).length := by
  cases s with
  | nil => exact absurd letter (by decide)
  | cons c s =>
    obtain rfl : c = 's' := letter
    simp

theorem parseFactors_parsePower {k : ℕ} (read : parseFactors fuel k s = some (j', t)) :
    ∃ k' : ℕ, j' = k' ∧ parsePower fuel k s = (k', t) := by
  induction fuel generalizing k s with
  | zero => cases read
  | succ fuel ih =>
    rw [parseFactors] at read
    rw [parsePower]
    dsimp only at read ⊢
    generalize (if cur s = '*' then s.tail else s) = u at read ⊢
    by_cases letter : cur u ≠ 's'
    · rw [if_pos letter] at read ⊢
      obtain ⟨rfl, rfl⟩ : (k : ℤ) = j' ∧ s = t := by simpa using read
      exact ⟨k, rfl, rfl⟩
    · rw [if_neg letter] at read ⊢
      have positive := takeWhile_pos (not_not.mp letter)
      obtain ⟨⟨counted, u'⟩, count, read⟩ := Option.bind_eq_some_iff.mp read
      obtain ⟨rfl, rfl⟩ := countS_takeWhile count
      dsimp only at read
      by_cases power : cur (u.dropWhile (· = 's')) = '^'
      · rw [if_pos power] at read ⊢
        obtain ⟨⟨w, u'⟩, number, read⟩ := Option.bind_eq_some_iff.mp read
        simp only [Option.bind_eq_bind, Option.bind_eq_some_iff, toInt_eq_some] at read
        obtain ⟨_, ⟨rfl, -⟩, _, ⟨rfl, -⟩, rest⟩ := read
        obtain ⟨m, rfl, same⟩ := readInt_readNumber (m := 0) number
        rw [same]
        refine ih ?_
        rw [← rest]
        congr 1
        omega
      · rw [if_neg power] at read ⊢
        refine ih ?_
        rw [← read]
        push_cast
        rfl

theorem parseIntTerm_parseTerm (read : parseIntTerm n negative v s = some (v', t)) :
    parseTerm n negative v s = some (v', t) := by
  simp only [parseIntTerm, Option.bind_eq_bind, Option.bind_eq_some_iff, toInt_eq_some, Prod.exists] at read
  obtain ⟨_, head, w, u, number, j, u', power, _, ⟨rfl, -⟩, result⟩ := read
  obtain ⟨m, rfl, digits⟩ := readInt_readNumber (m := 0) number
  obtain ⟨k, rfl, factors⟩ := parseFactors_parsePower (k := 0) power
  obtain ⟨rfl, rfl⟩ : _ ∧ u' = t := by simpa using result
  rw [parseTerm, parseScalar, head, digits]
  simp only [Option.bind_eq_bind, Option.bind_some, Option.pure_def, factors, List.modify_eq_set, Nat.cast_ite,
    Nat.cast_one]
  rfl

theorem parseIntTerms_parseTerms (read : parseIntTerms n fuel first v s = some (v', t)) :
    parseTerms n fuel first v s = some (v', t) := by
  induction fuel generalizing first v s with
  | zero => cases read
  | succ fuel ih =>
    have step {negative : Bool} {u : Text} (read : ((parseIntTerm n negative v u).bind fun r =>
        parseIntTerms n fuel false r.1 r.2) = some (v', t)) :
        ((parseTerm n negative v u).bind fun r => parseTerms n fuel false r.1 r.2) = some (v', t) := by
      obtain ⟨r, term, rest⟩ := Option.bind_eq_some_iff.mp read
      rw [parseIntTerm_parseTerm term]
      exact ih rest
    rw [parseIntTerms] at read
    rw [parseTerms]
    split_ifs at read ⊢
    · exact step read
    · exact step read
    · exact step read
    · exact read

theorem parseVector_exponentVector (read : parseVector n s = some (v', t)) :
    (exponentVector n).parse s = some (v', t) := parseIntTerms_parseTerms read

end CadoNfs.Utils.FilterIo
