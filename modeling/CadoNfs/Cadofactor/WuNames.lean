import CadoNfs.Cadofactor.Client
import CadoNfs.Lib.Digits

/-!
# The names of the workunits

`make_wuname` and `split_wuname` of `cadofactor/cadotask.py`: the project name, the task name, the identifier that the
task gives and the number of the attempt, put into one name and split again.
-/

namespace CadoNfs.Cadofactor.WuNames
open CadoNfs.Lib

structure DecimalDigits where
  digit : Char → ℕ
  prints : Prints digit 10
  others : ∀ c, c.toNat < 128 → c.isDigit = false → 10 ≤ digit c

def wuPasteChar : Char := '_'

def wuAttemptChar : Text := ['_', '_', 'R']

/-- `None` when the assertion fails. -/
def makeWuname (paramsName name : Text) (identifier : Option Text) (attempt : Option ℤ) : Option Text :=
  if wuAttemptChar <:+: name then none
  else
    let arr := [paramsName, name]
    let arr :=
      match identifier with
      | none | some [] => arr
      | some identifier => arr ++ [identifier]
    let wuname := [wuPasteChar].intercalate arr
    match attempt with
    | none => some wuname
    | some attempt => some (wuname ++ wuAttemptChar ++ printInt attempt)

variable (digits : DecimalDigits)

def attemptHere : Text → Option ℕ
  | '_' :: '_' :: 'R' :: c :: text =>
    if digits.digit c < 10 then some (readNumber digits.digit 10 0 (c :: text)).1 else none
  | _ => none

def matchAttempt : Text → Option (Text × ℕ)
  | [] => none
  | c :: text =>
    match if c = '\n' then none else matchAttempt text with
    | some (group, attempt) => some (c :: group, attempt)
    | none => (attemptHere digits (c :: text)).map fun attempt => ([], attempt)

def rsplit (sep : Char) : ℕ → Text → List Text
  | 0, text => [text]
  | maxsplit + 1, text =>
    match text.reverse.dropWhile (· ≠ sep) with
    | [] => [text]
    | _ :: before => rsplit sep maxsplit before.reverse ++ [(text.reverse.takeWhile (· ≠ sep)).reverse]

@[ext]
structure Split where
  name : Text
  task : Text
  identifier : Option Text
  attempt : Option ℤ
  deriving DecidableEq

def splitAttempt (wuname : Text) : Text × Option ℤ :=
  match matchAttempt digits wuname with
  | some (group, attempt) => (group, some (attempt : ℤ))
  | none => (wuname, none)

def splitWuname (wuname : Text) : Option Split :=
  let (wuname, attempt) := splitAttempt digits wuname
  match rsplit wuPasteChar 2 wuname with
  | [name, task, identifier] => some ⟨name, task, if identifier = [] then none else some identifier, attempt⟩
  | _ => none

def IsIdentifier (identifier : Text) : Prop :=
  ∃ first second : Text, identifier = first ++ '-' :: second ∧ first ≠ [] ∧ second ≠ [] ∧
    (∀ c ∈ first, digits.digit c < 10) ∧ ∀ c ∈ second, digits.digit c < 10

def HasAttemptMark (text : Text) : Prop :=
  ∃ before c after, text = before ++ '_' :: '_' :: 'R' :: c :: after ∧ '\n' ∉ before ∧ digits.digit c < 10

variable {digits}

/-! ## Finding the attempt -/

theorem hasAttemptMark_of_here {text : Text} {attempt : ℕ} (found : attemptHere digits text = some attempt) :
    ∃ c after, text = '_' :: '_' :: 'R' :: c :: after ∧ digits.digit c < 10 := by
  unfold attemptHere at found
  split at found
  · rename_i c after
    split_ifs at found with digit
    exact ⟨c, after, rfl, digit⟩
  · cases found

theorem attemptHere_mark {c : Char} (after : Text) (digit : digits.digit c < 10) :
    attemptHere digits ('_' :: '_' :: 'R' :: c :: after) = some (readNumber digits.digit 10 0 (c :: after)).1 :=
  if_pos digit

theorem matchAttempt_group {text group : Text} {attempt : ℕ}
    (found : matchAttempt digits text = some (group, attempt)) :
    ∃ c after, text = group ++ '_' :: '_' :: 'R' :: c :: after ∧ '\n' ∉ group ∧ digits.digit c < 10 := by
  induction text generalizing group with
  | nil => cases found
  | cons c text ih =>
    rw [matchAttempt] at found
    split at found
    · rename_i later rest inner
      cases found
      split_ifs at inner with line
      obtain ⟨d, after, rfl, noLine, digit⟩ := ih inner
      exact ⟨d, after, rfl, by simpa using ⟨Ne.symm line, noLine⟩, digit⟩
    · obtain ⟨attempt, here, pair⟩ := Option.map_eq_some_iff.mp found
      cases pair
      obtain ⟨d, after, eq, digit⟩ := hasAttemptMark_of_here here
      exact ⟨d, after, eq, List.not_mem_nil, digit⟩

theorem matchAttempt_isSome {text : Text} (mark : HasAttemptMark digits text) :
    (matchAttempt digits text).isSome := by
  obtain ⟨before, c, after, rfl, noLine, digit⟩ := mark
  induction before with
  | nil =>
    rw [List.nil_append, matchAttempt]
    split
    · rfl
    · rw [attemptHere_mark after digit]
      rfl
  | cons d before ih =>
    rw [List.mem_cons, not_or] at noLine
    obtain ⟨⟨group, attempt⟩, found⟩ := Option.isSome_iff_exists.mp (ih noLine.2)
    rw [List.cons_append, matchAttempt, if_neg (Ne.symm noLine.1), found]
    rfl

theorem matchAttempt_eq_none {text : Text} (none : ¬HasAttemptMark digits text) : matchAttempt digits text = .none := by
  by_contra found
  obtain ⟨⟨group, attempt⟩, found⟩ := Option.ne_none_iff_exists'.mp found
  obtain ⟨c, after, eq, noLine, digit⟩ := matchAttempt_group found
  exact none ⟨group, c, after, eq, noLine, digit⟩

theorem matchAttempt_append {text rest : Text} {c : Char} {attempt : ℕ} (noLine : '\n' ∉ text)
    (last : ¬HasAttemptMark digits rest) (here : attemptHere digits (c :: rest) = some attempt) :
    matchAttempt digits (text ++ c :: rest) = some (text, attempt) := by
  induction text with
  | nil =>
    have inner : (if c = '\n' then none else matchAttempt digits rest) = none := by
      rw [matchAttempt_eq_none last, ite_self]
    rw [List.nil_append, matchAttempt, inner, here]
    rfl
  | cons d text ih =>
    rw [List.mem_cons, not_or] at noLine
    rw [List.cons_append, matchAttempt, if_neg (Ne.symm noLine.1), ih noLine.2]

theorem HasAttemptMark.two_le_count {text : Text} (mark : HasAttemptMark digits text) : 2 ≤ text.count '_' := by
  obtain ⟨before, c, after, rfl, -⟩ := mark
  rw [List.count_append, List.count_cons_self, List.count_cons_self]
  omega

theorem not_digit (digits : DecimalDigits) {c : Char} (ascii : c.toNat < 128) (other : c.isDigit = false) (text : Text)
    (all : ∀ d ∈ text, digits.digit d < 10) : c ∉ text := fun member =>
  absurd (all c member) (not_lt.mpr (digits.others c ascii other))

theorem matchAttempt_attempt {text : Text} (noLine : '\n' ∉ text) (n : ℕ) :
    matchAttempt digits (text ++ wuAttemptChar ++ Nat.toDigits 10 n) = some (text, n) := by
  have all := digits.prints.digit_lt (n := n) (by norm_num)
  have read := digits.prints.readNumber_toDigits (n := n) (s := []) (by norm_num) (by simp)
  have plain : '_' ∉ Nat.toDigits 10 n := not_digit digits (by decide) (by decide) _ all
  rw [List.append_nil] at read
  obtain ⟨c, after, eq⟩ := List.exists_cons_of_ne_nil (Nat.toDigits_ne_nil (n := n) (b := 10))
  rw [eq] at all read plain ⊢
  rw [List.append_assoc]
  apply matchAttempt_append noLine
  · intro mark
    have twice := mark.two_le_count
    have once : ('_' :: 'R' :: c :: after).count '_' = 1 := by
      rw [List.count_cons_self, List.count_cons_of_ne (by decide), List.count_eq_zero.mpr plain]
    exact absurd (once ▸ twice) (by decide)
  · exact (attemptHere_mark after (all c (.head _))).trans (by rw [read])

theorem rsplit_append {sep : Char} (maxsplit : ℕ) (text : Text) {last : Text} (free : sep ∉ last) :
    rsplit sep (maxsplit + 1) (text ++ sep :: last) = rsplit sep maxsplit text ++ [last] := by
  have all : ∀ c ∈ last.reverse, decide (c ≠ sep) = true := by
    intro c member
    rw [decide_eq_true_eq]
    exact fun eq => free (eq ▸ List.mem_reverse.mp member)
  have reversed : (text ++ sep :: last).reverse = last.reverse ++ sep :: text.reverse := by simp
  have dropped : (last.reverse ++ sep :: text.reverse).dropWhile (· ≠ sep) = sep :: text.reverse := by
    rw [List.dropWhile_append_of_pos all]
    exact List.dropWhile_cons_of_neg (by simp)
  have taken : (last.reverse ++ sep :: text.reverse).takeWhile (· ≠ sep) = last.reverse := by
    rw [List.takeWhile_append_of_pos all, List.takeWhile_cons_of_neg (by simp), List.append_nil]
  rw [rsplit, reversed, dropped, taken, List.reverse_reverse]
  simp only [List.reverse_reverse]

theorem rsplit_join {name task identifier : Text} (taskName : '_' ∉ task) (plain : '_' ∉ identifier) :
    rsplit wuPasteChar 2 (name ++ '_' :: task ++ '_' :: identifier) = [name, task, identifier] := by
  rw [wuPasteChar, rsplit_append 1 _ plain, rsplit_append 0 _ taskName]
  rfl

theorem mem_of_mem_rsplit {sep c : Char} {part : Text} (maxsplit : ℕ) {text : Text}
    (member : part ∈ rsplit sep maxsplit text) (there : c ∈ part) : c ∈ text := by
  induction maxsplit generalizing text with
  | zero => exact List.mem_singleton.mp member ▸ there
  | succ maxsplit ih =>
    rw [rsplit] at member
    split at member
    · exact List.mem_singleton.mp member ▸ there
    · rename_i d before eq
      apply List.mem_reverse.mp
      rcases List.mem_append.mp member with earlier | last
      · apply (List.dropWhile_suffix fun x => decide (x ≠ sep)).subset
        rw [eq]
        exact List.mem_cons_of_mem d (List.mem_reverse.mp (ih earlier))
      · rw [List.mem_singleton.mp last] at there
        exact (List.takeWhile_prefix fun x => decide (x ≠ sep)).subset (List.mem_reverse.mp there)

theorem IsIdentifier.plain {identifier : Text} (form : IsIdentifier digits identifier) {c : Char}
    (ascii : c.toNat < 128) (other : c.isDigit = false) (dash : c ≠ '-') : c ∉ identifier := by
  obtain ⟨first, second, rfl, -, -, left, right⟩ := form
  rw [List.mem_append, List.mem_cons]
  rintro (before | here | after)
  · exact not_digit digits ascii other first left before
  · exact dash here
  · exact not_digit digits ascii other second right after

theorem IsIdentifier.ne_nil {identifier : Text} (form : IsIdentifier digits identifier) : identifier ≠ [] := by
  obtain ⟨first, second, rfl, -⟩ := form
  simp

theorem makeWuname_eq (name : Text) {task identifier : Text} (taskName : '_' ∉ task) (nonempty : identifier ≠ [])
    (attempt : Option ℤ) :
    makeWuname name task (some identifier) attempt =
      some (name ++ '_' :: task ++ '_' :: identifier ++
        attempt.elim [] fun attempt => wuAttemptChar ++ printInt attempt) := by
  have accepted : ¬wuAttemptChar <:+: task := fun inside => taskName (inside.subset (.head _))
  obtain ⟨c, text, rfl⟩ := List.exists_cons_of_ne_nil nonempty
  rw [makeWuname, if_neg accepted]
  cases attempt with
  | none => simp [List.intercalate, wuPasteChar]
  | some attempt => simp [List.intercalate, wuPasteChar]

theorem hasAttemptMark_identifier {text identifier : Text} (form : IsIdentifier digits identifier) :
    HasAttemptMark digits (text ++ '_' :: identifier) ↔ HasAttemptMark digits text := by
  constructor
  · rintro ⟨before, c, after, eq, noLine, digit⟩
    have letter : 'R' ∉ '_' :: identifier := by
      rw [List.mem_cons, not_or]
      exact ⟨by decide, form.plain (by decide) (by decide) (by decide)⟩
    have cut : text ++ '_' :: identifier = (before ++ ['_', '_', 'R']) ++ c :: after := by simp [eq]
    rcases List.append_eq_append_iff.mp cut with ⟨middle, longer, rest⟩ | ⟨middle, longer, rest⟩
    · cases middle using List.reverseRecOn with
      | nil =>
        rw [List.nil_append, List.cons.injEq] at rest
        rw [← rest.1] at digit
        exact absurd digit (not_lt.mpr (digits.others '_' (by decide) (by decide)))
      | append_singleton middle d =>
        have last : d = 'R' := by
          have := congrArg List.getLast? longer
          simpa using this.symm
        rw [rest, last] at letter
        exact absurd (by simp) letter
    · cases middle with
      | nil =>
        rw [List.nil_append, List.cons.injEq] at rest
        rw [rest.1] at digit
        exact absurd digit (not_lt.mpr (digits.others '_' (by decide) (by decide)))
      | cons d middle =>
        rw [List.cons_append, List.cons.injEq] at rest
        refine ⟨before, c, middle, ?_, noLine, digit⟩
        rw [longer, rest.1]
        simp
  · rintro ⟨before, c, after, rfl, noLine, digit⟩
    exact ⟨before, c, after ++ '_' :: identifier, by simp, noLine, digit⟩

/-- Without an attempt, the first line has no mark of one; with an attempt there is one line only. -/
def Unambiguous (digits : DecimalDigits) (name task : Text) : Option ℤ → Prop
  | none => ¬HasAttemptMark digits (name ++ '_' :: task)
  | some attempt => 0 ≤ attempt ∧ '\n' ∉ name ++ '_' :: task

theorem splitWuname_of_join {wuname name task identifier : Text} {attempt : Option ℤ} (taskName : '_' ∉ task)
    (form : IsIdentifier digits identifier)
    (found : splitAttempt digits wuname = (name ++ '_' :: task ++ '_' :: identifier, attempt)) :
    splitWuname digits wuname = some ⟨name, task, some identifier, attempt⟩ := by
  rw [splitWuname, found]
  simp only
  rw [rsplit_join taskName (form.plain (by decide) (by decide) (by decide))]
  simp only [if_neg form.ne_nil]

theorem parts_of_splitWuname {wuname name task identifier : Text} {attempt : Option ℤ}
    (split : splitWuname digits wuname = some ⟨name, task, some identifier, attempt⟩) :
    (splitAttempt digits wuname).2 = attempt ∧
      rsplit wuPasteChar 2 (splitAttempt digits wuname).1 = [name, task, identifier] := by
  rw [splitWuname] at split
  simp only at split
  split at split
  · rename_i first second third parts
    simp only [Option.some.injEq, Split.mk.injEq] at split
    obtain ⟨rfl, rfl, third', number⟩ := split
    split_ifs at third' with empty
    rw [Option.some.injEq] at third'
    exact ⟨number, third' ▸ parts⟩
  · cases split

theorem splitAttempt_of_some {wuname : Text} {attempt : ℤ} (some : (splitAttempt digits wuname).2 = .some attempt) :
    0 ≤ attempt ∧ '\n' ∉ (splitAttempt digits wuname).1 := by
  rw [splitAttempt] at some ⊢
  split at some
  · rename_i group number found
    cases some
    obtain ⟨c, after, -, noLine, -⟩ := matchAttempt_group found
    exact ⟨Int.natCast_nonneg number, noLine⟩
  · cases some

theorem splitAttempt_none {wuname : Text} :
    (splitAttempt digits wuname).2 = none ↔ ¬HasAttemptMark digits wuname := by
  constructor
  · intro none mark
    obtain ⟨⟨group, attempt⟩, found⟩ := Option.isSome_iff_exists.mp (matchAttempt_isSome mark)
    rw [splitAttempt, found] at none
    cases none
  · intro unmarked
    rw [splitAttempt, matchAttempt_eq_none unmarked]

/-- A name is split as it was made if and only if no mark in the project or task name is taken for the attempt. -/
theorem splitWuname_makeWuname_iff (digits : DecimalDigits) (name : Text) {task identifier : Text}
    (taskName : '_' ∉ task) (form : IsIdentifier digits identifier) (attempt : Option ℤ) :
    (makeWuname name task (some identifier) attempt).bind (splitWuname digits) =
        some ⟨name, task, some identifier, attempt⟩ ↔
      Unambiguous digits name task attempt := by
  rw [makeWuname_eq name taskName form.ne_nil, Option.bind_some]
  have line : '\n' ∉ '_' :: identifier := by
    rw [List.mem_cons, not_or]
    exact ⟨by decide, form.plain (by decide) (by decide) (by decide)⟩
  cases attempt with
  | none =>
    rw [Option.elim_none, List.append_nil, Unambiguous, ← hasAttemptMark_identifier form]
    constructor
    · intro split
      exact splitAttempt_none.mp (parts_of_splitWuname split).1
    · intro unmarked
      apply splitWuname_of_join taskName form
      rw [splitAttempt, matchAttempt_eq_none unmarked]
  | some attempt =>
    rw [Option.elim_some, ← List.append_assoc, Unambiguous]
    constructor
    · intro split
      obtain ⟨number, parts⟩ := parts_of_splitWuname split
      obtain ⟨nonnegative, noLine⟩ := splitAttempt_of_some number
      refine ⟨nonnegative, fun inside => noLine ?_⟩
      have inPart : '\n' ∈ name ∨ '\n' ∈ task := by simpa using inside
      rcases inPart with there | there
      · have part : name ∈ rsplit wuPasteChar 2 _ := parts ▸ List.mem_cons_self
        exact mem_of_mem_rsplit 2 part there
      · have part : task ∈ rsplit wuPasteChar 2 _ := parts ▸ List.mem_cons_of_mem name (.head _)
        exact mem_of_mem_rsplit 2 part there
    · rintro ⟨nonnegative, noLine⟩
      lift attempt to ℕ using nonnegative
      have printed : printInt attempt = Nat.toDigits 10 attempt := rfl
      apply splitWuname_of_join taskName form
      rw [printed, splitAttempt, matchAttempt_attempt]
      rw [List.mem_append, not_or]
      exact ⟨noLine, line⟩

def asciiDigits : DecimalDigits where
  digit c := if c.isDigit then c.toNat - 48 else 10
  prints := by
    change ∀ d < 10, (if d.digitChar.isDigit then d.digitChar.toNat - 48 else 10) = d
    decide
  others c _ other := by rw [other]; exact le_rfl

theorem isIdentifier_asciiDigits : IsIdentifier asciiDigits ['0', '-', '1'] := by
  have zero : asciiDigits.digit '0' < 10 := by decide
  have one : asciiDigits.digit '1' < 10 := by decide
  exact ⟨['0'], ['1'], rfl, by simp, by simp, by simpa using zero, by simpa using one⟩

theorem splitWuname_makeWuname_iff_c_1 :
    (makeWuname ['c', '_', '1'] ['s'] (some ['0', '-', '1']) (some 2)).bind (splitWuname asciiDigits) =
        some ⟨['c', '_', '1'], ['s'], some ['0', '-', '1'], some 2⟩ ↔
      Unambiguous asciiDigits ['c', '_', '1'] ['s'] (some 2) :=
  splitWuname_makeWuname_iff asciiDigits _ (by decide) isIdentifier_asciiDigits (some 2)

theorem mark_taken_for_attempt :
    ¬∀ (digits : DecimalDigits) (name task identifier : Text) (attempt : Option ℤ), '_' ∉ task →
      IsIdentifier digits identifier →
        (makeWuname name task (some identifier) attempt).bind (splitWuname digits) =
          some ⟨name, task, some identifier, attempt⟩ := by
  intro all
  have failed : (makeWuname ['c', '_', '_', 'R', '5'] ['s'] (some ['0', '-', '1']) none).bind
      (splitWuname asciiDigits) = none := by decide +kernel
  have split := all asciiDigits ['c', '_', '_', 'R', '5'] ['s'] ['0', '-', '1'] none (by decide)
    isIdentifier_asciiDigits
  rw [failed] at split
  cases split

end CadoNfs.Cadofactor.WuNames
