import CadoNfs.Lib.Decimal
import CadoNfs.Utils.Renumber

/-!
# The renumber table as text

`renumber_t::builder::postprocess` and `renumber_t::read_table` of `utils/renumber.cpp`.
-/

namespace CadoNfs.Utils
open Lib

structure Builder where
  R : Renumber
  maxIndex : ℕ
  out : List Char
  hooked : List (ℕ × ℕ)

-- With `stream` the entries go to `os_p`, otherwise to the table.
def Builder.postprocess (stream : Bool) (b : Builder) (p : ℕ) (C : Cooked) : Option Builder :=
  let hooked := b.hooked ++ [(p, b.maxIndex)]
  if stream then
    some { b with maxIndex := Renumber.useCookedNostore b.maxIndex C, out := b.out ++ C.text, hooked }
  else do
    guard (b.maxIndex = b.R.aboveAll)
    let R := b.R.useCooked p C
    some { b with R, maxIndex := R.aboveAll, hooked }

def Renumber.build (w : ℕ) (R : Renumber) (stream : Bool) (primes : List (ℕ × List (List ℕ))) : Option Builder :=
  primes.foldlM (fun b P => b.postprocess stream P.1 (R.cook w P.1 P.2)) ⟨R, R.aboveAll, [], []⟩

def isSpace (c : Char) : Bool := c = ' ' || 9 ≤ c.toNat && c.toNat ≤ 13

def isDigit (c : Char) : Bool := 48 ≤ c.toNat && c.toNat ≤ 57

def readNumber (w : ℕ) (s : List Char) : Option (ℕ × List Char) :=
  let s := s.dropWhile isSpace
  let digits := s.takeWhile isDigit
  let n : ℕ := readDigits 0 digits
  if digits = [] ∨ 2 ^ w ≤ n then none else some (n, s.dropWhile isDigit)

def skipComments : ℕ → List Char → List Char
  | 0, s => s
  | fuel + 1, s =>
    match s.dropWhile isSpace with
    | '#' :: s => skipComments fuel (s.dropWhile (· ≠ '\n')).tail
    | s => s

def readEntries (w : ℕ) : ℕ → List Char → List (ℕ × ℕ)
  | 0, _ => []
  | fuel + 1, s =>
    match readNumber w s with
    | none => []
    | some (p, s) =>
      match readNumber w s with
      | none => []
      | some (vr, s) => (p, vr) :: readEntries w fuel s

def scanEntries : List (ℕ × ℕ) → ℕ → List (Option ℕ) → ℕ × List (Option ℕ)
  | [], i, cache => (i, cache)
  | (p, _) :: l, i, cache =>
    if p >>> renumberMaxLogCached ≠ 0 then (i, cache)
    else if p < cache.length then scanEntries l (i + 1) cache
    else scanEntries l (i + 1) (Renumber.pushCache cache p i)

def Renumber.readTable (w : ℕ) (R : Renumber) (s : List Char) : Renumber :=
  let s := skipComments s.length s
  let entries := readEntries w s.length s
  let flatData := R.flatData ++ entries
  let (i, cache) := scanEntries flatData 0 R.indexFromPCache
  { R with
    flatData
    indexFromPCache := cache
    aboveCache := R.aboveBad + i
    aboveAll := R.aboveAll + entries.length }

def printEntry (e : ℕ × ℕ) : List Char := Nat.toDigits 10 e.1 ++ ' ' :: Nat.toDigits 10 e.2 ++ ['\n']

theorem isDigit_toDigits {n : ℕ} : ∀ c ∈ Nat.toDigits 10 n, isDigit c = true := by
  intro c member
  have := isDigit_of_mem_toDigits member
  simp [isDigit, this]

theorem isSpace_digit {c : Char} (digit : isDigit c = true) : isSpace c = false := by
  simp only [isDigit, Bool.and_eq_true, decide_eq_true_eq] at digit
  have other : c ≠ ' ' := by
    rintro rfl
    exact absurd digit.1 (by decide)
  simp only [isSpace, Bool.or_eq_false_iff, decide_eq_false_iff_not, Bool.and_eq_false_iff]
  exact ⟨other, .inr (by omega)⟩

theorem readNumber_toDigits {w n : ℕ} (small : n < 2 ^ w) {space : List Char} (blank : ∀ c ∈ space, isSpace c = true)
    {c : Char} (stop : isDigit c = false) (rest : List Char) :
    readNumber w (space ++ (Nat.toDigits 10 n ++ c :: rest)) = some (n, c :: rest) := by
  have digits : ∀ d ∈ Nat.toDigits 10 n, isDigit d = true := isDigit_toDigits
  have start : (Nat.toDigits 10 n ++ c :: rest).dropWhile isSpace = Nat.toDigits 10 n ++ c :: rest := by
    cases text : Nat.toDigits 10 n with
    | nil => exact absurd text Nat.toDigits_ne_nil
    | cons d digits' =>
      have first : isSpace d = false := isSpace_digit (digits d (by rw [text]; exact (.head _)))
      rw [List.cons_append, List.dropWhile_cons_of_neg (by simp [first])]
  have stop' : ¬ isDigit c = true := by simp [stop]
  rw [readNumber, List.dropWhile_append_of_pos blank, start]
  simp only [List.takeWhile_append_of_pos digits, List.dropWhile_append_of_pos digits,
    List.takeWhile_cons_of_neg stop', List.dropWhile_cons_of_neg stop', List.append_nil, readDigits_zero_toDigits,
    Nat.cast_id]
  rw [if_neg (by simp only [not_or, not_le]; exact ⟨Nat.toDigits_ne_nil, small⟩)]

theorem readNumber_blank {w : ℕ} {space : List Char} (blank : ∀ c ∈ space, isSpace c = true) :
    readNumber w space = none := by
  have rest : space.dropWhile isSpace = [] := List.dropWhile_eq_nil_iff.mpr blank
  rw [readNumber, rest]
  rfl

theorem blank_space : ∀ c ∈ [' '], isSpace c = true := by simp [isSpace]

theorem blank_newline : ∀ c ∈ ['\n'], isSpace c = true := by simp [isSpace]

theorem readEntries_print {w : ℕ} {entries : List (ℕ × ℕ)} (small : ∀ e ∈ entries, e.1 < 2 ^ w ∧ e.2 < 2 ^ w)
    {fuel : ℕ} (enough : entries.length ≤ fuel) {space : List Char} (blank : ∀ c ∈ space, isSpace c = true) :
    readEntries w fuel (space ++ entries.flatMap printEntry) = entries := by
  induction entries generalizing fuel space with
  | nil =>
    cases fuel with
    | zero => rfl
    | succ fuel =>
      rw [List.flatMap_nil, List.append_nil, readEntries, readNumber_blank blank]
  | cons e entries ih =>
    obtain ⟨p, vr⟩ := e
    rw [List.forall_mem_cons] at small
    cases fuel with
    | zero => cases enough
    | succ fuel =>
      have first : readNumber w (space ++ ((p, vr) :: entries).flatMap printEntry) =
          some (p, ' ' :: (Nat.toDigits 10 vr ++ '\n' :: entries.flatMap printEntry)) := by
        rw [List.flatMap_cons, printEntry, List.append_assoc, List.append_assoc]
        exact readNumber_toDigits small.1.1 blank rfl _
      have second : readNumber w (' ' :: (Nat.toDigits 10 vr ++ '\n' :: entries.flatMap printEntry)) =
          some (vr, '\n' :: entries.flatMap printEntry) :=
        readNumber_toDigits small.1.2 blank_space rfl _
      have rest : readEntries w fuel ('\n' :: entries.flatMap printEntry) = entries :=
        ih small.2 (Nat.le_of_succ_le_succ enough) blank_newline
      rw [readEntries, first]
      simp only [second, rest]

def commentLine (text : List Char) : List Char := '#' :: text ++ ['\n']

theorem dropWhile_print (entries : List (ℕ × ℕ)) :
    (entries.flatMap printEntry).dropWhile isSpace = entries.flatMap printEntry ∧
      ∀ rest, entries.flatMap printEntry ≠ '#' :: rest := by
  cases entries with
  | nil => exact ⟨rfl, nofun⟩
  | cons e entries =>
    obtain ⟨d, digits, text⟩ := List.exists_cons_of_ne_nil (Nat.toDigits_ne_nil (n := e.1) (b := 10))
    have digit : isDigit d = true := isDigit_toDigits d (by rw [text]; exact (.head _))
    rw [List.flatMap_cons, printEntry, text]
    refine ⟨List.dropWhile_cons_of_neg (by simp [isSpace_digit digit]), fun rest same => ?_⟩
    rw [(List.cons.inj same).1] at digit
    exact absurd digit (by decide)

theorem skipComments_print {comments : List (List Char)} (lines : ∀ text ∈ comments, '\n' ∉ text)
    (entries : List (ℕ × ℕ)) {fuel : ℕ} (enough : comments.length ≤ fuel) :
    skipComments fuel (comments.flatMap commentLine ++ entries.flatMap printEntry) =
      entries.flatMap printEntry := by
  induction comments generalizing fuel with
  | nil =>
    obtain ⟨start, other⟩ := dropWhile_print entries
    rw [List.flatMap_nil, List.nil_append]
    cases fuel with
    | zero => rfl
    | succ fuel =>
      rw [skipComments, start]
      split
      · next rest same => exact absurd same (other _)
      · rfl
  | cons text comments ih =>
    rw [List.forall_mem_cons] at lines
    cases fuel with
    | zero => cases enough
    | succ fuel =>
      have stay : ∀ c ∈ text, decide (c ≠ '\n') = true := fun c member =>
        decide_eq_true fun newline => lines.1 (newline ▸ member)
      have next := ih lines.2 (Nat.le_of_succ_le_succ enough)
      have line : (text :: comments).flatMap commentLine ++ entries.flatMap printEntry =
          '#' :: (text ++ '\n' :: (comments.flatMap commentLine ++ entries.flatMap printEntry)) := by
        simp [commentLine]
      rw [line, skipComments, List.dropWhile_cons_of_neg (by decide)]
      simp only [List.dropWhile_append_of_pos stay]
      rw [List.dropWhile_cons_of_neg (by decide)]
      exact next

/-! ## One pass over the entries -/

theorem CacheOf.skip_large {entries : List (ℕ × ℕ)} {cache : List (Option ℕ)} (of : CacheOf entries cache)
    {rest : List (ℕ × ℕ)} (large : ∀ e ∈ rest, ¬ IsCached e.1) : CacheOf (entries ++ rest) cache := by
  induction rest generalizing entries with
  | nil => rwa [List.append_nil]
  | cons e rest ih =>
    rw [List.forall_mem_cons] at large
    rw [List.append_cons]
    exact ih (of.skip fun cached => absurd cached large.1) large.2

theorem scanEntries_eq {entries rest : List (ℕ × ℕ)} {cache : List (Option ℕ)} (of : CacheOf entries cache)
    (sorted : (entries ++ rest).Pairwise fun a b => a.1 ≤ b.1) :
    ∃ cache', CacheOf (entries ++ rest) cache' ∧ scanEntries rest entries.length cache =
      (entries.length + (rest.takeWhile fun e => IsCached e.1).length, cache') := by
  induction rest generalizing entries cache with
  | nil => exact ⟨cache, by rwa [List.append_nil], rfl⟩
  | cons e rest ih =>
    obtain ⟨p, v⟩ := e
    by_cases small : IsCached p
    · have next : ∃ cache₁, CacheOf (entries ++ [(p, v)]) cache₁ ∧
          scanEntries ((p, v) :: rest) entries.length cache = scanEntries rest (entries.length + 1) cache₁ := by
        rw [scanEntries, if_neg (not_not.mpr ((shiftRight_eq_zero_iff p).mpr small))]
        by_cases old : p < cache.length
        · -- an earlier entry ends the cache, and no earlier entry is larger
          refine ⟨cache, of.skip fun _ => ?_, if_pos old⟩
          obtain rfl | ⟨e, member, -, last⟩ := of.last
          · exact absurd old (Nat.not_lt_zero p)
          · have le : e.1 ≤ p := (List.pairwise_append.mp sorted).2.2 e member _ (.head _)
            exact ⟨e, member, by omega⟩
        · exact ⟨_, of.push small (not_lt.mp old), if_neg old⟩
      obtain ⟨cache₁, of₁, step⟩ := next
      rw [List.append_cons] at sorted
      obtain ⟨cache', of', run⟩ := ih of₁ sorted
      refine ⟨cache', by rwa [List.append_cons], ?_⟩
      rw [List.length_append, List.length_singleton] at run
      rw [step, run, List.takeWhile_cons_of_pos (by simpa using small), List.length_cons]
      congr 1
      omega
    · have large : ∀ e ∈ (p, v) :: rest, ¬ IsCached e.1 := by
        intro e member
        have le : p ≤ e.1 := by
          rcases List.mem_cons.mp member with rfl | later
          · exact le_rfl
          · exact (List.pairwise_cons.mp (List.pairwise_append.mp sorted).2.1).1 e later
        exact fun cached => small (le.trans_lt cached)
      refine ⟨cache, of.skip_large large, ?_⟩
      rw [scanEntries, if_pos fun zero => small ((shiftRight_eq_zero_iff p).mp zero),
        List.takeWhile_cons_of_neg (by simpa using small)]
      rfl

namespace Renumber

variable {w : ℕ} {R : Renumber}

theorem pRValue_lt (w : ℕ) (x : ℤ) : pRValue w x < 2 ^ w := by
  have modulus : (0 : ℤ) < 2 ^ w := by positivity
  have bound := Int.emod_lt_of_pos x modulus
  have nonneg := Int.emod_nonneg x modulus.ne'
  rw [pRValue]
  zify
  rwa [Int.toNat_of_nonneg nonneg]

theorem computeVrFromPRSide_lt (x : PRSide) : R.computeVrFromPRSide w x < 2 ^ w := by
  unfold computeVrFromPRSide
  dsimp only
  split_ifs
  · exact pRValue_lt w _
  · exact pRValue_lt w _
  · exact pRValue_lt w _

theorem cook_lt {p : ℕ} {roots : List (List ℕ)} :
    ∀ e ∈ (R.cook w p roots).flat, e.1 < 2 ^ w ∧ e.2 < 2 ^ w := by
  intro e member
  rw [cook_flat] at member
  obtain ⟨side, -, inside⟩ := List.mem_flatMap.mp member
  obtain ⟨r, -, rfl⟩ := List.mem_map.mp inside
  exact ⟨pRValue_lt w p, computeVrFromPRSide_lt _⟩

theorem cook_text (p : ℕ) (roots : List (List ℕ)) :
    (R.cook w p roots).text = (R.cook w p roots).flat.flatMap printEntry := by
  unfold cook
  dsimp only
  split_ifs with none
  · rfl
  · rfl

theorem useCooked_aboveAll (T : Renumber) (p : ℕ) (C : Cooked) :
    (T.useCooked p C).aboveAll = useCookedNostore T.aboveAll C := by
  unfold useCooked
  dsimp only
  split_ifs with empty _
  · rw [useCookedNostore, if_pos empty]
  · rfl
  · rfl

def hookIndices (w : ℕ) (R : Renumber) : ℕ → List (ℕ × List (List ℕ)) → List (ℕ × ℕ)
  | _, [] => []
  | i, P :: primes => (P.1, i) :: hookIndices w R (useCookedNostore i (R.cook w P.1 P.2)) primes

theorem foldlM_store (primes : List (ℕ × List (List ℕ))) {b : Builder} (same : b.maxIndex = b.R.aboveAll) :
    ∃ b', primes.foldlM (fun b P => b.postprocess false P.1 (R.cook w P.1 P.2)) b = some b' ∧
      b'.R = primes.foldl (fun T P => T.useCooked P.1 (R.cook w P.1 P.2)) b.R ∧
      b'.hooked = b.hooked ++ hookIndices w R b.maxIndex primes := by
  induction primes generalizing b with
  | nil => exact ⟨b, rfl, rfl, by rw [hookIndices, List.append_nil]⟩
  | cons P primes ih =>
    have step : b.postprocess false P.1 (R.cook w P.1 P.2) =
        some ⟨b.R.useCooked P.1 (R.cook w P.1 P.2), (b.R.useCooked P.1 (R.cook w P.1 P.2)).aboveAll, b.out,
          b.hooked ++ [(P.1, b.maxIndex)]⟩ := by
      simp [Builder.postprocess, same]
    obtain ⟨b', run, table, hooked⟩ := ih (b := ⟨b.R.useCooked P.1 (R.cook w P.1 P.2),
      (b.R.useCooked P.1 (R.cook w P.1 P.2)).aboveAll, b.out, b.hooked ++ [(P.1, b.maxIndex)]⟩) rfl
    refine ⟨b', by rw [List.foldlM_cons, step]; exact run, table, ?_⟩
    rw [hooked, useCooked_aboveAll, ← same, hookIndices, List.append_assoc]
    rfl

theorem foldlM_stream (primes : List (ℕ × List (List ℕ))) (b : Builder) :
    ∃ b', primes.foldlM (fun b P => b.postprocess true P.1 (R.cook w P.1 P.2)) b = some b' ∧
      b'.out = b.out ++ (R.entriesOf w primes).flatMap printEntry ∧
      b'.hooked = b.hooked ++ hookIndices w R b.maxIndex primes := by
  induction primes generalizing b with
  | nil => exact ⟨b, rfl, by simp [entriesOf], by rw [hookIndices, List.append_nil]⟩
  | cons P primes ih =>
    have step : b.postprocess true P.1 (R.cook w P.1 P.2) =
        some ⟨b.R, useCookedNostore b.maxIndex (R.cook w P.1 P.2), b.out ++ (R.cook w P.1 P.2).text,
          b.hooked ++ [(P.1, b.maxIndex)]⟩ := rfl
    obtain ⟨b', run, out, hooked⟩ := ih ⟨b.R, useCookedNostore b.maxIndex (R.cook w P.1 P.2),
      b.out ++ (R.cook w P.1 P.2).text, b.hooked ++ [(P.1, b.maxIndex)]⟩
    refine ⟨b', by rw [List.foldlM_cons, step]; exact run, ?_, ?_⟩
    · rw [out, cook_text, entriesOf, entriesOf, List.flatMap_cons, List.flatMap_append, List.append_assoc]
    · rw [hooked, hookIndices, List.append_assoc]
      rfl

theorem length_le_print (entries : List (ℕ × ℕ)) : entries.length ≤ (entries.flatMap printEntry).length := by
  induction entries with
  | nil => exact le_rfl
  | cons e entries ih =>
    rw [List.flatMap_cons, List.length_append, List.length_cons, printEntry, List.length_append]
    simp only [List.length_singleton]
    omega

theorem length_le_commentLine (comments : List (List Char)) :
    comments.length ≤ (comments.flatMap commentLine).length := by
  induction comments with
  | nil => exact le_rfl
  | cons text comments ih =>
    rw [List.flatMap_cons, List.length_append, List.length_cons, commentLine, List.length_append]
    simp only [List.length_singleton]
    omega

theorem readTable_print (fresh : R.Fresh) {entries : List (ℕ × ℕ)}
    (small : ∀ e ∈ entries, e.1 < 2 ^ w ∧ e.2 < 2 ^ w) (sorted : entries.Pairwise fun a b => a.1 ≤ b.1)
    {comments : List (List Char)} (lines : ∀ text ∈ comments, '\n' ∉ text) :
    ∃ cache, CacheOf entries cache ∧
      R.readTable w (comments.flatMap commentLine ++ entries.flatMap printEntry) = R.withEntries entries cache := by
  have enough : comments.length ≤ (comments.flatMap commentLine ++ entries.flatMap printEntry).length := by
    rw [List.length_append]
    exact (length_le_commentLine comments).trans (Nat.le_add_right _ _)
  have read : readEntries w (entries.flatMap printEntry).length (entries.flatMap printEntry) = entries :=
    by
    have none : ∀ c ∈ ([] : List Char), isSpace c = true := by simp
    exact readEntries_print small (length_le_print entries) none
  obtain ⟨cache, of, scan⟩ := scanEntries_eq CacheOf.nil (by rwa [List.nil_append])
  refine ⟨cache, of, ?_⟩
  rw [List.length_nil, Nat.zero_add] at scan
  rw [readTable, skipComments_print lines entries enough]
  simp only [read, fresh.flatData, fresh.cache, fresh.aboveAll, List.nil_append, scan, withEntries]

/-- Reading the streamed table gives the table that is built in memory, and the hook sees the same indices. -/
theorem readTable_build (fresh : R.Fresh) {primes : List (ℕ × List (List ℕ))} (small : ∀ P ∈ primes, P.1 < 2 ^ w)
    (increasing : primes.Pairwise fun P Q => P.1 < Q.1) {comments : List (List Char)}
    (lines : ∀ text ∈ comments, '\n' ∉ text) :
    ∃ mem stream, R.build w false primes = some mem ∧ R.build w true primes = some stream ∧
      R.readTable w (comments.flatMap commentLine ++ stream.out) = mem.R ∧ stream.hooked = mem.hooked := by
  obtain ⟨mem, stored, table, hooked⟩ :=
    foldlM_store (w := w) (R := R) primes (b := ⟨R, R.aboveAll, [], []⟩) rfl
  obtain ⟨stream, streamed, out, hooked'⟩ := foldlM_stream (w := w) (R := R) primes ⟨R, R.aboveAll, [], []⟩
  refine ⟨mem, stream, stored, streamed, ?_, by rw [hooked, hooked']⟩
  have bounds : ∀ e ∈ R.entriesOf w primes, e.1 < 2 ^ w ∧ e.2 < 2 ^ w := by
    intro e member
    obtain ⟨P, -, inside⟩ := List.mem_flatMap.mp member
    exact cook_lt e inside
  obtain ⟨cache, of, read⟩ := readTable_print fresh bounds (entriesOf_sorted small increasing) lines
  obtain ⟨cache', of', built⟩ := cookedTable_eq fresh small increasing
  rw [out, List.nil_append, read, table, of.unique of']
  exact built.symm

theorem readTable_build_three :
    ∃ mem stream, (new [⟨1, false⟩, ⟨2, false⟩] [10, 10]).build 32 false
        [(2, [[0], [1]]), (3, [[], []]), (5, [[0], [2, 5]])] = some mem ∧
      (new [⟨1, false⟩, ⟨2, false⟩] [10, 10]).build 32 true
        [(2, [[0], [1]]), (3, [[], []]), (5, [[0], [2, 5]])] = some stream ∧
      (new [⟨1, false⟩, ⟨2, false⟩] [10, 10]).readTable 32 ([['x']].flatMap commentLine ++ stream.out) = mem.R ∧
      stream.hooked = mem.hooked :=
  readTable_build ⟨rfl, rfl, rfl, rfl⟩ (by decide) (by decide) (by decide)

end Renumber

end CadoNfs.Utils
