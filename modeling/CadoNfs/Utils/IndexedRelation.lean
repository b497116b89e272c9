import CadoNfs.Utils.GaloisIndexSigma
import CadoNfs.Utils.RelationParse
import CadoNfs.Utils.RenumberBadIdeals

/-!
# Indexed relations

`utils/indexed_relation.cpp`, for the storage with one list of indices: the constructor from a relation and a renumber
table, `sort`, and the text of an indexed relation. `relation_compute_r` is a parameter.
-/

namespace CadoNfs.Utils.IndexedRelations
open Lib FilterIo BadIdeals Renumber

structure RelationAB where
  a : ℤ
  b : ℕ
  az : ℤ
  bz : ℤ
  activeSides : ℕ × ℕ
  deriving DecidableEq

structure Pr where
  p : ℤ
  r : ℤ
  e : ℕ

structure Relation extends RelationAB where
  rationalSide : Option ℕ
  sides : List Pr × List Pr

structure IndexedRelation extends RelationAB where
  data : List ℕ
  deriving DecidableEq

inductive Failure
  | outOfRange
  | corrupted (e : CorruptedTable)
  | bad (e : BadLookup)
  deriving DecidableEq

structure Table where
  renumber : Renumber
  ideals : List (PRSide × BadIdeal)

def getUi (w : ℕ) (z : ℤ) : ℕ := z.natAbs % 2 ^ 64 % 2 ^ w

def getInt64 (z : ℤ) : ℤ := if 0 ≤ z then (z.natAbs % 2 ^ 63 : ℕ) else -((z.natAbs - 1) % 2 ^ 63 + 1 : ℕ)

section
variable (w : ℕ) (computeR : ℤ → ℕ → ℕ → ℕ) (rel : Relation) (T : Table) (side : ℕ)

def Relation.ideal (x : Pr) : PRSide :=
  let p := getUi w x.p
  ⟨p, if some side = rel.rationalSide then computeR rel.a rel.b p else getUi w x.r, side⟩

def pushAll : ℕ → List ℤ → List ℕ
  | _, [] => []
  | i, k :: exps => List.replicate k.toNat i ++ pushAll (i + 1) exps

def Relation.indices (x : Pr) : Except Failure (List ℕ) :=
  let ipr := rel.ideal w computeR side x
  if (T.renumber.isBad ipr).1 ≠ 0 then
    match indicesFromPAB w T.renumber.aboveAdd T.ideals ipr x.e rel.a rel.b with
    | .error e => .error (.bad e)
    | .ok (first, exps) => .ok (pushAll first exps)
  else
    match T.renumber.indexFromPR w ipr with
    | .error e => .error (.corrupted e)
    | .ok i => .ok (List.replicate x.e i)

def Relation.sideIndices : List Pr → Except Failure (List ℕ)
  | [] => .ok []
  | x :: prs => do return (← rel.indices w computeR T side x) ++ (← sideIndices prs)

def Relation.prs : Except Failure (List Pr) :=
  if side = 0 then .ok rel.sides.1 else if side = 1 then .ok rel.sides.2 else .error .outOfRange

def IndexedRelation.make : Except Failure IndexedRelation := do
  let first ← rel.sideIndices w computeR T rel.activeSides.1 (← rel.prs rel.activeSides.1)
  let second ← rel.sideIndices w computeR T rel.activeSides.2 (← rel.prs rel.activeSides.2)
  return ⟨rel.toRelationAB, first ++ second⟩

end

def IndexedRelation.sort (r : IndexedRelation) : IndexedRelation := { r with data := r.data.mergeSort }

def indicesText : Char → List ℕ → List Char
  | _, [] => []
  | c, i :: data => c :: (Nat.toDigits 16 i ++ indicesText ',' data)

def IndexedRelation.text (r : IndexedRelation) : List Char :=
  formatInt 16 r.a ++ ',' :: (Nat.toDigits 16 r.b ++ indicesText ':' r.data)

def isSpace (c : Char) : Prop := c.toNat = 32 ∨ 9 ≤ c.toNat ∧ c.toNat ≤ 13

instance (c : Char) : Decidable (isSpace c) := inferInstanceAs (Decidable (_ ∨ _))

def skipPrefix : List Char → List Char
  | '0' :: x :: c :: s => if (x = 'x' ∨ x = 'X') ∧ ugly c < 16 then c :: s else '0' :: x :: c :: s
  | s => s

def scanNat (base : ℕ) (s : List Char) : Option (ℕ × List Char) :=
  let s := if base = 16 then skipPrefix s else s
  if ugly (cur s) < base then some (readNumber ugly base 0 s) else none

def scanInt (base : ℕ) (s : List Char) : Option (ℤ × List Char) :=
  match s.dropWhile isSpace with
  | '-' :: t => (scanNat base t).map fun (n, t) => (-n, t)
  | '+' :: t => (scanNat base t).map fun (n, t) => (n, t)
  | t => (scanNat base t).map fun (n, t) => (n, t)

def scanComma : List Char → Option (List Char)
  | ',' :: s => some s
  | _ => none

def scanSides (s : List Char) : Option ((ℕ × ℕ) × List Char) :=
  match s with
  | '@' :: s => do
    let (s0, s) ← scanInt 10 s
    let (s1, s) ← scanInt 10 (← scanComma s)
    return ((s0.toNat, s1.toNat), s)
  | _ => some ((0, 1), s)

def scanIndices : ℕ → List Char → Option (List ℕ)
  | 0, _ => none
  | fuel + 1, s =>
    if s = [] ∨ s.head? = some '\n' then some []
    else do
      let (p, s) ← scanInt 16 s
      return p.toNat :: (← scanIndices fuel ((scanComma s).getD s))

def IndexedRelation.parse (line : List Char) : Option IndexedRelation := do
  let (az, s) ← scanInt 16 line
  let (bz, s) ← scanInt 16 (← scanComma s)
  let (sides, s) ← scanSides s
  guard (s.head? = some ':')
  return ⟨⟨getInt64 az, bz.natAbs % 2 ^ 64, az, bz, sides⟩, ← scanIndices s.length s.tail⟩

/-! ## What is read is what was printed -/

section
variable {s t : List Char} {c : Char} {n i : ℕ}

theorem not_isSpace (digit : ugly c < 16) : ¬isSpace c := by
  rintro space
  have small : c.toNat ≤ 32 := by
    rcases space with blank | ⟨-, control⟩ <;> omega
  rw [ugly] at digit
  split_ifs at digit with dec upper lower
  · have le : '0'.toNat ≤ c.toNat := dec.1
    exact absurd (le.trans small) (by decide)
  · have le : 'A'.toNat ≤ c.toNat := upper.1
    exact absurd (le.trans small) (by decide)
  · have le : 'a'.toNat ≤ c.toNat := lower.1
    exact absurd (le.trans small) (by decide)
  · omega

def Ends (s : List Char) : Prop := ∀ c ∈ s.head?, c = ',' ∨ c = ':'

theorem Ends.ugly (ends : Ends s) : ∀ c ∈ s.head?, 16 ≤ ugly c := by
  intro c head
  rcases ends c head with rfl | rfl <;> decide

theorem skipPrefix_eq (digits : ∀ c ∈ t, ugly c < 16) (ends : Ends s) : skipPrefix (c :: (t ++ s)) = c :: (t ++ s) := by
  have other : ∀ x ∈ (t ++ s).head?, ¬(x = 'x' ∨ x = 'X') := by
    intro x head
    cases t with
    | nil => rcases ends x head with rfl | rfl <;> decide
    | cons d t =>
      obtain rfl : d = x := Option.some.inj head
      have digit := digits d (.head _)
      rintro (rfl | rfl) <;> exact absurd digit (by decide)
  generalize t ++ s = u at *
  unfold skipPrefix
  split
  · next x d u same =>
    obtain ⟨rfl, rfl⟩ := List.cons.inj same
    rw [if_neg fun found => other x rfl found.1]
  · rfl

theorem scanNat_toDigits (ends : Ends s) : scanNat 16 (Nat.toDigits 16 n ++ s) = some (n, s) := by
  have digits := prints_ugly.digit_lt (n := n) (by decide)
  have number := prints_ugly.readNumber_toDigits (n := n) (by decide) ends.ugly
  rw [scanNat, if_pos rfl]
  cases text : Nat.toDigits 16 n with
  | nil => exact absurd text (List.ne_nil_of_length_pos Nat.length_toDigits_pos)
  | cons c t =>
    rw [text] at digits number
    rw [List.forall_mem_cons] at digits
    rw [List.cons_append, skipPrefix_eq digits.2 ends, cur, List.headD_cons, if_pos digits.1]
    exact congrArg some number

theorem scanInt_formatInt (x : ℤ) (ends : Ends s) : scanInt 16 (formatInt 16 x ++ s) = some (x, s) := by
  have scan := scanNat_toDigits (n := x.natAbs) ends
  rw [formatInt]
  split_ifs with negative
  · rw [List.cons_append, scanInt, List.dropWhile_cons_of_neg (by decide)]
    simp only [scan, Option.map_some]
    rw [Int.ofNat_natAbs_of_nonpos negative.le, neg_neg]
  · have digits := prints_ugly.digit_lt (n := x.natAbs) (by decide)
    cases text : Nat.toDigits 16 x.natAbs with
    | nil => exact absurd text (List.ne_nil_of_length_pos Nat.length_toDigits_pos)
    | cons c t =>
      rw [text] at digits scan
      have digit := digits c (.head _)
      rw [List.cons_append] at scan ⊢
      rw [scanInt, List.dropWhile_cons_of_neg (by simpa using not_isSpace digit)]
      split
      · next same =>
        obtain ⟨rfl, -⟩ := List.cons.inj same
        exact absurd digit (by decide)
      · next same =>
        obtain ⟨rfl, -⟩ := List.cons.inj same
        exact absurd digit (by decide)
      · simp only [scan, Option.map_some]
        rw [Int.natAbs_of_nonneg (not_lt.mp negative)]

theorem scanInt_toDigits (ends : Ends s) : scanInt 16 (Nat.toDigits 16 n ++ s) = some ((n : ℤ), s) :=
  scanInt_formatInt (n : ℤ) ends

theorem ends_cons (s : List Char) : Ends (',' :: s) := by simp [Ends]

theorem ends_indicesText (data : List ℕ) : Ends (indicesText ',' data) := by
  cases data with
  | nil => exact nofun
  | cons i data => exact ends_cons _

theorem length_le_indicesText (data : List ℕ) (c : Char) : data.length ≤ (indicesText c data).length := by
  induction data generalizing c with
  | nil => exact Nat.zero_le _
  | cons i data ih =>
    have rest := ih ','
    simp only [indicesText, List.length_cons, List.length_append]
    omega

theorem scanIndices_step (ends : Ends s) (fuel : ℕ) : scanIndices (fuel + 1) (Nat.toDigits 16 n ++ s) =
    (scanIndices fuel ((scanComma s).getD s)).map (n :: ·) := by
  have digits := prints_ugly.digit_lt (n := n) (by decide)
  have inside : ¬(Nat.toDigits 16 n ++ s = [] ∨ (Nat.toDigits 16 n ++ s).head? = some '\n') := by
    cases text : Nat.toDigits 16 n with
    | nil => exact absurd text (List.ne_nil_of_length_pos Nat.length_toDigits_pos)
    | cons c t =>
      rw [text] at digits
      rintro (nil | head)
      · cases nil
      · obtain rfl : c = '\n' := Option.some.inj head
        exact absurd (digits '\n' List.mem_cons_self) (by decide)
  rw [scanIndices, if_neg inside, scanInt_toDigits ends]
  cases rest : scanIndices fuel ((scanComma s).getD s) <;> simp [rest]

theorem scanIndices_text (data : List ℕ) {fuel : ℕ} (enough : data.length + 1 < fuel) :
    scanIndices fuel (Nat.toDigits 16 i ++ indicesText ',' data) = some (i :: data) := by
  induction data generalizing i fuel with
  | nil =>
    obtain ⟨fuel, rfl⟩ : ∃ m, fuel = m + 2 := ⟨fuel - 2, by simp at enough; omega⟩
    rw [scanIndices_step (ends_indicesText [])]
    rfl
  | cons j data ih =>
    obtain ⟨fuel, rfl⟩ : ∃ m, fuel = m + 1 := ⟨fuel - 1, by omega⟩
    rw [scanIndices_step (ends_indicesText (j :: data)), indicesText, scanComma, Option.getD_some,
      ih (by simpa using enough), Option.map_some]

theorem getInt64_of_range {a : ℤ} (low : -2 ^ 63 ≤ a) (high : a < 2 ^ 63) : getInt64 a = a := by
  unfold getInt64
  split_ifs <;> omega

/-- The pair fits the machine words, and the text need not name the sides. -/
structure RelationAB.Fits (x : RelationAB) : Prop where
  a_ge : -2 ^ 63 ≤ x.a
  a_lt : x.a < 2 ^ 63
  b_lt : x.b < 2 ^ 64
  az : x.az = x.a
  bz : x.bz = x.b
  activeSides : x.activeSides = (0, 1)

theorem parse_text {r : IndexedRelation} (fits : r.Fits) (nonempty : r.data ≠ []) :
    IndexedRelation.parse r.text = some r := by
  obtain ⟨⟨a, b, az, bz, sides⟩, data⟩ := r
  obtain ⟨a_ge, a_lt, b_lt, sameA, sameB, zeroOne⟩ := fits
  dsimp only at *
  subst sameA sameB zeroOne
  cases data with
  | nil => exact absurd rfl nonempty
  | cons i data =>
    have colon : Ends (indicesText ':' (i :: data)) := by simp [Ends, indicesText]
    have first := scanInt_formatInt az (ends_cons (Nat.toDigits 16 b ++ indicesText ':' (i :: data)))
    have enough : data.length + 1 < (indicesText ':' (i :: data)).length := by
      have digit : 0 < (Nat.toDigits 16 i).length := Nat.length_toDigits_pos
      have rest := length_le_indicesText data ','
      simp only [indicesText, List.length_cons, List.length_append]
      omega
    have indices := scanIndices_text (i := i) data enough
    rw [IndexedRelation.parse, IndexedRelation.text, first]
    simp only [Option.bind_eq_bind, Option.bind_some, scanComma]
    rw [scanInt_toDigits colon]
    rw [indicesText] at indices ⊢
    have word : b % 2 ^ 64 = b := Nat.mod_eq_of_lt b_lt
    have sides (s : List Char) : scanSides (':' :: s) = some ((0, 1), ':' :: s) := rfl
    simp only [Option.bind_some, sides, List.head?_cons, List.tail_cons, indices, Int.natAbs_natCast, word,
      getInt64_of_range a_ge a_lt]
    rfl

end

def branchExponent (e v : ℤ) : ℤ := if 0 ≤ v then v else e + v

section
variable (w : ℕ) (computeR : ℤ → ℕ → ℕ → ℕ) (rel : Relation) (T : Table) (side : ℕ)

/-- How often `x` gives the index `j`: the ideals that are not bad give the index that stands for them, and the bad ones
those of their branches. -/
def multiplicity (j : ℕ) (x : Pr) : ℕ :=
  let ipr := rel.ideal w computeR side x
  if (T.renumber.isBad ipr).1 = 0 then
    if T.renumber.pRFromIndex j = .ok (T.renumber.canonical ipr) then x.e else 0
  else match findIdeal ipr T.renumber.aboveAdd T.ideals with
    | none => 0
    | some (first, I) =>
      match findBranch w ipr.p rel.a rel.b I.branches with
      | .ok (some J) => if first ≤ j then ((J.v.map (branchExponent x.e)).getD (j - first) 0).toNat else 0
      | _ => 0

structure Contains (ideals : List PRSide) (x : Pr) : Prop where
  good : (T.renumber.isBad (rel.ideal w computeR side x)).1 = 0 → rel.ideal w computeR side x ∈ ideals
  bad : (T.renumber.isBad (rel.ideal w computeR side x)).1 ≠ 0 → ∃ first I J,
    findIdeal (rel.ideal w computeR side x) T.renumber.aboveAdd T.ideals = some (first, I) ∧
      findBranch w (rel.ideal w computeR side x).p rel.a rel.b I.branches = .ok (some J) ∧ ∀ v ∈ J.v, -v ≤ x.e

end

theorem exponents_eq {e : ℤ} {vs : List ℤ} (enough : ∀ v ∈ vs, -v ≤ e) :
    exponents e vs = .ok (vs.map (branchExponent e)) := by
  induction vs with
  | nil => rfl
  | cons v vs ih =>
    rw [List.forall_mem_cons] at enough
    rw [exponents, ih enough.2, List.map_cons, branchExponent]
    split_ifs
    · rfl
    · rfl
    · exact absurd enough.1 ‹_›

theorem count_pushAll (exps : List ℤ) (first j : ℕ) :
    (pushAll first exps).count j = if first ≤ j then (exps.getD (j - first) 0).toNat else 0 := by
  induction exps generalizing first with
  | nil => simp [pushAll]
  | cons k exps ih =>
    rw [pushAll, List.count_append, ih, List.count_replicate]
    rcases lt_trichotomy first j with before | rfl | after
    · rw [show j - first = j - (first + 1) + 1 by omega, List.getD_cons_succ]
      simp [before.ne, before.le, before]
    · simp
    · simp [after.ne', not_le.mpr after, show ¬first + 1 ≤ j by omega]

theorem le_of_findIdeal {x : PRSide} {first n : ℕ} {I : BadIdeal} {l : List (PRSide × BadIdeal)}
    (found : findIdeal x first l = some (n, I)) : first ≤ n := by
  induction l generalizing first with
  | nil => cases found
  | cons y l ih =>
    rw [findIdeal] at found
    split_ifs at found
    · cases found
      exact le_rfl
    · exact (Nat.le_add_right ..).trans (ih found)

structure Table.Built (T : Table) (w : ℕ) (R : Renumber) (primes : List (ℕ × List (List ℕ))) : Prop where
  ready : R.Ready
  cooks : R.Cooks w primes
  fits : ∀ x ∈ cookedIdeals R.nbPolys primes, R.code x < 2 ^ w
  table : T.renumber = R.cookedTable w primes

variable {w : ℕ} {computeR : ℤ → ℕ → ℕ → ℕ} {rel : Relation} {T : Table} {side : ℕ} {R : Renumber}
  {primes : List (ℕ × List (List ℕ))}

theorem Table.Built.index (built : T.Built w R primes) {x : PRSide} (member : x ∈ cookedIdeals R.nbPolys primes) :
    ∃ i, T.renumber.indexFromPR w x = .ok i ∧ T.renumber.aboveAdd ≤ i ∧
      ∀ j, T.renumber.pRFromIndex j = .ok (T.renumber.canonical x) ↔ j = i := by
  obtain ⟨ready, cooks, fits, table⟩ := built
  have trips := (ready.roundTrips_exactly cooks).mpr fits
  obtain ⟨cache, of, eq⟩ := cookedTable_eq ready.fresh (fun P among => (cooks.prime P among).2) cooks.increasing
  rw [← table] at trips eq
  have above : T.renumber.aboveAdd ≤ T.renumber.aboveBad := by
    rw [eq]
    exact ready.bad ▸ Nat.le_add_right ..
  obtain ⟨i, found, decoded⟩ := trips.ideal x member
  have other := cooks.indexFromPR of member (.inr rfl)
  have same := cooks.indexFromPR of member (.inl rfl)
  rw [← eq] at other same
  rw [found, Except.ok.injEq] at same
  have late : T.renumber.aboveBad ≤ i := by
    rw [same, eq]
    exact Nat.le_add_right ..
  refine ⟨i, found, above.trans late, fun j => ⟨fun stands => ?_, ?_⟩⟩
  · have canonical {k : ℕ} {y : PRSide} (value : T.renumber.pRFromIndex j = .ok y)
        (looked : T.renumber.indexFromPR w y = .ok k) : k = i := by
      rw [value, Except.ok.injEq] at stands
      have again : T.renumber.indexFromPR w (R.canonical x) = .ok k := by
        rw [← looked, stands, eq]
        rfl
      rw [other, Except.ok.injEq] at again
      rw [← again, same]
    rcases lt_or_ge j T.renumber.aboveAdd with column | later
    · obtain ⟨y, value, looked⟩ := trips.column j column
      exact canonical value looked
    · rcases lt_or_ge j T.renumber.aboveBad with bad | later
      · obtain ⟨y, k, value, looked, -, le, -⟩ := trips.bad j later bad
        have first := canonical value looked
        omega
      · have size : T.renumber.aboveAll = T.renumber.aboveBad + T.renumber.flatData.length := by
          rw [eq]
          rfl
        obtain ⟨y, value, looked⟩ := trips.entry j later (Galois.pRFromIndex_lt _ above size stands)
        exact canonical value looked
  · rintro rfl
    exact decoded

theorem Table.Built.indices (built : T.Built w R primes) {x : Pr}
    (contains : Contains w computeR rel T side (cookedIdeals R.nbPolys primes) x) :
    ∃ l, rel.indices w computeR T side x = .ok l ∧ (∀ j, l.count j = multiplicity w computeR rel T side j x) ∧
      ∀ j ∈ l, T.renumber.aboveAdd ≤ j := by
  unfold Relation.indices multiplicity
  by_cases good : (T.renumber.isBad (rel.ideal w computeR side x)).1 = 0
  · obtain ⟨i, found, above, stands⟩ := built.index (contains.good good)
    refine ⟨List.replicate x.e i, ?_, fun j => ?_, fun j member => (List.eq_of_mem_replicate member) ▸ above⟩
    · simp [good, found]
    · simp only [good, if_true, stands, List.count_replicate, beq_iff_eq]
      exact if_congr eq_comm rfl rfl
  · obtain ⟨first, I, J, ideal, branch, enough⟩ := contains.bad good
    have exps := exponents_eq enough
    refine ⟨pushAll first (J.v.map (branchExponent x.e)), ?_, fun j => ?_, fun j member => ?_⟩
    · simp [good, indicesFromPAB, ideal, branch, exps, Except.bind, Except.map]
    · simp [good, ideal, branch, count_pushAll]
    · refine (le_of_findIdeal ideal).trans ?_
      by_contra before
      have none := count_pushAll (J.v.map (branchExponent x.e)) first j
      rw [if_neg before] at none
      exact List.count_eq_zero.mp none member

theorem Table.Built.sideIndices (built : T.Built w R primes) {prs : List Pr}
    (contains : ∀ x ∈ prs, Contains w computeR rel T side (cookedIdeals R.nbPolys primes) x) :
    ∃ l, rel.sideIndices w computeR T side prs = .ok l ∧
      (∀ j, l.count j = (prs.map (multiplicity w computeR rel T side j)).sum) ∧ ∀ j ∈ l, T.renumber.aboveAdd ≤ j := by
  induction prs with
  | nil => exact ⟨[], rfl, fun j => rfl, nofun⟩
  | cons x prs ih =>
    rw [List.forall_mem_cons] at contains
    obtain ⟨l, first, count, above⟩ := built.indices contains.1
    obtain ⟨l', rest, count', above'⟩ := ih contains.2
    refine ⟨l ++ l', ?_, fun j => ?_, fun j member => ?_⟩
    · rw [Relation.sideIndices, first, rest]
      rfl
    · rw [List.count_append, count, count', List.map_cons, List.sum_cons]
    · exact (List.mem_append.mp member).elim (above j) (above' j)

/-- What an indexed relation is: the indices of the ideals of each side, none of an additional column; sorted, and back
from its text. -/
structure Indexes (w : ℕ) (computeR : ℤ → ℕ → ℕ → ℕ) (rel : Relation) (T : Table) (r : IndexedRelation) : Prop where
  ab : r.toRelationAB = rel.toRelationAB
  count : ∀ j, r.data.count j = (rel.sides.1.map (multiplicity w computeR rel T 0 j)).sum +
    (rel.sides.2.map (multiplicity w computeR rel T 1 j)).sum
  columns : ∀ j ∈ r.data, T.renumber.aboveAdd ≤ j
  sorted : r.sort.data.Pairwise (· ≤ ·) ∧ r.sort.data.Perm r.data
  text : r.data ≠ [] → IndexedRelation.parse r.sort.text = some r.sort

theorem make_indexes (built : T.Built w R primes) (fits : rel.Fits)
    (contains0 : ∀ x ∈ rel.sides.1, Contains w computeR rel T 0 (cookedIdeals R.nbPolys primes) x)
    (contains1 : ∀ x ∈ rel.sides.2, Contains w computeR rel T 1 (cookedIdeals R.nbPolys primes) x) :
    ∃ r, IndexedRelation.make w computeR rel T = .ok r ∧ Indexes w computeR rel T r := by
  obtain ⟨l, first, count, above⟩ := built.sideIndices contains0
  obtain ⟨l', second, count', above'⟩ := built.sideIndices contains1
  refine ⟨⟨rel.toRelationAB, l ++ l'⟩, ?_, rfl, fun j => ?_, fun j member => ?_, ?_, fun nonempty => ?_⟩
  · unfold IndexedRelation.make
    rw [fits.activeSides]
    show (rel.sideIndices w computeR T 0 rel.sides.1 >>= fun first =>
      rel.sideIndices w computeR T 1 rel.sides.2 >>= fun second => _) = _
    rw [first, second]
    rfl
  · rw [List.count_append, count, count']
  · exact (List.mem_append.mp member).elim (above j) (above' j)
  · exact ⟨List.pairwise_mergeSort' (· ≤ ·) (l ++ l'), List.mergeSort_perm _ _⟩
  · refine parse_text fits fun none => nonempty (List.eq_nil_of_length_eq_zero ?_)
    show (l ++ l').length = 0
    rw [← List.length_mergeSort]
    exact congrArg List.length none

def smallTable : Table :=
  ⟨(start [⟨1, true⟩, ⟨3, false⟩] [10, 10] true [(⟨3, 1, 1⟩, 2)]).cookedTable 32 [(2, [[0], [1, 2]]), (3, [[0], [0]])],
    [(⟨3, 1, 1⟩, ⟨2, [⟨1, 1, [1, -1]⟩]⟩)]⟩

def smallRelation : Relation := ⟨⟨4, 1, 4, 1, (0, 1)⟩, some 0, [⟨2, 0, 2⟩], [⟨3, 1, 2⟩]⟩

theorem make_indexes_four : ∃ r, IndexedRelation.make 32 (fun a _ p => (a % p).toNat) smallRelation smallTable = .ok r ∧
    Indexes 32 (fun a _ p => (a % p).toNat) smallRelation smallTable r := by
  refine make_indexes (R := start [⟨1, true⟩, ⟨3, false⟩] [10, 10] true [(⟨3, 1, 1⟩, 2)])
    ⟨start_ready _ _ _ (by decide), ⟨by decide, by decide, by decide, by decide, by decide, by decide⟩, by decide, rfl⟩
    ⟨by decide, by decide, by decide, rfl, rfl, rfl⟩ ?_ ?_
  · exact List.forall_mem_singleton.mpr ⟨fun _ => by decide, fun bad => absurd rfl bad⟩
  · exact List.forall_mem_singleton.mpr ⟨fun good => absurd good (by decide), fun _ => ⟨1, _, _, rfl, rfl, by decide⟩⟩

theorem make_without_column : ∃ r,
    IndexedRelation.make 32 (fun a _ p => (a % p).toNat) smallRelation smallTable = .ok r ∧
      smallTable.renumber.indexFromPR 32 ⟨0, 0, 1⟩ = .ok 0 ∧ 0 ∉ r.data :=
  ⟨_, rfl, rfl, by decide⟩

-- A run of equal indices leaves one of them, if their number is odd.
def compressRuns : List ℕ → List ℕ
  | [] => []
  | i :: s =>
    let n := (s.takeWhile (· = i)).length + 1
    let kept := compressRuns (s.dropWhile (· = i))
    if n % 2 = 1 then i :: kept else kept
  termination_by s => s.length
  decreasing_by exact Nat.lt_succ_of_le (List.dropWhile_sublist _).length_le

def IndexedRelation.compress (dl : Bool) (r : IndexedRelation) : IndexedRelation :=
  if dl then r else { r with data := compressRuns r.data }

theorem lt_of_mem_dropWhile {i j : ℕ} {s : List ℕ} (sorted : (i :: s).Pairwise (· ≤ ·))
    (member : j ∈ s.dropWhile (· = i)) : i < j := by
  obtain ⟨least, sorted⟩ := List.pairwise_cons.mp sorted
  have some := List.ne_nil_of_mem member
  have other := of_decide_eq_false (List.head_dropWhile_not (fun x => decide (x = i)) some)
  have after := sorted.sublist (List.dropWhile_sublist (fun x => decide (x = i)))
  have le := least _ ((List.dropWhile_sublist _).mem (List.head_mem some))
  rw [← List.cons_head_tail some] at after member
  rcases List.mem_cons.mp member with rfl | later
  · omega
  · have := (List.pairwise_cons.mp after).1 j later
    omega

theorem count_run (s : List ℕ) (i j : ℕ) :
    s.count j = (if i = j then (s.takeWhile (· = i)).length else 0) + (s.dropWhile (· = i)).count j := by
  have run : s.takeWhile (· = i) = List.replicate (s.takeWhile (· = i)).length i := by
    refine List.eq_replicate_iff.mpr ⟨rfl, fun x member => ?_⟩
    simpa using List.mem_takeWhile_imp member
  calc s.count j = (s.takeWhile (· = i) ++ s.dropWhile (· = i)).count j := by rw [List.takeWhile_append_dropWhile]
    _ = _ := by
      rw [List.count_append, run, List.count_replicate]
      simp

theorem compressRuns_spec {s : List ℕ} (sorted : s.Pairwise (· ≤ ·)) :
    (compressRuns s).Pairwise (· < ·) ∧ ∀ j, (compressRuns s).count j = s.count j % 2 := by
  induction s using compressRuns.induct with
  | case1 => simp [compressRuns]
  | case2 i s n odd ih =>
    obtain ⟨increasing, count⟩ := ih (sorted.tail.sublist (List.dropWhile_sublist _))
    have later {j : ℕ} := lt_of_mem_dropWhile (j := j) sorted
    rw [compressRuns, if_pos odd]
    refine ⟨List.pairwise_cons.mpr ⟨fun j member => ?_, increasing⟩, fun j => ?_⟩
    · have positive := List.count_pos_iff.mpr member
      rw [count j] at positive
      exact later (List.count_pos_iff.mp (by omega))
    · rw [List.count_cons, List.count_cons, count j, count_run s i j]
      by_cases same : i = j
      · subst same
        have none := List.count_eq_zero.mpr fun member => (later member).ne rfl
        simp [none]
        omega
      · simp [same]
  | case3 i s n even ih =>
    obtain ⟨increasing, count⟩ := ih (sorted.tail.sublist (List.dropWhile_sublist _))
    rw [compressRuns, if_neg even]
    refine ⟨increasing, fun j => ?_⟩
    rw [List.count_cons, count j, count_run s i j]
    by_cases same : i = j
    · subst same
      simp
      omega
    · simp [same]

/-- After `sort`, an index is left once if it is there an odd number of times, and not at all otherwise. -/
theorem sort_compress (r : IndexedRelation) :
    r.sort.compress true = r.sort ∧ (r.sort.compress false).toRelationAB = r.toRelationAB ∧
      (r.sort.compress false).data.Pairwise (· < ·) ∧
      ∀ i, (r.sort.compress false).data.count i = r.data.count i % 2 := by
  have sorted : r.sort.data.Pairwise (· ≤ ·) := by
    simpa [IndexedRelation.sort] using List.pairwise_mergeSort' (· ≤ ·) r.data
  obtain ⟨increasing, count⟩ := compressRuns_spec sorted
  have same : r.sort.data.Perm r.data := List.mergeSort_perm r.data _
  exact ⟨rfl, rfl, increasing, fun i => same.count_eq i ▸ count i⟩

end CadoNfs.Utils.IndexedRelations
