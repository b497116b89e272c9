import CadoNfs.Utils.RenumberRoundTrip

/-!
# The first index above a bound

`index_from_p` and `iterator_from_p`: the smallest index of an ideal above a prime >= p0.
-/

namespace CadoNfs.Utils

inductive LookupFailure
  | corrupted (e : CorruptedTable)
  | undefinedShift
  deriving DecidableEq

namespace Renumber

section
variable (w : ℕ) (R : Renumber)

def raw (i : ℕ) : Except CorruptedTable (ℕ × ℕ) :=
  if R.aboveBad ≤ i ∧ i < R.aboveAll then
    match R.flatData[i - R.aboveBad]? with
    | some e => .ok e
    | none => .error .assertion
  else .error .assertion

/-- `const_iterator::operator*`. The bad ideals are counted from the index 0 on, additional columns or not. -/
def deref (i : ℕ) : Except CorruptedTable PRSide :=
  let column := if i < R.aboveAdd then R.sidesOfAdditionalColumns[i]? else none
  let bad := if i < R.aboveBad then (pickBad i R.badIdeals).toOption else none
  match column, bad with
  | some side, _ => .ok ⟨0, 0, side⟩
  | none, some x => .ok x
  | none, none =>
    if i = R.aboveAll then .ok ⟨2 ^ w - 1, 2 ^ w - 1, 0⟩
    else do
      let (p, vr) ← R.raw i
      R.computePRSideFromPVr p vr

-- The loop of `iterator_from_p`, with the distance to `end()`.
def advanceTo (p0 : ℕ) : ℕ → ℕ → Except CorruptedTable ℕ
  | 0, i => .ok i
  | n + 1, i => do
    let x ← R.deref w i
    if x.p < p0 then advanceTo p0 n (i + 1) else .ok i

/-- An iterator is its index. A shift by the width of `p_r_values_t` is undefined. -/
def iteratorFromP (p0 : ℕ) : Except LookupFailure ℕ :=
  let maxLpb := R.lpb.foldl max 0
  let last := R.aboveBad + R.flatData.length
  if w ≤ maxLpb then .error .undefinedShift
  else if p0 >>> maxLpb ≠ 0 then .ok last
  else
    let it := if R.badIdealsMaxP ≤ p0 then R.getFirstIteratorFromP w p0 else .ok 0
    (it.bind fun it => R.advanceTo w p0 (last - it) it).mapError .corrupted

def indexFromP (p0 : ℕ) : Except LookupFailure ℕ := R.iteratorFromP w p0

/-- The index `i` has an ideal above a prime that is at least `p0`. The additional columns are above no prime. -/
def AbovePrime (p0 i : ℕ) : Prop :=
  R.aboveAdd ≤ i ∧ i < R.aboveAll ∧ ∃ x, R.pRFromIndex i = .ok x ∧ p0 ≤ x.p

def FirstAbove (p0 i : ℕ) : Prop :=
  (R.AbovePrime p0 i ∧ ∀ j < i, ¬ R.AbovePrime p0 j) ∨ (i = R.aboveAll ∧ ∀ j, ¬ R.AbovePrime p0 j)

def badPrimes (l : List (PRSide × ℕ)) : List ℕ := l.flatMap fun b => List.replicate b.2 b.1.p

def Findable (p0 : ℕ) : Prop :=
  R.lpb.foldl max 0 < w ∧
    if 2 ^ R.lpb.foldl max 0 ≤ p0 then R.badIdealsMaxP < p0
    else if R.badIdealsMaxP ≤ p0 then (R.badIdealsMaxP = 0 ∨ R.badIdealsMaxP < p0) ∧ ∃ e ∈ R.flatData, p0 ≤ e.1
    else (R.aboveAdd = 0 ∨ 0 < p0) ∧
      ((badPrimes R.badIdeals).drop R.aboveAdd).findIdx? (p0 ≤ ·) = (badPrimes R.badIdeals).findIdx? (p0 ≤ ·)

end

variable {w : ℕ} {R : Renumber} {entries : List (ℕ × ℕ)} {cache : List (Option ℕ)}
  {primes : List (ℕ × List (List ℕ))} {p0 i : ℕ}

/-! ## The primes by index -/

theorem length_badPrimes (l : List (PRSide × ℕ)) : (badPrimes l).length = nbBad l := by
  simp [badPrimes, nbBad, List.length_flatMap]

theorem pickBad_prime (i : ℕ) (l : List (PRSide × ℕ)) :
    (pickBad i l).toOption.map PRSide.p = (badPrimes l)[i]? := by
  induction l generalizing i with
  | nil => rfl
  | cons b l ih =>
    obtain ⟨x, nbad⟩ := b
    have split : badPrimes ((x, nbad) :: l) = List.replicate nbad x.p ++ badPrimes l := rfl
    rw [pickBad, split]
    by_cases here : i < nbad
    · rw [if_pos here, List.getElem?_append_left (by rwa [List.length_replicate]), List.getElem?_replicate, if_pos here]
      rfl
    · rw [if_neg here, List.getElem?_append_right (by rw [List.length_replicate]; omega), List.length_replicate, ih]

theorem mem_badPrimes {l : List (PRSide × ℕ)} (positive : ∀ b ∈ l, 0 < b.2) {p : ℕ} :
    p ∈ badPrimes l ↔ ∃ b ∈ l, b.1.p = p := by
  unfold badPrimes
  rw [List.mem_flatMap]
  constructor
  · rintro ⟨b, member, inside⟩
    exact ⟨b, member, (List.eq_of_mem_replicate inside).symm⟩
  · rintro ⟨b, member, rfl⟩
    exact ⟨b, member, List.mem_replicate.mpr ⟨(positive b member).ne', rfl⟩⟩

def primesOf (R : Renumber) (entries : List (ℕ × ℕ)) : List ℕ := badPrimes R.badIdeals ++ entries.map Prod.fst

def Decodes (R : Renumber) (entries : List (ℕ × ℕ)) : Prop :=
  ∀ e ∈ entries, ∃ x, R.computePRSideFromPVr e.1 e.2 = .ok x ∧ x.p = e.1

theorem code_le {x : PRSide} (range : R.InRange x) : R.code x ≤ R.nbAlgebraic * (x.p + 1) := by
  by_cases rational : some x.side = R.rationalSide
  · rw [code, if_pos rational]
  · have place : R.algebraicSides[R.sideRank x.side]? = some x.side :=
      getElem?_algebraicSides.mpr ⟨range.side, rational, rfl⟩
    have rank : R.sideRank x.side + 1 ≤ R.nbAlgebraic := by
      rw [← length_algebraicSides]
      exact (List.getElem?_eq_some_iff.mp place).1
    have root := range.root
    rw [code, if_neg rational]
    calc R.sideRank x.side * (x.p + 1) + x.r ≤ (R.sideRank x.side + 1) * (x.p + 1) := by
          rw [Nat.add_one_mul]
          omega
      _ ≤ R.nbAlgebraic * (x.p + 1) := Nat.mul_le_mul_right _ rank

theorem computePRSideFromPVr_of_le {x : PRSide} (range : R.InRange x) {v : ℕ} (le : v ≤ R.code x) :
    ∃ y, R.computePRSideFromPVr x.p v = .ok y ∧ y.p = x.p := by
  rcases Nat.lt_or_eq_of_le le with less | rfl
  · have inside : v / (x.p + 1) < R.algebraicSides.length := by
      rw [length_algebraicSides]
      exact Nat.div_lt_of_lt_mul (Nat.mul_comm .. ▸ less.trans_le (code_le range))
    refine ⟨⟨x.p, v % (x.p + 1), R.algebraicSides[v / (x.p + 1)]⟩, ?_, rfl⟩
    unfold computePRSideFromPVr
    rw [findSide_eq, ← algebraicSides, List.getElem?_eq_getElem inside]
  · exact ⟨R.canonical x, computePRSideFromPVr_code range, canonical_p⟩

theorem Cooks.decodes (cooks : R.Cooks w primes) : R.Decodes (R.entriesOf w primes) := by
  intro e among
  rw [entriesOf_eq cooks] at among
  obtain ⟨x, member, rfl⟩ := List.mem_map.mp among
  have range := cooks.inRange member
  rw [computeVrFromPRSide_eq range.side]
  exact computePRSideFromPVr_of_le range (Nat.mod_le _ _)

section
variable (ready : R.Ready) (decodes : R.Decodes entries)
include ready decodes

variable (cache) in
theorem pRFromIndex_prime {k : ℕ} (inside : k < (R.primesOf entries).length) :
    ∃ x, (R.withEntries entries cache).pRFromIndex (R.aboveAdd + k) = .ok x ∧ x.p = (R.primesOf entries)[k] := by
  have bad := ready.bad
  by_cases early : k < nbBad R.badIdeals
  · have index : (R.withEntries entries cache).pRFromIndex (R.aboveAdd + k) = pickBad k R.badIdeals := by
      unfold pRFromIndex
      rw [if_neg (show ¬ R.aboveAdd + k < (R.withEntries entries cache).aboveAdd from (Nat.le_add_right _ _).not_gt),
        if_pos (show R.aboveAdd + k < (R.withEntries entries cache).aboveBad from by
          change R.aboveAdd + k < R.aboveBad
          omega)]
      change pickBad (R.aboveAdd + k - R.aboveAdd) R.badIdeals = _
      rw [Nat.add_sub_cancel_left]
    obtain ⟨b, -, pick⟩ := exists_pickBad early
    have prime := pickBad_prime k R.badIdeals
    rw [pick] at prime
    refine ⟨b.1, index.trans pick, Option.some.inj ?_⟩
    rw [← List.getElem?_eq_getElem inside, primesOf,
      List.getElem?_append_left (by rwa [length_badPrimes]), ← prime]
    rfl
  · have length : (R.primesOf entries).length = nbBad R.badIdeals + entries.length := by
      rw [primesOf, List.length_append, length_badPrimes, List.length_map]
    have here : k - nbBad R.badIdeals < entries.length := by omega
    obtain ⟨x, decoded, prime⟩ := decodes _ (List.getElem_mem here)
    have index : R.aboveAdd + k = R.aboveBad + (k - nbBad R.badIdeals) := by omega
    refine ⟨x, ?_, prime.trans (Option.some.inj ?_)⟩
    · rw [index, pRFromIndex_entry ready (List.getElem?_eq_getElem here)]
      exact decoded
    · rw [← List.getElem?_eq_getElem inside, primesOf, List.getElem?_append_right (by rw [length_badPrimes]; omega),
        length_badPrimes, List.getElem?_map, List.getElem?_eq_getElem here]
      rfl

variable (cache p0 i) in
theorem abovePrime_iff : (R.withEntries entries cache).AbovePrime p0 i ↔
    ∃ k, ∃ inside : k < (R.primesOf entries).length, i = R.aboveAdd + k ∧ p0 ≤ (R.primesOf entries)[k] := by
  have all : (R.withEntries entries cache).aboveAll = R.aboveAdd + (R.primesOf entries).length := by
    change R.aboveBad + entries.length = _
    rw [primesOf, List.length_append, length_badPrimes, List.length_map, ready.bad, Nat.add_assoc]
  unfold AbovePrime
  rw [all]
  constructor
  · rintro ⟨above, below, x, decoded, le⟩
    obtain ⟨k, rfl⟩ := Nat.exists_eq_add_of_le above
    have inside : k < (R.primesOf entries).length := by
      change R.aboveAdd + k < _ at below
      omega
    obtain ⟨y, decoded', prime⟩ := pRFromIndex_prime cache ready decodes inside
    obtain rfl : x = y := by
      change (R.withEntries entries cache).pRFromIndex (R.aboveAdd + k) = _ at decoded
      rw [decoded'] at decoded
      exact (Except.ok.inj decoded).symm
    exact ⟨k, inside, rfl, prime ▸ le⟩
  · rintro ⟨k, inside, rfl, le⟩
    obtain ⟨x, decoded, prime⟩ := pRFromIndex_prime cache ready decodes inside
    exact ⟨Nat.le_add_right _ _, by omega, x, decoded, prime ▸ le⟩

theorem firstAbove_iff : (R.withEntries entries cache).FirstAbove p0 i ↔
    i = R.aboveAdd + (R.primesOf entries).findIdx (p0 ≤ ·) := by
  have all : (R.withEntries entries cache).aboveAll = R.aboveAdd + (R.primesOf entries).length := by
    change R.aboveBad + entries.length = _
    rw [primesOf, List.length_append, length_badPrimes, List.length_map, ready.bad, Nat.add_assoc]
  have above (j : ℕ) := abovePrime_iff cache p0 j ready decodes
  unfold FirstAbove
  simp only [above, all]
  by_cases found : (R.primesOf entries).findIdx (p0 ≤ ·) < (R.primesOf entries).length
  · have le : p0 ≤ (R.primesOf entries)[(R.primesOf entries).findIdx (p0 ≤ ·)] := by
      simpa using List.findIdx_getElem (w := found)
    constructor
    · rintro (⟨⟨k, inside, rfl, le'⟩, least⟩ | ⟨-, none⟩)
      · rcases lt_trichotomy k ((R.primesOf entries).findIdx (p0 ≤ ·)) with less | same | more
        · exact absurd le' (by simpa using List.not_of_lt_findIdx less)
        · rw [same]
        · exact absurd ⟨_, found, rfl, le⟩ (least _ (by omega))
      · exact absurd ⟨_, found, rfl, le⟩ (none _)
    · rintro rfl
      refine .inl ⟨⟨_, found, rfl, le⟩, ?_⟩
      rintro j less ⟨k, inside, rfl, le'⟩
      exact absurd le' (by simpa using List.not_of_lt_findIdx (p := (p0 ≤ ·)) (i := k) (by omega))
  · have none : ∀ k, ∀ inside : k < (R.primesOf entries).length, ¬ p0 ≤ (R.primesOf entries)[k] := by
      intro k inside
      have before : k < (R.primesOf entries).findIdx (p0 ≤ ·) := by omega
      simpa using List.not_of_lt_findIdx before
    have length : (R.primesOf entries).findIdx (p0 ≤ ·) = (R.primesOf entries).length :=
      le_antisymm List.findIdx_le_length (not_lt.mp found)
    rw [length]
    constructor
    · rintro (⟨⟨k, inside, rfl, le⟩, -⟩ | ⟨rfl, -⟩)
      · exact absurd le (none k inside)
      · rfl
    · rintro rfl
      exact .inr ⟨rfl, fun j ⟨k, inside, _, le⟩ => none k inside le⟩

end

theorem advanceTo_skip {T : Renumber} {k n : ℕ} (skip : ∀ j < k, ∃ x, T.deref w (i + j) = .ok x ∧ x.p < p0) :
    T.advanceTo w p0 (k + n) i = T.advanceTo w p0 n (i + k) := by
  induction k generalizing i with
  | zero => rw [Nat.zero_add, Nat.add_zero]
  | succ k ih =>
    obtain ⟨x, here, less⟩ := skip 0 (Nat.succ_pos _)
    have rest : ∀ j < k, ∃ x, T.deref w (i + 1 + j) = .ok x ∧ x.p < p0 := by
      intro j below
      rw [Nat.add_right_comm]
      exact skip (j + 1) (Nat.succ_lt_succ below)
    rw [Nat.succ_add, advanceTo]
    rw [Nat.add_zero] at here
    simp only [here, bind, Except.bind, if_pos less]
    rw [ih rest, Nat.add_right_comm, Nat.add_assoc]

theorem advanceTo_stop {T : Renumber} {n : ℕ} {x : PRSide} (here : T.deref w i = .ok x) (le : p0 ≤ x.p) (more : 0 < n) :
    T.advanceTo w p0 n i = .ok i := by
  obtain ⟨n, rfl⟩ := Nat.exists_eq_add_one.mpr more
  rw [advanceTo]
  simp only [here, bind, Except.bind, if_neg le.not_gt]

theorem advanceTo_error {T : Renumber} {n : ℕ} {e : CorruptedTable} (here : T.deref w i = .error e) (more : 0 < n) :
    T.advanceTo w p0 n i = .error e := by
  obtain ⟨n, rfl⟩ := Nat.exists_eq_add_one.mpr more
  rw [advanceTo]
  simp only [here, bind, Except.bind]

variable (w entries cache) in
theorem deref_column (ready : R.Ready) (inside : i < R.aboveAdd) : ∃ side,
    R.sidesOfAdditionalColumns[i]? = some side ∧ (R.withEntries entries cache).deref w i = .ok ⟨0, 0, side⟩ := by
  have some : ∃ side, R.sidesOfAdditionalColumns[i]? = some side := by
    rcases ready.columns with zero | columns
    · omega
    · by_cases merged : R.hasMergedAdditionalColumn = true
      · rw [if_pos merged] at columns
        obtain rfl : i = 0 := by omega
        rw [sides_of_merged merged]
        exact ⟨0, rfl⟩
      · rw [if_neg merged] at columns
        exact ⟨_, List.getElem?_eq_getElem (columns ▸ inside)⟩
  obtain ⟨side, get⟩ := some
  have column : (if i < (R.withEntries entries cache).aboveAdd then
      (R.withEntries entries cache).sidesOfAdditionalColumns[i]? else none) = Option.some side :=
    (if_pos inside).trans get
  refine ⟨side, get, ?_⟩
  unfold deref
  simp only [column]

theorem deref_bad (above : R.aboveAdd ≤ i) (inside : i < R.aboveBad) : (R.withEntries entries cache).deref w i =
    match pickBad i R.badIdeals with
    | .ok x => .ok x
    | .error _ => .error .assertion := by
  have column : (if i < (R.withEntries entries cache).aboveAdd then
      (R.withEntries entries cache).sidesOfAdditionalColumns[i]? else none) = none :=
    if_neg (not_lt.mpr above)
  have bad : (if i < (R.withEntries entries cache).aboveBad then
      (pickBad i (R.withEntries entries cache).badIdeals).toOption else none) = (pickBad i R.badIdeals).toOption :=
    if_pos inside
  unfold deref
  simp only [column, bad]
  cases pickBad i R.badIdeals with
  | ok x => rfl
  | error e =>
    have notLast : i ≠ (R.withEntries entries cache).aboveAll := by
      change i ≠ R.aboveBad + entries.length
      omega
    have garbage : (R.withEntries entries cache).raw i = .error .assertion := if_neg fun range => range.1.not_gt inside
    change (if i = _ then _ else _) = _
    rw [if_neg notLast, garbage]
    rfl

variable (w cache) in
theorem deref_entry (ready : R.Ready) {k : ℕ} (inside : k < entries.length) :
  (R.withEntries entries cache).deref w (R.aboveBad + k) =
    R.computePRSideFromPVr entries[k].1 entries[k].2 := by
  have order : R.aboveAdd ≤ R.aboveBad := by
    rw [ready.bad]
    exact Nat.le_add_right _ _
  have column : (if R.aboveBad + k < (R.withEntries entries cache).aboveAdd then
      (R.withEntries entries cache).sidesOfAdditionalColumns[R.aboveBad + k]? else none) = none :=
    if_neg (not_lt.mpr (order.trans (Nat.le_add_right _ _)))
  have bad : (if R.aboveBad + k < (R.withEntries entries cache).aboveBad then
      (pickBad (R.aboveBad + k) (R.withEntries entries cache).badIdeals).toOption else none) = none :=
    if_neg (not_lt.mpr (Nat.le_add_right _ _))
  have notLast : R.aboveBad + k ≠ (R.withEntries entries cache).aboveAll := by
    change R.aboveBad + k ≠ R.aboveBad + entries.length
    omega
  have raw : (R.withEntries entries cache).raw (R.aboveBad + k) = .ok entries[k] := by
    have range : (R.withEntries entries cache).aboveBad ≤ R.aboveBad + k ∧
        R.aboveBad + k < (R.withEntries entries cache).aboveAll :=
      ⟨Nat.le_add_right _ _, Nat.add_lt_add_left inside _⟩
    have get : (R.withEntries entries cache).flatData[R.aboveBad + k - (R.withEntries entries cache).aboveBad]? =
        some entries[k] := by
      change entries[R.aboveBad + k - R.aboveBad]? = _
      rw [Nat.add_sub_cancel_left, List.getElem?_eq_getElem inside]
    unfold Renumber.raw
    rw [if_pos range, get]
  unfold deref
  simp only [column, bad, if_neg notLast, raw, bind, Except.bind]
  exact computePRSideFromPVr_withEntries _ _

theorem scanCache_skip {l : List (Option ℕ)} {k i : ℕ} (gap : ∀ j < k, l[j]? = some none)
    (entry : l[k]? = some (some i))
    (p : ℕ) : scanCache l p = (p + k, some i) := by
  induction k generalizing l p with
  | zero =>
    cases l with
    | nil => cases entry
    | cons o l =>
      obtain rfl : o = some i := Option.some.inj entry
      rfl
  | succ k ih =>
    cases l with
    | nil => cases entry
    | cons o l =>
      obtain rfl : o = none := Option.some.inj (gap 0 (Nat.succ_pos _))
      have rest : ∀ j < k, l[j]? = some none := fun j below => gap (j + 1) (Nat.succ_lt_succ below)
      rw [scanCache, ih rest entry]
      congr 1
      omega

theorem dichotomy_eq (low : p0 < 2 ^ R.lpb.foldl max 0) : (R.withEntries entries cache).dichotomy w p0 =
    if entries.findIdx (fun e => p0 ≤ e.1) < entries.length
    then .ok (R.aboveBad + entries.findIdx fun e => p0 ≤ e.1) else .error (.primeIsTooLarge p0) := by
  have pass : ¬ (R.lpb.foldl max 0 < w ∧ p0 >>> R.lpb.foldl max 0 ≠ 0) := by
    rintro ⟨-, shifted⟩
    rw [Nat.shiftRight_eq_div_pow] at shifted
    exact shifted (Nat.div_eq_of_lt low)
  unfold dichotomy withEntries
  dsimp only
  rw [if_neg pass]
  by_cases found : entries.findIdx (fun e => p0 ≤ e.1) < entries.length
  · rw [if_neg found.ne, if_pos found, Nat.add_comm]
  · rw [if_pos (le_antisymm List.findIdx_le_length (not_lt.mp found)), if_neg found]

theorem scanCache_gap (of : CacheOf entries cache) (sorted : entries.Pairwise fun a b => a.1 ≤ b.1)
    (inside : p0 < cache.length) : ∃ k, ∃ found : k < entries.length, p0 ≤ entries[k].1 ∧
      k = entries.findIdx (fun e => p0 ≤ e.1) ∧ scanCache (cache.drop p0) p0 = (entries[k].1, some k) := by
  have some : ∃ e ∈ entries, p0 ≤ e.1 ∧ e.1 + 1 = cache.length := by
    rcases of.last with rfl | ⟨e, member, -, last⟩
    · cases inside
    · exact ⟨e, member, by omega, last⟩
  obtain ⟨e, member, le, last⟩ := some
  have found : entries.findIdx (fun e => p0 ≤ e.1) < entries.length :=
    List.findIdx_lt_length_of_exists ⟨e, member, decide_eq_true le⟩
  have here : p0 ≤ entries[entries.findIdx fun e => p0 ≤ e.1].1 := by
    simpa using List.findIdx_getElem (w := found)
  have before (j : ℕ) (below : j < entries.length) (less : j < entries.findIdx fun e => p0 ≤ e.1) :
      entries[j].1 < p0 := by
    simpa using List.not_of_lt_findIdx less
  have least {e : ℕ × ℕ} (member : e ∈ entries) (le : p0 ≤ e.1) :
      entries[entries.findIdx fun e => p0 ≤ e.1].1 ≤ e.1 := by
    obtain ⟨j, below, rfl⟩ := List.getElem_of_mem member
    rcases lt_trichotomy j (entries.findIdx fun e => p0 ≤ e.1) with less | same | more
    · exact absurd le (before j below less).not_ge
    · exact le_of_eq (by simp only [same])
    · exact List.pairwise_iff_getElem.mp sorted _ _ found below more
  generalize first : entries.findIdx (fun e => p0 ≤ e.1) = k at found here before least
  have cached : entries[k].1 < cache.length := by
    have := least member le
    omega
  refine ⟨k, found, here, rfl, ?_⟩
  have gap : ∀ j < entries[k].1 - p0, (cache.drop p0)[j]? = Option.some none := by
    intro j below
    rw [List.getElem?_drop, of.entry _ (by omega), findIdx?_eq_none]
    intro e member same
    have := least member (by omega)
    omega
  have entry : (cache.drop p0)[entries[k].1 - p0]? = Option.some (Option.some k) := by
    rw [List.getElem?_drop, Nat.add_sub_cancel' here, of.entry _ cached, List.findIdx?_eq_some_iff_getElem.mpr]
    refine ⟨found, decide_eq_true rfl, fun j less => ?_⟩
    have := before j (less.trans found) less
    simp only [decide_eq_true_eq]
    omega
  rw [scanCache_skip gap entry, Nat.add_sub_cancel' here]

theorem getFirstIteratorFromP_eq (of : CacheOf entries cache) (sorted : entries.Pairwise fun a b => a.1 ≤ b.1)
    (low : p0 < 2 ^ R.lpb.foldl max 0) :
    (R.withEntries entries cache).getFirstIteratorFromP w p0 =
      if entries.findIdx (fun e => p0 ≤ e.1) < entries.length
      then .ok (R.aboveBad + entries.findIdx fun e => p0 ≤ e.1) else .error (.primeIsTooLarge p0) := by
  unfold getFirstIteratorFromP
  by_cases cached : p0 < cache.length
  · obtain ⟨k, found, -, first, scanned⟩ := scanCache_gap of sorted cached
    have known : ¬ R.aboveBad + entries.length ≤ R.aboveBad + k := by omega
    rw [← first, if_pos found, Nat.add_comm R.aboveBad k]
    simp only [withEntries, scanned, known, if_false, List.getElem?_eq_getElem found, if_true]
  · have scanned : scanCache (cache.drop p0) p0 = (p0, none) := by
      rw [List.drop_eq_nil_of_le (not_lt.mp cached)]
      rfl
    simp only [withEntries]
    rw [scanned]
    exact dichotomy_eq low

def GreatestBad (R : Renumber) : Prop := R.badIdealsMaxP = 0 ∨ ∃ b ∈ R.badIdeals, b.1.p = R.badIdealsMaxP

theorem start_greatestBad (poly : List SidePoly) (lpb : List ℕ) (forDl : Bool) (badIdeals : List (PRSide × ℕ)) :
    (start poly lpb forDl badIdeals).GreatestBad := by
  have run : ∀ (l : List (PRSide × ℕ)) (R : Renumber), R.GreatestBad →
      (l.foldl (fun R b => R.addBadIdeal b.1 b.2) R).GreatestBad := by
    intro l
    induction l with
    | nil => exact fun R greatest => greatest
    | cons b l ih =>
      intro R greatest
      apply ih
      unfold GreatestBad addBadIdeal
      dsimp only
      split_ifs with larger
      · exact .inr ⟨b, List.mem_append_right _ (.head _), rfl⟩
      · refine greatest.imp_right ?_
        rintro ⟨b', member, same⟩
        exact ⟨b', List.mem_append_left _ member, same⟩
  apply run
  cases forDl with
  | false => exact .inl rfl
  | true => exact .inl rfl

theorem Ready.noBad (ready : R.Ready) (zero : R.badIdealsMaxP = 0) : badPrimes R.badIdeals = [] := by
  have none : R.badIdeals = [] := by
    apply List.eq_nil_iff_forall_not_mem.mpr
    intro b member
    have := ready.greatest b member
    have := (ready.positive b member).1
    omega
  rw [none]
  rfl

theorem Ready.badPrimes_le (ready : R.Ready) : ∀ p ∈ badPrimes R.badIdeals, p ≤ R.badIdealsMaxP := by
  intro p member
  obtain ⟨b, among, rfl⟩ := (mem_badPrimes fun b among => (ready.positive b among).2).mp member
  exact ready.greatest b among

theorem Ready.greatest_mem (ready : R.Ready) (greatest : R.GreatestBad) (positive : R.badIdealsMaxP ≠ 0) :
    R.badIdealsMaxP ∈ badPrimes R.badIdeals := by
  rw [mem_badPrimes fun b among => (ready.positive b among).2]
  exact greatest.resolve_left positive

theorem findIdx_primesOf (R : Renumber) (entries : List (ℕ × ℕ)) (p0 : ℕ) :
    (R.primesOf entries).findIdx (p0 ≤ ·) =
      if (badPrimes R.badIdeals).findIdx (p0 ≤ ·) < nbBad R.badIdeals then (badPrimes R.badIdeals).findIdx (p0 ≤ ·)
      else nbBad R.badIdeals + entries.findIdx fun e => p0 ≤ e.1 := by
  rw [primesOf, List.findIdx_append, List.findIdx_map, length_badPrimes]
  split_ifs
  · rfl
  · rw [Nat.add_comm]
    rfl

theorem indexFromP_eq (narrow : R.lpb.foldl max 0 < w) (low : p0 < 2 ^ R.lpb.foldl max 0) :
    (R.withEntries entries cache).indexFromP w p0 =
      ((if R.badIdealsMaxP ≤ p0 then (R.withEntries entries cache).getFirstIteratorFromP w p0 else .ok 0).bind fun it =>
        (R.withEntries entries cache).advanceTo w p0 (R.aboveBad + entries.length - it) it).mapError .corrupted := by
  have unshifted : ¬ p0 >>> R.lpb.foldl max 0 ≠ 0 := by
    rw [Nat.shiftRight_eq_div_pow, Nat.div_eq_of_lt low]
    exact not_not.mpr rfl
  exact (if_neg (not_le.mpr narrow)).trans (if_neg unshifted)

theorem indexFromP_high (ready : R.Ready) (decodes : R.Decodes entries) (of : CacheOf entries cache)
    (sorted : entries.Pairwise fun a b => a.1 ≤ b.1) (narrow : R.lpb.foldl max 0 < w)
    (low : p0 < 2 ^ R.lpb.foldl max 0) (high : R.badIdealsMaxP ≤ p0) :
    (R.withEntries entries cache).indexFromP w p0 =
      if entries.findIdx (fun e => p0 ≤ e.1) < entries.length
      then .ok (R.aboveBad + entries.findIdx fun e => p0 ≤ e.1)
      else .error (.corrupted (.primeIsTooLarge p0)) := by
  rw [indexFromP_eq narrow low, if_pos high, getFirstIteratorFromP_eq of sorted low]
  by_cases found : entries.findIdx (fun e => p0 ≤ e.1) < entries.length
  · obtain ⟨x, decoded, prime⟩ := decodes _ (List.getElem_mem found)
    have here := deref_entry w cache ready found
    have le : p0 ≤ entries[entries.findIdx fun e => p0 ≤ e.1].1 := by
      simpa using List.findIdx_getElem (w := found)
    have more : 0 < R.aboveBad + entries.length - (R.aboveBad + entries.findIdx fun e => p0 ≤ e.1) := by omega
    rw [if_pos found, if_pos found, Except.bind, advanceTo_stop (here.trans decoded) (prime ▸ le) more]
    rfl
  · rw [if_neg found, if_neg found]
    rfl

variable (w entries cache) in
theorem deref_badPrimes {i p : ℕ} (above : R.aboveAdd ≤ i) (inside : i < R.aboveBad)
    (prime : (badPrimes R.badIdeals)[i]? = some p) : ∃ x, (R.withEntries entries cache).deref w i = .ok x ∧
      x.p = p := by
  rw [deref_bad above inside]
  rw [← pickBad_prime] at prime
  cases pick : pickBad i R.badIdeals with
  | ok x =>
    rw [pick] at prime
    exact ⟨x, rfl, Option.some.inj prime⟩
  | error e =>
    rw [pick] at prime
    cases prime

variable (w entries cache) in
theorem deref_noBad {i : ℕ} (above : R.aboveAdd ≤ i) (inside : i < R.aboveBad)
    (none : (badPrimes R.badIdeals)[i]? = none) : (R.withEntries entries cache).deref w i = .error .assertion := by
  rw [deref_bad above inside]
  rw [← pickBad_prime] at none
  cases pick : pickBad i R.badIdeals with
  | ok x =>
    rw [pick] at none
    cases none
  | error e => rfl

theorem indexFromP_low (ready : R.Ready) (greatest : R.GreatestBad) (narrow : R.lpb.foldl max 0 < w)
    (low : p0 < 2 ^ R.lpb.foldl max 0) (bad : p0 < R.badIdealsMaxP) (positive : R.aboveAdd = 0 ∨ 0 < p0) :
    (R.withEntries entries cache).indexFromP w p0 =
      match ((badPrimes R.badIdeals).drop R.aboveAdd).findIdx? (p0 ≤ ·) with
      | some k => .ok (R.aboveAdd + k)
      | none => .error (.corrupted .assertion) := by
  have all := ready.bad
  have length := length_badPrimes R.badIdeals
  have nonempty : 0 < nbBad R.badIdeals := by
    rw [← length]
    exact List.length_pos_of_mem (ready.greatest_mem greatest (by omega))
  have skip {k : ℕ} (le : k ≤ ((badPrimes R.badIdeals).drop R.aboveAdd).length)
      (small : ∀ j < k, ∃ p, (badPrimes R.badIdeals)[R.aboveAdd + j]? = some p ∧ p < p0) :
      ∀ j < R.aboveAdd + k, ∃ x, (R.withEntries entries cache).deref w (0 + j) = .ok x ∧ x.p < p0 := by
    intro j below
    rw [Nat.zero_add]
    by_cases column : j < R.aboveAdd
    · obtain ⟨side, -, read⟩ := deref_column w entries cache ready column
      exact ⟨_, read, by dsimp only; omega⟩
    · obtain ⟨p, prime, less⟩ := small (j - R.aboveAdd) (by omega)
      rw [Nat.add_sub_cancel' (not_lt.mp column)] at prime
      obtain ⟨x, read, same⟩ := deref_badPrimes w entries cache (not_lt.mp column)
        (by rw [List.length_drop, length] at le; omega) prime
      exact ⟨x, read, same ▸ less⟩
  rw [indexFromP_eq narrow low, if_neg (not_le.mpr bad), Except.bind, Nat.sub_zero]
  have dropped := List.length_drop (i := R.aboveAdd) (l := badPrimes R.badIdeals)
  cases found : ((badPrimes R.badIdeals).drop R.aboveAdd).findIdx? (p0 ≤ ·) with
  | some k =>
    obtain ⟨inside, le, before⟩ := List.findIdx?_eq_some_iff_getElem.mp found
    have prime : (badPrimes R.badIdeals)[R.aboveAdd + k]? = some ((badPrimes R.badIdeals).drop R.aboveAdd)[k] := by
      rw [← List.getElem?_drop, List.getElem?_eq_getElem inside]
    obtain ⟨x, read, same⟩ := deref_badPrimes w entries cache (Nat.le_add_right _ _)
      (by omega) prime
    have passed := skip inside.le fun j less => by
      refine ⟨((badPrimes R.badIdeals).drop R.aboveAdd)[j], ?_, by simpa using before j less⟩
      rw [← List.getElem?_drop, List.getElem?_eq_getElem (less.trans inside)]
    have distance : R.aboveBad + entries.length =
      R.aboveAdd + k + (R.aboveBad + entries.length - (R.aboveAdd + k)) := by
      omega
    rw [distance, advanceTo_skip passed, Nat.zero_add,
      advanceTo_stop read (by rw [same]; exact of_decide_eq_true le) (by omega)]
    rfl
  | none =>
    have below := List.findIdx?_eq_none_iff.mp found
    have columns : R.aboveAdd ≠ 0 := by
      intro zero
      rw [zero, List.drop_zero] at below
      have := below _ (ready.greatest_mem greatest (by omega))
      simp only [decide_eq_false_iff_not] at this
      omega
    have passed := skip le_rfl fun j less => by
      refine ⟨((badPrimes R.badIdeals).drop R.aboveAdd)[j], ?_, by simpa using below _ (List.getElem_mem less)⟩
      rw [← List.getElem?_drop, List.getElem?_eq_getElem less]
    have read := deref_noBad w entries cache
      (i := R.aboveAdd + ((badPrimes R.badIdeals).drop R.aboveAdd).length) (Nat.le_add_right _ _) (by omega)
      (List.getElem?_eq_none (by omega))
    have distance : R.aboveBad + entries.length = R.aboveAdd + ((badPrimes R.badIdeals).drop R.aboveAdd).length +
        (R.aboveBad + entries.length - (R.aboveAdd + ((badPrimes R.badIdeals).drop R.aboveAdd).length)) := by
      omega
    rw [distance, advanceTo_skip passed, Nat.zero_add, advanceTo_error read (by omega)]
    rfl

theorem findIdx_bad_lt {p : ℕ} (member : p ∈ badPrimes R.badIdeals) (le : p0 ≤ p) :
    (badPrimes R.badIdeals).findIdx (p0 ≤ ·) < nbBad R.badIdeals := by
  rw [← length_badPrimes]
  exact List.findIdx_lt_length_of_exists ⟨p, member, decide_eq_true le⟩

theorem findIdx_bad_of_lt (small : ∀ p ∈ badPrimes R.badIdeals, p < p0) :
    ¬ (badPrimes R.badIdeals).findIdx (p0 ≤ ·) < nbBad R.badIdeals := by
  rw [← length_badPrimes]
  intro found
  have le : p0 ≤ (badPrimes R.badIdeals)[(badPrimes R.badIdeals).findIdx (p0 ≤ ·)] := by
    simpa using List.findIdx_getElem (w := found)
  exact absurd le (small _ (List.getElem_mem found)).not_ge

theorem findable_iff : (R.withEntries entries cache).Findable w p0 ↔ R.lpb.foldl max 0 < w ∧
    if 2 ^ R.lpb.foldl max 0 ≤ p0 then R.badIdealsMaxP < p0
    else if R.badIdealsMaxP ≤ p0 then (R.badIdealsMaxP = 0 ∨ R.badIdealsMaxP < p0) ∧ ∃ e ∈ entries, p0 ≤ e.1
    else (R.aboveAdd = 0 ∨ 0 < p0) ∧
      ((badPrimes R.badIdeals).drop R.aboveAdd).findIdx? (p0 ≤ ·) = (badPrimes R.badIdeals).findIdx? (p0 ≤ ·) :=
  Iff.rfl

section
variable (ready : R.Ready) (greatest : R.GreatestBad) (decodes : R.Decodes entries) (of : CacheOf entries cache)
  (sorted : entries.Pairwise fun a b => a.1 ≤ b.1) (bounded : ∀ e ∈ entries, e.1 < 2 ^ R.lpb.foldl max 0)
include ready greatest decodes

include bounded in
theorem indexFromP_iff_shifted (narrow : R.lpb.foldl max 0 < w) (large : 2 ^ R.lpb.foldl max 0 ≤ p0) :
    (∃ i, (R.withEntries entries cache).indexFromP w p0 = .ok i ∧ (R.withEntries entries cache).FirstAbove p0 i) ↔
      R.badIdealsMaxP < p0 := by
  have shifted : p0 >>> R.lpb.foldl max 0 ≠ 0 := by
    rw [Nat.shiftRight_eq_div_pow]
    exact (Nat.div_pos large (Nat.two_pow_pos _)).ne'
  have index : (R.withEntries entries cache).indexFromP w p0 = .ok (R.aboveBad + entries.length) :=
    (if_neg (not_le.mpr narrow)).trans (if_pos shifted)
  have positive : 0 < p0 := (Nat.two_pow_pos _).trans_le large
  have bad := ready.bad
  constructor
  · rintro ⟨i, ran, first⟩
    rw [index, Except.ok.injEq] at ran
    subst ran
    rw [firstAbove_iff ready decodes, findIdx_primesOf] at first
    by_contra le
    have found := findIdx_bad_lt (ready.greatest_mem greatest (by omega)) (not_lt.mp le)
    rw [if_pos found] at first
    omega
  · intro small
    refine ⟨_, index, ?_⟩
    rw [firstAbove_iff ready decodes, findIdx_primesOf,
      if_neg (findIdx_bad_of_lt fun p member => (ready.badPrimes_le p member).trans_lt small),
      List.findIdx_eq_length.mpr fun e member => decide_eq_false (not_le.mpr ((bounded e member).trans_le large))]
    omega

include of sorted in
theorem indexFromP_iff_high (narrow : R.lpb.foldl max 0 < w) (low : p0 < 2 ^ R.lpb.foldl max 0)
    (high : R.badIdealsMaxP ≤ p0) :
    (∃ i, (R.withEntries entries cache).indexFromP w p0 = .ok i ∧ (R.withEntries entries cache).FirstAbove p0 i) ↔
      (R.badIdealsMaxP = 0 ∨ R.badIdealsMaxP < p0) ∧ ∃ e ∈ entries, p0 ≤ e.1 := by
  have bad := ready.bad
  rw [indexFromP_high ready decodes of sorted narrow low high]
  constructor
  · rintro ⟨i, ran, first⟩
    split_ifs at ran with found
    rw [Except.ok.injEq] at ran
    subst ran
    refine ⟨?_, _, List.getElem_mem found, by simpa using List.findIdx_getElem (w := found)⟩
    rw [firstAbove_iff ready decodes, findIdx_primesOf] at first
    by_contra largest
    have found : (badPrimes R.badIdeals).findIdx (p0 ≤ ·) < nbBad R.badIdeals :=
      findIdx_bad_lt (ready.greatest_mem greatest (by omega)) (by omega)
    rw [if_pos found] at first
    omega
  · rintro ⟨small, e, member, le⟩
    have found : entries.findIdx (fun e => p0 ≤ e.1) < entries.length :=
      List.findIdx_lt_length_of_exists ⟨e, member, decide_eq_true le⟩
    have none : ∀ p ∈ badPrimes R.badIdeals, p < p0 := by
      intro p member
      rcases small with zero | small
      · rw [ready.noBad zero] at member
        cases member
      · exact (ready.badPrimes_le p member).trans_lt small
    refine ⟨_, if_pos found, ?_⟩
    rw [firstAbove_iff ready decodes, findIdx_primesOf, if_neg (findIdx_bad_of_lt none)]
    omega

theorem indexFromP_iff_low (narrow : R.lpb.foldl max 0 < w) (low : p0 < 2 ^ R.lpb.foldl max 0)
    (bad : p0 < R.badIdealsMaxP) :
    (∃ i, (R.withEntries entries cache).indexFromP w p0 = .ok i ∧ (R.withEntries entries cache).FirstAbove p0 i) ↔
      (R.aboveAdd = 0 ∨ 0 < p0) ∧
        ((badPrimes R.badIdeals).drop R.aboveAdd).findIdx? (p0 ≤ ·) = (badPrimes R.badIdeals).findIdx? (p0 ≤ ·) := by
  have found := findIdx_bad_lt (ready.greatest_mem greatest (by omega)) bad.le
  have first (i : ℕ) : (R.withEntries entries cache).FirstAbove p0 i ↔ _ := firstAbove_iff ready decodes
  simp only [findIdx_primesOf, if_pos found] at first
  have place : (badPrimes R.badIdeals).findIdx? (p0 ≤ ·) = some ((badPrimes R.badIdeals).findIdx (p0 ≤ ·)) := by
    rw [List.findIdx?_eq_some_iff_findIdx_eq, length_badPrimes]
    exact ⟨found, rfl⟩
  rw [place]
  by_cases positive : R.aboveAdd = 0 ∨ 0 < p0
  · rw [indexFromP_low ready greatest narrow low bad positive, and_iff_right positive]
    cases ((badPrimes R.badIdeals).drop R.aboveAdd).findIdx? (p0 ≤ ·) with
    | none => simp
    | some k =>
      simp only [Except.ok.injEq, exists_eq_left', first, Option.some.injEq]
      omega
  · -- the column at the index 0 is above no prime, but its 0 is not below `p0`
    obtain ⟨columns, rfl⟩ : 0 < R.aboveAdd ∧ p0 = 0 := by omega
    obtain ⟨side, -, read⟩ := deref_column w entries cache ready columns
    have all := ready.bad
    have index : (R.withEntries entries cache).indexFromP w 0 = .ok 0 := by
      rw [indexFromP_eq narrow low, if_neg (not_le.mpr bad), Except.bind, Nat.sub_zero,
        advanceTo_stop read (Nat.zero_le _) (by omega)]
      rfl
    simp only [index, Except.ok.injEq, exists_eq_left', first, positive, false_and, iff_false]
    omega

include of sorted bounded in
theorem indexFromP_iff_ready : (∃ i, (R.withEntries entries cache).indexFromP w p0 = .ok i ∧
    (R.withEntries entries cache).FirstAbove p0 i) ↔ (R.withEntries entries cache).Findable w p0 := by
  rw [findable_iff]
  by_cases narrow : R.lpb.foldl max 0 < w
  · rw [and_iff_right narrow]
    by_cases large : 2 ^ R.lpb.foldl max 0 ≤ p0
    · rw [if_pos large]
      exact indexFromP_iff_shifted ready greatest decodes bounded narrow large
    · rw [if_neg large]
      by_cases high : R.badIdealsMaxP ≤ p0
      · rw [if_pos high]
        exact indexFromP_iff_high ready greatest decodes of sorted narrow (not_le.mp large) high
      · rw [if_neg high]
        exact indexFromP_iff_low ready greatest decodes narrow (not_le.mp large) (not_le.mp high)
  · have undefined : (R.withEntries entries cache).indexFromP w p0 = .error .undefinedShift := if_pos (not_lt.mp narrow)
    simp only [undefined, reduceCtorEq, false_and, exists_false, narrow]

end

theorem indexFromP_iff (w : ℕ) (poly : List SidePoly) (lpb : List ℕ) (forDl : Bool) {badIdeals : List (PRSide × ℕ)}
    (bad : ∀ b ∈ badIdeals, b.1.p ≠ 0 ∧ 0 < b.2) {primes : List (ℕ × List (List ℕ))}
    (cooks : (start poly lpb forDl badIdeals).Cooks w primes) (p0 : ℕ) :
    (∃ i, ((start poly lpb forDl badIdeals).cookedTable w primes).indexFromP w p0 = .ok i ∧
      ((start poly lpb forDl badIdeals).cookedTable w primes).FirstAbove p0 i) ↔
      ((start poly lpb forDl badIdeals).cookedTable w primes).Findable w p0 := by
  have ready := start_ready poly lpb forDl bad
  have small : ∀ P ∈ primes, P.1 < 2 ^ w := fun P among => (cooks.prime P among).2
  obtain ⟨cache, of, table⟩ := cookedTable_eq ready.fresh small cooks.increasing
  have bounded : ∀ e ∈ (start poly lpb forDl badIdeals).entriesOf w primes,
      e.1 < 2 ^ (start poly lpb forDl badIdeals).lpb.foldl max 0 := by
    intro e among
    rw [entriesOf_eq cooks] at among
    obtain ⟨x, member, rfl⟩ := List.mem_map.mp among
    exact (cooks.root x member).2.trans_le (Nat.pow_le_pow_right (by norm_num) (le_foldl_max _ x.side 0).2)
  rw [table]
  exact indexFromP_iff_ready ready (start_greatestBad poly lpb forDl badIdeals) cooks.decodes of
    (entriesOf_sorted small cooks.increasing) bounded

def gaussPrimes : List (ℕ × List (List ℕ)) :=
  [(2, [[0], [1]]), (3, [[0], []]), (5, [[0], [2, 3]]), (7, [[0], []]), (11, [[0], []]), (13, [[0], [5, 8]])]

theorem indexFromP_iff_twelve : ∃ i,
    ((start [⟨1, true⟩, ⟨2, true⟩] [4, 4] false []).cookedTable 32 gaussPrimes).indexFromP 32 12 = .ok i ∧
      ((start [⟨1, true⟩, ⟨2, true⟩] [4, 4] false []).cookedTable 32 gaussPrimes).FirstAbove 12 i :=
  (indexFromP_iff 32 _ _ _ (by decide) ⟨by decide, by decide, by decide, by decide, by decide, by decide⟩ 12).mpr
    ⟨by decide, by decide⟩

theorem indexFromP_fourteen :
    (start [⟨1, true⟩, ⟨2, true⟩] [4, 4] false []).Cooks 32 gaussPrimes ∧
      ((start [⟨1, true⟩, ⟨2, true⟩] [4, 4] false []).cookedTable 32 gaussPrimes).indexFromP 32 14 =
        .error (.corrupted (.primeIsTooLarge 14)) ∧
      ¬ ∃ i, ((start [⟨1, true⟩, ⟨2, true⟩] [4, 4] false []).cookedTable 32 gaussPrimes).indexFromP 32 14 = .ok i ∧
        ((start [⟨1, true⟩, ⟨2, true⟩] [4, 4] false []).cookedTable 32 gaussPrimes).FirstAbove 14 i := by
  refine ⟨⟨by decide, by decide, by decide, by decide, by decide, by decide⟩, rfl, ?_⟩
  rintro ⟨i, ran, -⟩
  cases ran

end Renumber

end CadoNfs.Utils
