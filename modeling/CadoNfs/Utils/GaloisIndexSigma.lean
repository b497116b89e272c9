import CadoNfs.Utils.GaloisIndexTable

/-!
# One index for each orbit

What `compute_action_on_index` returns on a table that is built from cooked primes.
-/

namespace CadoNfs.Utils.Galois
open Lib Function Renumber

def fullOrbits (g : GaloisAction) (tab : Renumber) : Set (Set ℕ) :=
  {orbit | ∃ i x, tab.pRFromIndex i = .ok x ∧ Movable tab x ∧ minimalPeriod (g.apply · x.p) x.r = g.order ∧
    orbit = {j | SameOrbit g tab i j}}

structure Merges (g : GaloisAction) (tab : Renumber) (sigma : List ℕ) (norbits : ℕ) : Prop where
  size : sigma.length = tab.aboveAll
  idempotent : ∀ i k : ℕ, sigma[i]? = some k → sigma[k]? = some k
  same : ∀ i j : ℕ, i < tab.aboveAll → j < tab.aboveAll → (sigma[i]? = sigma[j]? ↔ i = j ∨ SameOrbit g tab i j)
  fixed : ∀ i < tab.aboveBad, sigma[i]? = some i
  count : norbits = (fullOrbits g tab).ncard

section
variable {g : GaloisAction} {w : ℕ} {tab : Renumber} {ideal : ℕ → PRSide} {i j k : ℕ} {sigma sigma' : List ℕ}

theorem GaloisAction.order_pos (g : GaloisAction) : 0 < g.order := by
  rcases g with _ | (_ | _ | _ | _ | _ | _) <;> decide

variable (reads : Reads w tab ideal) (acts : ActsOn g tab) (noShort : NoShortOrbit g tab)
include reads

theorem SameOrbit.refl (inside : i < tab.aboveAll) (movable : Movable tab (ideal i)) : SameOrbit g tab i i :=
  reads.sameOrbit_iff.mpr ⟨inside, inside, movable, movable, rfl, rfl, Reaches.refl _ _⟩

theorem SameOrbit.trans (first : SameOrbit g tab i j) (second : SameOrbit g tab j k) : SameOrbit g tab i k := by
  obtain ⟨inside, -, movable, -, prime, side, reaches⟩ := reads.sameOrbit_iff.mp first
  obtain ⟨-, inside', -, movable', prime', side', reaches'⟩ := reads.sameOrbit_iff.mp second
  rw [← prime] at reaches'
  exact reads.sameOrbit_iff.mpr ⟨inside, inside', movable, movable', prime.trans prime', side.trans side',
    reaches.trans reaches'⟩

include acts noShort

theorem Reads.periodic (inside : i < tab.aboveAll) (movable : Movable tab (ideal i)) :
    (ideal i).r ∈ periodicPts (g.apply · (ideal i).p) := by
  rw [← minimalPeriod_pos_iff_mem_periodicPts]
  rcases reads.length acts noShort inside movable with one | all
  · rw [one]
    exact one_pos
  · rw [all]
    exact g.order_pos

theorem SameOrbit.symm (orbit : SameOrbit g tab i j) : SameOrbit g tab j i := by
  obtain ⟨inside, inside', movable, movable', prime, side, reaches⟩ := reads.sameOrbit_iff.mp orbit
  refine reads.sameOrbit_iff.mpr ⟨inside', inside, movable', movable, prime.symm, side.symm, ?_⟩
  rw [← prime]
  exact reaches.symm (reads.periodic acts noShort inside movable)

variable (handled : Handled g tab ideal 0 tab.aboveAll sigma sigma')
include handled

theorem Handled.count : (fullOrbits g tab).ncard = nbKeptIn g tab ideal sigma' 0 tab.aboveAll := by
  classical
  have all : fullOrbits g tab = (fun i => {j | SameOrbit g tab i j}) ''
      ((Finset.Ico 0 tab.aboveAll).filter (Kept g tab ideal sigma') : Finset ℕ) := by
    ext orbit
    constructor
    · rintro ⟨i, x, index, movable, length, rfl⟩
      have inside := reads.range i x index
      rw [reads.index i inside, Except.ok.injEq] at index
      subst index
      obtain ⟨k, orbit, written⟩ := handled.moved i (Nat.zero_le i) inside movable
      obtain ⟨-, inside', -, movable', prime, -, reaches⟩ := reads.sameOrbit_iff.mp orbit
      have kept : sigma'[k]? = some k := by
        rw [← written]
        exact (handled.same i k (Nat.zero_le i) inside orbit).2.2.symm
      refine ⟨k, Finset.mem_coe.mpr (Finset.mem_filter.mpr ⟨Finset.mem_Ico.mpr ⟨Nat.zero_le k, inside'⟩, movable', kept, ?_⟩),
        ?_⟩
      · rw [← prime, reaches.minimalPeriod (reads.periodic acts noShort inside movable), length]
      · ext j
        exact ⟨fun second => orbit.trans reads second,
          fun second => (SameOrbit.symm reads acts noShort orbit).trans reads second⟩
    · rintro ⟨k, among, rfl⟩
      obtain ⟨inside, movable, -, length⟩ := Finset.mem_filter.mp (Finset.mem_coe.mp among)
      exact ⟨k, ideal k, reads.index k (Finset.mem_Ico.mp inside).2, movable, length, rfl⟩
  rw [all, nbKeptIn, Set.InjOn.ncard_image, Set.ncard_coe_finset]
  intro k among k' among' same
  obtain ⟨inside, -, kept, -⟩ := Finset.mem_filter.mp (Finset.mem_coe.mp among)
  obtain ⟨inside', movable', kept', -⟩ := Finset.mem_filter.mp (Finset.mem_coe.mp among')
  have inside' := (Finset.mem_Ico.mp inside').2
  have orbit : k' ∈ {j | SameOrbit g tab k j} := by
    rw [show {j | SameOrbit g tab k j} = {j | SameOrbit g tab k' j} from same]
    exact SameOrbit.refl reads inside' movable'
  have equal := (handled.same k k' (Nat.zero_le k) (Finset.mem_Ico.mp inside).2 orbit).2.2
  rw [kept, kept', Option.some.injEq] at equal
  exact equal

omit reads acts noShort in
theorem Handled.representative (inside : i < tab.aboveAll) (written : sigma'[i]? = some k) :
    sigma'[k]? = some k ∧ (k = i ∨ SameOrbit g tab i k) := by
  by_cases movable : Movable tab (ideal i)
  · obtain ⟨k', orbit, written'⟩ := handled.moved i (Nat.zero_le i) inside movable
    rw [written, Option.some.injEq] at written'
    subst written'
    refine ⟨?_, .inr orbit⟩
    rw [← written]
    exact (handled.same i k (Nat.zero_le i) inside orbit).2.2.symm
  · have kept := handled.fixed i (Nat.zero_le i) inside movable
    rw [written, Option.some.injEq] at kept
    subst kept
    exact ⟨written, .inl rfl⟩

theorem Handled.merges (length : sigma.length = tab.aboveAll) :
    Merges g tab sigma' (nbKeptIn g tab ideal sigma' 0 tab.aboveAll) := by
  have size := handled.length.trans length
  refine ⟨size, fun i k written => ?_, fun i j inside inside' => ⟨fun equal => ?_, ?_⟩, fun i early => ?_,
    (handled.count reads acts noShort).symm⟩
  · have inside := (List.getElem?_eq_some_iff.mp written).1
    exact (handled.representative (size ▸ inside) written).1
  · obtain ⟨k, written⟩ : ∃ k, sigma'[i]? = some k := ⟨_, List.getElem?_eq_getElem (size ▸ inside)⟩
    rcases (handled.representative inside written).2 with rfl | orbit
    · rcases (handled.representative inside' (equal ▸ written)).2 with same | orbit
      · exact .inl same
      · exact .inr (SameOrbit.symm reads acts noShort orbit)
    · rcases (handled.representative inside' (equal ▸ written)).2 with rfl | orbit'
      · exact .inr orbit
      · exact .inr (orbit.trans reads (SameOrbit.symm reads acts noShort orbit'))
  · rintro (rfl | orbit)
    · rfl
    · exact (handled.same i j (Nat.zero_le i) inside orbit).2.2
  · have inside : i < tab.aboveAll := by
      rw [reads.size]
      exact early.trans_le (Nat.le_add_right _ _)
    exact handled.fixed i (Nat.zero_le i) inside (reads.fixed i early)

end

theorem computeActionOnIndex_ok {g : GaloisAction} {w : ℕ} {tab : Renumber} {ideal : ℕ → PRSide}
    (reads : Reads w tab ideal) (acts : ActsOn g tab) (noShort : NoShortOrbit g tab)
    {order : ℕ → List (ℕ × ℕ) → List (ℕ × ℕ)} (permutes : ∀ i l, (order i l).Perm l) (sigma : List ℕ) :
    ∃ sigma' norbits, computeActionOnIndex g w tab order sigma = .ok (sigma', norbits) ∧
      Merges g tab sigma' norbits := by
  have length : (sigma.take tab.aboveAll ++ List.replicate (tab.aboveAll - sigma.length) 0).length = tab.aboveAll := by
    rw [List.length_append, List.length_take, List.length_replicate]
    omega
  obtain ⟨sigma', run, handled⟩ := actionLoop_ok reads acts noShort permutes
    (tab.aboveBad + tab.flatData.length) (Nat.zero_le _) (by rw [reads.size, Nat.zero_add]) (fun _ j before => nomatch before)
    length 0
  rw [Nat.zero_add] at run
  exact ⟨sigma', _, run, handled.merges reads acts noShort length⟩

section
variable {w : ℕ} {R : Renumber} {primes : List (ℕ × List (List ℕ))} {entries : List (ℕ × ℕ)} {cache : List (Option ℕ)} {i : ℕ}

theorem read_column (ready : R.Ready) (inside : i < R.aboveAdd) : ∃ side,
    (R.withEntries entries cache).deref w i = .ok ⟨0, 0, side⟩ ∧
      (R.withEntries entries cache).pRFromIndex i = .ok ⟨0, 0, side⟩ := by
  obtain ⟨side, get, read⟩ := deref_column w entries cache ready inside
  refine ⟨side, read, ?_⟩
  unfold Renumber.pRFromIndex
  rw [if_pos (show i < (R.withEntries entries cache).aboveAdd from inside)]
  simp only [show (R.withEntries entries cache).sidesOfAdditionalColumns[i]? = some side from get]

theorem read_bad (ready : R.Ready) (noColumn : R.aboveAdd = 0) (inside : i < R.aboveBad) : ∃ x,
    (R.withEntries entries cache).deref w i = .ok x ∧ (R.withEntries entries cache).pRFromIndex i = .ok x ∧
      ((R.withEntries entries cache).isBad x).1 ≠ 0 := by
  have bound : i < nbBad R.badIdeals := by
    have := ready.bad
    omega
  obtain ⟨b, among, pick⟩ := exists_pickBad bound
  obtain ⟨j, -, found, -⟩ := lookupBad_pickBad (fun b among => (ready.positive b among).2) pick R.aboveAdd
  have isBad : (R.withEntries entries cache).isBad b.1 = lookupBad b.1 R.aboveAdd R.badIdeals := by
    unfold Renumber.isBad
    exact if_neg (not_lt.mpr (ready.greatest b among))
  refine ⟨b.1, ?_, ?_, isBad ▸ found⟩
  · rw [deref_bad (noColumn ▸ Nat.zero_le i) inside, pick]
  · unfold Renumber.pRFromIndex
    rw [if_neg (show ¬i < (R.withEntries entries cache).aboveAdd from noColumn ▸ Nat.not_lt_zero i),
      if_pos (show i < (R.withEntries entries cache).aboveBad from inside)]
    change pickBad (i - R.aboveAdd) R.badIdeals = _
    rw [noColumn, Nat.sub_zero, pick]

theorem read_entry (cooks : R.Cooks w primes) (ready : R.Ready)
    (fits : ∀ x ∈ cookedIdeals R.nbPolys primes, R.code x < 2 ^ w) {k : ℕ}
    (inside : k < (cookedIdeals R.nbPolys primes).length) :
    (R.withEntries (R.entriesOf w primes) cache).deref w (R.aboveBad + k) =
        .ok (R.canonical (cookedIdeals R.nbPolys primes)[k]) ∧
      (R.withEntries (R.entriesOf w primes) cache).pRFromIndex (R.aboveBad + k) =
        .ok (R.canonical (cookedIdeals R.nbPolys primes)[k]) := by
  have entries := entriesOf_eq cooks
  have bound : k < (R.entriesOf w primes).length := by rwa [entries, List.length_map]
  have member := List.getElem_mem inside
  have entry : (R.entriesOf w primes)[k] =
      ((cookedIdeals R.nbPolys primes)[k].p, R.code (cookedIdeals R.nbPolys primes)[k]) := by
    have value : R.computeVrFromPRSide w (cookedIdeals R.nbPolys primes)[k] =
        R.code (cookedIdeals R.nbPolys primes)[k] := by
      rw [computeVrFromPRSide_eq (cooks.inRange member).side, Nat.mod_eq_of_lt (fits _ member)]
    simp only [entries, List.getElem_map, value]
  have decoded := computePRSideFromPVr_code (cooks.inRange member)
  constructor
  · rw [deref_entry w cache ready bound, entry, decoded]
  · rw [pRFromIndex_entry ready (List.getElem?_eq_some_iff.mpr ⟨bound, entry⟩), decoded]

theorem pRFromIndex_lt (tab : Renumber) {x : PRSide} (columns : tab.aboveAdd ≤ tab.aboveBad)
    (size : tab.aboveAll = tab.aboveBad + tab.flatData.length) (index : tab.pRFromIndex i = .ok x) : i < tab.aboveAll := by
  by_contra outside
  have noEntry : tab.flatData[i - tab.aboveBad]? = none := List.getElem?_eq_none (by omega)
  unfold Renumber.pRFromIndex at index
  rw [if_neg (by omega), if_neg (by omega), noEntry] at index
  cases index

theorem cookedIdeals_sorted (increasing : primes.Pairwise fun P Q => P.1 < Q.1) (n : ℕ) :
    (cookedIdeals n primes).Pairwise fun x y => x.p < y.p ∨ x.p = y.p ∧ x.side ≤ y.side := by
  rw [cookedIdeals, List.pairwise_flatMap]
  refine ⟨fun P _ => ?_, increasing.imp fun {P Q} less x left y right => ?_⟩
  · rw [List.pairwise_flatMap]
    refine ⟨fun s _ => ?_, List.pairwise_lt_range.imp fun {s s'} less x left y right => ?_⟩
    · rw [List.pairwise_map]
      exact List.pairwise_of_forall fun _ _ => .inr ⟨rfl, le_rfl⟩
    · obtain ⟨r, -, rfl⟩ := List.mem_map.mp left
      obtain ⟨r', -, rfl⟩ := List.mem_map.mp right
      exact .inr ⟨rfl, less.le⟩
  · obtain ⟨s, -, inside⟩ := List.mem_flatMap.mp left
    obtain ⟨s', -, inside'⟩ := List.mem_flatMap.mp right
    obtain ⟨r, -, rfl⟩ := List.mem_map.mp inside
    obtain ⟨r', -, rfl⟩ := List.mem_map.mp inside'
    exact .inl less

theorem read_early (ready : R.Ready) (separate : R.aboveAdd = 0 ∨ R.badIdeals = []) (early : i < R.aboveBad) : ∃ x,
    (R.withEntries entries cache).deref w i = .ok x ∧ (R.withEntries entries cache).pRFromIndex i = .ok x ∧
      ¬Movable (R.withEntries entries cache) x := by
  rcases separate with noColumn | noBad
  · obtain ⟨x, read, index, bad⟩ := read_bad ready noColumn early
    exact ⟨x, read, index, fun movable => bad movable.2⟩
  · have onlyColumns : i < R.aboveAdd := by
      have all := ready.bad
      rw [noBad] at all
      exact early.trans_eq all
    obtain ⟨side, read, index⟩ := read_column ready onlyColumns
    exact ⟨_, read, index, fun movable => movable.1 rfl⟩

theorem movable_entry (cooks : R.Cooks w primes) {k : ℕ} (inside : k < (cookedIdeals R.nbPolys primes).length) :
    Movable (R.withEntries entries cache) (R.canonical (cookedIdeals R.nbPolys primes)[k]) := by
  have member := List.getElem_mem inside
  refine ⟨?_, (cooks.good _ member).2⟩
  rw [canonical_p]
  exact cooks.positive member

theorem canonical_root (x : PRSide) : (R.canonical x).r ≤ x.r := by
  rw [canonical]
  split_ifs
  · exact Nat.zero_le _
  · exact le_rfl

def idealAt (tab : Renumber) (i : ℕ) : PRSide := (tab.pRFromIndex i).toOption.getD ⟨0, 0, 0⟩

theorem idealAt_eq {tab : Renumber} {x : PRSide} (index : tab.pRFromIndex i = .ok x) : idealAt tab i = x := by
  rw [idealAt, index]
  rfl

theorem aboveAll_withEntries (cooks : R.Cooks w primes) :
    (R.withEntries (R.entriesOf w primes) cache).aboveAll = R.aboveBad + (cookedIdeals R.nbPolys primes).length := by
  have count : (R.entriesOf w primes).length = (cookedIdeals R.nbPolys primes).length := by
    rw [entriesOf_eq cooks, List.length_map]
  exact congrArg (R.aboveBad + ·) count

theorem movable_idealAt (ready : R.Ready) (cooks : R.Cooks w primes)
    (fits : ∀ x ∈ cookedIdeals R.nbPolys primes, R.code x < 2 ^ w) (separate : R.aboveAdd = 0 ∨ R.badIdeals = [])
    (inside : i < (R.withEntries (R.entriesOf w primes) cache).aboveAll) :
    Movable (R.withEntries (R.entriesOf w primes) cache) (idealAt (R.withEntries (R.entriesOf w primes) cache) i) ↔
      ∃ k, ∃ bound : k < (cookedIdeals R.nbPolys primes).length, i = R.aboveBad + k ∧
        idealAt (R.withEntries (R.entriesOf w primes) cache) i = R.canonical (cookedIdeals R.nbPolys primes)[k] := by
  constructor
  · intro movable
    by_cases early : i < R.aboveBad
    · obtain ⟨x, -, index, notMovable⟩ := read_early (w := w) ready separate early
      rw [idealAt_eq index] at movable
      exact absurd movable notMovable
    · obtain ⟨k, rfl⟩ := Nat.exists_eq_add_of_le (not_lt.mp early)
      rw [aboveAll_withEntries cooks] at inside
      have bound : k < (cookedIdeals R.nbPolys primes).length := by omega
      exact ⟨k, bound, rfl, idealAt_eq (read_entry cooks ready fits bound).2⟩
  · rintro ⟨k, bound, -, value⟩
    rw [value]
    exact movable_entry cooks bound

theorem reads_withEntries (ready : R.Ready) (cooks : R.Cooks w primes) (width : w ≤ 64)
    (prime : ∀ P ∈ primes, P.1.Prime) (fits : ∀ x ∈ cookedIdeals R.nbPolys primes, R.code x < 2 ^ w)
    (separate : R.aboveAdd = 0 ∨ R.badIdeals = []) :
    Reads w (R.withEntries (R.entriesOf w primes) cache) (idealAt (R.withEntries (R.entriesOf w primes) cache)) := by
  have all : (R.withEntries (R.entriesOf w primes) cache).aboveAll = R.aboveBad + (cookedIdeals R.nbPolys primes).length :=
    aboveAll_withEntries cooks
  have movableIff {i : ℕ} (inside : i < (R.withEntries (R.entriesOf w primes) cache).aboveAll) :=
    movable_idealAt ready cooks fits separate inside
  have both (i : ℕ) (inside : i < (R.withEntries (R.entriesOf w primes) cache).aboveAll) : ∃ x,
      (R.withEntries (R.entriesOf w primes) cache).deref w i = .ok x ∧
        (R.withEntries (R.entriesOf w primes) cache).pRFromIndex i = .ok x := by
    by_cases early : i < R.aboveBad
    · obtain ⟨x, read, index, -⟩ := read_early (w := w) ready separate early
      exact ⟨x, read, index⟩
    · obtain ⟨k, rfl⟩ := Nat.exists_eq_add_of_le (not_lt.mp early)
      exact ⟨_, read_entry cooks ready fits (by omega)⟩
  have later {i j : ℕ} (le : i ≤ j) (inside : j < (R.withEntries (R.entriesOf w primes) cache).aboveAll)
      (movable : Movable (R.withEntries (R.entriesOf w primes) cache)
        (idealAt (R.withEntries (R.entriesOf w primes) cache) i)) : ∃ k k',
      ∃ bound : k < (cookedIdeals R.nbPolys primes).length, ∃ bound' : k' < (cookedIdeals R.nbPolys primes).length,
        i = R.aboveBad + k ∧ j = R.aboveBad + k' ∧
        idealAt (R.withEntries (R.entriesOf w primes) cache) i = R.canonical (cookedIdeals R.nbPolys primes)[k] ∧
        idealAt (R.withEntries (R.entriesOf w primes) cache) j = R.canonical (cookedIdeals R.nbPolys primes)[k'] := by
    obtain ⟨k, bound, rfl, value⟩ := (movableIff (le.trans_lt inside)).mp movable
    obtain ⟨k', rfl⟩ := Nat.exists_eq_add_of_le ((Nat.le_add_right _ _).trans le)
    have bound' : k' < (cookedIdeals R.nbPolys primes).length := by omega
    exact ⟨k, k', bound, bound', rfl, rfl, value, idealAt_eq (read_entry cooks ready fits bound').2⟩
  refine ⟨rfl, fun i inside => ?_, fun i inside => ?_, fun i x index => ?_, fun i j le inside movable => ?_,
    fun i j less inside movable => ?_, fun i j less inside movable => ?_, fun i inside movable => ?_,
    fun i inside movable => ?_, fun i before movable => ?_⟩
  · obtain ⟨x, read, index⟩ := both i inside
    rw [idealAt_eq index, read]
  · obtain ⟨x, -, index⟩ := both i inside
    rw [idealAt_eq index, index]
  · refine pRFromIndex_lt _ ?_ rfl index
    change R.aboveAdd ≤ R.aboveBad
    rw [ready.bad]
    exact Nat.le_add_right _ _
  · obtain ⟨-, k', -, bound', -, rfl, -, value⟩ := later le inside movable
    exact (movableIff inside).mpr ⟨k', bound', rfl, value⟩
  · obtain ⟨k, k', bound, bound', rfl, rfl, value, value'⟩ := later less.le inside movable
    rw [value, value', canonical_p, canonical_p, canonical_side, canonical_side]
    exact List.pairwise_iff_getElem.mp (cookedIdeals_sorted cooks.increasing _) k k' bound bound' (by omega)
  · obtain ⟨k, k', bound, bound', rfl, rfl, value, value'⟩ := later less.le inside movable
    rw [value, value']
    exact List.pairwise_iff_getElem.mp (canonical_pairwise cooks) k k' bound bound' (by omega)
  · obtain ⟨k, bound, rfl, value⟩ := (movableIff inside).mp movable
    rw [value, canonical_p]
    exact (canonical_root _).trans (cooks.root _ (List.getElem_mem bound)).1
  · obtain ⟨k, bound, rfl, value⟩ := (movableIff inside).mp movable
    rw [value, canonical_p]
    obtain ⟨P, among, eq, -⟩ := mem_cookedIdeals.mp (List.getElem_mem bound)
    rw [eq]
    exact ⟨prime P among, (cooks.prime P among).2.trans_le (Nat.pow_le_pow_right two_pos width)⟩
  · obtain ⟨k, -, rfl, -⟩ := (movableIff (before.trans_le (Nat.le_add_right _ _))).mp movable
    change R.aboveBad + k < R.aboveBad at before
    omega

end

/-- `compute_action_on_index` merges the orbits of an action, except those of `autom6.1` modulo 2, in any order of the
hash map. -/
theorem computeActionOnIndex_merges (g : GaloisAction) (w : ℕ) (width : w ≤ 64) (poly : List SidePoly) (lpb : List ℕ)
    (forDl : Bool) {badIdeals : List (PRSide × ℕ)} (bad : ∀ b ∈ badIdeals, b.1.p ≠ 0 ∧ 0 < b.2)
    {primes : List (ℕ × List (List ℕ))} (cooks : (start poly lpb forDl badIdeals).Cooks w primes)
    (prime : ∀ P ∈ primes, P.1.Prime)
    (fits : ∀ x ∈ cookedIdeals (start poly lpb forDl badIdeals).nbPolys primes,
      (start poly lpb forDl badIdeals).code x < 2 ^ w)
    (separate : (start poly lpb forDl badIdeals).aboveAdd = 0 ∨ (start poly lpb forDl badIdeals).badIdeals = [])
    (acts : ActsOn g ((start poly lpb forDl badIdeals).cookedTable w primes))
    (noShort : NoShortOrbit g ((start poly lpb forDl badIdeals).cookedTable w primes))
    {order : ℕ → List (ℕ × ℕ) → List (ℕ × ℕ)} (permutes : ∀ i l, (order i l).Perm l) (sigma : List ℕ) :
    ∃ sigma' norbits,
      computeActionOnIndex g w ((start poly lpb forDl badIdeals).cookedTable w primes) order sigma =
        .ok (sigma', norbits) ∧
      Merges g ((start poly lpb forDl badIdeals).cookedTable w primes) sigma' norbits := by
  have ready := start_ready poly lpb forDl bad
  obtain ⟨cache, -, table⟩ := cookedTable_eq ready.fresh (fun P among => (cooks.prime P among).2) cooks.increasing
  rw [table] at acts noShort ⊢
  exact computeActionOnIndex_ok (reads_withEntries ready cooks width prime fits separate) acts noShort permutes sigma

def gaussTable : Renumber := (start [⟨2, true⟩] [4] false []).cookedTable 32 [(5, [[2, 3]]), (13, [[5, 8]])]

theorem actsOn_gaussTable : ActsOn (some .neg) gaussTable := by
  refine ⟨fun i x index _ => ?_, fun i x index _ => ?_⟩
  · have inside : i < 4 := pRFromIndex_lt gaussTable (by decide) (by decide) index
    interval_cases i <;> cases index
    · exact ⟨1, rfl, by decide⟩
    · exact ⟨0, rfl, by decide⟩
    · exact ⟨3, rfl, by decide⟩
    · exact ⟨2, rfl, by decide⟩
  · have inside : i < 4 := pRFromIndex_lt gaussTable (by decide) (by decide) index
    interval_cases i <;> cases index <;> decide

theorem computeActionOnIndex_merges_gauss : ∃ sigma' norbits,
    computeActionOnIndex (some .neg) 32 gaussTable (fun _ l => l.reverse) [] = .ok (sigma', norbits) ∧
      Merges (some .neg) gaussTable sigma' norbits :=
  computeActionOnIndex_merges (some .neg) 32 (by decide) [⟨2, true⟩] [4] false (by decide)
    ⟨by decide, by decide, by decide, by decide, by decide, by decide⟩ (by decide) (by decide) (.inr rfl)
    actsOn_gaussTable (fun _ _ _ _ => nofun) (fun _ l => l.reverse_perm) []

def sexticTable : Renumber := (start [⟨6, false⟩] [4] false []).cookedTable 32 [(2, [[0, 1, 2]])]

theorem actsOn_sexticTable : ActsOn (some .autom6_1) sexticTable := by
  refine ⟨fun i x index _ => ?_, fun i x index _ => ?_⟩
  · have inside : i < 3 := pRFromIndex_lt sexticTable (by decide) (by decide) index
    interval_cases i <;> cases index
    · exact ⟨2, rfl, by decide⟩
    · exact ⟨0, rfl, by decide⟩
    · exact ⟨1, rfl, by decide⟩
  · have inside : i < 3 := pRFromIndex_lt sexticTable (by decide) (by decide) index
    interval_cases i <;> cases index <;> decide

theorem computeActionOnIndex_sextic :
    ¬∀ (g : GaloisAction) (w : ℕ) (poly : List SidePoly) (lpb : List ℕ) (forDl : Bool) (badIdeals : List (PRSide × ℕ))
      (primes : List (ℕ × List (List ℕ))), w ≤ 64 → (∀ b ∈ badIdeals, b.1.p ≠ 0 ∧ 0 < b.2) →
      (start poly lpb forDl badIdeals).Cooks w primes → (∀ P ∈ primes, P.1.Prime) →
      ActsOn g ((start poly lpb forDl badIdeals).cookedTable w primes) →
      ∀ order : ℕ → List (ℕ × ℕ) → List (ℕ × ℕ), (∀ i l, (order i l).Perm l) → ∀ sigma, ∃ sigma' norbits,
        computeActionOnIndex g w ((start poly lpb forDl badIdeals).cookedTable w primes) order sigma =
          .ok (sigma', norbits) ∧
        Merges g ((start poly lpb forDl badIdeals).cookedTable w primes) sigma' norbits := by
  intro all
  obtain ⟨sigma', norbits, run, -⟩ := all (some .autom6_1) 32 [⟨6, false⟩] [4] false [] [(2, [[0, 1, 2]])] (by decide)
    (by decide) ⟨by decide, by decide, by decide, by decide, by decide, by decide⟩ (by decide) actsOn_sexticTable
    (fun _ l => l) (fun _ l => List.Perm.refl l) []
  have refused : computeActionOnIndex (some .autom6_1) 32 sexticTable (fun _ l => l) [] =
      .error (.wrongOrbitSize 2 2 0 3) := by decide
  cases refused.symm.trans run

end CadoNfs.Utils.Galois
