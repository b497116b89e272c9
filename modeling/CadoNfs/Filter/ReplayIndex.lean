import CadoNfs.Filter.Replay
import CadoNfs.Lib.Compaction
import CadoNfs.Lib.Parity

/-!
# The replayed matrix and its index

`build_newrows_from_file` and `fasterVersion` of `filter/replay.cpp` in a factorization build: the
history is read with `fgets`, each line updates the rows and their relation-sets, and both arrays are
then compacted.
-/

namespace CadoNfs.Filter
open Lib
open scoped symmDiff

def strlenmax : Nat := 2048

def fgetsAll (size : Nat) (str : List Char) : List Char → List (List Char)
  | [] => if str = [] then [] else [str]
  | c :: file =>
      if c = '\n' ∨ str.length + 2 = size then (str ++ [c]) :: fgetsAll size [] file
      else fgetsAll size (str ++ [c]) file

def readAdditions (nmax : Index) : List (List Char) → Index → ReplayState Nat Nat →
    Option (ReplayState Nat Nat)
  | [], _, s => some s
  | str :: rest, nrows, s =>
      if nmax ≤ nrows then
        if str.head? = some '#' then readAdditions nmax rest nrows s
        else if str.getLast? ≠ some '\n' then some s
        else (doAllAdds addRowsUpdateIndex s str).bind fun s' =>
          readAdditions nmax rest (if str.head? = some '-' then nrows else nrows - 1) s'
      else some s

def buildNewrowsFromFile (s : ReplayState Nat Nat) (file : List Char) (nrows nmax : Index) :
    Option (ReplayState Nat Nat) :=
  readAdditions nmax (fgetsAll strlenmax [] file) nrows s

def initialState (nrows : Nat) (original : Nat → List Nat) : ReplayState Nat Nat where
  rows i := if i < nrows then some (original i) else none
  indexData := some fun i => if i < nrows then [i] else []

structure SmallMatrix where
  smallNrows : Nat
  newrows : Nat → Option (List Nat)
  indexData : Nat → List Nat

def fasterVersion (original : Nat → List Nat) (file : List Char) (nrows nmax : Index) :
    Option SmallMatrix :=
  (buildNewrowsFromFile (initialState nrows.toNat original) file nrows nmax).bind fun s =>
    s.indexData.bind fun indexData =>
      let rows := crunch Option.isSome nrows.toNat s.rows
      let index := crunch (fun rels => decide (0 < rels.length)) nrows.toNat indexData
      if index.1 = rows.1 then some ⟨rows.1, rows.2, index.2⟩ else none

/-! ## Well-formed histories -/

structure WellFormed (str : List Char) (line : Addition) : Prop where
  complete : str.getLast? = some '\n'
  fits : str.count ' ' < mergeLevelMax
  decoded : decodeLine str = some line

/-- Each line adds a live row to other live rows. -/
def ActsOnLive : List (List Char) → Finset Nat → Prop
  | [], _ => True
  | str :: rest, live =>
      if str.head? = some '#' then ActsOnLive rest live
      else ∃ line, WellFormed str line ∧ line.i0.toNat ∈ live ∧
        (∀ t ∈ line.targets, t.toNat ∈ live ∧ t ≠ line.i0) ∧
        ActsOnLive rest (if line.destroy then live.erase line.i0.toNat else live)

structure Indexed (original : Nat → List Nat) (live : Finset Nat) (rows : Rows Nat)
    (index : Nat → List Nat) : Prop where
  alive : ∀ i, i ∈ live ↔ rows i ≠ none
  row : ∀ i row, rows i = some row →
    parity row = ((index i).map fun k => parity (original k)).sum ∧
      ((∀ k, (original k).Pairwise (· < ·)) → row.Pairwise (· < ·))
  sorted : ∀ i, (index i).Pairwise (· < ·)
  dead : ∀ i, rows i = none → index i = []
  independent : Independent live fun i => parity (index i)

-- The columns common to both lists are counted twice.
theorem sum_addCells {G : Type*} [AddCommGroup G] (double : ∀ x : G, x + x = 0) (v : Nat → G)
    (r1 r2 : List Nat) :
    ((addCells r1 r2).map v).sum = (r1.map v).sum + (r2.map v).sum := by
  unfold addCells
  induction r1, r2 using align_induction (id : Nat → Nat) (id : Nat → Nat) with
  | nilLeft bs => simp [List.filterMap_map]
  | nilRight as => simp [List.filterMap_map]
  | lt a as b bs h ih =>
    rw [align_of_lt h, List.filterMap_cons, List.map_cons, List.sum_cons, ih]
    simp only [List.map_cons, List.sum_cons, add_assoc]
  | gt a as b bs h ih =>
    rw [align_of_gt h, List.filterMap_cons, List.map_cons, List.sum_cons, ih]
    simp only [List.map_cons, List.sum_cons]
    exact add_left_comm _ _ _
  | eq a as b bs h ih =>
    obtain rfl : a = b := h
    rw [align_of_eq rfl, List.filterMap_cons, ih, List.map_cons, List.map_cons, List.sum_cons,
      List.sum_cons, add_add_add_comm, double, zero_add]

theorem parity_addCells (r1 r2 : List Nat) : parity (addCells r1 r2) = parity r1 + parity r2 := by
  rw [parity_eq_sum, parity_eq_sum, parity_eq_sum, sum_addCells double_eq_zero]

section
variable {original : Nat → List Nat} {live : Finset Nat} {rows : Rows Nat} {index : Nat → List Nat}

theorem Indexed.initial (n : Nat) (original : Nat → List Nat) :
    Indexed original (Finset.range n) (fun i => if i < n then some (original i) else none)
      fun i => if i < n then [i] else [] where
  alive i := by simp
  row i row stored := by
    split_ifs at stored with below
    cases stored
    simpa [below] using fun sorted => sorted i
  sorted i := by
    split_ifs
    · exact List.pairwise_singleton _ _
    · exact List.Pairwise.nil
  dead i absent := by
    split_ifs at absent with below
    rw [if_neg below]
  independent := by
    refine (independent_single (Finset.range n)).mono (Finset.Subset.refl _) fun i member => ?_
    rw [if_pos (Finset.mem_range.mp member)]

theorem Indexed.add (indexed : Indexed original live rows index) {s t : Nat} {r1 r2 : List Nat}
    (target : rows t = some r1) (source : rows s = some r2) (distinct : t ≠ s) :
    Indexed original live (Function.update rows t (some (addCells r1 r2)))
      (Function.update index t (addCells (index t) (index s))) where
  alive i := by
    by_cases here : i = t
    · subst here
      simp [indexed.alive, target]
    · rw [Function.update_of_ne here, indexed.alive]
  row i row stored := by
    by_cases here : i = t
    · subst here
      rw [Function.update_self] at stored ⊢
      cases stored
      obtain ⟨sum1, sorted1⟩ := indexed.row i r1 target
      obtain ⟨sum2, sorted2⟩ := indexed.row s r2 source
      refine ⟨?_, fun sorted => addCells_sorted (sorted1 sorted) (sorted2 sorted)⟩
      rw [parity_addCells, sum1, sum2, sum_addCells double_eq_zero]
    · rw [Function.update_of_ne here] at stored ⊢
      exact indexed.row i row stored
  sorted i := by
    by_cases here : i = t
    · subst here
      rw [Function.update_self]
      exact addCells_sorted (indexed.sorted i) (indexed.sorted s)
    · rw [Function.update_of_ne here]
      exact indexed.sorted i
  dead i absent := by
    have other : i ≠ t := by
      rintro rfl
      simp at absent
    rw [Function.update_of_ne other] at absent ⊢
    exact indexed.dead i absent
  independent := by
    have member : s ∈ live := (indexed.alive s).mpr (by simp [source])
    have vectors : (fun i => parity (Function.update index t (addCells (index t) (index s)) i)) =
        Function.update (fun i => parity (index i)) t (parity (index t) + parity (index s)) := by
      funext i
      by_cases here : i = t
      · subst here
        rw [Function.update_self, Function.update_self, parity_addCells]
      · rw [Function.update_of_ne here, Function.update_of_ne here]
    rw [vectors]
    exact indexed.independent.add double_eq_zero member distinct

theorem Indexed.destroy (indexed : Indexed original live rows index) (s : Nat) :
    Indexed original (live.erase s) (Function.update rows s none) (Function.update index s []) where
  alive i := by
    by_cases here : i = s
    · subst here
      simp
    · simp [here, indexed.alive]
  row i row stored := by
    have other : i ≠ s := by
      rintro rfl
      simp at stored
    rw [Function.update_of_ne other] at stored ⊢
    exact indexed.row i row stored
  sorted i := by
    by_cases here : i = s
    · subst here
      rw [Function.update_self]
      exact List.Pairwise.nil
    · rw [Function.update_of_ne here]
      exact indexed.sorted i
  dead i absent := by
    by_cases here : i = s
    · subst here
      exact Function.update_self ..
    · rw [Function.update_of_ne here] at absent ⊢
      exact indexed.dead i absent
  independent := by
    refine indexed.independent.mono (Finset.erase_subset _ _) fun i member => ?_
    rw [Function.update_of_ne (Finset.ne_of_mem_erase member)]

theorem Indexed.dead_iff (indexed : Indexed original live rows index) (i : Nat) :
    rows i = none ↔ index i = [] := by
  refine ⟨indexed.dead i, fun empty => ?_⟩
  by_contra stored
  have nonzero := indexed.independent.ne_zero ((indexed.alive i).mpr stored)
  rw [empty] at nonzero
  exact nonzero parity_nil

theorem Indexed.runTargets (indexed : Indexed original live rows index) {s : Nat} (j : Index)
    (source : s ∈ live) {targets : List Index} (others : ∀ t ∈ targets, t.toNat ∈ live ∧ t.toNat ≠ s) :
    ∃ rows' index', targets.foldlM (fun state i => addRowsUpdateIndex state i.toNat s j)
        ⟨rows, some index⟩ = some ⟨rows', some index'⟩ ∧ Indexed original live rows' index' := by
  induction targets generalizing rows index with
  | nil => exact ⟨rows, index, rfl, indexed⟩
  | cons t targets ih =>
    obtain ⟨member, distinct⟩ := others t (by simp)
    obtain ⟨r1, target⟩ := Option.ne_none_iff_exists'.mp ((indexed.alive _).mp member)
    obtain ⟨r2, added⟩ := Option.ne_none_iff_exists'.mp ((indexed.alive _).mp source)
    have step : addRowsUpdateIndex ⟨rows, some index⟩ t.toNat s j =
        some ⟨Function.update rows t.toNat (some (addCells r1 r2)),
          some (Function.update index t.toNat (addCells (index t.toNat) (index s)))⟩ := by
      simp [addRowsUpdateIndex, target, added]
    rw [List.foldlM_cons, step]
    exact ih (indexed.add target added distinct) fun t' later => others t' (.tail _ later)

theorem Indexed.runLine (indexed : Indexed original live rows index) {str : List Char}
    {line : Addition} (decoded : decodeLine str = some line) (source : line.i0.toNat ∈ live)
    (others : ∀ t ∈ line.targets, t.toNat ∈ live ∧ t ≠ line.i0) :
    ∃ rows' index', doAllAdds addRowsUpdateIndex ⟨rows, some index⟩ str = some ⟨rows', some index'⟩ ∧
      Indexed original (if line.destroy then live.erase line.i0.toNat else live) rows' index' := by
  obtain ⟨rows', index', run, after⟩ := indexed.runTargets line.j source fun t member =>
    ⟨(others t member).1, fun same => (others t member).2 (BitVec.eq_of_toNat_eq same)⟩
  simp only [doAllAdds, decoded, Option.bind_some, runAddition, run, Option.map_some]
  split_ifs
  · exact ⟨_, _, rfl, after.destroy _⟩
  · exact ⟨_, _, rfl, after⟩

theorem Indexed.run (indexed : Indexed original live rows index) (nmax nrows : Index)
    {lines : List (List Char)} (history : ActsOnLive lines live) :
    ∃ rows' index' live', readAdditions nmax lines nrows ⟨rows, some index⟩ =
        some ⟨rows', some index'⟩ ∧ live' ⊆ live ∧ Indexed original live' rows' index' := by
  induction lines generalizing live rows index nrows with
  | nil => exact ⟨rows, index, live, rfl, Finset.Subset.refl _, indexed⟩
  | cons str rest ih =>
    have unchanged : ∃ rows' index' live', some (⟨rows, some index⟩ : ReplayState Nat Nat) =
        some ⟨rows', some index'⟩ ∧ live' ⊆ live ∧ Indexed original live' rows' index' :=
      ⟨rows, index, live, rfl, Finset.Subset.refl _, indexed⟩
    unfold readAdditions
    unfold ActsOnLive at history
    by_cases more : nmax ≤ nrows
    · rw [if_pos more]
      by_cases comment : str.head? = some '#'
      · rw [if_pos comment] at history ⊢
        exact ih indexed _ history
      · rw [if_neg comment] at history ⊢
        obtain ⟨line, wellFormed, source, others, later⟩ := history
        obtain ⟨rows', index', run, after⟩ := indexed.runLine wellFormed.decoded source others
        rw [if_neg (not_not.mpr wellFormed.complete), run]
        obtain ⟨rows'', index'', live'', finished, fewer, final⟩ := ih after _ later
        refine ⟨rows'', index'', live'', finished, fewer.trans ?_, final⟩
        split_ifs
        · exact Finset.erase_subset _ _
        · exact Finset.Subset.refl _
    · rw [if_neg more]
      exact unchanged

end

/-- The live rows of the final matrix are the symmetric differences of the original rows that their
relation-sets list, and line `k` of the index belongs to row `k` of the small matrix. -/
theorem fasterVersion_correct {original : Nat → List Nat} {file : List Char} {nrows nmax : Index}
    (history : ActsOnLive (fgetsAll strlenmax [] file) (Finset.range nrows.toNat)) :
    ∃ rows index small,
      buildNewrowsFromFile (initialState nrows.toNat original) file nrows nmax =
        some ⟨rows, some index⟩ ∧
      (∀ i row, rows i = some row →
        oddEntries row = symmetricDifference ((index i).map fun k => oddEntries (original k)) ∧
        ((∀ k, (original k).Pairwise (· < ·)) → row.Pairwise (· < ·) ∧
          row.toFinset = symmetricDifference ((index i).map fun k => (original k).toFinset))) ∧
      (∀ i, (index i).Pairwise (· < ·)) ∧
      (∀ i, rows i = none ↔ index i = []) ∧
      fasterVersion original file nrows nmax = some small ∧
      ∀ k < small.smallNrows, ∃ i < nrows.toNat, rows i ≠ none ∧
        rank (fun i => (rows i).isSome) i = k ∧
        small.newrows k = rows i ∧ small.indexData k = index i := by
  obtain ⟨rows, index, live, run, -, indexed⟩ :=
    (Indexed.initial nrows.toNat original).run nmax nrows history
  have same (i : Nat) (_ : i < nrows.toNat) :
      (rows i).isSome = decide (0 < (index i).length) := by
    rw [Bool.eq_iff_iff, decide_eq_true_iff, List.length_pos_iff, Option.isSome_iff_ne_none]
    exact (indexed.dead_iff i).not
  obtain ⟨sizes, correspond⟩ := crunch_together Option.isSome
    (fun rels : List Nat => decide (0 < rels.length)) rows index same
  let matrix := crunch Option.isSome nrows.toNat rows
  let lines := crunch (fun rels : List Nat => decide (0 < rels.length)) nrows.toNat index
  refine ⟨rows, index, ⟨matrix.1, matrix.2, lines.2⟩, run, fun i row stored => ?_, indexed.sorted,
    indexed.dead_iff, ?_, fun k below => ?_⟩
  · obtain ⟨sum, sorted⟩ := indexed.row i row stored
    have odd : oddEntries row =
        symmetricDifference ((index i).map fun k => oddEntries (original k)) := by
      apply characteristic_injective
      rw [characteristic_oddEntries, sum, characteristic_sum_oddEntries]
    refine ⟨odd, fun increasing => ⟨sorted increasing, ?_⟩⟩
    have sets (k : Nat) : oddEntries (original k) = (original k).toFinset :=
      oddEntries_eq_toFinset ((increasing k).imp ne_of_lt)
    rw [← oddEntries_eq_toFinset ((sorted increasing).imp ne_of_lt), odd]
    simp only [sets]
  · have replayed : buildNewrowsFromFile (initialState nrows.toNat original) file nrows nmax =
        some ⟨rows, some index⟩ := run
    rw [fasterVersion, replayed, Option.bind_some, Option.bind_some, if_pos sizes]
  · obtain ⟨i, lt, kept, position, row, line⟩ := correspond k below
    exact ⟨i, lt, Option.isSome_iff_ne_none.mp kept, position, row, line⟩

theorem fasterVersion_correct_pair :
    let original : Nat → List Nat := fun i => [[1, 2], [2, 3], [1, 3]].getD i []
    let file := "# history\n0 1\n-2 2\n".toList
    ∃ rows index small,
      buildNewrowsFromFile (initialState 3 original) file 3 0 = some ⟨rows, some index⟩ ∧
      (∀ i row, rows i = some row →
        oddEntries row = symmetricDifference ((index i).map fun k => oddEntries (original k)) ∧
        ((∀ k, (original k).Pairwise (· < ·)) → row.Pairwise (· < ·) ∧
          row.toFinset = symmetricDifference ((index i).map fun k => (original k).toFinset))) ∧
      (∀ i, (index i).Pairwise (· < ·)) ∧
      (∀ i, rows i = none ↔ index i = []) ∧
      fasterVersion original file 3 0 = some small ∧
      ∀ k < small.smallNrows, ∃ i < 3, rows i ≠ none ∧ rank (fun i => (rows i).isSome) i = k ∧
        small.newrows k = rows i ∧ small.indexData k = index i := by
  intro original file
  have lines : fgetsAll strlenmax [] file =
      ["# history\n".toList, "0 1\n".toList, "-2 2\n".toList] := by decide +kernel
  have history : ActsOnLive (fgetsAll strlenmax [] file) (Finset.range 3) := by
    rw [lines]
    exact ⟨⟨0, [1], true, -1⟩, ⟨by decide, by decide, by decide +kernel⟩, by simp, by simp,
      ⟨1, [2], false, -1⟩, ⟨by decide, by decide, by decide +kernel⟩, by simp, by simp, trivial⟩
  exact @fasterVersion_correct original file 3 0 history

end CadoNfs.Filter
