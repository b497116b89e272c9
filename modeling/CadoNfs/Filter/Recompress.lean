import CadoNfs.Lib.Compaction
import CadoNfs.Filter.Weights

/-!
# Renumbering the nonempty columns

`recompress` of `filter/merge.cpp`. The columns are cut into one chunk for each thread; an array
that the code only allocates is zero where nothing is written.
-/

namespace CadoNfs.Filter
open Lib Typerow

structure FilterMatrix (α : Type) where
  nrows : Nat
  ncols : Nat
  remNcols : Nat
  rows : Rows α
  wt : Nat → Nat
  -- the original ideal of each column, once `recompress` has run (kept in a discrete logarithm
  -- build only)
  p : Option (Nat → Nat)

variable {α : Type}

def nonempty (wt : Nat → Nat) (j : Nat) : Bool := 0 < wt j

namespace FilterMatrix

def nonemptyColumns (mat : FilterMatrix α) : List Nat :=
  (List.range mat.ncols).filter (nonempty mat.wt)

def newIndex (mat : FilterMatrix α) (chunks : List (List Nat)) (j : Nat) : Nat :=
  (scanChunks (nonempty mat.wt) 0 chunks).getD j 0

def newNcols (mat : FilterMatrix α) (chunks : List (List Nat)) : Nat :=
  (chunks.map fun chunk => chunk.countP (nonempty mat.wt)).sum

end FilterMatrix

def firstIdeals (ncols remNcols : Nat) (p : Nat → Nat) : List Nat → Nat → (Nat → Nat) → Nat → Nat
  | [], _, ideals => ideals
  | j :: js, i, ideals =>
      if i < remNcols then
        if p j = i ∧ (j + 1 = ncols ∨ p j < p (j + 1)) then
          firstIdeals ncols remNcols p js (i + 1) (Function.update ideals i j)
        else firstIdeals ncols remNcols p js i ideals
      else ideals

def newIdeals (mat : FilterMatrix α) (p : Nat → Nat) (s : Nat) : Nat → Nat :=
  match mat.p with
  | none => firstIdeals mat.ncols s p (List.range mat.ncols) 0 fun _ => 0
  | some ideals => scatter p ideals mat.nonemptyColumns fun _ => 0

def newJmin (ncols s : Nat) (p : Nat → Nat) (jmin : Nat → Nat) (w : Nat) : Nat :=
  if 1 ≤ w ∧ w ≤ mergeLevelMax then if jmin w < ncols then p (jmin w) else s else jmin w

variable [Typerow α]

def renumberRow (p : Nat → Nat) (row : List α) : List α :=
  row.map fun x => setRowCell x (p (rowCell x))

def FilterMatrix.recompress (mat : FilterMatrix α) (chunks : List (List Nat)) : FilterMatrix α :=
  let p := mat.newIndex chunks
  let s := mat.newNcols chunks
  { nrows := mat.nrows
    ncols := s
    remNcols := s
    rows := fun i => (mat.rows i).map (renumberRow p)
    wt := scatter p mat.wt mat.nonemptyColumns fun _ => 0
    p := some (newIdeals mat p s) }

structure Renumbered (p : Nat → Nat) (mat mat' : FilterMatrix α) (jmin jmin' : Nat → Nat) : Prop where
  strictMono : ∀ j < mat.ncols, ∀ k < mat.ncols, nonempty mat.wt j → nonempty mat.wt k →
    j < k → p j < p k
  range : ∀ j < mat.ncols, nonempty mat.wt j → p j < mat'.ncols
  ncols : mat'.ncols = mat.nonemptyColumns.length ∧ mat'.remNcols = mat'.ncols
  covered : ∀ i j, Contains mat.rows i j → j < mat.ncols ∧ nonempty mat.wt j
  rows : ∀ i, mat'.rows i = (mat.rows i).map (renumberRow p)
  contains : ∀ i, ∀ j < mat.ncols, nonempty mat.wt j →
    (Contains mat'.rows i (p j) ↔ Contains mat.rows i j)
  wt : ∀ j < mat.ncols, nonempty mat.wt j → mat'.wt (p j) = mat.wt j
  jmin : ∀ w, 1 ≤ w → w ≤ mergeLevelMax → ∀ j < mat.ncols, nonempty mat.wt j →
    (jmin' w ≤ p j ↔ jmin w ≤ j)
  ideals : ∃ ideals, mat'.p = some ideals ∧
    ∀ j < mat.ncols, nonempty mat.wt j → ideals (p j) = mat.p.getD id j

section
variable {mat : FilterMatrix α} {chunks : List (List Nat)}

omit [Typerow α] in
theorem newIndex_eq (schedule : chunks.flatten = List.range mat.ncols) {j : Nat}
    (inside : j < mat.ncols) : mat.newIndex chunks j = rank (nonempty mat.wt) j := by
  simp [FilterMatrix.newIndex, scanChunks_eq _ schedule, inside]

omit [Typerow α] in
theorem newNcols_eq (schedule : chunks.flatten = List.range mat.ncols) :
    mat.newNcols chunks = rank (nonempty mat.wt) mat.ncols := by
  have total : mat.newNcols chunks = chunks.flatten.countP (nonempty mat.wt) := by
    unfold FilterMatrix.newNcols
    rw [List.countP_flatten]
  rw [total, schedule, countP_range]

omit [Typerow α] in
theorem nonemptyColumns_length : mat.nonemptyColumns.length = rank (nonempty mat.wt) mat.ncols := by
  rw [FilterMatrix.nonemptyColumns, ← List.countP_eq_length_filter, countP_range]

omit [Typerow α] in
theorem mem_nonemptyColumns {j : Nat} :
    j ∈ mat.nonemptyColumns ↔ j < mat.ncols ∧ nonempty mat.wt j := by
  simp [FilterMatrix.nonemptyColumns]

omit [Typerow α] in
theorem newIndex_injective (schedule : chunks.flatten = List.range mat.ncols) :
    ∀ j ∈ mat.nonemptyColumns, ∀ k ∈ mat.nonemptyColumns,
      mat.newIndex chunks j = mat.newIndex chunks k → j = k := by
  intro j hj k hk eq
  obtain ⟨ltj, keptj⟩ := mem_nonemptyColumns.mp hj
  obtain ⟨ltk, keptk⟩ := mem_nonemptyColumns.mp hk
  rw [newIndex_eq schedule ltj, newIndex_eq schedule ltk] at eq
  exact rank_injective keptj keptk eq

theorem firstIdeals_apply {ncols s : Nat} {keep : Nat → Bool} {p : Nat → Nat}
    (index : ∀ j < ncols, p j = rank keep j) (total : s = rank keep ncols) (j k : Nat)
    (stop : j + k = ncols) (ideals : Nat → Nat)
    (before : ∀ l < j, keep l → ideals (p l) = l) :
    ∀ l < ncols, keep l →
      firstIdeals ncols s p (List.range' j k) (rank keep j) ideals (p l) = l := by
  induction k generalizing j ideals with
  | zero =>
    obtain rfl : j = ncols := by omega
    exact before
  | succ k ih =>
    have inside : j < ncols := by omega
    rw [List.range'_succ, firstIdeals]
    by_cases more : rank keep j < s
    · rw [if_pos more]
      have next : (p j = rank keep j ∧ (j + 1 = ncols ∨ p j < p (j + 1))) ↔ keep j := by
        rw [index j inside]
        by_cases last : j + 1 = ncols
        · have step := rank_succ keep j
          rw [last, ← total] at step
          split_ifs at step with kept <;> simp [last, kept]
          omega
        · rw [index (j + 1) (by omega), rank_succ]
          split_ifs with kept <;> simp [last, kept]
      have advance := rank_succ keep j
      by_cases kept : keep j
      · rw [if_pos (next.mpr kept)]
        rw [if_pos kept] at advance
        rw [← advance]
        refine ih (j + 1) (by omega) _ fun l lt keptl => ?_
        rcases Nat.lt_succ_iff_lt_or_eq.mp lt with old | rfl
        · have ne : p l ≠ rank keep j := by
            rw [index l (by omega)]
            exact (rank_lt keptl old).ne
          rw [Function.update_of_ne ne]
          exact before l old keptl
        · rw [index l inside, Function.update_self]
      · rw [if_neg (next.not.mpr kept)]
        rw [if_neg kept] at advance
        rw [← advance]
        refine ih (j + 1) (by omega) _ fun l lt keptl => ?_
        rcases Nat.lt_succ_iff_lt_or_eq.mp lt with old | rfl
        · exact before l old keptl
        · exact absurd keptl kept
    · rw [if_neg more]
      intro l lt keptl
      apply before l _ keptl
      by_contra late
      have := rank_lt keptl (show l < ncols from lt)
      have := @rank_le keep _ _ (not_lt.mp late)
      omega

theorem columns_renumberRow (p : Nat → Nat) (row : List α) :
    columns (renumberRow p row) = (columns row).map p := by
  simp [columns, renumberRow, rowCell_setRowCell, Function.comp_def]

theorem contains_renumberRow {p : Nat → Nat} {rows : Rows α} {i k : Nat} :
    Contains (fun i => (rows i).map (renumberRow p)) i k ↔ ∃ j, Contains rows i j ∧ p j = k := by
  constructor
  · rintro ⟨row', value, member⟩
    obtain ⟨row, live, rfl⟩ := Option.map_eq_some_iff.mp value
    rw [columns_renumberRow] at member
    obtain ⟨j, inside, eq⟩ := List.mem_map.mp member
    exact ⟨j, ⟨row, live, inside⟩, eq⟩
  · rintro ⟨j, ⟨row, live, inside⟩, eq⟩
    refine ⟨renumberRow p row, by simp [live], ?_⟩
    rw [columns_renumberRow]
    exact List.mem_map.mpr ⟨j, inside, eq⟩

theorem recompress_renumbered (schedule : chunks.flatten = List.range mat.ncols)
    (covered : ∀ i j, Contains mat.rows i j → j < mat.ncols ∧ nonempty mat.wt j) (jmin : Nat → Nat) :
    Renumbered (mat.newIndex chunks) mat (mat.recompress chunks) jmin
      (newJmin mat.ncols (mat.newNcols chunks) (mat.newIndex chunks) jmin) := by
  have index {j : Nat} (inside : j < mat.ncols) := newIndex_eq schedule inside
  have total := newNcols_eq schedule
  have apart := newIndex_injective schedule
  have below {j : Nat} (inside : j < mat.ncols) (kept : nonempty mat.wt j) :
      mat.newIndex chunks j < mat.newNcols chunks := by
    rw [index inside, total]
    exact rank_lt kept inside
  constructor
  · intro j hj k hk keptj keptk lt
    rw [index hj, index hk]
    exact rank_lt keptj lt
  · intro j inside kept
    exact below inside kept
  · exact ⟨total.trans nonemptyColumns_length.symm, rfl⟩
  · exact covered
  · intro i
    rfl
  · intro i j inside kept
    refine contains_renumberRow.trans ⟨?_, fun old => ⟨j, old, rfl⟩⟩
    rintro ⟨k, old, eq⟩
    exact apart k (mem_nonemptyColumns.mpr (covered i k old)) j
      (mem_nonemptyColumns.mpr ⟨inside, kept⟩) eq ▸ old
  · intro j inside kept
    exact scatter_apply apart _ (mem_nonemptyColumns.mpr ⟨inside, kept⟩)
  · intro w low high j inside kept
    unfold newJmin
    rw [if_pos ⟨low, high⟩]
    split_ifs with known
    · rw [index known, index inside]
      exact rank_le_iff kept
    · have := below inside kept
      constructor <;> intro le <;> omega
  · refine ⟨_, rfl, fun j inside kept => ?_⟩
    unfold newIdeals
    cases mat.p with
    | none =>
      have zero : rank (nonempty mat.wt) 0 = 0 := Nat.count_zero _
      have first := firstIdeals_apply (fun j lt => index lt) total 0 mat.ncols (by simp)
        (fun _ => 0) (by simp) j inside kept
      rwa [zero, ← List.range_eq_range'] at first
    | some ideals => exact scatter_apply apart _ (mem_nonemptyColumns.mpr ⟨inside, kept⟩)

end

end CadoNfs.Filter
