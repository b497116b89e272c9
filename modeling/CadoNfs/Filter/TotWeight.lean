import CadoNfs.Filter.MergeFillIn

/-!
# The total weight of the matrix

`mat->tot_weight` is computed from the rows before the first pass of `merge` and from then on only
moved by what the calls of `merge_do` return.
-/

namespace CadoNfs.Filter
open Lib Typerow CountedCells

variable {α : Type} {n : Nat} [Typerow α]

def fillIn (rows : Rows α) : List Candidate → Option Int
  | [] => some 0
  | c :: merges => (mergeDoValue rows c).bind fun v => (fillIn rows merges).map fun total => v.toInt + total

def RemovesThree (rows : Rows α) (c : Candidate) : Prop :=
  c.ind.length = 1 → rowLength rows (c.ind.getD 0 0) = 3

/-- The states of `main` with the value of `mat->tot_weight`, as long as every merge of a single row removes three
cells. -/
inductive TotWeight [NeZero n] (mat : FilterMatrix α) : Point → MergeState α → Int → Prop
  | start : TotWeight mat .call (.init mat) (totalLength mat.nrows mat.rows)
  | recompress {st : MergeState α} {tot : Int} {chunks : List (List Nat)} :
      TotWeight mat .call st tot → Sound st.mat → chunks.flatten = List.range st.mat.ncols →
      TotWeight mat .head (st.recompress chunks) tot
  | keep {st : MergeState α} {tot : Int} : TotWeight mat .call st tot → st.mat.p ≠ none →
      TotWeight mat .head st tot
  | pass {st : MergeState α} {tot fill : Int} {R L : List Candidate} {s : ApplyState α n} :
      TotWeight mat .head st tot → Pass (fun _ _ => true) st R L s →
      fillIn st.mat.rows (s.started.map Prod.snd) = some fill →
      (∀ i row, s.rows i = some row → row.length + 2 ≤ pageDataSize) →
      (∀ m ∈ s.started, RemovesThree st.mat.rows m.2) →
      TotWeight mat .call (st.afterPass L s) (tot + fill)

theorem ComputeR.lists {mat : FilterMatrix α} {j0 cwmax : Nat} {R : List Candidate}
    (computed : ComputeR mat j0 cwmax R) (bound : cwmax ≤ mergeLevelMax) {c : Candidate} (member : c ∈ R) :
    Lists mat.rows c := by
  obtain ⟨length, perm⟩ := computed.rows c member
  have light : mat.wt c.pivot ≤ cwmax := by
    have inside : c.pivot ∈ R.map Candidate.pivot := List.mem_map_of_mem member
    rw [computed.pivots, List.mem_filter] at inside
    simp only [decide_eq_true_eq] at inside
    exact inside.2.2
  refine ⟨perm.nodup_iff.mpr (List.nodup_range.filter _), fun i hi => ?_, by omega⟩
  have visited := (List.mem_filter.mp (perm.mem_iff.mp hi)).2
  cases live : mat.rows i with
  | none => simp [live] at visited
  | some row =>
    simp only [live, Option.elim_some, visitedCells, decide_eq_true_eq] at visited
    have inside := (List.takeWhile_sublist _).subset (List.mem_of_mem_filter visited)
    exact ⟨row, live, List.mem_reverse.mp inside⟩

section
variable [CountedCells α] {nrows : Nat} {rows final : Rows α} {c : Candidate}
  (stored : Stored nrows rows) (lists : Lists rows c)
include stored lists

theorem mergeDo_stored (run : execRows c.pivot rows (mergeDo rows c) = some final) {i : Nat}
    (inside : i ∈ c.ind) {row : List α} (live : final i = some row) :
    RowSorted row ∧ ∀ x ∈ row, cell x := by
  refine ⟨execRows_sorted stored.sorted run i row live, ?_⟩
  by_cases single : c.ind.length = 1
  · obtain ⟨k, same⟩ := List.length_eq_one_iff.mp single
    obtain rfl : i = k := by simpa [same] using inside
    unfold mergeDo at run
    rw [if_pos single] at run
    simp only [execRows_cons, RowInstr.exec, Option.bind_some, execRows_nil, Option.bind_fun_some] at run
    obtain ⟨removed, _, rfl⟩ := Option.map_eq_some_iff.mp run
    simp [same] at live
  · obtain ⟨k, hk, rfl⟩ := List.getElem_of_mem inside
    rw [← List.getD_eq_getElem _ 0 hk] at live
    obtain ⟨removed, added⟩ := mergeDo_tree lists.apart single run
    by_cases root : k = 0
    · subst root
      rw [removed] at live
      cases live
    have targets := (minimalSpanningTree_spec c.ind.length (fillRowAddMatrix rows c.ind c.pivot)).2
    have isTarget : k ∈ (mergeTree rows c).map Prod.snd :=
      targets.mem_iff.mpr (List.mem_range'_1.mpr (by omega))
    obtain ⟨edge, inTree, rfl⟩ := List.mem_map.mp isTarget
    obtain ⟨r1, r2, sum, ops, live1, live2, result, store⟩ := added edge inTree
    rw [store] at live
    cases live
    exact sum_cell (stored.sorted _ _ live1) (stored.sorted _ _ live2) (lists.pivot_mem hk live1)
      (lists.pivot_mem (mergeTree_bound inTree).1 live2) (stored.cells _ _ live1) (stored.cells _ _ live2)
      result

end

theorem sum_fillIn [CountedCells α] {nrows : Nat} {rows now : Rows α} (stored : Stored nrows rows)
    {merges : List Candidate}
    (effect : ∀ c ∈ merges, Lists rows c ∧ RemovesThree rows c ∧
      ∃ final, execRows c.pivot rows (mergeDo rows c) = some final ∧ AgreeOn c.ind now final)
    {fill : Int} (value : fillIn rows merges = some fill) :
    fill = (merges.map fun c => (c.ind.map (lengthChange rows now)).sum).sum := by
  induction merges generalizing fill with
  | nil =>
    cases value
    rfl
  | cons c merges ih =>
    obtain ⟨v, first, value⟩ := Option.bind_eq_some_iff.mp value
    obtain ⟨rest, later, rfl⟩ := Option.map_eq_some_iff.mp value
    obtain ⟨lists, three, final, run, agree⟩ := effect c (by simp)
    have own := (mergeDoValue_iff stored lists first run).mpr three
    have same : c.ind.map (lengthChange rows final) = c.ind.map (lengthChange rows now) :=
      List.map_congr_left fun i member => by simp only [lengthChange, rowLength, agree i member]
    rw [List.map_cons, List.sum_cons, own, same, ih (fun c hc => effect c (.tail _ hc)) later]

section
variable [NeZero n] [CountedCells α] {st : MergeState α} {R L : List Candidate} {s : ApplyState α n}

omit [CountedCells α] in
theorem Pass.effect {Q : ApplyState α n → Act n → Bool} (pass : Pass Q st R L s)
    (bound : st.cwmax ≤ mergeLevelMax) {m : Fin n × Candidate} (member : m ∈ s.started) :
    Lists st.mat.rows m.2 ∧ ∃ final, execRows m.2.pivot st.mat.rows (mergeDo st.mat.rows m.2) = some final ∧
      AgreeOn m.2.ind s.rows final := by
  have inv := pass.reach.passInv
  refine ⟨pass.computed.lists bound (pass.chosen.subset (inv.fromList.started m member)), ?_⟩
  have effect := inv.outcome.effect m member
  rw [Pc.isIdle_iff.mp (pass.done.2 m.1)] at effect
  cases effect with
  | done other run agree => exact ⟨_, run, agree⟩

theorem Stored.pass {Q : ApplyState α n → Act n → Bool} (stored : Stored st.mat.nrows st.mat.rows)
    (bound : st.cwmax ≤ mergeLevelMax) (pass : Pass Q st R L s)
    (fits : ∀ i row, s.rows i = some row → row.length + 2 ≤ pageDataSize) :
    Stored st.mat.nrows s.rows := by
  have untouched := pass.reach.passInv.outcome.untouched
  have row (i : Nat) (r : List α) (live : s.rows i = some r) :
      (st.mat.rows i).isSome ∧ RowSorted r ∧ ∀ x ∈ r, cell x := by
    by_cases taken : ∃ m ∈ s.started, i ∈ m.2.ind
    · obtain ⟨m, member, inside⟩ := taken
      obtain ⟨lists, final, run, agree⟩ := pass.effect bound member
      obtain ⟨old, live', _⟩ := lists.contain i inside
      exact ⟨by simp [live'], mergeDo_stored stored lists run inside ((agree i inside).symm.trans live)⟩
    · simp only [not_exists, not_and] at taken
      rw [untouched i taken] at live
      exact ⟨by simp [live], stored.sorted i r live, stored.cells i r live⟩
  refine ⟨fun i outside => ?_, fun i r live => (row i r live).2.1, fun i r live => (row i r live).2.2, fits⟩
  cases live : s.rows i with
  | none => rfl
  | some r =>
    have old := (row i r live).1
    rw [stored.bounded i outside] at old
    cases old

theorem Pass.totalLength {Q : ApplyState α n → Act n → Bool} (stored : Stored st.mat.nrows st.mat.rows)
    (bound : st.cwmax ≤ mergeLevelMax) (pass : Pass Q st R L s) {fill : Int}
    (value : fillIn st.mat.rows (s.started.map Prod.snd) = some fill)
    (three : ∀ m ∈ s.started, RemovesThree st.mat.rows m.2) :
    fill = (totalLength st.mat.nrows s.rows : Int) - totalLength st.mat.nrows st.mat.rows := by
  have inv := pass.reach.passInv
  have effect (c) (member : c ∈ s.started.map Prod.snd) : Lists st.mat.rows c ∧ RemovesThree st.mat.rows c ∧
      ∃ final, execRows c.pivot st.mat.rows (mergeDo st.mat.rows c) = some final ∧
        AgreeOn c.ind s.rows final := by
    obtain ⟨m, hm, rfl⟩ := List.mem_map.mp member
    obtain ⟨lists, final⟩ := pass.effect bound hm
    exact ⟨lists, three m hm, final⟩
  let blocks := s.started.map fun m => m.2.ind
  have block {i : Nat} (member : i ∈ blocks.flatten) : ∃ m ∈ s.started, i ∈ m.2.ind := by
    simpa [blocks] using member
  have apart : blocks.flatten.Nodup := by
    refine List.nodup_flatten.mpr ⟨fun ind member => ?_, ?_⟩
    · obtain ⟨m, hm, rfl⟩ := List.mem_map.mp member
      exact (pass.effect bound hm).1.apart
    · exact List.pairwise_map.mpr inv.reserved.startedApart
  have known (i) (member : i ∈ blocks.flatten) : i < st.mat.nrows := by
    obtain ⟨m, hm, inside⟩ := block member
    obtain ⟨row, live, _⟩ := (pass.effect bound hm).1.contain i inside
    by_contra outside
    rw [stored.bounded i (not_lt.mp outside)] at live
    cases live
  have frame (i) (outside : i ∉ blocks.flatten) : s.rows i = st.mat.rows i := by
    refine inv.outcome.untouched i fun m hm inside => outside ?_
    simpa [blocks] using ⟨m.1, m.2, hm, inside⟩
  rw [totalLength_sub apart known frame, sum_fillIn stored effect value, List.map_map, List.map_map]
  rfl

omit [NeZero n] in
theorem Stored.recompress {mat : FilterMatrix α} {chunks : List (List Nat)}
    (stored : Stored mat.nrows mat.rows) (sound : Sound mat)
    (schedule : chunks.flatten = List.range mat.ncols) :
    Stored (mat.recompress chunks).nrows (mat.recompress chunks).rows := by
  have after := sound.recompress schedule
  have row {i : Nat} {r : List α} (live : (mat.recompress chunks).rows i = some r) :
      ∃ old, mat.rows i = some old ∧ renumberRow (mat.newIndex chunks) old = r :=
    Option.map_eq_some_iff.mp live
  refine ⟨after.bounded, after.sorted, fun i r live x member => ?_, fun i r live => ?_⟩
  · obtain ⟨old, was, rfl⟩ := row live
    obtain ⟨y, hy, rfl⟩ := List.mem_map.mp member
    exact cell_setRowCell _ (stored.cells i old was y hy)
  · obtain ⟨old, was, rfl⟩ := row live
    rw [renumberRow, List.length_map]
    exact stored.fits i old was

omit [NeZero n] [CountedCells α] in
theorem totalLength_recompress (mat : FilterMatrix α) (chunks : List (List Nat)) :
    totalLength (mat.recompress chunks).nrows (mat.recompress chunks).rows = totalLength mat.nrows mat.rows := by
  refine Finset.sum_congr rfl fun i _ => ?_
  change ((((mat.rows i).map (renumberRow (mat.newIndex chunks))).getD []).length) = ((mat.rows i).getD []).length
  cases mat.rows i with
  | none => rfl
  | some row => simp [renumberRow]

theorem TotWeight.exact {mat : FilterMatrix α} {point : Point} {tot : Int}
    (run : TotWeight (n := n) mat point st tot) (stored : Stored mat.nrows mat.rows) :
    Stored st.mat.nrows st.mat.rows ∧ st.cwmax ≤ mergeLevelMax ∧
      tot = totalLength st.mat.nrows st.mat.rows := by
  induction run with
  | start => exact ⟨stored, by simp [MergeState.init, mergeLevelMax], rfl⟩
  | recompress before sound schedule ih =>
    obtain ⟨rows, bound, total⟩ := ih
    exact ⟨rows.recompress sound schedule, bound, total.trans (by rw [← totalLength_recompress]; rfl)⟩
  | keep before renumbered ih => exact ih
  | @pass st tot fill R L s before pass value fits three ih =>
    obtain ⟨rows, bound, total⟩ := ih
    refine ⟨rows.pass bound pass fits, nextCwmax_le bound, ?_⟩
    have moved := pass.totalLength rows bound value three
    change tot + fill = (totalLength st.mat.nrows s.rows : Int)
    omega

end

/-- A call of `merge_do` returns the change of the number of cells, exactly if it does not remove a single row of
another length than three; in a run without such a removal `mat->tot_weight` is the number of cells. -/
theorem mergeDo_fillIn [CountedCells α] {mat : FilterMatrix α} (stored : Stored mat.nrows mat.rows) :
    (∀ (c : Candidate) (v : BitVec 32) (final : Rows α), Lists mat.rows c →
      mergeDoValue mat.rows c = some v → execRows c.pivot mat.rows (mergeDo mat.rows c) = some final →
      (v.toInt = (totalLength mat.nrows final : Int) - totalLength mat.nrows mat.rows ↔
        RemovesThree mat.rows c)) ∧
    ∀ (n : Nat) [NeZero n] (point : Point) (st : MergeState α) (tot : Int),
      TotWeight (n := n) mat point st tot → tot = totalLength st.mat.nrows st.mat.rows := by
  refine ⟨fun c v final lists value run => ?_, fun n _ point st tot run => (run.exact stored).2.2⟩
  have known (i) (member : i ∈ [c.ind].flatten) : i < mat.nrows := by
    obtain ⟨row, live, _⟩ := lists.contain i (by simpa using member)
    by_contra outside
    rw [stored.bounded i (not_lt.mp outside)] at live
    cases live
  have frame (i) (outside : i ∉ [c.ind].flatten) : final i = mat.rows i :=
    execRows_frame (mergeDo_within mat.rows c) run (by simpa using outside)
  rw [totalLength_sub (by simpa using lists.apart) known frame, List.map_singleton, List.sum_singleton]
  exact mergeDoValue_iff stored lists value run

theorem stored_rowTable (table : List (List Nat)) (sorted : ∀ row ∈ table, RowSorted row)
    (short : ∀ row ∈ table, row.length + 2 ≤ pageDataSize) : Stored table.length (rowTable table) :=
  ⟨fun _ => rowTable_bounded, rowTable_sorted sorted, fun _ _ _ _ _ => trivial,
    fun _ _ live => short _ (List.mem_of_getElem? live)⟩

theorem mergeDo_fillIn_pair :
    let mat : FilterMatrix Nat := .weighed 2 2 (rowTable [[0, 1], [0]]) fun j => if j = 0 then 2 else 1
    ∃ final, execRows 0 mat.rows (mergeDo mat.rows ⟨0, [0, 1], by simp⟩) = some final ∧
      (-2 = (totalLength 2 final : Int) - totalLength 2 mat.rows ↔
        RemovesThree mat.rows ⟨0, [0, 1], by simp⟩) := by
  intro mat
  have run : (execRows 0 mat.rows (mergeDo mat.rows ⟨0, [0, 1], by simp⟩)).isSome := by decide
  obtain ⟨final, run⟩ := Option.isSome_iff_exists.mp run
  have stored : Stored mat.nrows mat.rows := stored_rowTable [[0, 1], [0]] (by decide) (by decide)
  have lists : Lists mat.rows ⟨0, [0, 1], by simp⟩ := ⟨by decide, fun i member => by
    rcases List.mem_cons.mp member with rfl | last
    · exact ⟨[0, 1], rfl, by decide⟩
    · exact ⟨[0], by rw [List.mem_singleton.mp last]; rfl, by decide⟩, by decide⟩
  exact ⟨final, run, (mergeDo_fillIn stored).1 _ (-2) final lists (by decide) run⟩

theorem mergeDo_single_wrong : ¬ ∀ (mat : FilterMatrix Nat) (c : Candidate) (v : BitVec 32) (final : Rows Nat),
    Stored mat.nrows mat.rows → Lists mat.rows c → mergeDoValue mat.rows c = some v →
    execRows c.pivot mat.rows (mergeDo mat.rows c) = some final →
    v.toInt = (totalLength mat.nrows final : Int) - totalLength mat.nrows mat.rows := by
  intro all
  have claim := all (.weighed 1 2 (rowTable [[0, 1]]) fun _ => 1) ⟨0, [0], by simp⟩ (-3)
    (Function.update (rowTable [[0, 1]]) 0 none) (stored_rowTable [[0, 1]] (by decide) (by decide))
    ⟨by decide, fun i member => ⟨[0, 1], by rw [List.mem_singleton.mp member]; rfl, by decide⟩, by decide⟩
    (by decide) rfl
  revert claim
  decide

end CadoNfs.Filter
