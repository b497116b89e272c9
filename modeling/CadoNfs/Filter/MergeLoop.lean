import CadoNfs.Filter.Recompress

/-!
# The main loop of merge

`compute_jmin`, `compute_R` and the loop over the passes in `main` of `filter/merge.cpp`.
-/

namespace CadoNfs.Filter
open Lib Typerow

structure MergeState (α : Type) where
  mat : FilterMatrix α
  jmin : Nat → Nat
  cwmax : Nat
  history : List (List Char)

variable {α : Type} {n : Nat}

namespace FilterMatrix

def minColumn (mat : FilterMatrix α) (w : Nat) : Nat :=
  ((List.range mat.ncols).find? fun j => mat.wt j = w).getD mat.ncols

def computeJmin (mat : FilterMatrix α) : Nat → Nat
  | 0 => mat.ncols
  | w + 1 => min (mat.computeJmin w) (mat.minColumn (w + 1))

end FilterMatrix

def FilterMatrix.weighed (nrows ncols : Nat) (rows : Rows α) (wt : Nat → Nat) : FilterMatrix α where
  nrows := nrows
  ncols := ncols
  remNcols := ((List.range ncols).filter (nonempty wt)).length
  rows := rows
  wt := wt
  p := none

def nextCwmax (cwmax nmerges possible : Nat) : Nat :=
  if cwmax = 2 then if nmerges = possible then cwmax + 1 else cwmax
  else if cwmax < mergeLevelMax then cwmax + 1 else cwmax

variable [Typerow α]

def visitedCells (wt : Nat → Nat) (j0 cwmax : Nat) (row : List α) : List Nat :=
  ((columns row).reverse.takeWhile (j0 ≤ ·)).filter (wt · ≤ cwmax)

def dispatched (mat : FilterMatrix α) (j0 cwmax j : Nat) : List Nat :=
  (List.range mat.nrows).filter fun i => j ∈ (mat.rows i).elim [] (visitedCells mat.wt j0 cwmax)

/-- The transposed matrix. The row of column `j` is `wt[j]` long, and its entries are in an order
that depends on the threads. -/
structure ComputeR (mat : FilterMatrix α) (j0 cwmax : Nat) (R : List Candidate) : Prop where
  pivots : R.map Candidate.pivot =
    (List.range' j0 (mat.ncols - j0)).filter fun j => 0 < mat.wt j ∧ mat.wt j ≤ cwmax
  rows : ∀ c ∈ R, c.ind.length = mat.wt c.pivot ∧ c.ind.Perm (dispatched mat j0 cwmax c.pivot)

instance (mat : FilterMatrix α) (j0 cwmax : Nat) (R : List Candidate) :
    Decidable (ComputeR mat j0 cwmax R) :=
  decidable_of_iff (_ ∧ _) ⟨fun ⟨pivots, rows⟩ => ⟨pivots, rows⟩, fun R => ⟨R.pivots, R.rows⟩⟩

namespace MergeState

def label (st : MergeState α) (j : Nat) : Option Index :=
  if forDl α then some (toIndex (st.mat.p.getD id j)) else none

omit [Typerow α] in
def afterPass (st : MergeState α) (L : List Candidate) (s : ApplyState α n) : MergeState α where
  mat := { st.mat with rows := s.rows, wt := s.wt, remNcols := st.mat.remNcols - s.nmerges }
  jmin := st.jmin
  cwmax := nextCwmax st.cwmax s.nmerges L.length
  history := st.history ++ (List.finRange n).flatMap s.buffers

def recompress (st : MergeState α) (chunks : List (List Nat)) : MergeState α where
  mat := st.mat.recompress chunks
  jmin := newJmin st.mat.ncols (st.mat.newNcols chunks) (st.mat.newIndex chunks) st.jmin
  cwmax := st.cwmax
  history := st.history

omit [Typerow α] in
def init (mat : FilterMatrix α) : MergeState α := ⟨mat, mat.computeJmin, 2, []⟩

end MergeState

structure Pass [NeZero n] (Q : ApplyState α n → Act n → Bool) (st : MergeState α)
    (R L : List Candidate) (s : ApplyState α n) : Prop where
  computed : ComputeR st.mat (st.jmin st.cwmax) st.cwmax R
  chosen : L.Subperm R
  reach : Reach st.label L Q (.init n st.mat.rows st.mat.wt L) s
  done : s.finished

inductive Point
  | call
  | head

inductive MergeRun [NeZero n] (Q : ApplyState α n → Act n → Bool) (mat : FilterMatrix α) :
    Point → MergeState α → Prop
  | start : MergeRun Q mat .call (.init mat)
  | recompress {st : MergeState α} {chunks : List (List Nat)} : MergeRun Q mat .call st →
      chunks.flatten = List.range st.mat.ncols → MergeRun Q mat .head (st.recompress chunks)
  | keep {st : MergeState α} : MergeRun Q mat .call st → st.mat.p ≠ none → MergeRun Q mat .head st
  | pass {st : MergeState α} {R L : List Candidate} {s : ApplyState α n} : MergeRun Q mat .head st →
      Pass Q st R L s → MergeRun Q mat .call (st.afterPass L s)

/-! ## The matrix between two passes -/

structure Sound (mat : FilterMatrix α) : Prop where
  sorted : SortedRows mat.rows
  bounded : ∀ i, mat.nrows ≤ i → mat.rows i = none
  columns : ∀ i j, Contains mat.rows i j → j < mat.ncols
  exact : ∀ j, mat.wt j ≤ mergeLevelMax → mat.wt j = weight mat.nrows mat.rows j
  small : ∀ j, mat.wt j ≤ 255
  beyond : ∀ j, mat.ncols ≤ j → mat.wt j = 0
  remNcols : mat.nonemptyColumns.length ≤ mat.remNcols

theorem weight_eq_zero_iff {nrows : Nat} {rows : Rows α}
    (bounded : ∀ i, nrows ≤ i → rows i = none) {j : Nat} :
    weight nrows rows j = 0 ↔ ∀ i, ¬ Contains rows i j := by
  unfold weight
  rw [Finset.card_eq_zero, Finset.filter_eq_empty_iff]
  constructor
  · intro none i contains
    refine none (Finset.mem_range.mpr (not_le.mp fun outside => ?_)) contains
    obtain ⟨row, live, _⟩ := contains
    simp [bounded i outside] at live
  · intro none i _
    exact none i

theorem Sound.covered {mat : FilterMatrix α} (sound : Sound mat) {i j : Nat}
    (contains : Contains mat.rows i j) : j < mat.ncols ∧ nonempty mat.wt j := by
  refine ⟨sound.columns i j contains, ?_⟩
  by_contra empty
  have zero : mat.wt j = 0 := by simpa [nonempty] using empty
  have exact := sound.exact j (by simp [zero])
  rw [zero] at exact
  exact (weight_eq_zero_iff sound.bounded).mp exact.symm i contains

theorem mem_takeWhile_falling {l : List Nat} (falling : l.Pairwise (· > ·)) {j j0 : Nat} :
    j ∈ l.takeWhile (j0 ≤ ·) ↔ j ∈ l ∧ j0 ≤ j := by
  induction l with
  | nil => simp
  | cons x xs ih =>
    rw [List.pairwise_cons] at falling
    by_cases high : j0 ≤ x
    · rw [List.takeWhile_cons_of_pos (by simpa using high), List.mem_cons, List.mem_cons,
        ih falling.2]
      constructor
      · rintro (rfl | ⟨member, le⟩)
        · exact ⟨.inl rfl, high⟩
        · exact ⟨.inr member, le⟩
      · rintro ⟨rfl | member, le⟩
        · exact .inl rfl
        · exact .inr ⟨member, le⟩
    · rw [List.takeWhile_cons_of_neg (by simpa using high)]
      simp only [List.not_mem_nil, List.mem_cons, false_iff, not_and, not_le]
      rintro (rfl | member)
      · exact not_le.mp high
      · exact (falling.1 j member).trans (not_le.mp high)

theorem mem_takeWhile_reverse {l : List Nat} (sorted : l.Pairwise (· < ·)) {j j0 : Nat} :
    j ∈ l.reverse.takeWhile (j0 ≤ ·) ↔ j ∈ l ∧ j0 ≤ j := by
  rw [mem_takeWhile_falling (List.pairwise_reverse.mpr sorted), List.mem_reverse]

theorem ComputeR.exact {mat : FilterMatrix α} {j0 cwmax : Nat} {R : List Candidate}
    (sound : Sound mat) (computed : ComputeR mat j0 cwmax R) {c : Candidate} (member : c ∈ R) :
    Exact mat.rows c ∧ nonempty mat.wt c.pivot ∧ c.pivot < mat.ncols ∧ c.ind.length ≤ cwmax ∧
      c.ind.length = mat.wt c.pivot := by
  obtain ⟨length, perm⟩ := computed.rows c member
  have pivot : c.pivot ∈ R.map Candidate.pivot := List.mem_map_of_mem member
  rw [computed.pivots, List.mem_filter, List.mem_range'_1] at pivot
  obtain ⟨⟨low, high⟩, light⟩ := pivot
  simp only [decide_eq_true_eq] at light
  refine ⟨⟨?_, fun i => ?_⟩, by simpa [nonempty] using light.1, by omega, by omega, length⟩
  · exact perm.nodup_iff.mpr (List.nodup_range.filter _)
  · rw [perm.mem_iff, dispatched, List.mem_filter, List.mem_range, decide_eq_true_eq]
    cases live : mat.rows i with
    | none => simp [Contains, live]
    | some row =>
      have inside : i < mat.nrows := by
        by_contra outside
        simp [sound.bounded i (not_lt.mp outside)] at live
      have sorted : (columns row).Pairwise (· < ·) := List.pairwise_map.mpr (sound.sorted i row live)
      simp only [Option.elim_some, visitedCells, List.mem_filter, mem_takeWhile_reverse sorted,
        decide_eq_true_eq, Contains, live, Option.some.injEq, exists_eq_left']
      tauto

section
variable [NeZero n] {st : MergeState α} {R L : List Candidate} {s : ApplyState α n}

theorem Pass.counted {Q : ApplyState α n → Act n → Bool} (pass : Pass Q st R L s)
    (keeps : ∀ s a, Q s a → keepsWeights s a) (sound : Sound st.mat) :
    Counted st.mat.nrows st.mat.rows st.mat.wt s := by
  have weaker {s : ApplyState α n} (reach : Reach st.label L Q (.init n st.mat.rows st.mat.wt L) s) :
      Reach st.label L keepsWeights (.init n st.mat.rows st.mat.wt L) s := by
    induction reach with
    | start => exact .start
    | step _ allowed run ih => exact ih.step (keeps _ _ allowed) run
  exact (weaker pass.reach).counted sound.sorted sound.bounded sound.exact sound.small

omit [NeZero n] in
theorem inheritors_eq_zero {nrows : Nat} {rows : Rows α} {started : List (Fin n × Candidate)} {j : Nat}
    (none : ∀ i, ¬ Contains rows i j) : inheritors nrows rows started j = 0 := by
  classical
  unfold inheritors
  rw [Finset.card_eq_zero, Finset.filter_eq_empty_iff]
  rintro i - (own | ⟨m, _, _, k, _, source⟩)
  · exact none i own
  · exact none k source

theorem Pass.exact {Q : ApplyState α n → Act n → Bool} (pass : Pass Q st R L s)
    (sound : Sound st.mat) {c : Candidate} (member : c ∈ L) :
    Exact st.mat.rows c ∧ nonempty st.mat.wt c.pivot ∧ c.pivot < st.mat.ncols ∧
      c.ind.length ≤ st.cwmax ∧ c.ind.length = st.mat.wt c.pivot :=
  pass.computed.exact sound (pass.chosen.subset member)

theorem Pass.empty {Q : ApplyState α n → Act n → Bool} (pass : Pass Q st R L s)
    (keeps : ∀ s a, Q s a → keepsWeights s a) (sound : Sound st.mat) {j : Nat}
    (zero : st.mat.wt j = 0) : s.wt j = 0 := by
  have exact := sound.exact j (by simp [zero])
  rw [zero] at exact
  have none := (weight_eq_zero_iff sound.bounded).mp exact.symm
  have inv := pass.reach.passInv
  obtain ⟨V, visible, _⟩ := pass.counted keeps sound
  rcases (pass.counted keeps sound).finished pass.done j with same | ⟨_, heavy | many⟩
  · rw [same]
    apply (weight_eq_zero_iff visible.bounded).mpr
    intro i contains
    rcases inv.confined.stored i j contains with own | ⟨m, _, _, k, _, source⟩
    · exact none i own
    · exact none k source
  · omega
  · rw [inheritors_eq_zero none] at many
    omega

theorem Pass.inherits_pivot {Q : ApplyState α n → Act n → Bool} (pass : Pass Q st R L s)
    (sound : Sound st.mat) {m : Fin n × Candidate} (member : m ∈ s.started) {i : Nat}
    (inherits : Inherits st.mat.rows s.started i m.2.pivot) : i ∈ m.2.ind := by
  have inv := pass.reach.passInv
  obtain ⟨exact, _⟩ := pass.exact sound (inv.fromList.started m member)
  rcases inherits with own | ⟨m', member', inside, k, hk, source⟩
  · exact (exact.2 i).mpr own
  · by_cases same : m' = m
    · exact same ▸ inside
    · exact absurd ((exact.2 k).mpr source) (inv.reserved.disjoint member' member same hk)

theorem Pass.pivot {Q : ApplyState α n → Act n → Bool} (pass : Pass Q st R L s)
    (keeps : ∀ s a, Q s a → keepsWeights s a) (sound : Sound st.mat)
    (bound : st.cwmax ≤ mergeLevelMax) {m : Fin n × Candidate} (member : m ∈ s.started) :
    s.wt m.2.pivot = 0 := by
  have inv := pass.reach.passInv
  obtain ⟨exact, _, _, light, weight⟩ := pass.exact sound (inv.fromList.started m member)
  obtain ⟨V, visible, _⟩ := pass.counted keeps sound
  rcases (pass.counted keeps sound).finished pass.done m.2.pivot with same | ⟨_, heavy | many⟩
  · rw [same]
    apply (weight_eq_zero_iff visible.bounded).mpr
    intro i contains
    have inside := pass.inherits_pivot sound member (inv.confined.stored i _ contains)
    have effect := inv.outcome.effect m member
    rw [Pc.isIdle_iff.mp (pass.done.2 m.1)] at effect
    cases effect with
    | done other run agree =>
      obtain ⟨row, live, contained⟩ := contains
      refine mergeDo_pivot exact.1 sound.sorted (fun k hk row value => ?_) run inside
        ((agree i inside).symm.trans live) contained
      obtain ⟨row', value', pivot⟩ := (exact.2 k).mp hk
      cases value.symm.trans value'
      exact pivot
  · omega
  · classical
    have few : inheritors st.mat.nrows st.mat.rows s.started m.2.pivot ≤ m.2.ind.length := by
      refine (Finset.card_le_card fun i hi => ?_).trans (List.toFinset_card_le m.2.ind)
      rw [Finset.mem_filter] at hi
      exact List.mem_toFinset.mpr (pass.inherits_pivot sound member hi.2)
    omega

theorem Pass.pivots_nodup {Q : ApplyState α n → Act n → Bool} (pass : Pass Q st R L s)
    (sound : Sound st.mat) : (s.started.map fun m => m.2.pivot).Nodup := by
  have inv := pass.reach.passInv
  rw [List.nodup_iff_pairwise_ne, List.pairwise_map]
  apply inv.reserved.startedApart.imp_of_mem
  intro m m' member member' apart eq
  obtain ⟨exact, _⟩ := pass.exact sound (inv.fromList.started m member)
  obtain ⟨exact', _⟩ := pass.exact sound (inv.fromList.started m' member')
  obtain ⟨i, inside⟩ := List.exists_mem_of_ne_nil _ m.2.nonempty
  exact apart inside ((exact'.2 i).mpr (eq ▸ (exact.2 i).mp inside))

theorem Pass.nonemptyColumns {Q : ApplyState α n → Act n → Bool} (pass : Pass Q st R L s)
    (keeps : ∀ s a, Q s a → keepsWeights s a) (sound : Sound st.mat)
    (bound : st.cwmax ≤ mergeLevelMax) :
    (st.afterPass L s).mat.nonemptyColumns.length + s.nmerges ≤
      st.mat.nonemptyColumns.length := by
  have inv := pass.reach.passInv
  let before := (Finset.range st.mat.ncols).filter fun j => nonempty st.mat.wt j
  let after := (Finset.range st.mat.ncols).filter fun j => nonempty s.wt j
  let pivots := (s.started.map fun m => m.2.pivot).toFinset
  have length (wt : Nat → Nat) : ((List.range st.mat.ncols).filter (nonempty wt)).length =
      ((Finset.range st.mat.ncols).filter fun j => nonempty wt j).card := by
    rw [← List.countP_eq_length_filter, countP_range, rank, Nat.count_eq_card_filter_range]
  have card : pivots.card = s.nmerges := by
    rw [List.toFinset_card_of_nodup (pass.pivots_nodup sound), List.length_map,
      pass.done.nmerges inv.reserved]
  have apart : Disjoint after pivots := by
    rw [Finset.disjoint_left]
    intro j hj hp
    obtain ⟨m, member, rfl⟩ := List.mem_map.mp (List.mem_toFinset.mp hp)
    have zero := pass.pivot keeps sound bound member
    simp [after, nonempty, zero] at hj
  have inside : after ∪ pivots ⊆ before := by
    intro j member
    rcases Finset.mem_union.mp member with hj | hp
    · rw [Finset.mem_filter] at hj ⊢
      refine ⟨hj.1, ?_⟩
      by_contra empty
      have zero := pass.empty keeps sound (j := j) (by simpa [nonempty] using empty)
      simp [nonempty, zero] at hj
    · obtain ⟨m, started, rfl⟩ := List.mem_map.mp (List.mem_toFinset.mp hp)
      obtain ⟨_, heavy, known, _⟩ := pass.exact sound (inv.fromList.started m started)
      exact Finset.mem_filter.mpr ⟨Finset.mem_range.mpr known, heavy⟩
  have total := Finset.card_le_card inside
  rw [Finset.card_union_of_disjoint apart, card] at total
  exact (length s.wt).symm ▸ (length st.mat.wt).symm ▸ total

theorem Sound.pass {Q : ApplyState α n → Act n → Bool} (sound : Sound st.mat)
    (keeps : ∀ s a, Q s a → keepsWeights s a) (bound : st.cwmax ≤ mergeLevelMax)
    (pass : Pass Q st R L s) : Sound (st.afterPass L s).mat := by
  have inv := pass.reach.passInv
  have counted := pass.counted keeps sound
  obtain ⟨V, visible, weighed⟩ := pass.counted keeps sound
  refine ⟨visible.sorted, visible.bounded, fun i j contains => ?_, fun j low => ?_, weighed.small,
    fun j outside => pass.empty keeps sound (sound.beyond j outside), ?_⟩
  · rcases inv.confined.stored i j contains with own | ⟨m, _, _, k, _, source⟩
    · exact sound.columns i j own
    · exact sound.columns k j source
  · exact (counted.finished pass.done j).resolve_right fun ⟨high, _⟩ => absurd low (not_le.mpr high)
  · have fewer := pass.nonemptyColumns keeps sound bound
    have old := sound.remNcols
    simp only [MergeState.afterPass] at fewer ⊢
    omega

end

section
variable {mat : FilterMatrix α}

theorem Sound.recompress {chunks : List (List Nat)} (sound : Sound mat)
    (schedule : chunks.flatten = List.range mat.ncols) : Sound (mat.recompress chunks) := by
  have renumbered := recompress_renumbered schedule (fun _ _ => sound.covered) fun _ => 0
  have old {k : Nat} (below : k < (mat.recompress chunks).ncols) :
      ∃ j < mat.ncols, nonempty mat.wt j ∧ mat.newIndex chunks j = k := by
    have below' : k < mat.newNcols chunks := below
    rw [newNcols_eq schedule] at below'
    obtain ⟨j, inside, kept, eq⟩ := exists_rank_eq below'
    exact ⟨j, inside, kept, (newIndex_eq schedule inside).trans eq⟩
  have beyond (k : Nat) (outside : (mat.recompress chunks).ncols ≤ k) :
      (mat.recompress chunks).wt k = 0 := by
    refine scatter_other fun j member eq => ?_
    obtain ⟨inside, kept⟩ := mem_nonemptyColumns.mp member
    have := renumbered.range j inside kept
    omega
  have bounded (i : Nat) (outside : mat.nrows ≤ i) : (mat.recompress chunks).rows i = none := by
    rw [renumbered.rows, sound.bounded i outside, Option.map_none]
  have columns (i k : Nat) (contains : Contains (mat.recompress chunks).rows i k) :
      k < (mat.recompress chunks).ncols := by
    obtain ⟨j, was, rfl⟩ := contains_renumberRow.mp contains
    obtain ⟨inside, kept⟩ := sound.covered was
    exact renumbered.range j inside kept
  refine ⟨fun i row live => ?_, bounded, columns, fun k low => ?_, fun k => ?_, beyond, ?_⟩
  · rw [renumbered.rows] at live
    obtain ⟨row, was, rfl⟩ := Option.map_eq_some_iff.mp live
    refine List.pairwise_map.mpr ((sound.sorted i row was).imp_of_mem fun {x y} hx hy lt => ?_)
    have covered {x : α} (member : x ∈ row) :=
      sound.covered (j := rowCell x) ⟨row, was, List.mem_map_of_mem member⟩
    simp only [rowCell_setRowCell]
    exact renumbered.strictMono _ (covered hx).1 _ (covered hy).1 (covered hx).2 (covered hy).2 lt
  · by_cases below : k < (mat.recompress chunks).ncols
    · obtain ⟨j, inside, kept, rfl⟩ := old below
      rw [renumbered.wt j inside kept] at low ⊢
      rw [sound.exact j low]
      unfold weight
      congr 1
      exact Finset.filter_congr fun i _ => (renumbered.contains i j inside kept).symm
    · rw [beyond k (not_lt.mp below)]
      symm
      exact (weight_eq_zero_iff bounded).mpr fun i contains => below (columns i k contains)
  · by_cases below : k < (mat.recompress chunks).ncols
    · obtain ⟨j, inside, kept, rfl⟩ := old below
      rw [renumbered.wt j inside kept]
      exact sound.small j
    · rw [beyond k (not_lt.mp below)]
      exact Nat.zero_le 255
  · exact (List.length_filter_le _ _).trans_eq (List.length_range)

end

theorem nextCwmax_le {cwmax nmerges possible : Nat} (bound : cwmax ≤ mergeLevelMax) :
    nextCwmax cwmax nmerges possible ≤ mergeLevelMax := by
  unfold nextCwmax mergeLevelMax at *
  split_ifs <;> omega

section
variable [NeZero n] {Q : ApplyState α n → Act n → Bool} {mat : FilterMatrix α} {point : Point}
  {st : MergeState α}

theorem MergeRun.sound (run : MergeRun Q mat point st) (keeps : ∀ s a, Q s a → keepsWeights s a)
    (sound : Sound mat) : Sound st.mat ∧ st.cwmax ≤ mergeLevelMax := by
  induction run with
  | start => exact ⟨sound, by simp [MergeState.init, mergeLevelMax]⟩
  | recompress before schedule ih => exact ⟨ih.1.recompress schedule, ih.2⟩
  | keep before renumbered ih => exact ih
  | pass before pass ih => exact ⟨ih.1.pass keeps ih.2 pass, nextCwmax_le ih.2⟩

theorem MergeRun.pass_of_steps (before : MergeRun Q mat .head st) {R L : List Candidate}
    {acts : List (Act n)} {P : ApplyState α n → Prop} [DecidablePred P]
    (computed : ComputeR st.mat (st.jmin st.cwmax) st.cwmax R) (chosen : L.Subperm R)
    (ends : ((ApplyState.init n st.mat.rows st.mat.wt L).steps st.label L Q acts).any
      fun s => decide (s.finished ∧ P s)) :
    ∃ s, MergeRun Q mat .call (st.afterPass L s) ∧ P s := by
  obtain ⟨s, run, final⟩ := (Option.any_eq_true _ _).mp ends
  obtain ⟨done, holds⟩ := of_decide_eq_true final
  exact ⟨s, before.pass ⟨computed, chosen, .steps .start run, done⟩, holds⟩

theorem MergeRun.of_oneAtATime (run : MergeRun (n := n) oneAtATime mat point st) :
    MergeRun (n := n) keepsWeights mat point st := by
  induction run with
  | start => exact .start
  | recompress before schedule ih => exact .recompress ih schedule
  | keep before renumbered ih => exact .keep ih renumbered
  | pass before pass ih =>
    exact .pass ih ⟨pass.computed, pass.chosen, pass.reach.of_oneAtATime.1, pass.done⟩

theorem Sound.weighed {nrows ncols : Nat} {rows : Rows α} {wt : Nat → Nat}
    (sorted : SortedRows rows) (bounded : ∀ i, nrows ≤ i → rows i = none)
    (columns : ∀ i j, Contains rows i j → j < ncols)
    (exact : ∀ j, wt j ≤ mergeLevelMax → wt j = weight nrows rows j) (small : ∀ j, wt j ≤ 255)
    (beyond : ∀ j, ncols ≤ j → wt j = 0) : Sound (.weighed nrows ncols rows wt) :=
  ⟨sorted, bounded, columns, exact, small, beyond, le_rfl⟩

/-- In a run that loses no weight update, `recompress` always has room for the nonempty columns and
only renumbers them. -/
theorem recompress_correct {nrows ncols : Nat} {rows : Rows α} {wt : Nat → Nat}
    (sorted : SortedRows rows) (bounded : ∀ i, nrows ≤ i → rows i = none)
    (columns : ∀ i j, Contains rows i j → j < ncols)
    (exact : ∀ j, wt j ≤ mergeLevelMax → wt j = weight nrows rows j) (small : ∀ j, wt j ≤ 255)
    (beyond : ∀ j, ncols ≤ j → wt j = 0)
    (run : MergeRun (n := n) keepsWeights (.weighed nrows ncols rows wt) .call st)
    {chunks : List (List Nat)} (schedule : chunks.flatten = List.range st.mat.ncols) :
    st.mat.nonemptyColumns.length ≤ st.mat.remNcols ∧
      Renumbered (st.mat.newIndex chunks) st.mat (st.recompress chunks).mat st.jmin
        (st.recompress chunks).jmin := by
  obtain ⟨sound, _⟩ := run.sound (fun _ _ => id) (.weighed sorted bounded columns exact small beyond)
  exact ⟨sound.remNcols, recompress_renumbered schedule (fun _ _ => sound.covered) st.jmin⟩

end

theorem rowTable_columns {table : List (List α)} {ncols : Nat}
    (columns : ∀ row ∈ table, ∀ x ∈ row, rowCell x < ncols) (i j : Nat)
    (contains : Contains (rowTable table) i j) : j < ncols := by
  obtain ⟨row, live, member⟩ := contains
  obtain ⟨x, inside, rfl⟩ := List.mem_map.mp member
  exact columns row (List.mem_of_getElem? live) x inside

theorem recompress_correct_pair :
    let mat : FilterMatrix Nat := .weighed 2 3 (rowTable [[0, 1], [0, 2]])
      (weight 2 (rowTable [[0, 1], [0, 2]]))
    ∃ st : MergeState Nat, MergeRun (n := 1) keepsWeights mat .call st ∧ st.mat.wt 0 = 0 ∧
      st.mat.nonemptyColumns.length ≤ st.mat.remNcols ∧
      Renumbered (st.mat.newIndex [List.range st.mat.ncols]) st.mat
        (st.recompress [List.range st.mat.ncols]).mat st.jmin
        (st.recompress [List.range st.mat.ncols]).jmin := by
  intro mat
  let st := (MergeState.init mat).recompress [List.range 3]
  let R : List Candidate := [⟨0, [0, 1], by simp⟩, ⟨1, [0], by simp⟩, ⟨2, [1], by simp⟩]
  let L : List Candidate := [⟨0, [0, 1], by simp⟩]
  let acts : List (Act 1) := Act.take 0 0 :: List.replicate 20 (Act.run 0) ++ [Act.join]
  have ends : ((ApplyState.init 1 st.mat.rows st.mat.wt L).steps st.label L keepsWeights acts).any
      fun s => decide (s.finished ∧ s.wt 0 = 0) := by decide +kernel
  have called : MergeRun (n := 1) keepsWeights mat .head st :=
    .recompress .start (by simp [MergeState.init, mat, FilterMatrix.weighed])
  have computed : ComputeR st.mat (st.jmin st.cwmax) st.cwmax R := by decide +kernel
  obtain ⟨s, passed, zero⟩ :=
    called.pass_of_steps computed (List.singleton_subperm_iff.mpr (.head _)) ends
  have columns : ∀ i j, Contains (rowTable [[0, 1], [0, 2]]) i j → j < 3 :=
    rowTable_columns (by decide)
  have bounded (i : Nat) (outside : 2 ≤ i) : rowTable [[0, 1], [0, 2]] i = none :=
    rowTable_bounded outside
  exact ⟨_, passed, zero, recompress_correct (rowTable_sorted (by decide)) bounded columns
    (fun _ _ => rfl) (fun j => (weight_le 2 _ j).trans (by norm_num))
    (fun j high => (weight_eq_zero_iff bounded).mpr fun i contains =>
      (columns i j contains).not_ge high) passed List.flatten_singleton⟩

-- A pass that loses an update (see `weights_lost`), and one that then merges column 18 away: row 5
-- still contains column 0, whose counter is zero.
theorem recompress_column_lost : ¬ ∀ (n nrows ncols : Nat) [NeZero n] (rows : Rows Nat)
    (wt : Nat → Nat) (st : MergeState Nat), SortedRows rows → (∀ i, nrows ≤ i → rows i = none) →
    (∀ i j, Contains rows i j → j < ncols) → (∀ j, wt j = weight nrows rows j) → nrows ≤ 255 →
    MergeRun (n := n) (fun _ _ => true) (.weighed nrows ncols rows wt) .call st →
    ∀ chunks : List (List Nat), chunks.flatten = List.range st.mat.ncols →
      st.mat.nonemptyColumns.length ≤ st.mat.remNcols ∧
        Renumbered (st.mat.newIndex chunks) st.mat (st.recompress chunks).mat st.jmin
          (st.recompress chunks).jmin := by
  intro always
  let table : List (List Nat) := [[0, 1, 18], [0, 1, 18], [0, 2], [2, 18], [0, 3], [3]] ++
    (List.range 14).flatMap fun k => [[0, 4 + k], [0, 4 + k]]
  let weights : List Nat := 32 :: List.replicate 17 2 ++ [3]
  let wt : Nat → Nat := fun j => weights.getD j 0
  let st : MergeState Nat :=
    (MergeState.init (.weighed 34 19 (rowTable table) wt)).recompress [List.range 19]
  let R : List Candidate := [⟨1, [0, 1], by simp⟩, ⟨2, [2, 3], by simp⟩, ⟨3, [4, 5], by simp⟩] ++
    (List.range 14).map fun k => ⟨4 + k, [6 + 2 * k, 7 + 2 * k], by simp⟩
  let R' : List Candidate := [⟨18, [3], by simp⟩]
  let start (t : Fin 3) : List (Act 3) := .take t 0 :: List.replicate 7 (.run t)
  let race : List (Act 3) := [.run 0, .run 1, .run 1, .run 2, .run 0]
  let rest (t : Fin 3) (k : Nat) : List (Act 3) := List.replicate k (.run t)
  let others : List (Act 3) := (List.range 14).flatMap fun _ => Act.take 0 0 :: rest 0 20
  let acts := start 0 ++ start 1 ++ start 2 ++ race ++ rest 0 15 ++ rest 1 11 ++ rest 2 11 ++
    others ++ [Act.join]
  let acts' : List (Act 3) := Act.take 0 0 :: rest 0 12 ++ [Act.join]
  have bounded (i : Nat) (high : 34 ≤ i) : rowTable table i = none :=
    rowTable_bounded (show table.length ≤ i from high)
  have sorted : SortedRows (rowTable table) := rowTable_sorted (by decide +kernel)
  have columns : ∀ i j, Contains (rowTable table) i j → j < 19 :=
    rowTable_columns (by decide +kernel)
  have exact (j : Nat) : wt j = weight 34 (rowTable table) j := by
    rcases lt_or_ge j 19 with low | high
    · have inside : ∀ j < 19, wt j = weight 34 (rowTable table) j := by decide +kernel
      exact inside j low
    · rw [(weight_eq_zero_iff bounded).mpr fun i contains => (columns i j contains).not_ge high]
      exact List.getD_eq_default _ _ high
  have sound : Sound st.mat := (Sound.weighed sorted bounded columns (fun j _ => exact j)
    (fun j => exact j ▸ (weight_le 34 _ j).trans (by norm_num)) fun j high =>
      List.getD_eq_default _ _ high).recompress (by simp [FilterMatrix.weighed])
  have rows : st.mat.rows = rowTable table := by
    funext i
    rcases lt_or_ge i 34 with low | high
    · have inside : ∀ i < 34, st.mat.rows i = rowTable table i := by decide +kernel
      exact inside i low
    · rw [sound.bounded i high, bounded i high]
  have wts : st.mat.wt = wt := by
    funext j
    rcases lt_or_ge j 19 with low | high
    · have inside : ∀ j < 19, st.mat.wt j = wt j := by decide +kernel
      exact inside j low
    · rw [sound.beyond j high]
      exact (List.getD_eq_default _ _ high).symm
  have computed : ComputeR st.mat (st.jmin st.cwmax) st.cwmax R := by decide +kernel
  have first : ((ApplyState.init 3 st.mat.rows st.mat.wt R).steps st.label R (fun _ _ => true)
      acts).any fun s => decide (s.finished ∧ (st.afterPass R s).cwmax = 3 ∧
        ComputeR (st.afterPass R s).mat 1 3 R' ∧
        ((ApplyState.init 3 s.rows s.wt R').steps (st.afterPass R s).label R' (fun _ _ => true)
          acts').any fun s' => decide (s'.finished ∧ s'.wt 0 = 0 ∧ Contains s'.rows 5 0)) := by
    rw [rows, wts]
    decide +kernel
  have called : MergeRun (n := 3) (fun _ _ => true) (.weighed 34 19 (rowTable table) wt) .head st :=
    .recompress .start (by simp [MergeState.init, FilterMatrix.weighed])
  obtain ⟨s, passed, cwmax, computed', second⟩ := called.pass_of_steps computed (.refl R) first
  have jmin : st.jmin 3 = 1 := by decide +kernel
  have kept := passed.keep (by simp [MergeState.afterPass, st, MergeState.recompress,
    FilterMatrix.recompress])
  obtain ⟨s', twice, zero, contains⟩ :=
    kept.pass_of_steps (by rwa [cwmax, MergeState.afterPass, jmin]) (.refl R') second
  obtain ⟨_, renumbered⟩ := always 3 34 19 (rowTable table) wt _ sorted bounded columns exact
    (by norm_num) twice _ (List.flatten_singleton)
  have covered := (renumbered.covered 5 0 contains).2
  simp [nonempty, MergeState.afterPass, zero] at covered

end CadoNfs.Filter
