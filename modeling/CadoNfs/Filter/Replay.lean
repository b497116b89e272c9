import CadoNfs.Filter.MergeDo

/-!
# Replaying the history

`doAllAdds` of `filter/replay.cpp` and, in a factorization build, `addRowsUpdateIndex` of `filter/sparse.c`.
-/

namespace CadoNfs.Filter
open Lib Typerow

/-- The rows, and for each of them what `index_data` holds, unless it is `NULL`. -/
structure ReplayState (α β : Type) where
  rows : Rows α
  indexData : Option (Nat → List β)

section
variable {α β : Type}

def ReplayState.destroy (s : ReplayState α β) (i : Nat) : ReplayState α β where
  rows := Function.update s.rows i none
  indexData := s.indexData.map fun index => Function.update index i []

def runAddition (addRows : ReplayState α β → Nat → Nat → Index → Option (ReplayState α β))
    (s : ReplayState α β) (line : Addition) : Option (ReplayState α β) :=
  (line.targets.foldlM (fun s i => addRows s i.toNat line.i0.toNat line.j) s).map fun s =>
    if line.destroy then s.destroy line.i0.toNat else s

def doAllAdds (addRows : ReplayState α β → Nat → Nat → Index → Option (ReplayState α β))
    (s : ReplayState α β) (str : List Char) : Option (ReplayState α β) :=
  (decodeLine str).bind (runAddition addRows s)

def replay (addRows : ReplayState α β → Nat → Nat → Index → Option (ReplayState α β))
    (s : ReplayState α β) (history : List (List Char)) : Option (ReplayState α β) :=
  history.foldlM (doAllAdds addRows) s

end

/-- The loops of `addRowsUpdateIndex` in a factorization build, for the columns of two rows and for
the row numbers of two relation-sets. -/
def addCells (r1 r2 : List Nat) : List Nat :=
  (align id id r1 r2).filterMap fun step =>
    match step with
    | .left x => some x
    | .right y => some y
    | .both _ _ => none

def addRowsUpdateIndex (s : ReplayState Nat Nat) (i1 i2 : Nat) (_ : Index) :
    Option (ReplayState Nat Nat) :=
  (s.rows i1).bind fun r1 => (s.rows i2).map fun r2 =>
    { rows := Function.update s.rows i1 (some (addCells r1 r2))
      indexData := s.indexData.map fun index =>
        Function.update index i1 (addCells (index i1) (index i2)) }

theorem replay_append {α β : Type}
    {addRows : ReplayState α β → Nat → Nat → Index → Option (ReplayState α β)}
    {s s' : ReplayState α β} {lines : List (List Char)} (rest : List (List Char))
    (run : replay addRows s lines = some s') :
    replay addRows s (lines ++ rest) = replay addRows s' rest := by
  unfold replay at run ⊢
  rw [List.foldlM_append, run]
  rfl

theorem addRow_nat (j : Nat) (r1 r2 : List Nat) : ∃ ops, addRow j r1 r2 = some (addCells r1 r2, ops) := by
  have sum : addCells r1 r2 = (walk r1 r2).filterMap (sumCell ()) := by
    apply List.filterMap_congr
    intro step _
    cases step <;> rfl
  refine ⟨(walk r1 r2).filterMap (wtOp ()), addRow_eq_some_iff.mpr ⟨(), rfl, fun _ _ => rfl, ?_⟩⟩
  rw [sum]

theorem mem_addCells {r1 r2 : List Nat} (left : r1.Pairwise (· < ·)) (right : r2.Pairwise (· < ·))
    {x : Nat} : x ∈ addCells r1 r2 ↔ x ∈ r1 ∧ x ∉ r2 ∨ x ∈ r2 ∧ x ∉ r1 := by
  have fromLeft : .left x ∈ align id id r1 r2 ↔ x ∈ r1 ∧ x ∉ r2.map id := left_mem_align left right
  have fromRight : .right x ∈ align id id r1 r2 ↔ x ∈ r2 ∧ x ∉ r1.map id :=
    right_mem_align left right
  rw [List.map_id] at fromLeft fromRight
  rw [← fromLeft, ← fromRight, addCells, List.mem_filterMap]
  constructor
  · rintro ⟨step, member, stored⟩
    cases step with
    | left y =>
      cases stored
      exact .inl member
    | right y =>
      cases stored
      exact .inr member
    | both y z => cases stored
  · rintro (member | member)
    · exact ⟨_, member, rfl⟩
    · exact ⟨_, member, rfl⟩

theorem addCells_sorted {r1 r2 : List Nat} (left : r1.Pairwise (· < ·)) (right : r2.Pairwise (· < ·)) :
    (addCells r1 r2).Pairwise (· < ·) := by
  obtain ⟨ops, sum⟩ := addRow_nat 0 r1 r2
  exact addRow_sorted left right sum

/-! ## The lines of a merge -/

def RowOp.program : RowOp → List RowInstr
  | alone i => [.remove i.toNat]
  | destroyed i j => [.add j.toNat i.toNat, .remove i.toNat]
  | kept i j => [.add j.toNat i.toNat]

theorem addRowsUpdateIndex_exec {s : ReplayState Nat Nat} {i1 i2 : Nat} {j : Nat} {final : Rows Nat}
    (run : (RowInstr.add i1 i2).exec j s.rows = some final) (pivot : Index) :
    ∃ s', addRowsUpdateIndex s i1 i2 pivot = some s' ∧ s'.rows = final := by
  obtain ⟨r1, hr1, run⟩ := Option.bind_eq_some_iff.mp run
  obtain ⟨r2, hr2, run⟩ := Option.bind_eq_some_iff.mp run
  obtain ⟨ops, sum⟩ := addRow_nat j r1 r2
  rw [sum] at run
  cases run
  simp [addRowsUpdateIndex, hr1, hr2]

theorem runAddition_program {s : ReplayState Nat Nat} {op : RowOp} {j : Nat} {final : Rows Nat}
    (run : execRows j s.rows op.program = some final) (pivot : Option Index) :
    ∃ s', runAddition addRowsUpdateIndex s (op.addition pivot) = some s' ∧ s'.rows = final := by
  have removal {i : Nat} {rows : Rows Nat} (run : execRows j rows [.remove i] = some final) :
      Function.update rows i none = final := by
    simp only [execRows_cons, execRows_nil, Option.bind_fun_some, RowInstr.exec] at run
    obtain ⟨row, _, eq⟩ := Option.map_eq_some_iff.mp run
    exact eq
  cases op with
  | alone i => exact ⟨_, rfl, removal run⟩
  | kept i t =>
    simp only [RowOp.program, execRows_cons, execRows_nil, Option.bind_fun_some] at run
    obtain ⟨s', added, rows⟩ := addRowsUpdateIndex_exec run (pivot.getD (-1))
    refine ⟨s', ?_, rows⟩
    simp only [runAddition, RowOp.addition, RowOp.targets, RowOp.source, RowOp.destroy,
      List.foldlM_cons, List.foldlM_nil, added]
    rfl
  | destroyed i t =>
    obtain ⟨next, first, rest⟩ := Option.bind_eq_some_iff.mp run
    obtain ⟨s', added, rfl⟩ := addRowsUpdateIndex_exec first (pivot.getD (-1))
    refine ⟨s'.destroy i.toNat, ?_, removal rest⟩
    simp only [runAddition, RowOp.addition, RowOp.targets, RowOp.source, RowOp.destroy,
      List.foldlM_cons, List.foldlM_nil, added]
    rfl

theorem replay_program {s : ReplayState Nat Nat} {ops : List RowOp} {j : Nat} {final : Rows Nat}
    (small : ∀ op ∈ ops, op.source.toNat < 2 ^ 31 ∧ ∀ t ∈ op.targets, t.toNat < 2 ^ 31)
    (run : execRows j s.rows (ops.flatMap RowOp.program) = some final) (pivot : Option Index) :
    ∃ s', replay addRowsUpdateIndex s (ops.map fun op => op.line pivot) = some s' ∧
      s'.rows = final := by
  induction ops generalizing s with
  | nil => exact ⟨s, rfl, by simpa using run⟩
  | cons op ops ih =>
    rw [List.flatMap_cons, execRows_append] at run
    obtain ⟨next, first, rest⟩ := Option.bind_eq_some_iff.mp run
    obtain ⟨s', added, rfl⟩ := runAddition_program first pivot
    obtain ⟨source, targets⟩ := small op (by simp)
    have line : doAllAdds addRowsUpdateIndex s (op.line pivot) = some s' := by
      rw [doAllAdds, decodeLine_line_of_lt source targets pivot]
      exact added
    obtain ⟨s'', replayed, rows⟩ := ih (fun op member => small op (.tail _ member)) rest
    refine ⟨s'', ?_, rows⟩
    rw [replay, List.map_cons, List.foldlM_cons, line]
    exact replayed

end CadoNfs.Filter
