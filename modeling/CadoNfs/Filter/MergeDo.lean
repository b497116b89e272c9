import CadoNfs.Filter.History
import CadoNfs.Filter.Typerow

/-!
# A single merge

`merge_do` and `addFatherToSons` of `filter/merge.cpp` as a program of row operations, and what
the program does to the rows of the matrix.
-/

namespace CadoNfs.Filter
open Lib Typerow

abbrev Rows (α : Type) := Nat → Option (List α)

/-- A row of the transposed matrix `R`: the column `Rqinv[id]` and the rows
`Ri[Rp[id]], ..., Ri[Rp[id+1]-1]` that contain it, at least one. -/
structure Candidate where
  pivot : Nat
  ind : List Nat
  nonempty : ind ≠ []
  deriving DecidableEq

inductive RowInstr
  | add (t s : Nat)
  | report (ops : List RowOp)
  | remove (i : Nat)
  deriving DecidableEq

variable {α : Type}

def toIndex (i : Nat) : Index := BitVec.ofNat 32 i

def addFatherToSons (ind : List Nat) (edges : List (Nat × Nat)) : List RowInstr :=
  edges.reverse.map fun edge => .add (ind.getD edge.2 0) (ind.getD edge.1 0)

def historyOps (ind : List Nat) (edges : List (Nat × Nat)) : List RowOp :=
  (edges.mapIdx fun i edge =>
    if i = 0 then .destroyed (toIndex (ind.getD edge.1 0)) (toIndex (ind.getD edge.2 0))
    else .kept (toIndex (ind.getD edge.1 0)) (toIndex (ind.getD edge.2 0))).reverse

def AgreeOn (ind : List Nat) (rows rows' : Rows α) : Prop := ∀ i ∈ ind, rows i = rows' i

theorem AgreeOn.trans {ind : List Nat} {rows rows' rows'' : Rows α} (first : AgreeOn ind rows rows')
    (second : AgreeOn ind rows' rows'') : AgreeOn ind rows rows'' :=
  fun i member => (first i member).trans (second i member)

theorem AgreeOn.update {ind : List Nat} {rows rows' : Rows α} (agree : AgreeOn ind rows rows')
    (i : Nat) (row : Option (List α)) :
    AgreeOn ind (Function.update rows i row) (Function.update rows' i row) := by
  intro k member
  by_cases same : k = i
  · simp [same]
  · simp [same, agree k member]

variable [Typerow α]

def mergeTree (rows : Rows α) (c : Candidate) : List (Nat × Nat) :=
  minimalSpanningTree c.ind.length (fillRowAddMatrix rows c.ind c.pivot)

def mergeDo (rows : Rows α) (c : Candidate) : List RowInstr :=
  if c.ind.length = 1 then
    [.report [.alone (toIndex (c.ind.getD 0 0))], .remove (c.ind.getD 0 0)]
  else
    addFatherToSons c.ind (mergeTree rows c) ++
      [.report (historyOps c.ind (mergeTree rows c)), .remove (c.ind.getD 0 0)]

def RowInstr.touched : RowInstr → List Nat
  | add t s => [t, s]
  | report _ => []
  | remove i => [i]

def RowInstr.exec (j : Nat) (rows : Rows α) : RowInstr → Option (Rows α)
  | add t s =>
      (rows t).bind fun r1 => (rows s).bind fun r2 => (addRow j r1 r2).map fun result =>
        Function.update rows t (some result.1)
  | report _ => some rows
  | remove i => (rows i).map fun _ => Function.update rows i none

def execRows (j : Nat) (rows : Rows α) : List RowInstr → Option (Rows α)
  | [] => some rows
  | instr :: program => (instr.exec j rows).bind fun next => execRows j next program

@[simp] theorem execRows_nil (j : Nat) (rows : Rows α) : execRows j rows [] = some rows := rfl

@[simp] theorem execRows_cons (j : Nat) (rows : Rows α) (instr : RowInstr) (program : List RowInstr) :
    execRows j rows (instr :: program) =
      (instr.exec j rows).bind fun next => execRows j next program := rfl

theorem execRows_append (j : Nat) (rows : Rows α) (p q : List RowInstr) :
    execRows j rows (p ++ q) = (execRows j rows p).bind fun next => execRows j next q := by
  induction p generalizing rows with
  | nil => rfl
  | cons instr p ih => simp [ih, Option.bind_assoc]

/-! ## A program reads and writes the rows it touches only -/

def Within (ind : List Nat) (program : List RowInstr) : Prop :=
  ∀ instr ∈ program, ∀ i ∈ instr.touched, i ∈ ind

theorem exec_agree {ind : List Nat} {j : Nat} {rows rows' : Rows α} {instr : RowInstr}
    (touched : ∀ i ∈ instr.touched, i ∈ ind) (agree : AgreeOn ind rows rows') :
    Option.Rel (AgreeOn ind) (instr.exec j rows) (instr.exec j rows') := by
  cases instr with
  | add t s =>
    simp only [RowInstr.exec, ← agree t (touched t (by simp [RowInstr.touched])),
      ← agree s (touched s (by simp [RowInstr.touched]))]
    cases rows t with
    | none => exact .none
    | some r1 =>
      cases rows s with
      | none => exact .none
      | some r2 =>
        simp only [Option.bind_some]
        cases addRow j r1 r2 with
        | none => exact .none
        | some result => exact .some (agree.update t _)
  | report ops => exact .some agree
  | remove i =>
    simp only [RowInstr.exec, ← agree i (touched i (by simp [RowInstr.touched]))]
    cases rows i with
    | none => exact .none
    | some row => exact .some (agree.update i none)

theorem execRows_agree {ind : List Nat} {j : Nat} {rows rows' : Rows α} {program : List RowInstr}
    (within : Within ind program) (agree : AgreeOn ind rows rows') :
    Option.Rel (AgreeOn ind) (execRows j rows program) (execRows j rows' program) := by
  induction program generalizing rows rows' with
  | nil => exact .some agree
  | cons instr program ih =>
    have head := exec_agree (j := j) (within instr (by simp)) agree
    rw [execRows_cons, execRows_cons]
    cases first : instr.exec j rows with
    | none =>
      rw [first] at head
      cases second : instr.exec j rows' with
      | none => exact .none
      | some next' => rw [second] at head; cases head
    | some next =>
      rw [first] at head
      cases second : instr.exec j rows' with
      | none => rw [second] at head; cases head
      | some next' =>
        rw [second] at head
        cases head with
        | some same => exact ih (fun i hi => within i (.tail _ hi)) same

theorem exec_frame {ind : List Nat} {j : Nat} {rows next : Rows α} {instr : RowInstr}
    (touched : ∀ i ∈ instr.touched, i ∈ ind) (run : instr.exec j rows = some next) {i : Nat}
    (outside : i ∉ ind) : next i = rows i := by
  cases instr with
  | add t s =>
    have ne : i ≠ t := fun eq => outside (eq ▸ touched t (by simp [RowInstr.touched]))
    obtain ⟨r1, _, run⟩ := Option.bind_eq_some_iff.mp run
    obtain ⟨r2, _, run⟩ := Option.bind_eq_some_iff.mp run
    obtain ⟨result, _, rfl⟩ := Option.map_eq_some_iff.mp run
    exact Function.update_of_ne ne _ _
  | report ops =>
    cases run
    rfl
  | remove k =>
    have ne : i ≠ k := fun eq => outside (eq ▸ touched k (by simp [RowInstr.touched]))
    obtain ⟨row, _, rfl⟩ := Option.map_eq_some_iff.mp run
    exact Function.update_of_ne ne _ _

theorem execRows_frame {ind : List Nat} {j : Nat} {rows final : Rows α} {program : List RowInstr}
    (within : Within ind program) (run : execRows j rows program = some final) {i : Nat}
    (outside : i ∉ ind) : final i = rows i := by
  induction program generalizing rows with
  | nil =>
    cases run
    rfl
  | cons instr program ih =>
    obtain ⟨next, first, rest⟩ := Option.bind_eq_some_iff.mp run
    exact (ih (fun k hk => within k (.tail _ hk)) rest).trans
      (exec_frame (within instr (by simp)) first outside)

/-! ## The program of a merge -/

theorem mergeTree_bound {rows : Rows α} {c : Candidate} {edge : Nat × Nat}
    (member : edge ∈ mergeTree rows c) : edge.1 < c.ind.length ∧ edge.2 < c.ind.length := by
  obtain ⟨grows, targets⟩ := minimalSpanningTree_spec c.ind.length
    (fillRowAddMatrix rows c.ind c.pivot)
  have positive := List.length_pos_iff.mpr c.nonempty
  have target (t) (ht : t ∈ (mergeTree rows c).map Prod.snd) : t < c.ind.length := by
    have := List.mem_range'_1.mp (targets.mem_iff.mp ht)
    omega
  refine ⟨?_, target _ (List.mem_map_of_mem member)⟩
  rcases grows.sources member with root | source
  · rw [List.mem_singleton.mp root]
    exact positive
  · exact target _ source

theorem getD_mem {l : List Nat} {i : Nat} (bound : i < l.length) : l.getD i 0 ∈ l := by
  rw [List.getD_eq_getElem _ _ bound]
  exact List.getElem_mem bound

theorem mergeDo_within (rows : Rows α) (c : Candidate) : Within c.ind (mergeDo rows c) := by
  have root := getD_mem (List.length_pos_iff.mpr c.nonempty)
  intro instr member i touched
  unfold mergeDo at member
  split_ifs at member with single
  · simp only [List.mem_cons, List.not_mem_nil, or_false] at member
    rcases member with rfl | rfl
    · cases touched
    · simpa [RowInstr.touched] using List.mem_singleton.mp touched ▸ root
  · simp only [List.mem_append, List.mem_cons, List.not_mem_nil, or_false] at member
    rcases member with addition | rfl | rfl
    · obtain ⟨edge, inTree, rfl⟩ := List.mem_map.mp addition
      have bound := mergeTree_bound (List.mem_reverse.mp inTree)
      simp only [RowInstr.touched, List.mem_cons, List.not_mem_nil, or_false] at touched
      rcases touched with rfl | rfl
      · exact getD_mem bound.2
      · exact getD_mem bound.1
    · cases touched
    · exact List.mem_singleton.mp touched ▸ root

theorem mergeDo_congr {rows rows' : Rows α} {c : Candidate} (agree : AgreeOn c.ind rows rows') :
    mergeDo rows c = mergeDo rows' c := by
  have same : c.ind.map rows = c.ind.map rows' := List.map_congr_left agree
  unfold mergeDo mergeTree fillRowAddMatrix
  rw [same]

/-! ## The pivot column is eliminated -/

-- Along the edges from the last to the first, the rows of the tree grown so far are still the
-- original ones.
theorem execRows_tree {j : Nat} {rows final : Rows α} {ind : List Nat} (apart : ind.Nodup)
    {S : List Nat} {edges : List (Nat × Nat)} (grows : Grows S edges)
    (root : ∀ v ∈ S, v < ind.length)
    (bound : ∀ edge ∈ edges, edge.1 < ind.length ∧ edge.2 < ind.length)
    (run : execRows j rows (addFatherToSons ind edges) = some final) :
    (∀ v ∈ S, final (ind.getD v 0) = rows (ind.getD v 0)) ∧
      ∀ edge ∈ edges, ∃ r1 r2 result, rows (ind.getD edge.2 0) = some r1 ∧
        rows (ind.getD edge.1 0) = some r2 ∧ addRow j r1 r2 = some result ∧
        final (ind.getD edge.2 0) = some result.1 := by
  have different {v w : Nat} (hv : v < ind.length) (hw : w < ind.length) (ne : v ≠ w) :
      ind.getD v 0 ≠ ind.getD w 0 := by
    rw [List.getD_eq_getElem _ _ hv, List.getD_eq_getElem _ _ hw]
    exact fun eq => ne ((apart.getElem_inj_iff).mp eq)
  induction edges generalizing S final with
  | nil =>
    cases run
    simp
  | cons edge edges ih =>
    obtain ⟨s, t⟩ := edge
    obtain ⟨source, target, tail⟩ := grows
    have edgeBound := bound (s, t) (by simp)
    have split : addFatherToSons ind ((s, t) :: edges) =
        addFatherToSons ind edges ++ [.add (ind.getD t 0) (ind.getD s 0)] := by
      simp [addFatherToSons]
    rw [split, execRows_append] at run
    obtain ⟨middle, later, last⟩ := Option.bind_eq_some_iff.mp run
    obtain ⟨unchanged, added⟩ := ih tail
      (fun v member => (List.mem_append.mp member).elim (root v) fun new =>
        List.mem_singleton.mp new ▸ edgeBound.2)
      (fun edge member => bound edge (.tail _ member)) later
    simp only [execRows_cons, RowInstr.exec, execRows_nil, Option.bind_fun_some] at last
    obtain ⟨r1, hr1, last⟩ := Option.bind_eq_some_iff.mp last
    obtain ⟨r2, hr2, last⟩ := Option.bind_eq_some_iff.mp last
    obtain ⟨result, sum, rfl⟩ := Option.map_eq_some_iff.mp last
    rw [unchanged t (by simp)] at hr1
    rw [unchanged s (by simp [source])] at hr2
    refine ⟨fun v member => ?_, fun e member => ?_⟩
    · have ne : v ≠ t := fun eq => target (eq ▸ member)
      rw [Function.update_of_ne (different (root v member) edgeBound.2 ne)]
      exact unchanged v (by simp [member])
    · rcases List.mem_cons.mp member with rfl | old
      · exact ⟨r1, r2, result, hr1, hr2, sum, by simp⟩
      · obtain ⟨q1, q2, other, hq1, hq2, sum', value⟩ := added e old
        refine ⟨q1, q2, other, hq1, hq2, sum', ?_⟩
        have ne : e.2 ≠ t := fun eq => tail.target_notMem old (by simp [eq])
        rw [Function.update_of_ne
          (different (bound e (.tail _ old)).2 edgeBound.2 ne)]
        exact value

def SortedRows (rows : Rows α) : Prop := ∀ i row, rows i = some row → RowSorted row

def rowTable (table : List (List α)) : Rows α := fun i => table[i]?

theorem rowTable_sorted {table : List (List α)} (sorted : ∀ row ∈ table, RowSorted row) :
    SortedRows (rowTable table) :=
  fun _ _ live => sorted _ (List.mem_of_getElem? live)

omit [Typerow α] in
theorem rowTable_bounded {table : List (List α)} {i : Nat} (outside : table.length ≤ i) :
    rowTable table i = none :=
  List.getElem?_eq_none outside

theorem SortedRows.update {rows : Rows α} (sorted : SortedRows rows) {i : Nat}
    {new : Option (List α)} (newSorted : ∀ row, new = some row → RowSorted row) :
    SortedRows (Function.update rows i new) := by
  intro k row value
  by_cases same : k = i
  · subst same
    exact newSorted row (by simpa using value)
  · exact sorted k row (by simpa [same] using value)

theorem execRows_sorted {j : Nat} {rows final : Rows α} {program : List RowInstr}
    (sorted : SortedRows rows) (run : execRows j rows program = some final) : SortedRows final := by
  induction program generalizing rows with
  | nil =>
    cases run
    exact sorted
  | cons instr program ih =>
    obtain ⟨next, first, rest⟩ := Option.bind_eq_some_iff.mp run
    refine ih ?_ rest
    cases instr with
    | add t s =>
      obtain ⟨r1, hr1, first⟩ := Option.bind_eq_some_iff.mp first
      obtain ⟨r2, hr2, first⟩ := Option.bind_eq_some_iff.mp first
      obtain ⟨result, added, rfl⟩ := Option.map_eq_some_iff.mp first
      refine sorted.update fun row value => ?_
      cases value
      exact addRow_sorted (sorted t r1 hr1) (sorted s r2 hr2) added
    | report ops =>
      cases first
      exact sorted
    | remove i =>
      obtain ⟨row, _, rfl⟩ := Option.map_eq_some_iff.mp first
      exact sorted.update (by simp)

theorem mergeDo_pivot {rows final : Rows α} {c : Candidate} (apart : c.ind.Nodup)
    (sorted : SortedRows rows)
    (contain : ∀ i ∈ c.ind, ∀ row, rows i = some row → c.pivot ∈ columns row)
    (run : execRows c.pivot rows (mergeDo rows c) = some final) {i : Nat} (member : i ∈ c.ind)
    {row : List α} (live : final i = some row) : c.pivot ∉ columns row := by
  have positive := List.length_pos_iff.mpr c.nonempty
  obtain ⟨k, inside, rfl⟩ := List.getElem_of_mem member
  have value : c.ind[k] = c.ind.getD k 0 := (List.getD_eq_getElem _ _ inside).symm
  unfold mergeDo at run
  split_ifs at run with single
  · obtain rfl : k = 0 := by omega
    simp only [execRows_cons, RowInstr.exec, Option.bind_some, execRows_nil, Option.bind_fun_some]
      at run
    obtain ⟨removed, _, rfl⟩ := Option.map_eq_some_iff.mp run
    rw [value] at live
    simp at live
  · rw [execRows_append] at run
    obtain ⟨middle, tree, last⟩ := Option.bind_eq_some_iff.mp run
    simp only [execRows_cons, RowInstr.exec, Option.bind_some, execRows_nil, Option.bind_fun_some]
      at last
    obtain ⟨removed, _, rfl⟩ := Option.map_eq_some_iff.mp last
    by_cases root : k = 0
    · subst root
      rw [value] at live
      simp at live
    obtain ⟨grows, targets⟩ := minimalSpanningTree_spec c.ind.length
      (fillRowAddMatrix rows c.ind c.pivot)
    have isTarget : k ∈ (mergeTree rows c).map Prod.snd :=
      targets.mem_iff.mpr (List.mem_range'_1.mpr (by omega))
    obtain ⟨edge, inTree, rfl⟩ := List.mem_map.mp isTarget
    obtain ⟨_, added⟩ := execRows_tree apart grows
      (fun v hv => List.mem_singleton.mp hv ▸ positive) (fun edge hedge => mergeTree_bound hedge) tree
    obtain ⟨r1, r2, result, hr1, hr2, sum, store⟩ := added edge inTree
    have ne : c.ind.getD edge.2 0 ≠ c.ind.getD 0 0 := by
      rw [← value, List.getD_eq_getElem _ _ positive]
      exact fun eq => root ((apart.getElem_inj_iff).mp eq)
    rw [value, Function.update_of_ne ne, store] at live
    cases live
    have source := getD_mem (mergeTree_bound inTree).1
    exact addRow_pivot (sorted _ _ hr1) (sorted _ _ hr2)
      (contain _ (value ▸ member) _ hr1) (contain _ source _ hr2) sum

end CadoNfs.Filter
