import CadoNfs.Filter.AddRowExact
import CadoNfs.Filter.PrimTree
import CadoNfs.Filter.MergeLoop

/-!
# The fill-in of a merge

The value that `merge_do` of `filter/merge.cpp` returns, against the change of the number of cells
of the matrix; `apply_merges` adds these values to `mat->tot_weight`.
-/

namespace CadoNfs.Filter
open Lib Typerow CountedCells

def pageDataSize : Nat := 2 ^ 18 - 4

variable {α : Type} {n : Nat}

def rowLength (rows : Rows α) (i : Nat) : Nat := ((rows i).getD []).length

def totalLength (nrows : Nat) (rows : Rows α) : Nat := ∑ i ∈ Finset.range nrows, rowLength rows i

variable [Typerow α]

def weightsDefined (rows : Rows α) (c : Candidate) : Prop :=
  ∀ i < c.ind.length, ∀ k < i, (coeffs c.pivot ((rows (c.ind.getD k 0)).getD [])
    ((rows (c.ind.getD i 0)).getD [])).isSome

instance (rows : Rows α) (c : Candidate) : Decidable (weightsDefined rows c) :=
  inferInstanceAs (Decidable (∀ i < _, ∀ k < i, _))

def mergeDoValue (rows : Rows α) (c : Candidate) : Option (BitVec 32) :=
  if c.ind.length = 1 then some (-3)
  else if weightsDefined rows c then
    (Prim.minimalSpanningTree c.ind.length fun i j => fillRowAddMatrix rows c.ind c.pivot i j).map
      fun tree => c.ind.foldl (fun w i => w - BitVec.ofNat 32 (rowLength rows i)) tree.1
  else none

structure Stored [CountedCells α] (nrows : Nat) (rows : Rows α) : Prop where
  bounded : ∀ i, nrows ≤ i → rows i = none
  sorted : SortedRows rows
  cells : ∀ i row, rows i = some row → ∀ x ∈ row, cell x
  fits : ∀ i row, rows i = some row → row.length + 2 ≤ pageDataSize

structure Lists (rows : Rows α) (c : Candidate) : Prop where
  apart : c.ind.Nodup
  contain : ∀ i ∈ c.ind, Contains rows i c.pivot
  level : c.ind.length ≤ mergeLevelMax

def lengthChange (rows final : Rows α) (i : Nat) : Int := rowLength final i - rowLength rows i

omit [Typerow α] in
theorem totalLength_sub {nrows : Nat} {rows final : Rows α} {blocks : List (List Nat)}
    (apart : blocks.flatten.Nodup) (known : ∀ i ∈ blocks.flatten, i < nrows)
    (frame : ∀ i, i ∉ blocks.flatten → final i = rows i) :
    (totalLength nrows final : Int) - totalLength nrows rows =
      (blocks.map fun block => (block.map (lengthChange rows final)).sum).sum := by
  have inside : blocks.flatten.toFinset ⊆ Finset.range nrows := fun i member =>
    Finset.mem_range.mpr (known i (List.mem_toFinset.mp member))
  calc (totalLength nrows final : Int) - totalLength nrows rows
      = ∑ i ∈ Finset.range nrows, lengthChange rows final i := by
        simp only [totalLength, lengthChange, Finset.sum_sub_distrib, Nat.cast_sum]
    _ = ∑ i ∈ blocks.flatten.toFinset, lengthChange rows final i := by
        refine (Finset.sum_subset inside fun i _ outside => ?_).symm
        rw [lengthChange, rowLength, frame i (by simpa using outside), ← rowLength, sub_self]
    _ = (blocks.flatten.map (lengthChange rows final)).sum := List.sum_toFinset _ apart
    _ = (blocks.map fun block => (block.map (lengthChange rows final)).sum).sum := by
        rw [List.map_flatten, List.sum_flatten, List.map_map]
        rfl

omit [Typerow α] in
theorem sum_lengthChange (rows final : Rows α) (ind : List Nat) :
    (ind.map (lengthChange rows final)).sum =
      ((ind.map (rowLength final)).sum : Int) - (ind.map (rowLength rows)).sum := by
  induction ind with
  | nil => rfl
  | cons i ind ih =>
    simp only [List.map_cons, List.sum_cons, ih, lengthChange, Nat.cast_add]
    ring

theorem foldl_sub (w : BitVec 32) (lengths : List Nat) :
    lengths.foldl (fun w l => w - BitVec.ofNat 32 l) w = w - BitVec.ofNat 32 lengths.sum := by
  induction lengths generalizing w with
  | nil => simp
  | cons l lengths ih =>
    rw [List.foldl_cons, ih, List.sum_cons, BitVec.ofNat_add]
    simp only [BitVec.sub_eq_add_neg, BitVec.neg_add, BitVec.add_assoc]

theorem toInt_sub_ofNat {a b : Nat} (ha : a < 2 ^ 31) (hb : b < 2 ^ 31) :
    (BitVec.ofNat 32 a - BitVec.ofNat 32 b).toInt = a - b := by
  rw [BitVec.toInt_sub, AddRow.toInt_ofNat ha, AddRow.toInt_ofNat hb, Int.bmod_def]
  split_ifs <;> omega

omit [Typerow α] in
theorem Grows.ne {S : List Nat} {edges : List (Nat × Nat)} (grows : Grows S edges) {edge : Nat × Nat}
    (member : edge ∈ edges) : edge.1 ≠ edge.2 := by
  induction edges generalizing S with
  | nil => cases member
  | cons e edges ih =>
    obtain ⟨source, target, tail⟩ := grows
    rcases List.mem_cons.mp member with rfl | later
    · exact fun eq => target (eq ▸ source)
    · exact ih tail later

theorem mergeDo_tree {rows final : Rows α} {c : Candidate} (apart : c.ind.Nodup)
    (many : c.ind.length ≠ 1) (run : execRows c.pivot rows (mergeDo rows c) = some final) :
    final (c.ind.getD 0 0) = none ∧ ∀ edge ∈ mergeTree rows c, ∃ r1 r2 sum ops,
      rows (c.ind.getD edge.2 0) = some r1 ∧ rows (c.ind.getD edge.1 0) = some r2 ∧
      addRow c.pivot r1 r2 = some (sum, ops) ∧ final (c.ind.getD edge.2 0) = some sum := by
  have positive := List.length_pos_iff.mpr c.nonempty
  unfold mergeDo at run
  rw [if_neg many, execRows_append] at run
  obtain ⟨middle, tree, last⟩ := Option.bind_eq_some_iff.mp run
  simp only [execRows_cons, RowInstr.exec, Option.bind_some, execRows_nil, Option.bind_fun_some] at last
  obtain ⟨removed, _, rfl⟩ := Option.map_eq_some_iff.mp last
  obtain ⟨grows, targets⟩ := minimalSpanningTree_spec c.ind.length (fillRowAddMatrix rows c.ind c.pivot)
  obtain ⟨_, added⟩ := execRows_tree apart grows
    (fun v hv => List.mem_singleton.mp hv ▸ positive) (fun edge hedge => mergeTree_bound hedge) tree
  refine ⟨Function.update_self .., fun edge member => ?_⟩
  obtain ⟨r1, r2, result, live1, live2, sum, store⟩ := added edge member
  have inTree : edge.2 ∈ List.range' 1 (c.ind.length - 1) :=
    targets.mem_iff.mp (List.mem_map_of_mem member)
  have notRoot : edge.2 ≠ 0 := by
    have := List.mem_range'_1.mp inTree
    omega
  have other : c.ind.getD edge.2 0 ≠ c.ind.getD 0 0 := by
    rw [List.getD_eq_getElem _ _ (mergeTree_bound member).2, List.getD_eq_getElem _ _ positive]
    exact fun eq => notRoot ((apart.getElem_inj_iff).mp eq)
  exact ⟨r1, r2, result.1, result.2, live1, live2, sum, (Function.update_of_ne other ..).trans store⟩

section
variable [CountedCells α] {nrows : Nat} {rows final : Rows α} {c : Candidate}
  (stored : Stored nrows rows) (lists : Lists rows c)
include stored

theorem fillRowAddMatrix_le (i j : Nat) :
    fillRowAddMatrix rows c.ind c.pivot i j ≤ 2 * pageDataSize := by
  have short (k : Nat) : (((c.ind.map rows).getD k none).getD []).length ≤ pageDataSize := by
    rcases Nat.lt_or_ge k c.ind.length with inside | outside
    · rw [List.getD_eq_getElem _ _ (by simpa using inside), List.getElem_map]
      cases live : rows c.ind[k] with
      | none => simp
      | some row =>
        have := stored.fits _ row live
        simp only [Option.getD_some]
        omega
    · rw [List.getD_eq_default _ _ (by simpa using outside)]
      simp
  have le := weightSum_le c.pivot (((c.ind.map rows).getD (min i j) none).getD [])
    (((c.ind.map rows).getD (max i j) none).getD [])
  have first := short (min i j)
  have second := short (max i j)
  unfold fillRowAddMatrix
  omega

omit stored [CountedCells α] in
theorem Lists.pivot_mem (lists : Lists rows c) {k : Nat} (hk : k < c.ind.length) {row : List α}
    (live : rows (c.ind.getD k 0) = some row) : c.pivot ∈ columns row := by
  obtain ⟨row', live', member⟩ := lists.contain _ (getD_mem hk)
  rw [live] at live'
  cases live'
  exact member

include lists

theorem fillRowAddMatrix_edge (defined : weightsDefined rows c) {s t : Nat} (hs : s < c.ind.length)
    (ht : t < c.ind.length) (ne : s ≠ t) {r1 r2 sum : List α} {ops : List WtOp}
    (live1 : rows (c.ind.getD t 0) = some r1) (live2 : rows (c.ind.getD s 0) = some r2)
    (added : addRow c.pivot r1 r2 = some (sum, ops)) :
    fillRowAddMatrix rows c.ind c.pivot s t = sum.length := by
  have row {k : Nat} (hk : k < c.ind.length) : (c.ind.map rows).getD k none = rows (c.ind.getD k 0) := by
    rw [List.getD_eq_getElem _ _ (by simpa using hk), List.getElem_map, List.getD_eq_getElem _ _ hk]
  have pivot1 := lists.pivot_mem ht live1
  have pivot2 := lists.pivot_mem hs live2
  have sorted1 := stored.sorted _ _ live1
  have sorted2 := stored.sorted _ _ live2
  have cells1 := stored.cells _ _ live1
  have cells2 := stored.cells _ _ live2
  have count := weightSum_eq sorted1 sorted2 pivot1 pivot2 cells1 cells2 added
  rcases Nat.lt_or_gt_of_ne ne with lt | gt
  · have both := defined t ht s lt
    rw [live1, live2] at both
    have swap := weightSum_swap sorted1 sorted2 pivot1 pivot2 cells1 cells2 added both
    rw [fillRowAddMatrix, min_eq_left lt.le, max_eq_right lt.le, row hs, row ht, live1, live2]
    exact swap.trans count
  · rw [fillRowAddMatrix, min_eq_right gt.le, max_eq_left gt.le, row hs, row ht, live1, live2]
    exact count

theorem tree_lengths (defined : weightsDefined rows c) (many : c.ind.length ≠ 1)
    (run : execRows c.pivot rows (mergeDo rows c) = some final) :
    (c.ind.map (rowLength final)).sum =
      Prim.treeWeight (fillRowAddMatrix rows c.ind c.pivot) (mergeTree rows c) := by
  have positive := List.length_pos_iff.mpr c.nonempty
  obtain ⟨grows, targets⟩ := minimalSpanningTree_spec c.ind.length (fillRowAddMatrix rows c.ind c.pivot)
  obtain ⟨removed, added⟩ := mergeDo_tree lists.apart many run
  have root : rowLength final (c.ind.getD 0 0) = 0 := by
    rw [rowLength, removed]
    rfl
  have son (edge : Nat × Nat) (member : edge ∈ mergeTree rows c) :
      rowLength final (c.ind.getD edge.2 0) = fillRowAddMatrix rows c.ind c.pivot edge.1 edge.2 := by
    obtain ⟨r1, r2, sum, ops, live1, live2, result, store⟩ := added edge member
    obtain ⟨hs, ht⟩ := mergeTree_bound member
    rw [fillRowAddMatrix_edge stored lists defined hs ht (grows.ne member) live1 live2 result]
    simp only [rowLength, store, Option.getD_some]
  have positions : c.ind = (List.range c.ind.length).map fun k => c.ind.getD k 0 := by
    apply List.ext_getElem (by simp)
    intro k h1 _
    rw [List.getElem_map, List.getElem_range, List.getD_eq_getElem _ _ h1]
  have vertices : List.range c.ind.length = 0 :: List.range' 1 (c.ind.length - 1) := by
    rw [List.range_eq_range', ← Nat.succ_pred_eq_of_pos positive, List.range'_succ]
    simp
  have order : (c.ind.map (rowLength final)).Perm
      (0 :: (mergeTree rows c).map fun edge => fillRowAddMatrix rows c.ind c.pivot edge.1 edge.2) := by
    calc c.ind.map (rowLength final)
        = (List.range c.ind.length).map fun k => rowLength final (c.ind.getD k 0) := by
          conv_lhs => rw [positions]
          rw [List.map_map]
          rfl
      _ = 0 :: (List.range' 1 (c.ind.length - 1)).map fun k => rowLength final (c.ind.getD k 0) := by
          rw [vertices, List.map_cons, root]
      _ |>.Perm (0 :: ((mergeTree rows c).map Prod.snd).map fun k => rowLength final (c.ind.getD k 0)) :=
          (targets.symm.map _).cons 0
      _ = 0 :: (mergeTree rows c).map fun edge => fillRowAddMatrix rows c.ind c.pivot edge.1 edge.2 := by
          rw [List.map_map]
          exact congrArg _ (List.map_congr_left fun edge member => son edge member)
  rw [order.sum_eq, List.sum_cons, Nat.zero_add]
  rfl

/-- The call returns the change of the number of cells, unless it removes a single row that has not
three cells. -/
theorem mergeDoValue_iff {v : BitVec 32} (value : mergeDoValue rows c = some v)
    (run : execRows c.pivot rows (mergeDo rows c) = some final) :
    v.toInt = (c.ind.map (lengthChange rows final)).sum ↔
      (c.ind.length = 1 → rowLength rows (c.ind.getD 0 0) = 3) := by
  unfold mergeDoValue at value
  split_ifs at value with single defined
  · cases value
    obtain ⟨i, same⟩ := List.length_eq_one_iff.mp single
    unfold mergeDo at run
    rw [if_pos single] at run
    simp only [execRows_cons, RowInstr.exec, Option.bind_some, execRows_nil, Option.bind_fun_some] at run
    obtain ⟨removed, _, rfl⟩ := Option.map_eq_some_iff.mp run
    have after : rowLength (Function.update rows i none) i = 0 := by simp [rowLength]
    simp only [same, List.length_singleton, List.getD_cons_zero, List.map_cons, List.map_nil,
      List.sum_cons, List.sum_nil, lengthChange, after, forall_const]
    rw [show (-3 : BitVec 32).toInt = -3 from rfl]
    omega
  · have two : 2 ≤ c.ind.length := by
      have := List.length_pos_iff.mpr c.nonempty
      omega
    have level := lists.level
    have below (i j : Nat) : ((fillRowAddMatrix rows c.ind c.pivot i j : Nat) : Int) < Prim.intMax := by
      have := fillRowAddMatrix_le (c := c) stored i j
      unfold pageDataSize at this
      unfold Prim.intMax
      omega
    rw [Prim.minimalSpanningTree_natCast below two level, Option.map_some] at value
    have lengths := tree_lengths stored lists defined single run
    have count : (mergeTree rows c).length = c.ind.length - 1 := by
      have targets := (minimalSpanningTree_spec c.ind.length (fillRowAddMatrix rows c.ind c.pivot)).2
      have same := targets.length_eq
      rw [List.length_map, List.length_range'] at same
      exact same
    have heavy : Prim.treeWeight (fillRowAddMatrix rows c.ind c.pivot) (mergeTree rows c) < 2 ^ 31 := by
      have bound := List.sum_le_card_nsmul
        ((mergeTree rows c).map fun edge => fillRowAddMatrix rows c.ind c.pivot edge.1 edge.2)
        (2 * pageDataSize) fun v member => by
          obtain ⟨edge, _, rfl⟩ := List.mem_map.mp member
          exact fillRowAddMatrix_le stored _ _
      simp only [List.length_map, count, smul_eq_mul] at bound
      unfold Prim.treeWeight
      unfold mergeLevelMax at level
      unfold pageDataSize at bound
      omega
    have long : (c.ind.map (rowLength rows)).sum < 2 ^ 31 := by
      have bound := List.sum_le_card_nsmul (c.ind.map (rowLength rows)) pageDataSize fun v member => by
        obtain ⟨i, _, rfl⟩ := List.mem_map.mp member
        cases live : rows i with
        | none => simp [rowLength, live]
        | some row =>
          have := stored.fits i row live
          simp only [rowLength, live, Option.getD_some]
          omega
      simp only [List.length_map, smul_eq_mul] at bound
      unfold mergeLevelMax at level
      unfold pageDataSize at bound
      omega
    have folded := foldl_sub (BitVec.ofNat 32
      (Prim.treeWeight (fillRowAddMatrix rows c.ind c.pivot) (mergeTree rows c))) (c.ind.map (rowLength rows))
    rw [List.foldl_map] at folded
    have result : v = BitVec.ofNat 32 (Prim.treeWeight (fillRowAddMatrix rows c.ind c.pivot) (mergeTree rows c)) -
        BitVec.ofNat 32 (c.ind.map (rowLength rows)).sum :=
      (Option.some.inj value).symm.trans folded
    rw [result, toInt_sub_ofNat heavy long, sum_lengthChange, lengths]
    simp [single]

end

end CadoNfs.Filter
