import CadoNfs.Lib.Align

/-!
# Rows and their addition

`typerow_t` is a column in a factorization build and a column with an exponent in a discrete
logarithm build; `Typerow` collects what `merge` does with a cell in either. `add_row`,
`remove_row` and the updates of `mat->wt` they ask for are then the same for both
(`filter/merge.cpp`, `filter/sparse.h`).
-/

namespace CadoNfs.Filter
open Lib

def mergeLevelMax : Nat := 32

/-- The cells of a row. `coeffs j r1 r2` are the multipliers of an addition with pivot column `j`
(`none` when an assertion fails or a division traps), `sumCell` is what a step of the walk over
both rows stores in the sum and `accepts` is its `check_exponent`. -/
class Typerow (α : Type) where
  forDl : Bool
  rowCell : α → Nat
  setRowCell : α → Nat → α
  Coeffs : Type
  coeffs : Nat → List α → List α → Option Coeffs
  sumCell : Coeffs → Aligned α α → Option α
  accepts : Coeffs → Aligned α α → Bool
  weightCell : Coeffs → Aligned α α → Nat
  rowCell_setRowCell : ∀ x j, rowCell (setRowCell x j) = j
  sumCell_key : ∀ c step x, sumCell c step = some x → rowCell x = step.key rowCell rowCell
  sumCell_left : ∀ c x, sumCell c (.left x) ≠ none
  sumCell_right : ∀ c y, sumCell c (.right y) ≠ none
  sumCell_pivot : ∀ j r1 r2 c x y, r1.Pairwise (rowCell · < rowCell ·) →
    r2.Pairwise (rowCell · < rowCell ·) → coeffs j r1 r2 = some c → x ∈ r1 → y ∈ r2 →
    rowCell x = j → rowCell y = j → accepts c (.both x y) → sumCell c (.both x y) = none

open Typerow

/-- A factorization build: `typerow_t` is `index_t`. -/
instance : Typerow Nat where
  forDl := false
  rowCell := id
  setRowCell _ j := j
  Coeffs := Unit
  coeffs _ _ _ := some ()
  sumCell
    | _, .left x => some x
    | _, .right y => some y
    | _, .both _ _ => none
  accepts _ _ := true
  weightCell
    | _, .both _ _ => 0
    | _, _ => 1
  rowCell_setRowCell _ _ := rfl
  sumCell_key c step x stored := by cases step <;> simp_all [Aligned.key]
  sumCell_left _ _ := by simp
  sumCell_right _ _ := by simp
  sumCell_pivot _ _ _ _ _ _ _ _ _ _ _ _ _ _ := rfl

variable {α : Type} [Typerow α]

def columns (row : List α) : List Nat := row.map rowCell

theorem columns_nat (row : List Nat) : columns row = row := List.map_id row

def RowSorted (row : List α) : Prop := row.Pairwise (rowCell · < rowCell ·)

instance (row : List α) : Decidable (RowSorted row) := inferInstanceAs (Decidable (row.Pairwise _))

inductive WtOp
  | increase (j : Nat)
  | decrease (j : Nat)
  deriving DecidableEq

namespace WtOp

def column : WtOp → Nat
  | increase j | decrease j => j

def update (wt : Nat → Nat) : WtOp → Nat → Nat
  | increase j => Function.update wt j ((wt j + 1) % 256)
  | decrease j => Function.update wt j ((wt j + 255) % 256)

end WtOp

def walk (r1 r2 : List α) : List (Aligned α α) := align rowCell rowCell r1 r2

def wtOp (c : Coeffs α) : Aligned α α → Option WtOp
  | .left _ => none
  | .right y => some (.increase (rowCell y))
  | .both x y =>
      match sumCell c (.both x y) with
      | none => some (.decrease (rowCell x))
      | some _ => none

def addRow (j : Nat) (r1 r2 : List α) : Option (List α × List WtOp) :=
  (coeffs j r1 r2).bind fun c =>
    if (walk r1 r2).all (accepts c) then
      some ((walk r1 r2).filterMap (sumCell c), (walk r1 r2).filterMap (wtOp c))
    else none

def removeRow (row : List α) : List WtOp := (columns row).map .decrease

def weightSum (j : Nat) (r1 r2 : List α) : Nat :=
  match coeffs j r1 r2 with
  | some c => ((walk r1 r2).map (weightCell c)).sum
  | none => 0

/-! ## What an addition does to the set of columns -/

theorem RowSorted.columns_nodup {row : List α} (sorted : RowSorted row) : (columns row).Nodup := by
  rw [columns, List.nodup_iff_pairwise_ne, List.pairwise_map]
  exact sorted.imp fun lt => lt.ne

theorem addRow_eq_some_iff {j : Nat} {r1 r2 : List α} {result : List α × List WtOp} :
    addRow j r1 r2 = some result ↔ ∃ c, coeffs j r1 r2 = some c ∧
      (∀ step ∈ walk r1 r2, accepts c step) ∧
      result = ((walk r1 r2).filterMap (sumCell c), (walk r1 r2).filterMap (wtOp c)) := by
  unfold addRow
  constructor
  · intro h
    obtain ⟨c, hc, result⟩ := Option.bind_eq_some_iff.mp h
    by_cases all : (walk r1 r2).all (accepts c)
    · rw [if_pos all] at result
      exact ⟨c, hc, List.all_eq_true.mp all, (Option.some.inj result).symm⟩
    · simp [all] at result
  · rintro ⟨c, hc, all, rfl⟩
    rw [hc, Option.bind_some, if_pos (List.all_eq_true.mpr all)]

theorem addRow_sorted {j : Nat} {r1 r2 sum : List α} {ops : List WtOp} (left : RowSorted r1)
    (right : RowSorted r2) (added : addRow j r1 r2 = some (sum, ops)) : RowSorted sum := by
  obtain ⟨c, _, _, result⟩ := addRow_eq_some_iff.mp added
  cases result
  unfold RowSorted
  rw [List.pairwise_filterMap]
  apply (align_sorted left right).imp
  intro s t lt x hx y hy
  rw [sumCell_key c s x hx, sumCell_key c t y hy]
  exact lt

theorem addRow_columns {j k : Nat} {r1 r2 sum : List α} {ops : List WtOp}
    (added : addRow j r1 r2 = some (sum, ops)) (member : k ∈ columns sum) :
    k ∈ columns r1 ∨ k ∈ columns r2 := by
  obtain ⟨c, _, _, result⟩ := addRow_eq_some_iff.mp added
  cases result
  obtain ⟨x, hx, rfl⟩ := List.mem_map.mp member
  obtain ⟨step, hstep, stored⟩ := List.mem_filterMap.mp hx
  rw [sumCell_key c step x stored]
  exact key_mem_of_mem hstep

theorem addRow_increase {j k : Nat} {r1 r2 sum : List α} {ops : List WtOp}
    (added : addRow j r1 r2 = some (sum, ops)) (member : .increase k ∈ ops) : k ∈ columns sum := by
  obtain ⟨c, _, _, result⟩ := addRow_eq_some_iff.mp added
  cases result
  obtain ⟨step, hstep, op⟩ := List.mem_filterMap.mp member
  cases step with
  | left x => simp [wtOp] at op
  | right y =>
    obtain ⟨z, hz⟩ := Option.ne_none_iff_exists'.mp (sumCell_right c y)
    have key := sumCell_key c _ z hz
    simp only [wtOp, Option.some.injEq, WtOp.increase.injEq] at op
    exact List.mem_map.mpr ⟨z, List.mem_filterMap.mpr ⟨_, hstep, hz⟩, key.trans op⟩
  | both x y =>
    simp only [wtOp] at op
    split at op <;> simp at op

theorem addRow_pivot {j : Nat} {r1 r2 sum : List α} {ops : List WtOp} (left : RowSorted r1)
    (right : RowSorted r2) (inLeft : j ∈ columns r1) (inRight : j ∈ columns r2)
    (added : addRow j r1 r2 = some (sum, ops)) : j ∉ columns sum := by
  obtain ⟨c, hc, all, result⟩ := addRow_eq_some_iff.mp added
  cases result
  obtain ⟨x, hx, pivotLeft⟩ := List.mem_map.mp inLeft
  obtain ⟨y, hy, pivotRight⟩ := List.mem_map.mp inRight
  have both : .both x y ∈ walk r1 r2 :=
    (both_mem_align left right).mpr ⟨hx, hy, pivotLeft.trans pivotRight.symm⟩
  have cancels := sumCell_pivot j r1 r2 c x y left right hc hx hy pivotLeft pivotRight (all _ both)
  intro member
  obtain ⟨z, hz, pivot⟩ := List.mem_map.mp member
  obtain ⟨step, hstep, stored⟩ := List.mem_filterMap.mp hz
  have key : step.key rowCell rowCell = (Aligned.both x y).key rowCell rowCell := by
    rw [← sumCell_key c step z stored, pivot]
    exact pivotLeft.symm
  rw [align_key_injective left right hstep both key, cancels] at stored
  cases stored

/-- A list of updates describes how a set of columns changes: a column is increased when it enters
the set and decreased when it leaves. -/
def Leads : Finset Nat → List WtOp → Finset Nat → Prop
  | before, [], after => before = after
  | before, .increase j :: ops, after => j ∉ before ∧ Leads (insert j before) ops after
  | before, .decrease j :: ops, after => j ∈ before ∧ Leads (before.erase j) ops after

theorem union_columns_cons (seen : Finset Nat) (x : α) (row : List α) :
    seen ∪ (columns (x :: row)).toFinset = insert (rowCell x) seen ∪ (columns row).toFinset := by
  rw [columns, List.map_cons, List.toFinset_cons, Finset.union_insert, Finset.insert_union]
  rfl

private theorem leads_of_steps (c : Coeffs α) (steps : List (Aligned α α)) (seen : Finset Nat)
    (keys : ∀ step ∈ steps, ∀ x y, step = .both x y → rowCell x = rowCell y)
    (apart : (steps.map (Aligned.key rowCell rowCell)).Nodup)
    (fresh : ∀ step ∈ steps, step.key rowCell rowCell ∉ seen) :
    Leads (seen ∪ (columns (steps.filterMap Aligned.left?)).toFinset)
      (steps.filterMap (wtOp c)) (seen ∪ (columns (steps.filterMap (sumCell c))).toFinset) := by
  induction steps generalizing seen with
  | nil => rfl
  | cons step steps ih =>
    rw [List.map_cons, List.nodup_cons] at apart
    have newKey := fresh step (.head _)
    have later (s) (hs : s ∈ steps) : s.key rowCell rowCell ≠ step.key rowCell rowCell :=
      fun eq => apart.1 (List.mem_map.mpr ⟨s, hs, eq⟩)
    have tailKeys := fun s hs => keys s (.tail _ hs)
    have tailFresh := fun s hs => fresh s (.tail _ hs)
    have ihInsert := ih (insert (step.key rowCell rowCell) seen) tailKeys apart.2 fun s hs again =>
      (Finset.mem_insert.mp again).elim (later s hs) (tailFresh s hs)
    have notLeft : step.key rowCell rowCell ∉ columns (steps.filterMap Aligned.left?) := by
      intro member
      obtain ⟨x, hx, eq⟩ := List.mem_map.mp member
      obtain ⟨s, hs, value⟩ := List.mem_filterMap.mp hx
      refine later s hs ?_
      cases s with
      | left y =>
        cases value
        exact eq
      | right y => cases value
      | both y z =>
        cases value
        exact eq
    have notSeen : step.key rowCell rowCell ∉ seen ∪ (columns (steps.filterMap Aligned.left?)).toFinset := fun there =>
      (Finset.mem_union.mp there).elim newKey fun there => notLeft (List.mem_toFinset.mp there)
    cases step with
    | left x =>
      obtain ⟨z, hz⟩ := Option.ne_none_iff_exists'.mp (sumCell_left c x)
      have same : rowCell z = rowCell x := sumCell_key c _ z hz
      rw [List.filterMap_cons_none (show wtOp c (.left x) = none from rfl), List.filterMap_cons_some hz,
        List.filterMap_cons_some (show Aligned.left? (.left x) = some x from rfl), union_columns_cons,
        union_columns_cons, same]
      exact ihInsert
    | right y =>
      obtain ⟨z, hz⟩ := Option.ne_none_iff_exists'.mp (sumCell_right c y)
      have same : rowCell z = rowCell y := sumCell_key c _ z hz
      rw [List.filterMap_cons_some (show wtOp c (.right y) = some (.increase (rowCell y)) from rfl),
        List.filterMap_cons_some hz, List.filterMap_cons_none (show Aligned.left? (.right y) = none from rfl),
        union_columns_cons, same]
      refine ⟨notSeen, ?_⟩
      rw [← Finset.insert_union]
      exact ihInsert
    | both x y =>
      rw [List.filterMap_cons_some (show Aligned.left? (.both x y) = some x from rfl), union_columns_cons]
      cases hz : sumCell c (.both x y) with
      | none =>
        have op : wtOp c (.both x y) = some (.decrease (rowCell x)) := by simp [wtOp, hz]
        rw [List.filterMap_cons_some op, List.filterMap_cons_none hz]
        refine ⟨Finset.mem_union_left _ (Finset.mem_insert_self _ _), ?_⟩
        have back := Finset.erase_insert notSeen
        simp only [Aligned.key] at back
        rw [Finset.insert_union, back]
        exact ih seen tailKeys apart.2 tailFresh
      | some z =>
        have same : rowCell z = rowCell x := sumCell_key c _ z hz
        have op : wtOp c (.both x y) = none := by simp [wtOp, hz]
        rw [List.filterMap_cons_none op, List.filterMap_cons_some hz, union_columns_cons, same]
        exact ihInsert

theorem addRow_leads {j : Nat} {r1 r2 sum : List α} {ops : List WtOp} (left : RowSorted r1)
    (right : RowSorted r2) (added : addRow j r1 r2 = some (sum, ops)) :
    Leads (columns r1).toFinset ops (columns sum).toFinset := by
  obtain ⟨c, _, _, result⟩ := addRow_eq_some_iff.mp added
  cases result
  have steps := leads_of_steps c (walk r1 r2) ∅
    (fun step hstep x y both => by
      subst both
      exact key_eq_of_both_mem hstep)
    (by
      rw [List.nodup_iff_pairwise_ne, List.pairwise_map]
      exact (align_sorted left right).imp fun lt => lt.ne)
    (by simp)
  simpa [walk, align_left] using steps

theorem removeRow_leads {row : List α} (sorted : RowSorted row) :
    Leads (columns row).toFinset (removeRow row) ∅ := by
  have nodup := sorted.columns_nodup
  unfold removeRow
  generalize columns row = cols at nodup
  induction cols with
  | nil => rfl
  | cons j cols ih =>
    rw [List.nodup_cons] at nodup
    refine ⟨by simp, ?_⟩
    rw [List.toFinset_cons, Finset.erase_insert (by simpa using nodup.1)]
    exact ih nodup.2

end CadoNfs.Filter

/-!
# The spanning tree of a merge

`fillRowAddMatrix` and `minimalSpanningTree` of `filter/mst.c`: Prim's algorithm over the rows of a
merge, the weight of an edge being the weight of the sum of its two rows.
-/

namespace CadoNfs.Filter
open Lib Typerow

variable {α : Type} [Typerow α]

-- `A[i][j]` is computed for `i < j` and copied to `A[j][i]`; a discarded row (`NULL`) counts as
-- empty.
def fillRowAddMatrix (rows : Nat → Option (List α)) (ind : List Nat) (ideal : Nat) (i j : Nat) : Nat :=
  weightSum ideal (((ind.map rows).getD (min i j) none).getD [])
    (((ind.map rows).getD (max i j) none).getD [])

/-- The double loop over `S` and `T`: the positions of the first edge of minimal weight, `none`
standing for `wmin = INT_MAX`. -/
def closestEdge (A : Nat → Nat → Nat) (S T : List Nat) : Option (Nat × Nat) :=
  ((List.range S.length) ×ˢ (List.range T.length)).foldl (fun best edge =>
    match best with
    | none => some edge
    | some (imin, jmin) =>
        if A (S.getD edge.1 0) (T.getD edge.2 0) < A (S.getD imin 0) (T.getD jmin 0) then some edge
        else best) none

def swapRemove (T : List Nat) (jmin : Nat) : List Nat :=
  (T.set jmin (T.getD (T.length - 1) 0)).dropLast

def growTree (A : Nat → Nat → Nat) : Nat → List Nat → List Nat → List (Nat × Nat)
  | 0, _, _ => []
  | k + 1, S, T =>
      match closestEdge A S T with
      | none => []
      | some (imin, jmin) =>
          let s := S.getD imin 0
          let t := T.getD jmin 0
          (s, t) :: growTree A k (S ++ [t]) (swapRemove T jmin)

def minimalSpanningTree (m : Nat) (A : Nat → Nat → Nat) : List (Nat × Nat) :=
  growTree A (m - 1) [0] (List.range' 1 (m - 1))

/-! ## The edges grow a tree -/

theorem closestEdge_mem (A : Nat → Nat → Nat) (S T : List Nat) (left : S ≠ []) (right : T ≠ []) :
    ∃ imin jmin, closestEdge A S T = some (imin, jmin) ∧ imin < S.length ∧ jmin < T.length := by
  have fold (edges : List (Nat × Nat)) (best : Option (Nat × Nat))
      (bounded : ∀ edge ∈ edges, edge.1 < S.length ∧ edge.2 < T.length)
      (start : ∀ edge ∈ best, edge.1 < S.length ∧ edge.2 < T.length) (some? : edges ≠ [] ∨ best ≠ none) :
      ∃ edge, edges.foldl (fun best edge =>
        match best with
        | none => some edge
        | some (imin, jmin) =>
            if A (S.getD edge.1 0) (T.getD edge.2 0) < A (S.getD imin 0) (T.getD jmin 0) then some edge
            else best) best = some edge ∧ edge.1 < S.length ∧ edge.2 < T.length := by
    induction edges generalizing best with
    | nil =>
      obtain ⟨edge, rfl⟩ := Option.ne_none_iff_exists'.mp (some?.resolve_left (by simp))
      exact ⟨edge, rfl, start edge rfl⟩
    | cons edge edges ih =>
      rw [List.foldl_cons]
      apply ih _ fun e he => bounded e (.tail _ he)
      · have head := bounded edge (by simp)
        cases best with
        | none => simpa using head
        | some previous =>
          simp only
          split_ifs
          · simpa using head
          · exact start
      · right
        cases best with
        | none => simp
        | some previous =>
          simp only
          split_ifs <;> simp
  obtain ⟨⟨imin, jmin⟩, found, bounds⟩ := fold (List.range S.length ×ˢ List.range T.length) none
    (fun edge member => by simpa using List.mem_product.mp member) (by simp)
    (.inl fun empty => by
      have first : ((0, 0) : Nat × Nat) ∈ List.range S.length ×ˢ List.range T.length :=
        List.mem_product.mpr ⟨List.mem_range.mpr (List.length_pos_iff.mpr left),
          List.mem_range.mpr (List.length_pos_iff.mpr right)⟩
      simp [empty] at first)
  exact ⟨imin, jmin, found, bounds⟩

theorem swapRemove_perm (T : List Nat) {j : Nat} (bound : j < T.length) :
    (T.getD j 0 :: swapRemove T j).Perm T := by
  obtain ⟨init, last, rfl⟩ := T.eq_nil_or_concat.resolve_left (by rintro rfl; simp at bound)
  have lastValue : (init ++ [last]).getD ((init ++ [last]).length - 1) 0 = last := by simp
  unfold swapRemove
  rw [List.concat_eq_append, lastValue]
  rcases Nat.lt_or_ge j init.length with inside | atEnd
  · have value : (init ++ [last]).getD j 0 = init[j] := by
      rw [List.getD_eq_getElem _ _ (by simp; omega), List.getElem_append_left inside]
    rw [value, List.set_append_left _ _ inside, List.dropLast_concat,
      List.set_eq_take_append_cons_drop, if_pos inside]
    calc (init[j] :: (init.take j ++ last :: init.drop (j + 1))).Perm
          (last :: (init.take j ++ init[j] :: init.drop (j + 1))) :=
          (List.perm_middle.cons _).trans ((List.Perm.swap _ _ _).trans (List.perm_middle.symm.cons _))
      _ = last :: init := by rw [← List.drop_eq_getElem_cons inside, List.take_append_drop]
      _ |>.Perm (init ++ [last]) := (List.perm_append_singleton _ _).symm
  · obtain rfl : j = init.length := by
      simp at bound
      omega
    rw [List.set_append_right _ _ (le_refl _)]
    simpa using (List.perm_append_singleton last init).symm

def Grows : List Nat → List (Nat × Nat) → Prop
  | _, [] => True
  | S, (s, t) :: edges => s ∈ S ∧ t ∉ S ∧ Grows (S ++ [t]) edges

theorem growTree_spec (A : Nat → Nat → Nat) (k : Nat) (S T : List Nat) (nonempty : S ≠ [])
    (count : T.length = k) (apart : (S ++ T).Nodup) :
    Grows S (growTree A k S T) ∧ ((growTree A k S T).map Prod.snd).Perm T := by
  induction k generalizing S T with
  | zero => simp [growTree, Grows, List.length_eq_zero_iff.mp count]
  | succ k ih =>
    have remaining : T ≠ [] := by rintro rfl; simp at count
    obtain ⟨imin, jmin, found, inS, inT⟩ := closestEdge_mem A S T nonempty remaining
    have perm := swapRemove_perm T inT
    have s_mem : S.getD imin 0 ∈ S := by
      rw [List.getD_eq_getElem _ _ inS]
      exact List.getElem_mem inS
    have moved : (S ++ [T.getD jmin 0] ++ swapRemove T jmin).Nodup := by
      rw [List.append_assoc, List.singleton_append]
      exact ((perm.append_left S).nodup_iff).mpr apart
    have t_new : T.getD jmin 0 ∉ S := by
      rw [List.append_assoc, List.nodup_append] at moved
      exact fun member => moved.2.2 _ member _ (by simp) rfl
    have length : (swapRemove T jmin).length = k := by
      have := perm.length_eq
      simp at this
      omega
    obtain ⟨grows, targets⟩ := ih (S ++ [T.getD jmin 0]) (swapRemove T jmin) (by simp) length moved
    simp only [growTree, found, List.map_cons]
    exact ⟨⟨s_mem, t_new, grows⟩, (targets.cons _).trans perm⟩

theorem minimalSpanningTree_spec (m : Nat) (A : Nat → Nat → Nat) :
    Grows [0] (minimalSpanningTree m A) ∧
      ((minimalSpanningTree m A).map Prod.snd).Perm (List.range' 1 (m - 1)) :=
  growTree_spec A (m - 1) [0] (List.range' 1 (m - 1)) (by simp) (by simp) (by
    rw [List.singleton_append, List.nodup_cons]
    exact ⟨by simp, List.nodup_range'⟩)

theorem Grows.sources {S : List Nat} {edges : List (Nat × Nat)} (grows : Grows S edges)
    {edge : Nat × Nat} (member : edge ∈ edges) :
    edge.1 ∈ S ∨ edge.1 ∈ edges.map Prod.snd := by
  induction edges generalizing S with
  | nil => cases member
  | cons e edges ih =>
    obtain ⟨source, _, tail⟩ := grows
    rcases List.mem_cons.mp member with rfl | later
    · exact .inl source
    · rcases ih tail later with inTree | target
      · rcases List.mem_append.mp inTree with old | new
        · exact .inl old
        · exact .inr (by simp [List.mem_singleton.mp new])
      · exact .inr (.tail _ target)

theorem Grows.target_notMem {S : List Nat} {edges : List (Nat × Nat)} (grows : Grows S edges)
    {edge : Nat × Nat} (member : edge ∈ edges) : edge.2 ∉ S := by
  induction edges generalizing S with
  | nil => cases member
  | cons e edges ih =>
    obtain ⟨_, target, tail⟩ := grows
    rcases List.mem_cons.mp member with rfl | later
    · exact target
    · exact fun old => ih tail later (List.mem_append_left _ old)

end CadoNfs.Filter
