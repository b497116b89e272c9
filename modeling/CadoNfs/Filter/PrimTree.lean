import CadoNfs.Lib.Combination
import CadoNfs.Lib.SpanningTrees
import CadoNfs.Filter.Typerow

/-!
# Prim's algorithm on any matrix

`minimalSpanningTree` of `filter/mst.c` with the weight that it returns, for a matrix of `int` entries.
-/

namespace CadoNfs.Filter.Prim
open Lib

def intMax : Int := 2 ^ 31 - 1

def closestEdge (A : Nat → Nat → Int) (S T : List Nat) : Int × Option (Nat × Nat) :=
  ((List.range S.length) ×ˢ (List.range T.length)).foldl (fun best edge =>
    if A (S.getD edge.1 0) (T.getD edge.2 0) < best.1 then
      (A (S.getD edge.1 0) (T.getD edge.2 0), some edge)
    else best) (intMax, none)

def growTree (A : Nat → Nat → Int) :
    Nat → BitVec 32 → List Nat → List Nat → Option (BitVec 32 × List (Nat × Nat))
  | 0, w, _, _ => some (w, [])
  | k + 1, w, S, T =>
      match closestEdge A S T with
      | (_, none) => none
      | (wmin, some (imin, jmin)) =>
          if wmin < intMax then
            (growTree A k (w + BitVec.ofInt 32 wmin) (S ++ [T.getD jmin 0]) (swapRemove T jmin)).map
              fun result => (result.1, (S.getD imin 0, T.getD jmin 0) :: result.2)
          else none

/-- The weight and the edges `(start[i], end[i])`; `none` when an assertion fails. The sum of the
weights is an `int`. -/
def minimalSpanningTree (m : Nat) (A : Nat → Nat → Int) : Option (BitVec 32 × List (Nat × Nat)) :=
  if m - 1 < mergeLevelMax ∧ 2 ≤ m then growTree A (m - 1) 0 [0] (List.range' 1 (m - 1)) else none

theorem closestEdge_spec {A : Nat → Nat → Int} {S T : List Nat} (left : S ≠ []) (right : T ≠ [])
    (below : ∀ s ∈ S, ∀ t ∈ T, A s t < intMax) :
    ∃ imin jmin, imin < S.length ∧ jmin < T.length ∧
      closestEdge A S T = (A (S.getD imin 0) (T.getD jmin 0), some (imin, jmin)) ∧
      ∀ s ∈ S, ∀ t ∈ T, A (S.getD imin 0) (T.getD jmin 0) ≤ A s t := by
  let weight (edge : Nat × Nat) : Int := A (S.getD edge.1 0) (T.getD edge.2 0)
  let better (best : Int × Option (Nat × Nat)) (edge : Nat × Nat) : Int × Option (Nat × Nat) :=
    if weight edge < best.1 then (weight edge, some edge) else best
  have scan (edges : List (Nat × Nat)) (best : Int × Option (Nat × Nat)) :
      (edges.foldl better best = best ∨ ∃ e ∈ edges, edges.foldl better best = (weight e, some e)) ∧
        (edges.foldl better best).1 ≤ best.1 ∧ ∀ e ∈ edges, (edges.foldl better best).1 ≤ weight e := by
    induction edges generalizing best with
    | nil => simp
    | cons edge edges ih =>
      obtain ⟨result, le, all⟩ := ih (better best edge)
      rw [List.foldl_cons]
      have head : (better best edge).1 ≤ best.1 ∧ (better best edge).1 ≤ weight edge := by
        simp only [better]
        split_ifs with less
        · exact ⟨less.le, le_rfl⟩
        · exact ⟨le_rfl, not_lt.mp less⟩
      refine ⟨?_, le.trans head.1, fun e member => ?_⟩
      · rcases result with same | ⟨e, member, value⟩
        · rw [same]
          simp only [better]
          split_ifs
          · exact .inr ⟨edge, by simp, rfl⟩
          · exact .inl rfl
        · exact .inr ⟨e, List.mem_cons_of_mem _ member, value⟩
      · rcases List.mem_cons.mp member with rfl | later
        · exact le.trans head.2
        · exact all e later
  obtain ⟨result, _, all⟩ := scan (List.range S.length ×ˢ List.range T.length) (intMax, none)
  have covered {s t : Nat} (hs : s ∈ S) (ht : t ∈ T) :
      ∃ e ∈ List.range S.length ×ˢ List.range T.length, weight e = A s t := by
    obtain ⟨i, hi, rfl⟩ := List.getElem_of_mem hs
    obtain ⟨j, hj, rfl⟩ := List.getElem_of_mem ht
    refine ⟨(i, j), List.mem_product.mpr ⟨List.mem_range.mpr hi, List.mem_range.mpr hj⟩, ?_⟩
    simp only [weight, List.getD_eq_getElem _ _ hi, List.getD_eq_getElem _ _ hj]
  obtain ⟨s, hs⟩ := List.exists_mem_of_ne_nil S left
  obtain ⟨t, ht⟩ := List.exists_mem_of_ne_nil T right
  rcases result with same | ⟨e, member, value⟩
  · obtain ⟨e, member, weighs⟩ := covered hs ht
    have le := all e member
    rw [same, weighs] at le
    exact absurd (below s hs t ht) (not_lt.mpr le)
  · obtain ⟨inS, inT⟩ := List.mem_product.mp member
    refine ⟨e.1, e.2, List.mem_range.mp inS, List.mem_range.mp inT, value, fun s hs t ht => ?_⟩
    obtain ⟨other, member', weighs⟩ := covered hs ht
    have le := all other member'
    rw [value, weighs] at le
    exact le

/-! ## Weights that are counts -/

theorem closestEdge_natCast {A : Nat → Nat → Nat} (below : ∀ i j, (A i j : Int) < intMax)
    (S T : List Nat) :
    (closestEdge (fun i j => A i j) S T).2 = Filter.closestEdge A S T ∧
      ∀ edge, Filter.closestEdge A S T = some edge →
        (closestEdge (fun i j => A i j) S T).1 = A (S.getD edge.1 0) (T.getD edge.2 0) := by
  let weight (best : Option (Nat × Nat)) : Int :=
    best.elim intMax fun edge => A (S.getD edge.1 0) (T.getD edge.2 0)
  let closer (best : Option (Nat × Nat)) (edge : Nat × Nat) : Option (Nat × Nat) :=
    best.elim (some edge) fun previous =>
      if A (S.getD edge.1 0) (T.getD edge.2 0) < A (S.getD previous.1 0) (T.getD previous.2 0) then some edge
      else best
  have scan (edges : List (Nat × Nat)) (best : Option (Nat × Nat)) :
      edges.foldl (fun best edge =>
        if (A (S.getD edge.1 0) (T.getD edge.2 0) : Int) < best.1 then
          ((A (S.getD edge.1 0) (T.getD edge.2 0) : Int), some edge)
        else best) (weight best, best) =
      (weight (edges.foldl closer best), edges.foldl closer best) := by
    induction edges generalizing best with
    | nil => rfl
    | cons edge edges ih =>
      rw [List.foldl_cons, List.foldl_cons, ← ih]
      cases best with
      | none =>
        have first : (A (S.getD edge.1 0) (T.getD edge.2 0) : Int) < weight none := below _ _
        rw [if_pos first]
        rfl
      | some previous =>
        simp only [weight, closer, Option.elim_some, Nat.cast_lt]
        split_ifs <;> rfl
  have all := scan (List.range S.length ×ˢ List.range T.length) none
  have same : Filter.closestEdge A S T = (List.range S.length ×ˢ List.range T.length).foldl closer none := by
    unfold Filter.closestEdge
    congr 1
    funext best edge
    cases best <;> rfl
  have unfolded : closestEdge (fun i j => A i j) S T =
      (weight (Filter.closestEdge A S T), Filter.closestEdge A S T) := by
    rw [same]
    exact all
  rw [unfolded]
  refine ⟨rfl, fun edge found => ?_⟩
  simp only [weight, found, Option.elim_some]

def treeWeight (A : Nat → Nat → Nat) (edges : List (Nat × Nat)) : Nat :=
  (edges.map fun edge => A edge.1 edge.2).sum

theorem growTree_natCast {A : Nat → Nat → Nat} (below : ∀ i j, (A i j : Int) < intMax) (k : Nat)
    (w : BitVec 32) (S T : List Nat) (nonempty : S ≠ []) (count : T.length = k) :
    growTree (fun i j => A i j) k w S T =
      some (w + BitVec.ofNat 32 (treeWeight A (Filter.growTree A k S T)), Filter.growTree A k S T) := by
  induction k generalizing w S T with
  | zero => simp [growTree, Filter.growTree, treeWeight]
  | succ k ih =>
    have remaining : T ≠ [] := by rintro rfl; simp at count
    obtain ⟨imin, jmin, found, _, inT⟩ := Filter.closestEdge_mem A S T nonempty remaining
    obtain ⟨position, weight⟩ := closestEdge_natCast below S T
    have same : closestEdge (fun i j => A i j) S T =
        ((A (S.getD imin 0) (T.getD jmin 0) : Int), some (imin, jmin)) :=
      Prod.ext (weight _ found) (position.trans found)
    have length : (swapRemove T jmin).length = k := by
      have := (swapRemove_perm T inT).length_eq
      simp at this
      omega
    rw [growTree, same, Filter.growTree, found]
    simp only [if_pos (below _ _), ih _ (S ++ [T.getD jmin 0]) (swapRemove T jmin) (by simp) length,
      Option.map_some, treeWeight, List.map_cons, List.sum_cons, BitVec.ofInt_natCast, BitVec.ofNat_add,
      BitVec.add_assoc]

theorem minimalSpanningTree_natCast {A : Nat → Nat → Nat} (below : ∀ i j, (A i j : Int) < intMax)
    {m : Nat} (two : 2 ≤ m) (level : m ≤ mergeLevelMax) :
    minimalSpanningTree m (fun i j => A i j) =
      some (BitVec.ofNat 32 (treeWeight A (Filter.minimalSpanningTree m A)),
        Filter.minimalSpanningTree m A) := by
  rw [minimalSpanningTree, if_pos ⟨by omega, two⟩,
    growTree_natCast below (m - 1) 0 [0] (List.range' 1 (m - 1)) (by simp) (by simp),
    show (0 : BitVec 32) = 0#32 from rfl, BitVec.zero_add]
  rfl

variable {m : Nat}

def edgeWeight (A : Nat → Nat → Int) (e : Sym2 (Fin m)) : Int := A e.inf e.sup

theorem edgeWeight_mk {A : Nat → Nat → Int} (symmetric : ∀ i < m, ∀ j < m, A i j = A j i)
    (i j : Fin m) : edgeWeight A s(i, j) = A i j := by
  unfold edgeWeight
  rcases le_total i j with le | le
  · simp [Sym2.inf_mk, Sym2.sup_mk, le]
  · simp [Sym2.inf_mk, Sym2.sup_mk, le, symmetric j j.2 i i.2]

def values (edges : List (Fin m × Fin m)) : List (Nat × Nat) := edges.map fun e => (e.1.val, e.2.val)

theorem growTree_spec {A : Nat → Nat → Int} (symmetric : ∀ i < m, ∀ j < m, A i j = A j i)
    (below : ∀ i < m, ∀ j < m, A i j < intMax) (k : Nat) (w : BitVec 32) (S T : List Nat)
    (nonempty : S ≠ []) (count : T.length = k) (apart : (S ++ T).Nodup)
    (vertices : ∀ v, v ∈ S ++ T ↔ v < m) :
    ∃ edges : List (Fin m × Fin m),
      growTree A k w S T =
        some (w + BitVec.ofInt 32 (edges.map fun e => edgeWeight A s(e.1, e.2)).sum, values edges) ∧
      GrowsMinimally (edgeWeight A) {v | v.val ∈ S} edges ∧
      (edges.map fun e => e.2.val).Perm T := by
  induction k generalizing w S T with
  | zero =>
    obtain rfl := List.length_eq_zero_iff.mp count
    exact ⟨[], by simp [growTree, values], trivial, .refl _⟩
  | succ k ih =>
    have remaining : T ≠ [] := by rintro rfl; simp at count
    have inside {v : Nat} (member : v ∈ S ++ T) : v < m := (vertices v).mp member
    obtain ⟨imin, jmin, hi, hj, found, minimal⟩ := closestEdge_spec nonempty remaining
      fun s hs t ht => below s (inside (by simp [hs])) t (inside (by simp [ht]))
    have s_mem : S.getD imin 0 ∈ S := by
      rw [List.getD_eq_getElem _ _ hi]
      exact List.getElem_mem hi
    have t_mem : T.getD jmin 0 ∈ T := by
      rw [List.getD_eq_getElem _ _ hj]
      exact List.getElem_mem hj
    have perm := swapRemove_perm T hj
    generalize source : S.getD imin 0 = s at *
    generalize target : T.getD jmin 0 = t at *
    have sBound := inside (List.mem_append_left T s_mem)
    have tBound := inside (List.mem_append_right S t_mem)
    have moved : (S ++ [t] ++ swapRemove T jmin).Perm (S ++ T) := by
      rw [List.append_assoc, List.singleton_append]
      exact perm.append_left S
    have disjoint {v : Nat} (inS : v ∈ S) (inT : v ∈ T) : False :=
      (List.nodup_append.mp apart).2.2 v inS v inT rfl
    have length : (swapRemove T jmin).length = k := by
      have := perm.length_eq
      simp at this
      omega
    obtain ⟨edges, run, grows, targets⟩ := ih (w + BitVec.ofInt 32 (A s t)) (S ++ [t])
      (swapRemove T jmin) (by simp) length (moved.nodup_iff.mpr apart)
      fun v => moved.mem_iff.trans (vertices v)
    refine ⟨(⟨s, sBound⟩, ⟨t, tBound⟩) :: edges, ?_, ⟨s_mem, fun old => disjoint old t_mem, ?_, ?_⟩, ?_⟩
    · rw [growTree, found]
      simp only [source, target, if_pos (below s sBound t tBound), run, Option.map_some, List.map_cons, List.sum_cons,
        values, edgeWeight_mk symmetric, BitVec.ofInt_add, BitVec.add_assoc]
    · intro a ha b hb
      rw [edgeWeight_mk symmetric, edgeWeight_mk symmetric]
      have inT : b.val ∈ T := by
        rcases List.mem_append.mp ((vertices b).mpr b.2) with old | new
        · exact absurd old hb
        · exact new
      exact minimal a ha b inT
    · have same : insert (⟨t, tBound⟩ : Fin m) {v | v.val ∈ S} = {v | v.val ∈ S ++ [t]} := by
        ext v
        simp [Fin.ext_iff, or_comm]
      rw [same]
      exact grows
    · exact (targets.cons t).trans perm

theorem grows_sources {w : Sym2 (Fin m) → Int} {S : Set (Fin m)} {edges : List (Fin m × Fin m)}
    (grows : GrowsMinimally w S edges) {i : Nat} (bound : i < edges.length) :
    edges[i].1 ∈ S ∨ ∃ k, ∃ earlier : k < i, edges[k].2 = edges[i].1 := by
  induction edges generalizing S i with
  | nil => cases bound
  | cons edge edges ih =>
    cases i with
    | zero => exact .inl grows.1
    | succ i =>
      rcases ih grows.2.2.2 (Nat.lt_of_succ_lt_succ bound) with (new | old) | ⟨k, earlier, same⟩
      · exact .inr ⟨0, by omega, new.symm⟩
      · exact .inl old
      · exact .inr ⟨k + 1, by omega, same⟩

def treeWeights (m : Nat) (A : Nat → Nat → Int) : Set Int :=
  {W | ∃ F : Finset (Sym2 (Fin m)), IsSpanningTree F ∧ W = ∑ e ∈ F, edgeWeight A e}

/-- The edges form a minimum spanning tree, each vertex but the first is the end of one of them, and
the value is the weight of the tree reduced to an `int`. -/
theorem minimalSpanningTree_minimum {A : Nat → Nat → Int} (two : 2 ≤ m) (level : m ≤ mergeLevelMax)
    (symmetric : ∀ i < m, ∀ j < m, A i j = A j i) (below : ∀ i < m, ∀ j < m, A i j < intMax) :
    ∃ (W : Int) (edges : List (Fin m × Fin m)),
      minimalSpanningTree m A = some (BitVec.ofInt 32 W, values edges) ∧
      IsLeast (treeWeights m A) W ∧ (FitsInt32 W → (BitVec.ofInt 32 W).toInt = W) ∧
      edges.length = m - 1 ∧ IsSpanningTree (edgesOf edges) ∧
      ∑ e ∈ edgesOf edges, edgeWeight A e = W ∧
      (edges.map fun e => e.2.val).Perm (List.range' 1 (m - 1)) ∧
      ∀ (i : Nat) (bound : i < edges.length),
        edges[i].1.val = 0 ∨ ∃ k, ∃ earlier : k < i, edges[k].2 = edges[i].1 := by
  obtain ⟨edges, run, grows, targets⟩ := growTree_spec symmetric below (m - 1) 0 [0]
    (List.range' 1 (m - 1)) (by simp) (by simp)
    (by
      rw [List.singleton_append, List.nodup_cons]
      exact ⟨by simp, List.nodup_range'⟩)
    fun v => by
      rw [List.singleton_append, List.mem_cons, List.mem_range'_1]
      omega
  have count : edges.length = m - 1 := by simpa using targets.length_eq
  let root : Fin m := ⟨0, by omega⟩
  have single : {v : Fin m | v.val ∈ [0]} = {root} := by
    ext v
    simp [root, Fin.ext_iff]
  rw [single] at grows
  obtain ⟨tree, weight, minimal⟩ := grows.minimum (by rw [count, Nat.card_fin]; omega)
  refine ⟨_, edges, ?_, ⟨⟨_, tree, weight.symm⟩, ?_⟩, FitsInt32.toInt, count, tree, weight, targets, fun i bound => ?_⟩
  · rw [minimalSpanningTree, if_pos ⟨by omega, two⟩, run, show (0 : BitVec 32) = 0#32 from rfl,
      BitVec.zero_add]
  · rintro _ ⟨F, other, rfl⟩
    exact minimal F other
  · rcases grows_sources grows bound with first | earlier
    · exact .inl (congrArg Fin.val first)
    · exact .inr earlier

theorem minimalSpanningTree_minimum_four :
    ∃ (W : Int) (edges : List (Fin 4 × Fin 4)),
      minimalSpanningTree 4 (fun i j => (i * j : Nat)) = some (BitVec.ofInt 32 W, values edges) ∧
      IsLeast (treeWeights 4 fun i j => (i * j : Nat)) W :=
  have ⟨W, edges, run, least, _⟩ := minimalSpanningTree_minimum (by decide) (by decide)
    (fun i _ j _ => by rw [Nat.mul_comm])
    (show ∀ i < 4, ∀ j < 4, ((i * j : Nat) : Int) < intMax by decide)
  ⟨W, edges, run, least⟩

def ReturnsMinimum (m : Nat) (A : Nat → Nat → Int) : Prop :=
  ∃ result, minimalSpanningTree m A = some result ∧ IsLeast (treeWeights m A) result.1.toInt

theorem not_returnsMinimum_large :
    ¬ ∀ (m : Nat) (A : Nat → Nat → Int), 2 ≤ m → m ≤ mergeLevelMax →
      (∀ i < m, ∀ j < m, A i j = A j i) → (∀ i < m, ∀ j < m, A i j < intMax) → ReturnsMinimum m A := by
  intro all
  obtain ⟨result, run, ⟨F, _, weight⟩, _⟩ := all 3 (fun _ _ => 2 ^ 30) (by decide) (by decide)
    (fun _ _ _ _ => rfl) fun _ _ _ _ => by decide
  have value : minimalSpanningTree 3 (fun _ _ => 2 ^ 30) =
      some (BitVec.ofInt 32 (2 ^ 31), [(0, 1), (0, 2)]) := by decide
  obtain rfl := Option.some.inj (value.symm.trans run)
  have negative : (BitVec.ofInt 32 (2 ^ 31)).toInt < 0 := by decide
  have positive : 0 ≤ ∑ e ∈ F, edgeWeight (fun _ _ => 2 ^ 30) e :=
    Finset.sum_nonneg fun _ _ => by simp [edgeWeight]
  rw [weight] at negative
  exact absurd positive (not_le.mpr negative)

end CadoNfs.Filter.Prim
