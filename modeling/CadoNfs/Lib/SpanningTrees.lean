import Mathlib

/-!
# Minimum spanning trees

The spanning trees of a complete graph as sets of edges, and why the greedy choice is right: a
tree that is grown along edges of minimal weight across the cut can be completed to a spanning tree
that weighs no more than any given one.
-/

namespace CadoNfs.Lib
open SimpleGraph

variable {V : Type*}

structure IsSpanningTree (F : Finset (Sym2 V)) : Prop where
  loopless : ∀ e ∈ F, ¬ e.IsDiag
  tree : (fromEdgeSet (F : Set (Sym2 V))).IsTree

theorem exists_crossing {G : SimpleGraph V} {S : Set V} {u t : V} (p : G.Walk u t) (path : p.IsPath)
    (inside : u ∈ S) (outside : t ∉ S) :
    ∃ a ∈ S, ∃ b ∉ S, G.Adj a b ∧ (∃ q : G.Walk u a, s(a, b) ∉ q.edges) ∧
      ∃ q : G.Walk b t, s(a, b) ∉ q.edges := by
  induction p with
  | nil => exact absurd inside outside
  | cons adj p ih =>
    rename_i u x t
    obtain ⟨tail, fresh⟩ := (Walk.cons_isPath_iff adj p).mp path
    by_cases next : x ∈ S
    · obtain ⟨a, ha, b, hb, edge, ⟨q, avoids⟩, rest⟩ := ih tail next outside
      refine ⟨a, ha, b, hb, edge, ⟨.cons adj q, ?_⟩, rest⟩
      rw [Walk.edges_cons, List.mem_cons, not_or]
      refine ⟨fun same => ?_, avoids⟩
      rcases Sym2.eq_iff.mp same with ⟨_, rfl⟩ | ⟨_, rfl⟩
      · exact hb next
      · exact hb inside
    · refine ⟨u, inside, x, next, adj, ⟨.nil, by simp⟩, p, fun member => fresh ?_⟩
      exact p.fst_mem_support_of_mem_edges member

namespace IsSpanningTree

theorem edgeSet_eq {F : Finset (Sym2 V)} (tree : IsSpanningTree F) :
    (fromEdgeSet (F : Set (Sym2 V))).edgeSet = F := by
  rw [edgeSet_fromEdgeSet]
  ext e
  simpa using fun member => tree.loopless e member

theorem card [Finite V] {F : Finset (Sym2 V)} (tree : IsSpanningTree F) :
    F.card + 1 = Nat.card V := by
  have count := (isTree_iff_connected_and_card.mp tree.tree).2
  rw [tree.edgeSet_eq] at count
  simpa using count

theorem exists_isSpanningTree [Fintype V] [Nonempty V] : ∃ F : Finset (Sym2 V), IsSpanningTree F := by
  classical
  obtain ⟨T, _, tree⟩ := (connected_top (V := V)).exists_isTree_le
  refine ⟨T.edgeFinset, fun e member => ?_, ?_⟩
  · exact T.not_isDiag_of_mem_edgeSet (mem_edgeFinset.mp member)
  · simpa using tree

variable [DecidableEq V]

theorem exchange [Finite V] {F : Finset (Sym2 V)} (tree : IsSpanningTree F) {S : Set V} {u t : V}
    (inside : u ∈ S) (outside : t ∉ S) :
    ∃ a ∈ S, ∃ b ∉ S, s(a, b) ∈ F ∧ IsSpanningTree (insert s(u, t) (F.erase s(a, b))) ∧
      (insert s(u, t) (F.erase s(a, b))).card = F.card := by
  have ne : u ≠ t := fun eq => outside (eq ▸ inside)
  by_cases member : s(u, t) ∈ F
  · refine ⟨u, inside, t, outside, member, ?_⟩
    rw [Finset.insert_erase member]
    exact ⟨tree, rfl⟩
  let G := fromEdgeSet (F : Set (Sym2 V))
  obtain ⟨p, path⟩ := tree.tree.connected.exists_isPath u t
  obtain ⟨a, ha, b, hb, adj, before, after⟩ := exists_crossing p path inside outside
  have old : s(a, b) ∈ F := by
    have edge : s(a, b) ∈ G.edgeSet := adj
    rw [tree.edgeSet_eq] at edge
    exact edge
  have different : s(u, t) ≠ s(a, b) := fun eq => member (eq ▸ old)
  have count : (insert s(u, t) (F.erase s(a, b))).card = F.card := by
    have absent : s(u, t) ∉ F.erase s(a, b) := fun h => member (Finset.mem_of_mem_erase h)
    rw [Finset.card_insert_of_notMem absent, Finset.card_erase_add_one old]
  let grown := fromEdgeSet ((insert s(u, t) F : Finset (Sym2 V)) : Set (Sym2 V))
  have le : G ≤ grown := fromEdgeSet_mono (by simp)
  have reach {x y : V} (walk : ∃ q : G.Walk x y, s(a, b) ∉ q.edges) :
      (grown.deleteEdges {s(a, b)}).Reachable x y :=
    (reachable_deleteEdges_iff_exists_walk.mpr walk).mono (deleteEdges_mono le)
  have bridge : ¬ grown.IsBridge s(a, b) := by
    rw [isBridge_iff, not_not]
    have joined : (grown.deleteEdges {s(a, b)}).Adj u t := by
      simp [grown, ne, different]
    exact (reach before).symm.trans (joined.reachable.trans (reach after).symm)
  have same : grown.deleteEdges {s(a, b)} =
      fromEdgeSet ((insert s(u, t) (F.erase s(a, b)) : Finset (Sym2 V)) : Set (Sym2 V)) := by
    ext x y
    simp only [grown, deleteEdges_adj, fromEdgeSet_adj, Finset.coe_insert, Finset.coe_erase,
      Set.mem_insert_iff, Set.mem_sdiff, Set.mem_singleton_iff, Finset.mem_coe]
    constructor
    · rintro ⟨⟨eq | inF, h⟩, kept⟩
      · exact ⟨.inl eq, h⟩
      · exact ⟨.inr ⟨inF, kept⟩, h⟩
    · rintro ⟨eq | ⟨inF, kept⟩, h⟩
      · exact ⟨⟨.inl eq, h⟩, eq ▸ different⟩
      · exact ⟨⟨.inr inF, h⟩, kept⟩
  have loopless : ∀ e ∈ insert s(u, t) (F.erase s(a, b)), ¬ e.IsDiag := by
    intro e he
    rcases Finset.mem_insert.mp he with rfl | kept
    · simpa using ne
    · exact tree.loopless e (Finset.mem_of_mem_erase kept)
  have connected := (tree.tree.connected.mono le).connected_delete_edge_of_not_isBridge bridge
  refine ⟨a, ha, b, hb, old, ⟨loopless, ?_⟩, count⟩
  rw [isTree_iff_connected_and_card, ← same]
  refine ⟨connected, ?_⟩
  have edges : (grown.deleteEdges {s(a, b)}).edgeSet =
      ((insert s(u, t) (F.erase s(a, b)) : Finset (Sym2 V)) : Set (Sym2 V)) := by
    rw [same, edgeSet_fromEdgeSet]
    rw [sdiff_eq_left, Set.disjoint_left]
    exact fun e member => loopless e member
  rw [edges, ← tree.card, ← count, Nat.card_coe_set_eq, Set.ncard_coe_finset]

end IsSpanningTree

/-! ## Growing a tree along minimal edges -/

variable {M : Type*} [LinearOrder M]

/-- Each edge goes from `S` to a new vertex, and no other edge across that cut weighs less. -/
def GrowsMinimally (w : Sym2 V → M) : Set V → List (V × V) → Prop
  | _, [] => True
  | S, (s, t) :: edges => s ∈ S ∧ t ∉ S ∧ (∀ a ∈ S, ∀ b ∉ S, w s(s, t) ≤ w s(a, b)) ∧
      GrowsMinimally w (insert t S) edges

theorem GrowsMinimally.nodup {w : Sym2 V → M} {S : Set V} {edges : List (V × V)}
    (grows : GrowsMinimally w S edges) :
    (edges.map fun e => s(e.1, e.2)).Nodup ∧ ∀ e ∈ edges, e.2 ∉ S := by
  induction edges generalizing S with
  | nil => simp
  | cons edge edges ih =>
    obtain ⟨s, t⟩ := edge
    obtain ⟨source, target, _, later⟩ := grows
    obtain ⟨apart, fresh⟩ := ih later
    refine ⟨List.nodup_cons.mpr ⟨fun member => ?_, apart⟩, fun e he => ?_⟩
    · obtain ⟨e, he, same⟩ := List.mem_map.mp member
      have new := fresh e he
      rcases Sym2.eq_iff.mp same with ⟨_, eq⟩ | ⟨_, eq⟩
      · exact new (eq ▸ .inl rfl)
      · exact new (eq ▸ .inr source)
    · rcases List.mem_cons.mp he with rfl | tail
      · exact target
      · exact fun old => fresh e tail (.inr old)

variable [DecidableEq V]

def edgesOf (edges : List (V × V)) : Finset (Sym2 V) := (edges.map fun e => s(e.1, e.2)).toFinset

theorem edgesOf_cons (s t : V) (edges : List (V × V)) :
    edgesOf ((s, t) :: edges) = insert s(s, t) (edgesOf edges) := by
  simp [edgesOf]

variable [AddCommGroup M] [IsOrderedAddMonoid M]

theorem GrowsMinimally.completes [Finite V] {w : Sym2 V → M} {S : Set V} {edges : List (V × V)}
    (grows : GrowsMinimally w S edges) {old F : Finset (Sym2 V)}
    (within : ∀ e ∈ old, ∀ v ∈ e, v ∈ S) (contained : old ⊆ F) (tree : IsSpanningTree F) :
    ∃ F', IsSpanningTree F' ∧ old ∪ edgesOf edges ⊆ F' ∧ ∑ e ∈ F', w e ≤ ∑ e ∈ F, w e := by
  induction edges generalizing S old F with
  | nil => exact ⟨F, tree, by simpa [edgesOf] using contained, le_rfl⟩
  | cons edge edges ih =>
    obtain ⟨s, t⟩ := edge
    obtain ⟨source, target, minimal, later⟩ := grows
    obtain ⟨a, ha, b, hb, crossing, tree', count⟩ := tree.exchange source target
    have kept : old ⊆ F.erase s(a, b) := fun e he =>
      Finset.mem_erase.mpr ⟨fun eq => hb (within e he b (by simp [eq])), contained he⟩
    have lighter : ∑ e ∈ insert s(s, t) (F.erase s(a, b)), w e ≤ ∑ e ∈ F, w e := by
      have absent : s(s, t) ∉ F.erase s(a, b) := by
        intro member
        rw [Finset.insert_eq_of_mem member] at count
        have := Finset.card_erase_lt_of_mem crossing
        omega
      rw [Finset.sum_insert absent, ← Finset.add_sum_erase F w crossing]
      exact add_le_add_left (minimal a ha b hb) _
    have inside : ∀ e ∈ insert s(s, t) old, ∀ v ∈ e, v ∈ insert t S := by
      intro e he v hv
      rcases Finset.mem_insert.mp he with rfl | earlier
      · rcases Sym2.mem_iff.mp hv with rfl | rfl
        · exact .inr source
        · exact .inl rfl
      · exact .inr (within e earlier v hv)
    obtain ⟨F', final, contains, weighs⟩ := ih later inside (Finset.insert_subset_insert _ kept) tree'
    refine ⟨F', final, ?_, weighs.trans lighter⟩
    rwa [edgesOf_cons, Finset.union_insert, ← Finset.insert_union]

theorem GrowsMinimally.minimum [Fintype V] {w : Sym2 V → M} {root : V} {edges : List (V × V)}
    (grows : GrowsMinimally w {root} edges) (count : edges.length + 1 = Nat.card V) :
    IsSpanningTree (edgesOf edges) ∧ ∑ e ∈ edgesOf edges, w e = (edges.map fun e => w s(e.1, e.2)).sum ∧
      ∀ F, IsSpanningTree F → (edges.map fun e => w s(e.1, e.2)).sum ≤ ∑ e ∈ F, w e := by
  have apart := grows.nodup.1
  have size : (edgesOf edges).card = edges.length := by
    rw [edgesOf, List.toFinset_card_of_nodup apart, List.length_map]
  have weight : ∑ e ∈ edgesOf edges, w e = (edges.map fun e => w s(e.1, e.2)).sum := by
    rw [edgesOf, List.sum_toFinset _ apart, List.map_map]
    rfl
  have complete {F : Finset (Sym2 V)} (tree : IsSpanningTree F) :
      IsSpanningTree (edgesOf edges) ∧ ∑ e ∈ edgesOf edges, w e ≤ ∑ e ∈ F, w e := by
    obtain ⟨F', final, contains, weighs⟩ := grows.completes (by simp) (Finset.empty_subset F) tree
    rw [Finset.empty_union] at contains
    have full : edgesOf edges = F' :=
      Finset.eq_of_subset_of_card_le contains (by have := final.card; omega)
    exact full ▸ ⟨final, weighs⟩
  have : Nonempty V := ⟨root⟩
  obtain ⟨F, tree⟩ := IsSpanningTree.exists_isSpanningTree (V := V)
  exact ⟨(complete tree).1, weight, fun F tree => weight ▸ (complete tree).2⟩

end CadoNfs.Lib
