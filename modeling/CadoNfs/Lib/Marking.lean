import Mathlib.Data.Set.Insert
import Mathlib.Logic.Relation

/-!
# Searches that mark

A depth-first search in a graph that marks the nodes it meets and goes on from those that were not marked.
-/

namespace CadoNfs.Lib.Marking
open Relation

variable {α : Type*} {next : α → α → Prop} {before middle after : Set α} {i j k : α}

def Closed (next : α → α → Prop) (marked : Set α) : Prop := ∀ k ∈ marked, ∀ l, next k l → l ∈ marked

structure Grows (next : α → α → Prop) (starts : α → Prop) (before after : Set α) : Prop where
  subset : before ⊆ after
  closed : ∀ k ∈ after, k ∉ before → ∀ l, next k l → l ∈ after
  reached : ∀ k ∈ after, k ∉ before → ∃ j, starts j ∧ ReflTransGen next j k

structure Search (next : α → α → Prop) (i : α) (before after : Set α) : Prop extends Grows next (· = i) before after where
  root : i ∈ after
  root_closed : ∀ l, next i l → l ∈ after

variable {starts starts' : α → Prop}

theorem Grows.refl (starts : α → Prop) (marked : Set α) : Grows next starts marked marked where
  subset := subset_rfl
  closed := fun _ member fresh => absurd member fresh
  reached := fun _ member fresh => absurd member fresh

theorem Grows.mono (grows : Grows next starts before after) (wider : ∀ j, starts j → starts' j) :
    Grows next starts' before after where
  subset := grows.subset
  closed := grows.closed
  reached := fun k member fresh => (grows.reached k member fresh).imp fun j both => ⟨wider j both.1, both.2⟩

theorem Grows.trans (first : Grows next starts before middle) (second : Grows next starts middle after) :
    Grows next starts before after where
  subset := first.subset.trans second.subset
  closed := by
    intro k member fresh l edge
    by_cases early : k ∈ middle
    · exact second.subset (first.closed k early fresh l edge)
    · exact second.closed k member early l edge
  reached := by
    intro k member fresh
    by_cases early : k ∈ middle
    · exact first.reached k early fresh
    · exact second.reached k member early

theorem Search.of_successors (grows : Grows next (next i) (insert i before) after) (all : ∀ l, next i l → l ∈ after) :
    Search next i before after where
  subset := (Set.subset_insert i before).trans grows.subset
  closed := by
    intro k member fresh l edge
    by_cases here : k = i
    · exact all l (here ▸ edge)
    · exact grows.closed k member (fun old => fresh (old.resolve_left here)) l edge
  reached := by
    intro k member fresh
    by_cases here : k = i
    · exact ⟨i, rfl, here ▸ .refl⟩
    · obtain ⟨j, edge, path⟩ := grows.reached k member fun old => fresh (old.resolve_left here)
      exact ⟨i, rfl, path.head edge⟩
  root := grows.subset (Set.mem_insert i before)
  root_closed := all

theorem Closed.search (closed : Closed next before) (search : Search next i before after) : Closed next after := by
  intro k member l edge
  by_cases old : k ∈ before
  · exact search.subset (closed k old l edge)
  · exact search.closed k member old l edge

theorem Closed.reaches (closed : Closed next before) (member : j ∈ before) (path : ReflTransGen next j k) : k ∈ before := by
  induction path with
  | refl => exact member
  | tail _ edge ih => exact closed _ ih _ edge

theorem Search.mem_iff (closed : Closed next before) (search : Search next i before after) :
    k ∈ after ↔ k ∈ before ∨ ReflTransGen next i k := by
  constructor
  · intro member
    by_cases old : k ∈ before
    · exact .inl old
    · obtain ⟨j, rfl, path⟩ := search.reached k member old
      exact .inr path
  · rintro (old | path)
    · exact search.subset old
    · exact (closed.search search).reaches search.root path

end CadoNfs.Lib.Marking
