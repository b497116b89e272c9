import Mathlib

/-!
# Dictionaries as lists

An assignment to a key that is there keeps its place, as in Python.
-/

namespace CadoNfs.Lib

variable {K V : Type*} [DecidableEq K]

def dictSet (d : List (K × V)) (key : K) (v : V) : List (K × V) :=
  if d.any (·.1 = key) then d.map fun e => if e.1 = key then (key, v) else e else d ++ [(key, v)]

def dictFrom (l : List (K × V)) : List (K × V) := l.foldl (fun d e => dictSet d e.1 e.2) []

theorem mem_dictSet {d : List (K × V)} {key : K} {v : V} {e : K × V} (member : e ∈ dictSet d key v) :
    e = (key, v) ∨ e ∈ d ∧ e.1 ≠ key := by
  unfold dictSet at member
  split at member
  · obtain ⟨e', member', rfl⟩ := List.mem_map.mp member
    by_cases same : e'.1 = key
    · exact .inl (if_pos same)
    · rw [if_neg same]
      exact .inr ⟨member', same⟩
  · rename_i absent
    cases List.mem_append.mp member with
    | inl before =>
      refine .inr ⟨before, fun same => absent ?_⟩
      exact List.any_eq_true.mpr ⟨e, before, decide_eq_true same⟩
    | inr last => exact .inl (List.mem_singleton.mp last)

theorem self_mem_dictSet (d : List (K × V)) (key : K) (v : V) : (key, v) ∈ dictSet d key v := by
  unfold dictSet
  split
  · rename_i there
    obtain ⟨e, member, same⟩ := List.any_eq_true.mp there
    exact List.mem_map.mpr ⟨e, member, if_pos (of_decide_eq_true same)⟩
  · exact List.mem_append_right _ (List.mem_singleton.mpr rfl)

theorem mem_dictSet_of_ne {d : List (K × V)} {key : K} {v : V} {e : K × V} (member : e ∈ d)
    (other : e.1 ≠ key) : e ∈ dictSet d key v := by
  unfold dictSet
  split
  · exact List.mem_map.mpr ⟨e, member, if_neg other⟩
  · exact List.mem_append_left _ member

theorem nodup_dictSet {d : List (K × V)} {key : K} {v : V} (nodup : (d.map Prod.fst).Nodup) :
    ((dictSet d key v).map Prod.fst).Nodup := by
  unfold dictSet
  split
  · have keys : (d.map fun e => if e.1 = key then (key, v) else e).map Prod.fst = d.map Prod.fst := by
      rw [List.map_map]
      refine List.map_congr_left fun e _ => ?_
      by_cases same : e.1 = key
      · exact (congrArg Prod.fst (if_pos same)).trans same.symm
      · exact congrArg Prod.fst (if_neg same)
    rw [keys]
    exact nodup
  · rename_i absent
    rw [List.map_append, List.nodup_append]
    refine ⟨nodup, List.nodup_singleton _, fun k member k' last same => absent ?_⟩
    obtain ⟨e, there, rfl⟩ := List.mem_map.mp member
    obtain rfl : k' = key := List.mem_singleton.mp last
    exact List.any_eq_true.mpr ⟨e, there, decide_eq_true same⟩

theorem mem_foldl_dictSet {l d : List (K × V)} {e : K × V}
    (member : e ∈ l.foldl (fun d e => dictSet d e.1 e.2) d) : e ∈ d ∨ e ∈ l := by
  induction l generalizing d with
  | nil => exact .inl member
  | cons x l ih =>
    cases ih member with
    | inr later => exact .inr (List.mem_cons_of_mem x later)
    | inl first =>
      cases mem_dictSet first with
      | inl here => exact .inr (here ▸ List.mem_cons_self)
      | inr before => exact .inl before.1

theorem mem_dictFrom {l : List (K × V)} {e : K × V} (member : e ∈ dictFrom l) : e ∈ l := by
  cases mem_foldl_dictSet member with
  | inl empty => cases empty
  | inr there => exact there

theorem nodup_dictFrom (l : List (K × V)) : ((dictFrom l).map Prod.fst).Nodup := by
  have fold (d : List (K × V)) (nodup : (d.map Prod.fst).Nodup) :
      ((l.foldl (fun d e => dictSet d e.1 e.2) d).map Prod.fst).Nodup := by
    induction l generalizing d with
    | nil => exact nodup
    | cons x l ih => exact ih _ (nodup_dictSet nodup)
  exact fold [] List.nodup_nil

theorem mem_foldl_of_absent {l d : List (K × V)} {e : K × V} (member : e ∈ d) (absent : e.1 ∉ l.map Prod.fst) :
    e ∈ l.foldl (fun d e => dictSet d e.1 e.2) d := by
  induction l generalizing d with
  | nil => exact member
  | cons x l ih =>
    rw [List.map_cons, List.mem_cons, not_or] at absent
    exact ih (mem_dictSet_of_ne member absent.1) absent.2

theorem mem_dictFrom_append {l₁ l₂ : List (K × V)} {e : K × V} (nodup : (l₂.map Prod.fst).Nodup)
    (member : e ∈ l₂) : e ∈ dictFrom (l₁ ++ l₂) := by
  have fold (d : List (K × V)) : e ∈ l₂.foldl (fun d e => dictSet d e.1 e.2) d := by
    induction l₂ generalizing d with
    | nil => cases member
    | cons x l ih =>
      rw [List.map_cons, List.nodup_cons] at nodup
      cases member with
      | head => exact mem_foldl_of_absent (d := dictSet d e.1 e.2) (self_mem_dictSet d e.1 e.2) nodup.1
      | tail _ later => exact ih nodup.2 later _
  rw [dictFrom, List.foldl_append]
  exact fold _

theorem dictFrom_of_nodup {l : List (K × V)} (nodup : (l.map Prod.fst).Nodup) : dictFrom l = l := by
  have fold (d l : List (K × V)) (nodup : ((d ++ l).map Prod.fst).Nodup) :
      l.foldl (fun d e => dictSet d e.1 e.2) d = d ++ l := by
    induction l generalizing d with
    | nil => exact (List.append_nil d).symm
    | cons x l ih =>
      have absent : ¬d.any (·.1 = x.1) = true := by
        intro there
        obtain ⟨e, member, same⟩ := List.any_eq_true.mp there
        rw [List.map_append, List.nodup_append] at nodup
        exact nodup.2.2 e.1 (List.mem_map_of_mem member) x.1 (.head _) (of_decide_eq_true same)
      have added : dictSet d x.1 x.2 = d ++ [x] := if_neg absent
      rw [List.foldl_cons, added, ih (d ++ [x]) (by rwa [List.append_assoc]), List.append_assoc]
      rfl
  exact fold [] l nodup

omit [DecidableEq K] in
theorem lookup_of_mem [BEq K] [LawfulBEq K] {d : List (K × V)} (nodup : (d.map Prod.fst).Nodup) {e : K × V}
    (member : e ∈ d) :
    d.lookup e.1 = some e.2 := by
  induction d with
  | nil => cases member
  | cons x d ih =>
    rw [List.map_cons, List.nodup_cons] at nodup
    cases member with
    | head => exact List.lookup_cons_self
    | tail _ later =>
      have other : (e.1 == x.1) = false := by
        rw [beq_eq_false_iff_ne]
        exact fun same => nodup.1 (same ▸ List.mem_map_of_mem later)
      rw [List.lookup_cons, other]
      exact ih nodup.2 later

omit [DecidableEq K] in
theorem mem_of_lookup [BEq K] [LawfulBEq K] {d : List (K × V)} {key : K} {v : V} (found : d.lookup key = some v) :
    (key, v) ∈ d := by
  obtain ⟨before, after, rfl, -⟩ := List.lookup_eq_some_iff.mp found
  exact List.mem_append_right _ (.head _)

end CadoNfs.Lib
