import Mathlib

/-!
# Tables

A table is a list of rows; `updateWhere` is an `UPDATE` with a condition. The rows of a keyed table have different keys.
-/

namespace CadoNfs.Lib

variable {α K : Type*} {key : α → K} {cond : α → Bool} {f : α → α} {rows : List α}

def updateWhere (cond : α → Bool) (f : α → α) (rows : List α) : List α := rows.map fun r => if cond r then f r else r

theorem mem_updateWhere {r' : α} : r' ∈ updateWhere cond f rows ↔ ∃ r ∈ rows, r' = if cond r then f r else r := by
  rw [updateWhere, List.mem_map]
  exact exists_congr fun r => and_congr_right fun _ => eq_comm

theorem key_updateWhere (keeps : ∀ r, key (f r) = key r) (r : α) : key (if cond r then f r else r) = key r := by
  split
  · exact keeps r
  · rfl

theorem map_key_updateWhere (keeps : ∀ r, key (f r) = key r) : (updateWhere cond f rows).map key = rows.map key := by
  rw [updateWhere, List.map_map]
  exact List.map_congr_left fun r _ => key_updateWhere keeps r

theorem find_updateWhere {p : α → Bool} (keeps : ∀ r, p (f r) = p r) :
    (updateWhere cond f rows).find? p = (rows.find? p).map fun r => if cond r then f r else r := by
  rw [updateWhere, List.find?_map]
  congr 2
  funext r
  exact key_updateWhere keeps r

theorem updateWhere_of_none (none : ∀ r ∈ rows, cond r = false) : updateWhere cond f rows = rows := by
  refine (List.map_congr_left fun r member => ?_).trans (List.map_id rows)
  rw [none r member, if_neg Bool.false_ne_true]
  rfl

theorem countP_updateWhere {p : α → Bool} (keeps : ∀ r ∈ rows, cond r = true → p (f r) = p r) :
    (updateWhere cond f rows).countP p = rows.countP p := by
  rw [updateWhere, List.countP_map]
  refine List.countP_congr fun r member => ?_
  rw [Function.comp_apply]
  split
  · rw [keeps r member ‹_›]
  · exact Iff.rfl

theorem countP_le_one (nodup : (rows.map key).Nodup) {p : α → Bool} {k : K} (selects : ∀ r, p r = true → key r = k) :
    rows.countP p ≤ 1 := by
  induction rows with
  | nil => exact Nat.zero_le 1
  | cons r rows ih =>
    rw [List.map_cons, List.nodup_cons] at nodup
    by_cases here : p r = true
    · have rest : rows.countP p = 0 := by
        refine List.countP_eq_zero.mpr fun r' member there => nodup.1 ?_
        exact List.mem_map.mpr ⟨r', member, (selects r' there).trans (selects r here).symm⟩
      rw [List.countP_cons_of_pos here, rest]
    · rw [List.countP_cons_of_neg here]
      exact ih nodup.2

theorem filter_eq_singleton {p : α → Bool} {r : α} (nodup : (rows.map key).Nodup) (member : r ∈ rows)
    (selects : ∀ r' ∈ rows, p r' = true ↔ key r' = key r) : rows.filter p = [r] := by
  induction rows with
  | nil => cases member
  | cons first rows ih =>
    rw [List.map_cons, List.nodup_cons] at nodup
    cases member with
    | head =>
      have rest : rows.filter p = [] := by
        refine List.filter_eq_nil_iff.mpr fun r' there selected => nodup.1 ?_
        rw [← (selects r' (.tail _ there)).mp selected]
        exact List.mem_map_of_mem there
      rw [List.filter_cons_of_pos ((selects r (.head _)).mpr rfl), rest]
    | tail _ later =>
      have other : ¬p first = true := fun selected => nodup.1 (by
        rw [(selects first (.head _)).mp selected]
        exact List.mem_map_of_mem later)
      rw [List.filter_cons_of_neg other]
      exact ih nodup.2 later fun r' there => selects r' (.tail _ there)

theorem countP_updateWhere_key [DecidableEq K] (nodup : (rows.map key).Nodup) (p : α → Bool) {r : α}
    (member : r ∈ rows) :
    (updateWhere (fun r' => key r' = key r) f rows).countP p + (p r).toNat = rows.countP p + (p (f r)).toNat := by
  induction rows with
  | nil => cases member
  | cons first rows ih =>
    rw [List.map_cons, List.nodup_cons] at nodup
    rw [updateWhere, List.map_cons]
    cases member with
    | head =>
      have rest : (rows.map fun r' => if decide (key r' = key r) then f r' else r') = rows := by
        refine updateWhere_of_none fun r' member => decide_eq_false fun same => nodup.1 ?_
        exact List.mem_map.mpr ⟨r', member, same⟩
      rw [rest, if_pos (decide_eq_true rfl), List.countP_cons, List.countP_cons]
      cases p r <;> cases p (f r) <;> simp
    | tail _ later =>
      have other : ¬ key first = key r := fun same => nodup.1 (List.mem_map.mpr ⟨r, later, same.symm⟩)
      have rest := ih nodup.2 later
      rw [updateWhere] at rest
      rw [if_neg (by simpa using other), List.countP_cons, List.countP_cons]
      omega

end CadoNfs.Lib
