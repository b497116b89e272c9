import Mathlib

/-!
# Left joins

A left join has a row for each pair of partners, and one row for what has no partner.
-/

namespace CadoNfs.Lib

variable {α β K L : Type*} [DecidableEq K] [DecidableEq L] (key : α → K) (subkey : β → L)

def leftJoin (on : α → β → Bool) (left : List α) (right : List β) : List (α × Option β) :=
  left.flatMap fun a => match right.filter (on a) with
    | [] => [(a, none)]
    | partners => partners.map fun b => (a, some b)

def addPartner (b : β) : Option (List β) → Option (List β)
  | none => some [b]
  | some partners => if partners.getLast?.map subkey ≠ some (subkey b) then some (partners ++ [b]) else some partners

def regroupRow (groups : List (α × Option (List β))) (row : α × Option β) : List (α × Option (List β)) :=
  let groups := if groups.head?.map (key ·.1) ≠ some (key row.1) then (row.1, none) :: groups else groups
  match row.2, groups with
  | some b, (a, partners) :: rest => (a, addPartner subkey b partners) :: rest
  | _, groups => groups

def regroup (rows : List (α × Option β)) : List (α × Option (List β)) := (rows.foldl (regroupRow key subkey) []).reverse

def partnersOf (on : α → β → Bool) (right : List β) (a : α) : Option (List β) :=
  match right.filter (on a) with
  | [] => none
  | partners => some partners

variable {key subkey} {on : α → β → Bool} {left : List α} {right : List β} {groups : List (α × Option (List β))} {a : α}

theorem partnersOf_eq_none (none : ∀ b ∈ right, on a b = false) : partnersOf on right a = Option.none := by
  rw [partnersOf, List.filter_eq_nil_iff.mpr fun b member => by rw [none b member]; exact Bool.false_ne_true]

theorem foldl_regroupRow_partners {partners bs : List β} (nonempty : partners ≠ [])
    (nodup : ((partners ++ bs).map subkey).Nodup) :
    (bs.map fun b => (a, some b)).foldl (regroupRow key subkey) ((a, some partners) :: groups) =
      (a, some (partners ++ bs)) :: groups := by
  induction bs generalizing partners with
  | nil => rw [List.append_nil]; rfl
  | cons b bs ih =>
    have other : partners.getLast?.map subkey ≠ some (subkey b) := by
      intro same
      obtain ⟨last, isLast, same⟩ := Option.map_eq_some_iff.mp same
      rw [List.map_append, List.map_cons, List.nodup_append] at nodup
      exact nodup.2.2 _ (List.mem_map_of_mem (List.mem_of_getLast? isLast)) _ (.head _) same
    have turn : regroupRow key subkey ((a, some partners) :: groups) (a, some b) =
        (a, some (partners ++ [b])) :: groups := by
      rw [regroupRow, List.head?_cons, Option.map_some, if_neg (not_not_intro rfl)]
      dsimp only
      rw [addPartner, if_pos other]
    have whole : partners ++ b :: bs = partners ++ [b] ++ bs := by rw [List.append_assoc, List.singleton_append]
    rw [List.map_cons, List.foldl_cons, turn, ih (by simp) (whole ▸ nodup), ← whole]

theorem foldl_regroupRow_group (fresh : groups.head?.map (key ·.1) ≠ some (key a))
    (nodup : ((right.filter (on a)).map subkey).Nodup) :
    (match right.filter (on a) with
      | [] => [(a, none)]
      | partners => partners.map fun b => (a, some b)).foldl (regroupRow key subkey) groups =
        (a, partnersOf on right a) :: groups := by
  rw [partnersOf]
  cases found : right.filter (on a) with
  | nil =>
    dsimp only
    rw [List.foldl_cons, List.foldl_nil, regroupRow, if_pos fresh]
  | cons b bs =>
    have first : regroupRow key subkey groups (a, some b) = (a, some [b]) :: groups := by
      rw [regroupRow, if_pos fresh]
      rfl
    rw [found] at nodup
    dsimp only
    rw [List.map_cons, List.foldl_cons, first, foldl_regroupRow_partners (by simp) nodup, List.singleton_append]

theorem regroup_leftJoin (keys : (left.map key).Nodup) (subkeys : (right.map subkey).Nodup) :
    regroup key subkey (leftJoin on left right) = left.map fun a => (a, partnersOf on right a) := by
  have fold (left : List α) (keys : (left.map key).Nodup) (groups : List (α × Option (List β)))
      (fresh : ∀ g ∈ groups, key g.1 ∉ left.map key) :
      (leftJoin on left right).foldl (regroupRow key subkey) groups =
        (left.map fun a => (a, partnersOf on right a)).reverse ++ groups := by
    induction left generalizing groups with
    | nil => rfl
    | cons a left ih =>
      rw [List.map_cons, List.nodup_cons] at keys
      have other : groups.head?.map (key ·.1) ≠ some (key a) := by
        intro same
        obtain ⟨g, first, same⟩ := Option.map_eq_some_iff.mp same
        exact fresh g (List.mem_of_head? first) (same ▸ List.mem_cons_self)
      have nodup : ((right.filter (on a)).map subkey).Nodup := subkeys.sublist (List.filter_sublist.map subkey)
      rw [leftJoin, List.flatMap_cons, List.foldl_append, foldl_regroupRow_group other nodup, ← leftJoin, ih keys.2]
      · rw [List.map_cons, List.reverse_cons, List.append_assoc, List.singleton_append]
      · intro g member there
        rcases List.mem_cons.mp member with rfl | before
        · exact keys.1 there
        · exact fresh g before (.tail _ there)
  rw [regroup, fold left keys [] nofun, List.append_nil, List.reverse_reverse]

end CadoNfs.Lib
