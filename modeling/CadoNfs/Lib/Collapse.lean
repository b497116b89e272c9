import Mathlib

/-!
# Summing a sorted list in place

The terms of a sum are added to a cell that disappears when it becomes zero, and comes back with the next term. A list
sorted by a key is made of the elements before the key, those with the key and those after it.
-/

namespace CadoNfs.Lib

section
variable {G : Type} [AddCommGroup G] [DecidableEq G]

def collapseTerm : Option G → G → Option G
  | none, e => some e
  | some x, e => if x + e = 0 then none else some (x + e)

def collapse (cell : Option G) (es : List G) : Option G := es.foldl collapseTerm cell

@[simp] theorem collapse_nil (cell : Option G) : collapse cell [] = cell := rfl

theorem collapse_concat (cell : Option G) (es : List G) (e : G) :
    collapse cell (es ++ [e]) = collapseTerm (collapse cell es) e := List.foldl_append

@[simp] theorem collapse_cons (cell : Option G) (e : G) (es : List G) :
    collapse cell (e :: es) = collapse (collapseTerm cell e) es := rfl

theorem collapse_getD (cell : Option G) (es : List G) : (collapse cell es).getD 0 = cell.getD 0 + es.sum := by
  induction es generalizing cell with
  | nil => simp
  | cons e es ih =>
    rw [collapse_cons, ih, List.sum_cons, ← add_assoc]
    congr 1
    cases cell with
    | none => simp [collapseTerm]
    | some x =>
      rw [collapseTerm]
      split_ifs with cancels
      · simp [cancels]
      · rfl

theorem collapse_of_sum_ne {es : List G} (sum : es.sum ≠ 0) : collapse none es = some es.sum := by
  have total := collapse_getD none es
  rw [Option.getD_none, zero_add] at total
  cases result : collapse none es with
  | none =>
    rw [result, Option.getD_none] at total
    exact absurd total.symm sum
  | some x =>
    rw [result, Option.getD_some] at total
    rw [total]

theorem collapse_of_sum_eq {es : List G} (sum : es.sum = 0) : collapse none es = none ∨ collapse none es = some 0 := by
  have total := collapse_getD none es
  rw [Option.getD_none, zero_add, sum] at total
  cases result : collapse none es with
  | none => exact .inl rfl
  | some x =>
    rw [result, Option.getD_some] at total
    exact .inr (by rw [total])

theorem collapse_replicate (n : ℕ) : collapse none (List.replicate n (0 : G)) = if Even n then none else some 0 := by
  induction n with
  | zero => simp
  | succ n ih =>
    rw [List.replicate_succ', collapse_concat, ih]
    by_cases even : Even n <;> simp [even, Nat.even_add_one, collapseTerm]

theorem collapse_lone_zero {es : List G} (zeros : ∀ e ∈ es, e = 0) (odd : ¬Even es.length) :
    collapse none es = some 0 := by
  rw [List.eq_replicate_of_mem zeros, collapse_replicate, if_neg odd]

theorem collapse_eq_zero {es : List G} (zero : collapse none es = some 0) : ∃ before, es = before ++ [0] := by
  rcases List.eq_nil_or_concat es with rfl | ⟨before, e, rfl⟩
  · cases zero
  · refine ⟨before, ?_⟩
    rw [List.concat_eq_append, collapse_concat] at zero
    cases cell : collapse none before with
    | none =>
      rw [cell] at zero
      rw [List.concat_eq_append, Option.some.inj zero]
    | some x =>
      rw [cell] at zero
      by_cases cancels : x + e = 0
      · simp [collapseTerm, cancels] at zero
      · simp [collapseTerm, cancels] at zero

end

section
variable {G : Type} [AddCommGroup G] [LinearOrder G] [IsOrderedAddMonoid G] {es : List G}

theorem eq_zero_of_sum_eq {before : List G} (sorted : (before ++ [0]).Pairwise (· ≤ ·))
    (sum : (before ++ [(0 : G)]).sum = 0) :
    ∀ e ∈ before ++ [(0 : G)], e = 0 := by
  have nonpos : ∀ e ∈ before, e ≤ 0 := fun e member =>
    (List.pairwise_append.mp sorted).2.2 e member 0 (List.mem_singleton_self 0)
  rw [List.sum_append, List.sum_singleton, add_zero] at sum
  intro e member
  rcases List.mem_append.mp member with inside | last
  · refine le_antisymm (nonpos e inside) ?_
    by_contra negative
    have less := List.sum_lt_sum (fun e => e) (fun _ => (0 : G)) nonpos ⟨e, inside, not_le.mp negative⟩
    simp [sum] at less
  · exact List.mem_singleton.mp last

theorem collapse_sorted (sorted : es.Pairwise (· ≤ ·)) :
    (collapse none es = if es.sum = 0 then none else some es.sum) ↔ ((∀ e ∈ es, e = 0) → Even es.length) := by
  by_cases sum : es.sum = 0
  · rw [if_pos sum]
    constructor
    · intro nothing zeros
      rw [List.eq_replicate_of_mem zeros, collapse_replicate] at nothing
      by_contra odd
      rw [if_neg odd] at nothing
      cases nothing
    · intro even
      refine (collapse_of_sum_eq sum).resolve_right fun zero => ?_
      obtain ⟨before, rfl⟩ := collapse_eq_zero zero
      have zeros := eq_zero_of_sum_eq sorted sum
      rw [List.eq_replicate_of_mem zeros, collapse_replicate, if_pos (even zeros)] at zero
      cases zero
  · rw [if_neg sum]
    refine iff_of_true (collapse_of_sum_ne sum) fun zeros => absurd ?_ sum
    exact List.sum_eq_zero zeros

end

section
variable {α κ : Type} [LinearOrder κ] {key : α → κ}

theorem filter_split {xs : List α} (sorted : xs.Pairwise (key · ≤ key ·)) (k : κ) :
    xs = xs.filter (key · < k) ++ xs.filter (key · = k) ++ xs.filter (k < key ·) := by
  induction xs with
  | nil => rfl
  | cons x xs ih =>
    obtain ⟨first, sorted⟩ := List.pairwise_cons.mp sorted
    rcases lt_trichotomy (key x) k with before | same | after
    · simpa [before, before.ne, before.not_gt] using ih sorted
    · have none_before : xs.filter (key · < k) = [] :=
        List.filter_eq_nil_iff.mpr fun y member => by simpa [← same] using first y member
      have rest := ih sorted
      rw [none_before] at rest
      simpa [same, none_before] using rest
    · have none_before : xs.filter (key · < k) = [] :=
        List.filter_eq_nil_iff.mpr fun y member => by simpa using (after.trans_le (first y member)).le
      have none_same : xs.filter (key · = k) = [] :=
        List.filter_eq_nil_iff.mpr fun y member => by simpa using (after.trans_le (first y member)).ne'
      have rest := ih sorted
      rw [none_before, none_same] at rest
      simpa [after, after.ne', after.not_gt, none_before, none_same] using rest

end

end CadoNfs.Lib
