import Mathlib

/-!
# Buckets

A list of lists of which one is replaced.
-/

namespace CadoNfs.Lib

variable {α : Type*} {L : List (List α)} {k : ℕ} {l : List α}

theorem flatten_set_perm (there : k < L.length) (l : List α) :
    (L.set k l).flatten.Perm (l ++ (L.eraseIdx k).flatten) := by
  induction L generalizing k with
  | nil => cases there
  | cons first L ih =>
    cases k with
    | zero => exact .refl _
    | succ k =>
      have rest := ih (Nat.lt_of_succ_lt_succ there)
      calc (first ++ (L.set k l).flatten).Perm (first ++ (l ++ (L.eraseIdx k).flatten)) := rest.append_left first
        _ = (first ++ l) ++ (L.eraseIdx k).flatten := (List.append_assoc ..).symm
        _ |>.Perm ((l ++ first) ++ (L.eraseIdx k).flatten) := List.perm_append_comm.append_right _
        _ = l ++ (first ++ (L.eraseIdx k).flatten) := List.append_assoc ..

theorem flatten_perm (there : L[k]? = some l) : L.flatten.Perm (l ++ (L.eraseIdx k).flatten) := by
  obtain ⟨lt, rfl⟩ := List.getElem?_eq_some_iff.mp there
  have perm := flatten_set_perm lt L[k]
  rwa [List.set_getElem_self] at perm

theorem count_flatten_set [DecidableEq α] (there : L[k]? = some l) (l' : List α) (a : α) :
    (L.set k l').flatten.count a + l.count a = L.flatten.count a + l'.count a := by
  have lt := (List.getElem?_eq_some_iff.mp there).1
  rw [(flatten_set_perm lt l').count_eq, (flatten_perm there).count_eq, List.count_append, List.count_append]
  omega

theorem length_flatten_set (there : L[k]? = some l) (l' : List α) :
    (L.set k l').flatten.length + l.length = L.flatten.length + l'.length := by
  have lt := (List.getElem?_eq_some_iff.mp there).1
  rw [(flatten_set_perm lt l').length_eq, (flatten_perm there).length_eq, List.length_append, List.length_append]
  omega

end CadoNfs.Lib
