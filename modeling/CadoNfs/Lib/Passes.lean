import Mathlib

/-!
# Passes over a list

A run makes one pass after the other over a list, and each pass keeps, changes or drops the elements one by
one. Then so does the run.
-/

namespace CadoNfs.Lib

variable {α σ ε : Type*} {steps : List σ} {step : σ → α → Option α} {pass : σ → List α → Except ε (List α)}

theorem foldlM_filterMap {l : List α}
    (passes : ∀ s ∈ steps, ∀ m : List α, m.length ≤ l.length → pass s m = .ok (m.filterMap (step s))) :
    steps.foldlM (fun m s => pass s m) l =
      .ok (l.filterMap fun a => steps.foldlM (fun a s => step s a) a) := by
  induction steps generalizing l with
  | nil =>
    rw [List.foldlM_nil]
    exact congrArg Except.ok List.filterMap_some.symm
  | cons s steps ih =>
    have shorter : (l.filterMap (step s)).length ≤ l.length := List.length_filterMap_le _ _
    have first : pass s l = .ok (l.filterMap (step s)) := passes s (.head _) l le_rfl
    have later := ih fun t member m short => passes t (List.mem_cons_of_mem s member) m (short.trans shorter)
    calc (s :: steps).foldlM (fun m s => pass s m) l
      _ = steps.foldlM (fun m s => pass s m) (l.filterMap (step s)) := by
        rw [List.foldlM_cons, first]
        rfl
      _ = .ok (l.filterMap fun a => (s :: steps).foldlM (fun a s => step s a) a) := by
        rw [later, List.filterMap_filterMap]
        rfl

end CadoNfs.Lib
