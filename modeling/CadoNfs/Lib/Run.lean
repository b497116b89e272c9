import Mathlib

/-!
# Runs

What every step keeps holds after every run.
-/

namespace CadoNfs.Lib

variable {σ : Type*} {Step : σ → σ → Prop}

theorem invariant_of_run (Inv : σ → Prop) (preserves : ∀ s s', Inv s → Step s s' → Inv s') {s s' : σ} (start : Inv s)
    (run : Relation.ReflTransGen Step s s') : Inv s' := by
  induction run with
  | refl => exact start
  | tail _ step ih => exact preserves _ _ ih step

theorem exists_run_head {P : σ → Prop} {s s' : σ} (step : Step s s')
    (rest : ∃ t, Relation.ReflTransGen Step s' t ∧ P t) : ∃ t, Relation.ReflTransGen Step s t ∧ P t :=
  rest.imp fun _ run => ⟨run.1.head step, run.2⟩

theorem exists_last_of_acc {s : σ} (stops : Acc (fun later now => Step now later) s) :
    ∃ t, Relation.ReflTransGen Step s t ∧ ∀ t', ¬ Step t t' := by
  induction stops with
  | intro s _ ih =>
    by_cases last : ∃ s', Step s s'
    · obtain ⟨s', step⟩ := last
      exact exists_run_head step (ih s' step)
    · exact ⟨s, .refl, fun t' step => last ⟨t', step⟩⟩

end CadoNfs.Lib
