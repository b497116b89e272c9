import Mathlib.Data.List.Basic

/-!
# Runs that may fail

What a run in `Except` did when it did not fail.
-/

namespace CadoNfs.Lib

variable {ε α β : Type}

theorem bind_ok {x : Except ε α} {f : α → Except ε β} {r : β} : (x >>= f) = .ok r ↔ ∃ v, x = .ok v ∧ f v = .ok r := by
  cases x with
  | error e => exact ⟨fun same => (by cases same), fun ⟨v, same, _⟩ => (by cases same)⟩
  | ok v => exact ⟨fun rest => ⟨v, rfl, rest⟩, fun ⟨v', same, rest⟩ => (by cases same; exact rest)⟩

theorem bind_error {x : Except ε α} {f : α → Except ε β} {e : ε} :
    (x >>= f) = .error e ↔ x = .error e ∨ ∃ v, x = .ok v ∧ f v = .error e := by
  cases x with
  | error e' => exact ⟨fun same => .inl (by cases same; rfl), fun either => by
      rcases either with same | ⟨v, same, -⟩
      · cases same
        rfl
      · cases same⟩
  | ok v => exact ⟨fun rest => .inr ⟨v, rfl, rest⟩, fun either => by
      rcases either with same | ⟨v', same, rest⟩
      · cases same
      · cases same
        exact rest⟩

theorem mapM_ok {f : α → Except ε β} {g : α → β} {l : List α} (ok : ∀ a ∈ l, f a = .ok (g a)) :
    l.mapM f = .ok (l.map g) := by
  induction l with
  | nil => rfl
  | cons a l ih =>
    obtain ⟨first, rest⟩ := List.forall_mem_cons.mp ok
    rw [List.mapM_cons, first, ih rest]
    rfl

end CadoNfs.Lib
