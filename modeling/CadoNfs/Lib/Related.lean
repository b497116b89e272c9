import Mathlib

/-!
# Lists related entry by entry
-/

namespace CadoNfs.Lib

theorem forall₂_zipWith {α β γ : Type*} {P : α → β → Prop} {Q : α → γ → Prop} {f : α → β → γ} {l : List α}
    {m : List β} (related : List.Forall₂ P l m) (step : ∀ a ∈ l, ∀ b, P a b → Q a (f a b)) :
    List.Forall₂ Q l (List.zipWith f l m) := by
  induction related with
  | nil => exact .nil
  | cons here _ ih =>
    exact .cons (step _ (.head _) _ here) (ih fun a member => step a (.tail _ member))

theorem exists_of_forall₂ {α β : Type*} {P : α → β → Prop} {l : List α} {m : List β}
    (related : List.Forall₂ P l m) {a : α} (member : a ∈ l) : ∃ b, P a b := by
  induction related with
  | nil => cases member
  | cons here _ ih =>
    rcases List.mem_cons.mp member with rfl | later
    · exact ⟨_, here⟩
    · exact ih later

theorem mem_of_forall₂ {α β : Type*} {P : α → β → Prop} {l : List α} {m : List β}
    (related : List.Forall₂ P l m) {a : α} (member : a ∈ l) : ∃ b ∈ m, P a b := by
  induction related with
  | nil => cases member
  | cons here _ ih =>
    cases member with
    | head => exact ⟨_, List.mem_cons_self, here⟩
    | tail _ later =>
      obtain ⟨b, member', there⟩ := ih later
      exact ⟨b, List.mem_cons_of_mem _ member', there⟩

end CadoNfs.Lib
