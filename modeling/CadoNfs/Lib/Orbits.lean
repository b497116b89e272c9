import Mathlib

/-!
# Orbits of a map on a finite set

A finite set that a map takes into itself one-to-one is cut into orbits, and it stays such a set when one of its
orbits is taken away.
-/

namespace CadoNfs.Lib
open Function

variable {α : Type*} {f : α → α} {U : Finset α} {u v x y z : α}

def Reaches (f : α → α) (x y : α) : Prop := ∃ n, f^[n] x = y

theorem Reaches.refl (f : α → α) (x : α) : Reaches f x x := ⟨0, rfl⟩

theorem Reaches.trans (first : Reaches f x y) (second : Reaches f y z) : Reaches f x z := by
  obtain ⟨m, rfl⟩ := first
  obtain ⟨n, rfl⟩ := second
  exact ⟨n + m, iterate_add_apply f n m x⟩

theorem Reaches.symm (periodic : x ∈ periodicPts f) (reaches : Reaches f x y) : Reaches f y x := by
  obtain ⟨n, rfl⟩ := reaches
  obtain ⟨d, positive, closed⟩ := periodic
  refine ⟨d * n - n, ?_⟩
  rw [← iterate_add_apply, Nat.sub_add_cancel (Nat.le_mul_of_pos_left n positive)]
  exact closed.mul_const n

theorem Reaches.minimalPeriod (periodic : x ∈ periodicPts f) (reaches : Reaches f x y) :
    minimalPeriod f y = minimalPeriod f x := by
  obtain ⟨n, rfl⟩ := reaches
  exact minimalPeriod_apply_iterate periodic n

theorem Reaches.exists_lt (periodic : x ∈ periodicPts f) (reaches : Reaches f x y) :
    ∃ n < Function.minimalPeriod f x, f^[n] x = y := by
  obtain ⟨n, rfl⟩ := reaches
  exact ⟨n % _, Nat.mod_lt _ (minimalPeriod_pos_of_mem_periodicPts periodic), iterate_mod_minimalPeriod_eq⟩

theorem Reaches.exists_pos (periodic : x ∈ periodicPts f) (reaches : Reaches f x y) (other : y ≠ x) :
    ∃ n, 1 ≤ n ∧ n < Function.minimalPeriod f x ∧ f^[n] x = y := by
  obtain ⟨n, less, rfl⟩ := reaches.exists_lt periodic
  refine ⟨n, Nat.one_le_iff_ne_zero.mpr ?_, less, rfl⟩
  rintro rfl
  exact other rfl

theorem iterate_ne_of_lt {n : ℕ} (positive : 1 ≤ n) (less : n < minimalPeriod f x) : f^[n] x ≠ x := fun same =>
  not_isPeriodicPt_of_pos_of_lt_minimalPeriod (Nat.one_le_iff_ne_zero.mp positive) less same

structure StableSet (f : α → α) (U : Finset α) : Prop where
  maps : ∀ u ∈ U, f u ∈ U
  injective : Set.InjOn f U

namespace StableSet

theorem periodic (stable : StableSet f U) (member : u ∈ U) : u ∈ periodicPts f := by
  have maps : Set.MapsTo f U U := stable.maps
  obtain ⟨n, positive, closed⟩ := (maps.restrict_inj.mpr stable.injective).mem_periodicPts ⟨u, member⟩
  refine ⟨n, positive, ?_⟩
  have same := congrArg Subtype.val closed
  rwa [maps.iterate_restrict] at same

theorem reaches (stable : StableSet f U) (member : u ∈ U) (reaches : Reaches f u v) : v ∈ U := by
  obtain ⟨n, rfl⟩ := reaches
  induction n with
  | zero => exact member
  | succ n ih =>
    rw [iterate_succ_apply']
    exact stable.maps _ ih

open Classical in
theorem remove (stable : StableSet f U) (u : α) : StableSet f (U.filter fun v => ¬Reaches f u v) := by
  refine ⟨fun v member => ?_, stable.injective.mono (Finset.coe_subset.mpr (Finset.filter_subset _ _))⟩
  obtain ⟨member, outside⟩ := Finset.mem_filter.mp member
  refine Finset.mem_filter.mpr ⟨stable.maps v member, fun reached => outside (reached.trans ?_)⟩
  exact Reaches.symm (stable.periodic member) ⟨1, rfl⟩

end StableSet

end CadoNfs.Lib
