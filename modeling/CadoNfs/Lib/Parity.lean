import Mathlib

/-!
# Families of sets modulo two

Sets under symmetric difference are vectors modulo two.
-/

namespace CadoNfs.Lib
open scoped symmDiff

section
variable {ι G : Type*} [AddCommGroup G]

def Independent (live : Finset ι) (v : ι → G) : Prop :=
  ∀ part ⊆ live, part.Nonempty → ∑ i ∈ part, v i ≠ 0

theorem Independent.ne_zero {live : Finset ι} {v : ι → G} (independent : Independent live v) {i : ι}
    (member : i ∈ live) : v i ≠ 0 := by
  have single := independent {i} (Finset.singleton_subset_iff.mpr member) (Finset.singleton_nonempty i)
  rwa [Finset.sum_singleton] at single

theorem Independent.mono {live live' : Finset ι} {v v' : ι → G} (independent : Independent live v)
    (fewer : live' ⊆ live) (same : ∀ i ∈ live', v' i = v i) : Independent live' v' := by
  intro part inside nonempty
  rw [Finset.sum_congr rfl fun i member => same i (inside member)]
  exact independent part (inside.trans fewer) nonempty

variable [DecidableEq ι]

theorem Independent.add {live : Finset ι} {v : ι → G} (independent : Independent live v)
    (double : ∀ x : G, x + x = 0) {s t : ι} (source : s ∈ live) (distinct : t ≠ s) :
    Independent live (Function.update v t (v t + v s)) := by
  intro part inside nonempty
  by_cases target : t ∈ part
  · -- The sum over `part` is that of the old family over `part ∆ {s}`, which still contains `t`.
    have moved : ∑ i ∈ part, Function.update v t (v t + v s) i = ∑ i ∈ part, v i + v s := by
      rw [Finset.sum_update_of_mem target, ← Finset.sum_erase_add _ _ target,
        Finset.erase_eq, add_comm (v t), add_assoc, add_comm]
      abel
    have toggled : ∑ i ∈ part, v i + v s = ∑ i ∈ part ∆ {s}, v i := by
      by_cases member : s ∈ part
      · have smaller : part ∆ {s} = part.erase s := by
          ext i
          by_cases here : i = s <;> simp [Finset.mem_symmDiff, here, member]
        rw [smaller, ← Finset.sum_erase_add _ _ member, add_assoc, double, add_zero]
      · have larger : part ∆ {s} = insert s part := by
          ext i
          by_cases here : i = s <;> simp [Finset.mem_symmDiff, here, member]
        rw [larger, Finset.sum_insert member, add_comm]
    rw [moved, toggled]
    apply independent
    · intro i member
      rcases Finset.mem_symmDiff.mp member with ⟨old, _⟩ | ⟨new, _⟩
      · exact inside old
      · rwa [Finset.mem_singleton.mp new]
    · exact ⟨t, Finset.mem_symmDiff.mpr (.inl ⟨target, Finset.notMem_singleton.mpr distinct⟩)⟩
  · rw [Finset.sum_update_of_notMem target]
    exact independent part inside nonempty

end

def characteristic (s : Finset Nat) : Nat → ZMod 2 := fun x => if x ∈ s then 1 else 0

def symmetricDifference (sets : List (Finset Nat)) : Finset Nat := sets.foldr (· ∆ ·) ∅

theorem characteristic_injective : Function.Injective characteristic := by
  intro s t eq
  ext x
  have value := congrFun eq x
  by_cases left : x ∈ s <;> by_cases right : x ∈ t <;> simp_all [characteristic]

theorem characteristic_symmDiff (s t : Finset Nat) :
    characteristic (s ∆ t) = characteristic s + characteristic t := by
  funext x
  by_cases left : x ∈ s <;> by_cases right : x ∈ t <;>
    simp [characteristic, Finset.mem_symmDiff, left, right, CharTwo.add_self_eq_zero]

theorem characteristic_symmetricDifference (sets : List (Finset Nat)) :
    characteristic (symmetricDifference sets) = (sets.map characteristic).sum := by
  induction sets with
  | nil => rfl
  | cons s sets ih =>
    rw [symmetricDifference, List.foldr_cons, characteristic_symmDiff, ← symmetricDifference, ih,
      List.map_cons, List.sum_cons]

theorem double_eq_zero (v : Nat → ZMod 2) : v + v = 0 := by
  funext x
  exact CharTwo.add_self_eq_zero (v x)

def parity (row : List Nat) : Nat → ZMod 2 := fun x => (row.count x : ZMod 2)

def oddEntries (row : List Nat) : Finset Nat := row.toFinset.filter fun x => row.count x % 2 = 1

theorem characteristic_oddEntries (row : List Nat) : characteristic (oddEntries row) = parity row := by
  funext x
  have odd : x ∈ oddEntries row ↔ row.count x % 2 = 1 := by
    rw [oddEntries, Finset.mem_filter, List.mem_toFinset]
    refine ⟨And.right, fun odd => ⟨List.count_pos_iff.mp (by omega), odd⟩⟩
  rw [characteristic, parity]
  split_ifs with member
  · exact (ZMod.natCast_eq_one_iff_odd.mpr (Nat.odd_iff.mpr (odd.mp member))).symm
  · have even : Even (row.count x) := Nat.even_iff.mpr (by have := odd.not.mp member; omega)
    exact (ZMod.natCast_eq_zero_iff_even.mpr even).symm

theorem characteristic_sum_oddEntries (f : Nat → List Nat) (ks : List Nat) :
    characteristic (symmetricDifference (ks.map fun k => oddEntries (f k))) =
      (ks.map fun k => parity (f k)).sum := by
  rw [characteristic_symmetricDifference, List.map_map]
  congr 1
  exact List.map_congr_left fun k _ => characteristic_oddEntries (f k)

theorem oddEntries_eq_toFinset {row : List Nat} (distinct : row.Nodup) :
    oddEntries row = row.toFinset := by
  refine Finset.filter_true_of_mem fun x member => ?_
  rw [List.count_eq_one_of_mem distinct (List.mem_toFinset.mp member)]

theorem parity_cons (x : Nat) (row : List Nat) : parity (x :: row) = Pi.single x 1 + parity row := by
  funext y
  by_cases here : y = x
  · subst here
    simp [parity, add_comm]
  · simp [parity, List.count_cons_of_ne (Ne.symm here), here]

@[simp] theorem parity_nil : parity [] = 0 := rfl

theorem parity_eq_sum (row : List Nat) : parity row = (row.map fun x => Pi.single x 1).sum := by
  induction row with
  | nil => rfl
  | cons x row ih => rw [parity_cons, ih, List.map_cons, List.sum_cons]

theorem independent_single (live : Finset Nat) : Independent live fun i => parity [i] := by
  rintro part - ⟨i, member⟩ zero
  have value := congrFun zero i
  have entry (k : Nat) : parity [k] i = if i = k then 1 else 0 := by
    rw [parity_cons, parity_nil, add_zero, Pi.single_apply]
  rw [Finset.sum_apply, Finset.sum_congr rfl fun k _ => entry k, Finset.sum_ite_eq, if_pos member] at value
  exact one_ne_zero value

end CadoNfs.Lib
