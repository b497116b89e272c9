import Mathlib.Data.Nat.Choose.Basic
import Mathlib.Data.List.Chain

/-!
# The combinatorial number system

A decreasing list `[c_k, …, c_1]` stands for the sum of the binomials `c_i.choose i`.
-/

namespace CadoNfs.Lib.Combinadic

def value : List ℕ → ℕ
  | [] => 0
  | c :: cs => c.choose (cs.length + 1) + value cs

variable {c d idx k n : ℕ} {cs ds : List ℕ}

abbrev Decreasing (cs : List ℕ) : Prop := cs.Pairwise (· > ·)

theorem value_lt (decreasing : Decreasing cs) (below : ∀ c ∈ cs, c < n) : value cs < n.choose cs.length := by
  induction cs generalizing n with
  | nil =>
    rw [value, List.length_nil, Nat.choose_zero_right]
    exact Nat.one_pos
  | cons c cs ih =>
    obtain ⟨less, decreasing⟩ := List.pairwise_cons.mp decreasing
    calc c.choose (cs.length + 1) + value cs
      _ < c.choose (cs.length + 1) + c.choose cs.length := Nat.add_lt_add_left (ih decreasing less) _
      _ = (c + 1).choose (cs.length + 1) := by rw [Nat.choose_succ_succ', Nat.add_comm]
      _ ≤ n.choose (cs.length + 1) := Nat.choose_le_choose _ (below c (.head _))

theorem value_cons_lt (decreasing : Decreasing (c :: cs)) : value (c :: cs) < (c + 1).choose (cs.length + 1) :=
  value_lt decreasing fun _ member => Nat.lt_succ_of_le <| (List.mem_cons.mp member).elim (fun same => same.le)
    fun later => (List.rel_of_pairwise_cons decreasing later).le

theorem below_of_value_lt (decreasing : Decreasing cs) (less : value cs < n.choose cs.length) : ∀ c ∈ cs, c < n := by
  cases cs with
  | nil => nofun
  | cons c cs =>
    have first : c < n := by
      by_contra notLess
      have most := Nat.choose_le_choose (cs.length + 1) (not_lt.mp notLess)
      have least : c.choose (cs.length + 1) ≤ value (c :: cs) := Nat.le_add_right ..
      exact absurd (less.trans_le (most.trans least)) (lt_irrefl _)
    exact List.forall_mem_cons.mpr ⟨first, fun d later => (List.rel_of_pairwise_cons decreasing later).trans first⟩

theorem eq_of_value_eq (decreasing : Decreasing cs) (decreasing' : Decreasing ds) (length : cs.length = ds.length)
    (same : value cs = value ds) : cs = ds := by
  induction cs generalizing ds with
  | nil => exact (List.length_eq_zero_iff.mp length.symm).symm
  | cons c cs ih =>
    cases ds with
    | nil => cases length
    | cons d ds =>
      have lengths : cs.length = ds.length := Nat.succ.inj length
      have notLess {c d : ℕ} {cs ds : List ℕ} (decreasing : Decreasing (c :: cs)) (length : cs.length = ds.length)
          (same : value (c :: cs) = value (d :: ds)) : ¬c < d := by
        intro less
        have first : value (c :: cs) < (c + 1).choose (ds.length + 1) := length ▸ value_cons_lt decreasing
        have second : (c + 1).choose (ds.length + 1) ≤ value (d :: ds) :=
          (Nat.choose_le_choose _ less).trans (Nat.le_add_right ..)
        exact absurd (first.trans_le second) (same ▸ lt_irrefl _)
      obtain rfl : c = d :=
        le_antisymm (not_lt.mp (notLess decreasing' lengths.symm same.symm)) (not_lt.mp (notLess decreasing lengths same))
      rw [value, value, lengths, Nat.add_left_cancel_iff] at same
      rw [ih (List.pairwise_cons.mp decreasing).2 (List.pairwise_cons.mp decreasing').2 lengths same]

theorem sub_lt_choose (least : c.choose (k + 1) ≤ idx) (less : idx < (c + 1).choose (k + 1)) :
    idx - c.choose (k + 1) < c.choose k := by
  rw [Nat.choose_succ_succ'] at less
  omega

theorem decreasing_cons (decreasing : Decreasing cs) (less : value cs < c.choose cs.length) : Decreasing (c :: cs) :=
  List.pairwise_cons.mpr ⟨below_of_value_lt decreasing less, decreasing⟩

end CadoNfs.Lib.Combinadic
