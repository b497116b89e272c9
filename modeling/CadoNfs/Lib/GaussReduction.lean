import Mathlib.Tactic

/-!
# Reduction of a basis in the plane

The norms and the product of two vectors, their change when a multiple of one vector is taken from the other, and
what a reduced pair says about all vectors of the lattice.
-/

namespace CadoNfs.Lib.GaussReduction

structure Gram where
  n0 : ℤ
  n1 : ℤ
  s : ℤ

namespace Gram
variable {g : Gram} {k : ℤ}

def swap (g : Gram) : Gram := ⟨g.n1, g.n0, g.s⟩

def reduce (g : Gram) (k : ℤ) : Gram := ⟨g.n0 - k * (g.s + (g.s - k * g.n1)), g.n1, g.s - k * g.n1⟩

structure Definite (g : Gram) : Prop where
  first : 0 < g.n0
  second : 0 < g.n1
  independent : g.s ^ 2 < g.n0 * g.n1

structure Nearest (g : Gram) (k : ℤ) : Prop where
  low : -g.n1 ≤ 2 * (g.s - k * g.n1)
  high : 2 * (g.s - k * g.n1) < g.n1

def Reduced (g : Gram) : Prop := 2 * |g.s| ≤ g.n0 ∧ 2 * |g.s| ≤ g.n1

theorem Definite.swap (definite : g.Definite) : g.swap.Definite :=
  ⟨definite.second, definite.first, by rw [Gram.swap, mul_comm]; exact definite.independent⟩

theorem Definite.reduce (definite : g.Definite) (k : ℤ) : (g.reduce k).Definite := by
  have independent : (g.s - k * g.n1) ^ 2 < (g.n0 - k * (g.s + (g.s - k * g.n1))) * g.n1 := by
    linarith [definite.independent, show (g.n0 - k * (g.s + (g.s - k * g.n1))) * g.n1 - (g.s - k * g.n1) ^ 2 =
      g.n0 * g.n1 - g.s ^ 2 by ring]
  refine ⟨?_, definite.second, independent⟩
  exact (mul_pos_iff_of_pos_right definite.second).mp (lt_of_le_of_lt (sq_nonneg _) independent)

theorem Nearest.le (nearest : g.Nearest k) : 2 * |(g.reduce k).s| ≤ (g.reduce k).n1 := by
  change 2 * |g.s - k * g.n1| ≤ g.n1
  have low := nearest.low
  have high := nearest.high
  rcases abs_cases (g.s - k * g.n1) with ⟨value, -⟩ | ⟨value, -⟩ <;> omega

theorem nearest_zero : g.Nearest 0 ↔ -g.n1 ≤ 2 * g.s ∧ 2 * g.s < g.n1 := by
  constructor
  · intro nearest
    have low := nearest.low
    have high := nearest.high
    rw [zero_mul, sub_zero] at low high
    exact ⟨low, high⟩
  · rintro ⟨low, high⟩
    constructor <;> rwa [zero_mul, sub_zero]

theorem Nearest.unique {l : ℤ} (positive : 0 < g.n1) (nearest : g.Nearest k) (other : g.Nearest l) : k = l := by
  have bounds := nearest.low
  have bounds' := nearest.high
  have others := other.low
  have others' := other.high
  by_contra apart
  rcases lt_or_gt_of_ne apart with less | greater
  · have := mul_le_mul_of_nonneg_right (show k + 1 ≤ l from less) positive.le
    linarith
  · have := mul_le_mul_of_nonneg_right (show l + 1 ≤ k from greater) positive.le
    linarith

/-- The sum of the norms; among equal ones a positive product weighs more. -/
def weight (g : Gram) : ℕ := (2 * (g.n0 + g.n1) + if 0 < g.s then 1 else 0).toNat

theorem weight_swap (g : Gram) : g.swap.weight = g.weight := by
  rw [weight, weight, Gram.swap, add_comm g.n1]

/-- A step that does something lowers the weight. With a quotient 1 from a tie the norm stays, and the product, which was
positive, becomes negative. -/
theorem Nearest.weight_lt (nearest : g.Nearest k) (definite : g.Definite) (nonzero : k ≠ 0) :
    (g.reduce k).weight < g.weight := by
  have low := nearest.low
  have high := nearest.high
  have positive := definite.second
  have reduced := (definite.reduce k).first
  change 0 < g.n0 - k * (g.s + (g.s - k * g.n1)) at reduced
  have drop : 0 < k * (g.s + (g.s - k * g.n1)) ∨
      k * (g.s + (g.s - k * g.n1)) = 0 ∧ 0 < g.s ∧ g.s - k * g.n1 < 0 := by
    rcases lt_or_gt_of_ne nonzero with negative | greater
    · left
      have factor : g.s + (g.s - k * g.n1) < 0 := by
        have := mul_le_mul_of_nonneg_right (show k ≤ -1 by omega) positive.le
        linarith
      exact mul_pos_of_neg_of_neg negative factor
    · rcases (show k = 1 ∨ 2 ≤ k by omega) with rfl | large
      · rcases (show -g.n1 = 2 * (g.s - g.n1) ∨ -g.n1 < 2 * (g.s - g.n1) by omega) with tie | strict
        · right
          refine ⟨?_, ?_, ?_⟩ <;> omega
        · left
          omega
      · left
        have factor : 0 < g.s + (g.s - k * g.n1) := by
          have := mul_le_mul_of_nonneg_right large positive.le
          linarith
        exact mul_pos greater factor
  change (2 * (g.n0 - k * (g.s + (g.s - k * g.n1)) + g.n1) + if 0 < g.s - k * g.n1 then 1 else 0).toNat <
    (2 * (g.n0 + g.n1) + if 0 < g.s then 1 else 0).toNat
  rcases drop with strict | ⟨none, before, after⟩
  · split <;> split <;> omega
  · rw [if_pos before, if_neg (by omega), none]
    omega

end Gram

/-! ## The shortest vectors -/

section
variable {n0 n1 s : ℤ} (half : 2 * |s| ≤ n0) (le : n0 ≤ n1) (x y : ℤ)
include half

theorem cross_le : -(|x| * |y| * n0) ≤ 2 * x * y * s := by
  have product : |2 * x * y * s| ≤ |x| * |y| * n0 := by
    calc
      |2 * x * y * s| = |x| * |y| * (2 * |s|) := by
        rw [abs_mul, abs_mul, abs_mul, abs_two]
        ring
      _ ≤ |x| * |y| * n0 := mul_le_mul_of_nonneg_left half (by positivity)
  exact (abs_le.mp product).1

include le

theorem second_le (outside : y ≠ 0) : n1 ≤ x ^ 2 * n0 + 2 * x * y * s + y ^ 2 * n1 := by
  have cross := cross_le half x y
  have positive : 0 ≤ n0 := le_trans (by positivity) half
  have low := abs_nonneg x
  have high := Int.one_le_abs outside
  rw [← sq_abs x, ← sq_abs y]
  generalize |x| = X at cross low ⊢
  generalize |y| = Y at cross high ⊢
  rcases le_or_gt Y X with large | small
  · have head := mul_nonneg (mul_nonneg low (sub_nonneg.mpr large)) positive
    have tail := mul_le_mul_of_nonneg_right (one_le_pow₀ high (n := 2)) (positive.trans le)
    linarith
  · have weaker := mul_nonneg (mul_nonneg low (sub_nonneg.mpr small.le)) (sub_nonneg.mpr le)
    have form : 1 ≤ X ^ 2 + Y * (Y - X) := by
      have := one_le_mul_of_one_le_of_one_le high (show 1 ≤ Y - X by omega)
      linarith [sq_nonneg X]
    have tail := mul_le_mul_of_nonneg_right form (positive.trans le)
    linarith

theorem first_le (nonzero : x ≠ 0 ∨ y ≠ 0) : n0 ≤ x ^ 2 * n0 + 2 * x * y * s + y ^ 2 * n1 := by
  by_cases inside : y = 0
  · subst inside
    have positive : 0 ≤ n0 := le_trans (by positivity) half
    have one : 1 ≤ x ^ 2 := by
      exact one_le_sq_iff_one_le_abs _ |>.mpr (Int.one_le_abs (nonzero.resolve_right (by simp)))
    have scaled := mul_le_mul_of_nonneg_right one positive
    linarith
  · exact le.trans (second_le half le x y inside)

end

end CadoNfs.Lib.GaussReduction
