import Mathlib

/-!
# Series of matrices

A series is given by its coefficients, which are rectangular matrices.
-/

namespace CadoNfs.Lib

open Finset

variable {R : Type*} [Semiring R] {k l m n : Type*} [Fintype l]

def conv (A : ℕ → Matrix k l R) (B : ℕ → Matrix l m R) (i : ℕ) : Matrix k m R := ∑ p ∈ antidiagonal i, A p.1 * B p.2

def Vanishes (h : ℕ) (A : ℕ → Matrix k l R) : Prop := ∀ i < h, A i = 0

section

variable {A A' : ℕ → Matrix k l R} {B B' : ℕ → Matrix l m R} {C : ℕ → Matrix m n R} {h i r s : ℕ}

theorem conv_assoc [Fintype m] : conv (conv A B) C = conv A (conv B C) := by
  funext i
  simp only [conv, Matrix.sum_mul, Matrix.mul_sum, sum_sigma']
  refine sum_nbij' (fun x => ⟨(x.2.1, x.2.2 + x.1.2), (x.2.2, x.1.2)⟩)
    (fun x => ⟨(x.1.1 + x.2.1, x.2.2), (x.1.1, x.2.1)⟩) ?_ ?_ ?_ ?_ ?_
  · rintro ⟨⟨a, b⟩, c, d⟩ member
    simp only [mem_sigma, HasAntidiagonal.mem_antidiagonal] at member ⊢
    exact ⟨by omega, trivial⟩
  · rintro ⟨⟨a, b⟩, c, d⟩ member
    simp only [mem_sigma, HasAntidiagonal.mem_antidiagonal] at member ⊢
    exact ⟨by omega, trivial⟩
  · rintro ⟨⟨a, b⟩, c, d⟩ member
    simp only [mem_sigma, HasAntidiagonal.mem_antidiagonal] at member
    obtain ⟨-, rfl⟩ := member
    rfl
  · rintro ⟨⟨a, b⟩, c, d⟩ member
    simp only [mem_sigma, HasAntidiagonal.mem_antidiagonal] at member
    obtain ⟨-, rfl⟩ := member
    rfl
  · rintro ⟨⟨a, b⟩, c, d⟩ -
    exact Matrix.mul_assoc ..

theorem conv_congr (left : ∀ a ≤ i, A a = A' a) (right : ∀ b ≤ i, B b = B' b) : conv A B i = conv A' B' i := by
  refine sum_congr rfl fun p member => ?_
  have sum := HasAntidiagonal.mem_antidiagonal.mp member
  rw [left p.1 (by omega), right p.2 (by omega)]

theorem conv_zero : conv A B 0 = A 0 * B 0 := by
  rw [conv, Nat.antidiagonal_zero, sum_singleton]

theorem conv_one : conv A B 1 = A 0 * B 1 + A 1 * B 0 := by
  rw [conv, Nat.antidiagonal_succ, sum_cons, sum_map, Nat.antidiagonal_zero, sum_singleton]
  rfl

theorem Vanishes.conv (zero : Vanishes h A) : Vanishes h (conv A B) := by
  intro i lt
  refine sum_eq_zero fun p member => ?_
  have sum := HasAntidiagonal.mem_antidiagonal.mp member
  rw [zero p.1 (by omega), Matrix.zero_mul]

theorem conv_shift (lost : ∀ a b, a < s → a + b = s + i → A a * B b = 0) :
    conv (fun a => A (s + a)) B i = conv A B (s + i) := by
  refine sum_of_injOn (fun p => (s + p.1, p.2)) ?_ ?_ ?_ fun _ _ => rfl
  · rintro ⟨a, b⟩ - ⟨a', b'⟩ - same
    simp only [Prod.mk.injEq, Nat.add_left_cancel_iff] at same
    exact Prod.ext same.1 same.2
  · intro p member
    have sum := HasAntidiagonal.mem_antidiagonal.mp member
    apply HasAntidiagonal.mem_antidiagonal.mpr
    dsimp only
    omega
  · intro p member outside
    have sum := HasAntidiagonal.mem_antidiagonal.mp member
    apply lost _ _ _ sum
    by_contra beyond
    refine outside ⟨(p.1 - s, p.2), HasAntidiagonal.mem_antidiagonal.mpr (by dsimp only; omega), Prod.ext ?_ rfl⟩
    dsimp only
    omega

theorem Vanishes.trans (zero : Vanishes h A) (rest : Vanishes r (Lib.conv (fun a => A (h + a)) B)) :
    Vanishes (h + r) (Lib.conv A B) := by
  intro i lt
  rcases Nat.lt_or_ge i h with low | high
  · exact zero.conv i low
  · obtain ⟨j, rfl⟩ := Nat.exists_eq_add_of_le high
    rw [← conv_shift fun a b lt _ => by rw [zero a lt, Matrix.zero_mul]]
    exact rest j (by omega)

end

end CadoNfs.Lib
