import CadoNfs.Lib.Double
import CadoNfs.Lib.GaussReduction
import CadoNfs.Lib.PlaneLattice

/-!
# Reduction of the basis of a special-q

`generic_skew_gauss` of `sieve/las-qlattice.cpp`, for the form `a^2 + skewness^2 * b^2` scaled to integers.
-/

namespace CadoNfs.Sieve
open Lib Lib.GaussReduction

namespace SkewGauss

-- The square is taken to stay in the range of the exponents.
def square (skewness : ℚ) : ℚ := double (skewness * skewness)

-- By `frexp`, with the 53 bits of the mantissa taken off.
def exponent (skewness : ℚ) : ℤ := Int.log 2 (square skewness) + 1 - 53

def mantissaZ (skewness : ℚ) : ℤ := ⌊square skewness / 2 ^ (Int.log 2 (square skewness) + 1) * 2 ^ 53⌋

def quadForm (skewness : ℚ) (u v : ℤ × ℤ) : ℤ :=
  let dst := u.1 * v.1
  let tmp := u.2 * v.2
  let dst := if exponent skewness < 0 then dst * 2 ^ (-exponent skewness).toNat else dst
  let tmp := if 0 < exponent skewness then tmp * 2 ^ (exponent skewness).toNat else tmp
  dst + tmp * mantissaZ skewness

def mpzRdivQ (a b : ℤ) : ℤ :=
  let q := a.fdiv b
  let r := a.fmod b
  if 0 ≤ (2 * r - b).sign * b.sign then q + 1 else q

structure State where
  v0 : ℤ × ℤ
  v1 : ℤ × ℤ
  n0 : ℤ
  n1 : ℤ
  s : ℤ

namespace State

def reduce0 (g : State) (q : ℤ) : State where
  v0 := (g.v0.1 - q * g.v1.1, g.v0.2 - q * g.v1.2)
  v1 := g.v1
  n0 := g.n0 - q * (g.s + (g.s - q * g.n1))
  n1 := g.n1
  s := g.s - q * g.n1

def reduce1 (g : State) (q : ℤ) : State where
  v0 := g.v0
  v1 := (g.v1.1 - q * g.v0.1, g.v1.2 - q * g.v0.2)
  n0 := g.n0
  n1 := g.n1 - q * (g.s + (g.s - q * g.n0))
  s := g.s - q * g.n0

-- `for (;;)`, cut off after `fuel` iterations.
def loop : ℕ → State → Option State
  | 0, _ => none
  | fuel + 1, g =>
    let q := mpzRdivQ g.s g.n1
    if q = 0 then some g
    else
      let g := g.reduce0 q
      let q := mpzRdivQ g.s g.n0
      if q = 0 then some g
      else loop fuel (g.reduce1 q)

def start (skewness : ℚ) (v0 v1 : ℤ × ℤ) : State :=
  ⟨v0, v1, quadForm skewness v0 v0, quadForm skewness v1 v1, quadForm skewness v0 v1⟩

def sorted (g : State) : (ℤ × ℤ) × (ℤ × ℤ) := if g.n0 > g.n1 then (g.v1, g.v0) else (g.v0, g.v1)

end State

def genericSkewGauss (fuel : ℕ) (skewness : ℚ) (v0 v1 : ℤ × ℤ) : Option ((ℤ × ℤ) × (ℤ × ℤ)) :=
  ((State.start skewness v0 v1).loop fuel).map State.sorted

theorem mpzRdivQ_nearest {g : Gram} (positive : 0 < g.n1) : g.Nearest (mpzRdivQ g.s g.n1) := by
  have division := Int.mul_ediv_add_emod g.s g.n1
  have low := Int.emod_nonneg g.s positive.ne'
  have high := Int.emod_lt_of_pos g.s positive
  have value : mpzRdivQ g.s g.n1 = if g.n1 ≤ 2 * (g.s % g.n1) then g.s / g.n1 + 1 else g.s / g.n1 := by
    unfold mpzRdivQ
    simp only [Int.fdiv_eq_ediv_of_nonneg _ positive.le, Int.fmod_eq_emod_of_nonneg _ positive.le,
      Int.sign_eq_one_of_pos positive, mul_one, Int.sign_nonneg_iff, sub_nonneg]
  rw [value]
  split
  · constructor <;> linarith
  · constructor <;> linarith

namespace State

def gram (g : State) : Gram := ⟨g.n0, g.n1, g.s⟩

theorem loop_first {g : State} (fuel : ℕ) (none : mpzRdivQ g.s g.n1 = 0) : loop (fuel + 1) g = some g := by
  simp only [loop, none, if_true]

theorem loop_second {g : State} (fuel : ℕ) (some : mpzRdivQ g.s g.n1 ≠ 0)
    (none : mpzRdivQ (g.reduce0 (mpzRdivQ g.s g.n1)).s (g.reduce0 (mpzRdivQ g.s g.n1)).n0 = 0) :
    loop (fuel + 1) g = .some (g.reduce0 (mpzRdivQ g.s g.n1)) := by
  simp only [loop, some, none, if_true, if_false]

theorem loop_next {g h : State} (fuel : ℕ) (some : mpzRdivQ g.s g.n1 ≠ 0) (once : h = g.reduce0 (mpzRdivQ g.s g.n1))
    (some' : mpzRdivQ h.s h.n0 ≠ 0) : loop (fuel + 1) g = loop fuel (h.reduce1 (mpzRdivQ h.s h.n0)) := by
  subst once
  simp only [loop, some, some', if_false]

theorem loop_mono {fuel more : ℕ} (le : fuel ≤ more) {g g' : State} (run : loop fuel g = some g') :
    loop more g = some g' := by
  induction fuel generalizing g more with
  | zero => exact absurd run (by simp [loop])
  | succ fuel ih =>
    obtain ⟨more, rfl⟩ : ∃ m, more = m + 1 := ⟨more - 1, by omega⟩
    simp only [loop] at run ⊢
    split at run
    · rename_i none
      rwa [if_pos none]
    · rename_i first
      rw [if_neg first]
      split at run
      · rename_i none
        rwa [if_pos none]
      · rename_i second
        rw [if_neg second]
        exact ih (by omega) run

theorem half_of_zero {g : Gram} (positive : 0 < g.n1) (none : mpzRdivQ g.s g.n1 = 0) : 2 * |g.s| ≤ g.n1 := by
  have nearest := mpzRdivQ_nearest positive
  rw [none] at nearest
  have half := nearest.le
  change 2 * |g.s - 0 * g.n1| ≤ g.n1 at half
  rwa [zero_mul, sub_zero] at half

section
variable {P : State → Prop} (keep0 : ∀ g q, P g → P (reduce0 g q)) (keep1 : ∀ g q, P g → P (reduce1 g q))
include keep0 keep1

theorem loop_ends {fuel : ℕ} {g : State} (definite : g.gram.Definite) (enough : g.gram.weight < fuel) (holds : P g) :
    ∃ g', loop fuel g = some g' ∧ P g' ∧ g'.gram.Definite ∧
      (mpzRdivQ g.s g.n1 = 0 ∧ g' = g ∨ mpzRdivQ g.s g.n1 ≠ 0 ∧ g'.gram.Reduced) := by
  induction fuel generalizing g with
  | zero => exact absurd enough (Nat.not_lt_zero _)
  | succ fuel ih =>
    by_cases ended : mpzRdivQ g.s g.n1 = 0
    · exact ⟨g, loop_first fuel ended, holds, definite, .inl ⟨ended, rfl⟩⟩
    have nearest : g.gram.Nearest (mpzRdivQ g.s g.n1) := mpzRdivQ_nearest definite.second
    obtain ⟨h, step⟩ : ∃ h, h = g.reduce0 (mpzRdivQ g.s g.n1) := ⟨_, rfl⟩
    have gram : h.gram = g.gram.reduce (mpzRdivQ g.s g.n1) := by rw [step]; rfl
    have once : h.gram.Definite := gram ▸ definite.reduce _
    have lighter : h.gram.weight < g.gram.weight := gram ▸ nearest.weight_lt definite ended
    have half : 2 * |h.s| ≤ h.n1 := by
      have := nearest.le
      rwa [← gram] at this
    have kept : P h := step ▸ keep0 g _ holds
    by_cases done : mpzRdivQ h.s h.n0 = 0
    · refine ⟨h, ?_, kept, once, .inr ⟨ended, ?_, half⟩⟩
      · rw [step] at done ⊢
        exact loop_second fuel ended done
      · exact half_of_zero once.swap.second done
    -- After both steps the product is small against the first norm, and the next quotient decides.
    have nearest' : h.gram.swap.Nearest (mpzRdivQ h.s h.n0) := mpzRdivQ_nearest once.swap.second
    have twice : (h.reduce1 (mpzRdivQ h.s h.n0)).gram.Definite := (once.swap.reduce _).swap
    have half' : 2 * |(h.reduce1 (mpzRdivQ h.s h.n0)).s| ≤ (h.reduce1 (mpzRdivQ h.s h.n0)).n0 := nearest'.le
    have lightest : (h.reduce1 (mpzRdivQ h.s h.n0)).gram.weight < h.gram.weight := by
      rw [← Gram.weight_swap h.gram, ← Gram.weight_swap (h.reduce1 (mpzRdivQ h.s h.n0)).gram]
      exact nearest'.weight_lt once.swap done
    obtain ⟨g', run, kept', definite', last⟩ := ih twice (by omega) (keep1 h _ kept)
    refine ⟨g', ?_, kept', definite', .inr ⟨ended, ?_⟩⟩
    · rw [loop_next fuel ended step done]
      exact run
    · rcases last with ⟨none, rfl⟩ | ⟨-, reduced⟩
      · exact ⟨half', half_of_zero twice.second none⟩
      · exact reduced

end

end State

section
variable {skewness : ℚ} (positive : 0 < skewness)
include positive

theorem square_eq : 0 < mantissaZ skewness ∧ square skewness = mantissaZ skewness * 2 ^ exponent skewness := by
  obtain ⟨m, wide, value⟩ := double_mantissa (mul_pos positive positive)
  change square skewness = m * 2 ^ (Int.log 2 (square skewness) - 52) at value
  have scaled : square skewness / 2 ^ (Int.log 2 (square skewness) + 1) * 2 ^ 53 = m := by
    have power : (2 : ℚ) ^ (Int.log 2 (square skewness) - 52) * 2 ^ 53 = 2 ^ (Int.log 2 (square skewness) + 1) := by
      rw [← zpow_natCast, ← zpow_add₀ (by norm_num)]
      congr 1
      push_cast
      ring
    have nonzero : (2 : ℚ) ^ (Int.log 2 (square skewness) + 1) ≠ 0 := by positivity
    rw [div_mul_eq_mul_div, div_eq_iff nonzero, ← power]
    nth_rewrite 1 [value]
    ring
  have mantissa : mantissaZ skewness = m := by rw [mantissaZ, scaled, Int.floor_intCast]
  rw [mantissa, exponent, show Int.log 2 (square skewness) + 1 - 53 = Int.log 2 (square skewness) - 52 by ring]
  exact ⟨by linarith, value⟩

theorem quadForm_eq : ∃ A B : ℤ, 0 < A ∧ 0 < B ∧ (B : ℚ) = A * square skewness ∧
    ∀ u v : ℤ × ℤ, quadForm skewness u v = A * (u.1 * v.1) + B * (u.2 * v.2) := by
  obtain ⟨mantissa, value⟩ := square_eq positive
  refine ⟨if exponent skewness < 0 then 2 ^ (-exponent skewness).toNat else 1,
    (if 0 < exponent skewness then 2 ^ (exponent skewness).toNat else 1) * mantissaZ skewness, ?_, ?_, ?_, ?_⟩
  · split <;> positivity
  · apply mul_pos _ mantissa
    split <;> positivity
  · rw [value]
    generalize exponent skewness = e
    rcases lt_trichotomy e 0 with negative | rfl | greater
    · obtain ⟨n, rfl⟩ : ∃ n : ℕ, e = -n := ⟨(-e).toNat, by omega⟩
      rw [if_pos negative, if_neg (by omega), neg_neg, Int.toNat_natCast, zpow_neg, zpow_natCast]
      push_cast
      field_simp
    · simp
    · obtain ⟨n, rfl⟩ : ∃ n : ℕ, e = n := ⟨e.toNat, by omega⟩
      rw [if_pos greater, if_neg (not_lt.mpr greater.le), Int.toNat_natCast, zpow_natCast]
      push_cast
      ring
  · intro u v
    simp only [quadForm]
    split <;> split <;> ring

end

/-! ## The lattice of a special-q -/

namespace State

structure Basis (A B q rho : ℤ) (g : State) : Prop where
  first : q ∣ g.v0.1 - g.v0.2 * rho
  second : q ∣ g.v1.1 - g.v1.2 * rho
  det : g.v0.1 * g.v1.2 - g.v1.1 * g.v0.2 = q
  n0_eq : g.n0 = A * (g.v0.1 * g.v0.1) + B * (g.v0.2 * g.v0.2)
  n1_eq : g.n1 = A * (g.v1.1 * g.v1.1) + B * (g.v1.2 * g.v1.2)
  s_eq : g.s = A * (g.v0.1 * g.v1.1) + B * (g.v0.2 * g.v1.2)

namespace Basis
variable {A B q rho : ℤ} {g : State}

theorem reduce0 (basis : Basis A B q rho g) (k : ℤ) : Basis A B q rho (g.reduce0 k) where
  first := by
    have combined := dvd_sub basis.first (basis.second.mul_left k)
    rwa [show g.v0.1 - g.v0.2 * rho - k * (g.v1.1 - g.v1.2 * rho) =
      g.v0.1 - k * g.v1.1 - (g.v0.2 - k * g.v1.2) * rho by ring] at combined
  second := basis.second
  det := by
    have det := basis.det
    change (g.v0.1 - k * g.v1.1) * g.v1.2 - g.v1.1 * (g.v0.2 - k * g.v1.2) = q
    linarith
  n0_eq := by
    change g.n0 - k * (g.s + (g.s - k * g.n1)) = A * ((g.v0.1 - k * g.v1.1) * (g.v0.1 - k * g.v1.1)) +
      B * ((g.v0.2 - k * g.v1.2) * (g.v0.2 - k * g.v1.2))
    rw [basis.n0_eq, basis.n1_eq, basis.s_eq]
    ring
  n1_eq := basis.n1_eq
  s_eq := by
    change g.s - k * g.n1 = A * ((g.v0.1 - k * g.v1.1) * g.v1.1) + B * ((g.v0.2 - k * g.v1.2) * g.v1.2)
    rw [basis.n1_eq, basis.s_eq]
    ring

theorem reduce1 (basis : Basis A B q rho g) (k : ℤ) : Basis A B q rho (g.reduce1 k) where
  first := basis.first
  second := by
    have combined := dvd_sub basis.second (basis.first.mul_left k)
    rwa [show g.v1.1 - g.v1.2 * rho - k * (g.v0.1 - g.v0.2 * rho) =
      g.v1.1 - k * g.v0.1 - (g.v1.2 - k * g.v0.2) * rho by ring] at combined
  det := by
    have det := basis.det
    change g.v0.1 * (g.v1.2 - k * g.v0.2) - (g.v1.1 - k * g.v0.1) * g.v0.2 = q
    linarith
  n0_eq := basis.n0_eq
  n1_eq := by
    change g.n1 - k * (g.s + (g.s - k * g.n0)) = A * ((g.v1.1 - k * g.v0.1) * (g.v1.1 - k * g.v0.1)) +
      B * ((g.v1.2 - k * g.v0.2) * (g.v1.2 - k * g.v0.2))
    rw [basis.n0_eq, basis.n1_eq, basis.s_eq]
    ring
  s_eq := by
    change g.s - k * g.n0 = A * (g.v0.1 * (g.v1.1 - k * g.v0.1)) + B * (g.v0.2 * (g.v1.2 - k * g.v0.2))
    rw [basis.n0_eq, basis.s_eq]
    ring

theorem definite (basis : Basis A B q rho g) (a_pos : 0 < A) (b_pos : 0 < B) (q_pos : 0 < q) : g.gram.Definite := by
  have det := basis.det
  have independent : g.n0 * g.n1 - g.s ^ 2 = A * B * q ^ 2 := by
    rw [basis.n0_eq, basis.n1_eq, basis.s_eq, ← det]
    ring
  have area : 0 < A * B * q ^ 2 := by positivity
  have first : 0 ≤ g.gram.n0 := by
    change 0 ≤ g.n0
    rw [basis.n0_eq]
    nlinarith [mul_nonneg a_pos.le (mul_self_nonneg g.v0.1), mul_nonneg b_pos.le (mul_self_nonneg g.v0.2)]
  have second : 0 ≤ g.gram.n1 := by
    change 0 ≤ g.n1
    rw [basis.n1_eq]
    nlinarith [mul_nonneg a_pos.le (mul_self_nonneg g.v1.1), mul_nonneg b_pos.le (mul_self_nonneg g.v1.2)]
  have product : g.gram.s ^ 2 < g.gram.n0 * g.gram.n1 := by
    change g.s ^ 2 < g.n0 * g.n1
    linarith
  have positive := lt_of_le_of_lt (sq_nonneg g.gram.s) product
  refine ⟨lt_of_le_of_ne first ?_, lt_of_le_of_ne second ?_, product⟩
  · intro zero
    rw [← zero, zero_mul] at positive
    exact lt_irrefl 0 positive
  · intro zero
    rw [← zero, mul_zero] at positive
    exact lt_irrefl 0 positive

theorem coordinates (basis : Basis A B q rho g) (q_pos : 0 < q) {w : ℤ × ℤ} (member : q ∣ w.1 - w.2 * rho) :
    ∃ x y : ℤ, x * g.v0.1 + y * g.v1.1 = w.1 ∧ x * g.v0.2 + y * g.v1.2 = w.2 := by
  have det := basis.det
  obtain ⟨c, first⟩ := basis.first
  obtain ⟨d, second⟩ := basis.second
  obtain ⟨e, point⟩ := member
  have left : q * (e * g.v1.2 - w.2 * d) = w.1 * g.v1.2 - w.2 * g.v1.1 := by
    linear_combination -g.v1.2 * point + w.2 * second
  have right : q * (w.2 * c - e * g.v0.2) = w.2 * g.v0.1 - w.1 * g.v0.2 := by
    linear_combination -w.2 * first + g.v0.2 * point
  refine ⟨e * g.v1.2 - w.2 * d, w.2 * c - e * g.v0.2, ?_, ?_⟩
  · apply mul_left_cancel₀ q_pos.ne'
    linear_combination g.v0.1 * left + g.v1.1 * right + w.1 * det
  · apply mul_left_cancel₀ q_pos.ne'
    linear_combination g.v0.2 * left + g.v1.2 * right + w.2 * det

end Basis
end State

def Reduced (skewness : ℚ) (u v : ℤ × ℤ) : Prop :=
  2 * |quadForm skewness u v| ≤ min (quadForm skewness u u) (quadForm skewness v v)

def Shortest (skewness : ℚ) (u v : ℤ × ℤ) : Prop :=
  quadForm skewness u u ≤ quadForm skewness v v ∧
    ∀ w w' : ℤ × ℤ, w ∈ generated u v → w' ∈ generated u v → w.1 * w'.2 - w'.1 * w.2 ≠ 0 →
      quadForm skewness u u ≤ quadForm skewness w w ∧ quadForm skewness u u ≤ quadForm skewness w' w' ∧
        (quadForm skewness v v ≤ quadForm skewness w w ∨ quadForm skewness v v ≤ quadForm skewness w' w')

section
variable {skewness : ℚ} {A B q rho : ℤ}
  (form : ∀ u v : ℤ × ℤ, quadForm skewness u v = A * (u.1 * v.1) + B * (u.2 * v.2))
include form

theorem shortest_of_reduced {u v : ℤ × ℤ} (sorted : quadForm skewness u u ≤ quadForm skewness v v)
    (reduced : Reduced skewness u v) : Shortest skewness u v := by
  have half : 2 * |quadForm skewness u v| ≤ quadForm skewness u u := le_trans reduced (min_le_left _ _)
  have expand (x y : ℤ) : quadForm skewness (x • u + y • v) (x • u + y • v) =
      x ^ 2 * quadForm skewness u u + 2 * x * y * quadForm skewness u v + y ^ 2 * quadForm skewness v v := by
    rw [form, form, form, form]
    simp only [Prod.fst_add, Prod.snd_add, Prod.smul_fst, Prod.smul_snd, smul_eq_mul]
    ring
  refine ⟨sorted, ?_⟩
  intro w w' member member' independent
  obtain ⟨x, y, rfl⟩ := mem_generated.mp member
  obtain ⟨x', y', rfl⟩ := mem_generated.mp member'
  have outside : ¬ (x * y' - x' * y = 0) := by
    intro zero
    apply independent
    simp only [Prod.fst_add, Prod.snd_add, Prod.smul_fst, Prod.smul_snd, smul_eq_mul]
    linear_combination (u.1 * v.2 - v.1 * u.2) * zero
  have nonzero : x ≠ 0 ∨ y ≠ 0 := by
    by_contra none
    push Not at none
    rw [none.1, none.2] at outside
    simp at outside
  have nonzero' : x' ≠ 0 ∨ y' ≠ 0 := by
    by_contra none
    push Not at none
    rw [none.1, none.2] at outside
    simp at outside
  rw [expand, expand]
  refine ⟨first_le half sorted x y nonzero, first_le half sorted x' y' nonzero', ?_⟩
  by_cases inside : y = 0
  · right
    apply second_le half sorted
    rintro rfl
    rw [inside] at outside
    simp at outside
  · left
    exact second_le half sorted x y inside

theorem sorted_spec (q_pos : 0 < q) {g : State} (basis : State.Basis A B q rho g) {u v : ℤ × ℤ}
    (result : g.sorted = (u, v)) :
    quadForm skewness u u ≤ quadForm skewness v v ∧ (Reduced skewness u v ↔ g.gram.Reduced) ∧
      (∀ w : ℤ × ℤ, w ∈ generated u v ↔ q ∣ w.1 - w.2 * rho) ∧
      (u.1 * v.2 - v.1 * u.2 = q ∨ u.1 * v.2 - v.1 * u.2 = -q) := by
  have n0 : quadForm skewness g.v0 g.v0 = g.n0 := by rw [form, basis.n0_eq]
  have n1 : quadForm skewness g.v1 g.v1 = g.n1 := by rw [form, basis.n1_eq]
  have s : quadForm skewness g.v0 g.v1 = g.s := by rw [form, basis.s_eq]
  have lattice (w : ℤ × ℤ) : w ∈ generated g.v0 g.v1 ↔ q ∣ w.1 - w.2 * rho := by
    rw [mem_generated]
    constructor
    · rintro ⟨x, y, rfl⟩
      have combined := dvd_add (basis.first.mul_left x) (basis.second.mul_left y)
      simp only [Prod.fst_add, Prod.snd_add, Prod.smul_fst, Prod.smul_snd, smul_eq_mul]
      rwa [show x * g.v0.1 + y * g.v1.1 - (x * g.v0.2 + y * g.v1.2) * rho =
        x * (g.v0.1 - g.v0.2 * rho) + y * (g.v1.1 - g.v1.2 * rho) by ring]
    · intro member
      obtain ⟨x, y, first, second⟩ := basis.coordinates q_pos member
      exact ⟨x, y, Prod.ext first second⟩
  unfold State.sorted at result
  split at result
  · rename_i larger
    obtain ⟨rfl, rfl⟩ := Prod.mk.inj result
    have s' : quadForm skewness g.v1 g.v0 = g.s := by
      rw [← s, form, form]
      ring
    refine ⟨by omega, ?_, ?_, ?_⟩
    · rw [Reduced, n0, n1, s', le_min_iff]
      exact And.comm
    · rw [generated_comm]
      exact lattice
    · have det := basis.det
      right
      linarith
  · obtain ⟨rfl, rfl⟩ := Prod.mk.inj result
    refine ⟨by omega, ?_, lattice, .inl basis.det⟩
    rw [Reduced, n0, n1, s, le_min_iff]
    rfl

theorem start_basis : State.Basis A B q rho (State.start skewness (q, 0) (rho, 1)) where
  first := ⟨1, by simp [State.start]⟩
  second := ⟨0, by simp [State.start]⟩
  det := by simp [State.start]
  n0_eq := form _ _
  n1_eq := form _ _
  s_eq := form _ _

theorem start_half (a_pos : 0 < A) (q_pos : 0 < q) :
    2 * |(State.start skewness (q, 0) (rho, 1)).s| ≤ (State.start skewness (q, 0) (rho, 1)).n0 ↔ 2 * |rho| ≤ q := by
  have product : (State.start skewness (q, 0) (rho, 1)).s = A * q * rho := by
    change quadForm skewness (q, 0) (rho, 1) = _
    rw [form]
    ring
  have norm : (State.start skewness (q, 0) (rho, 1)).n0 = A * q * q := by
    change quadForm skewness (q, 0) (q, 0) = _
    rw [form]
    ring
  have positive : 0 < A * q := mul_pos a_pos q_pos
  rw [product, norm, abs_mul, abs_of_pos positive, mul_left_comm]
  exact mul_le_mul_iff_right₀ positive

-- In terms of the special-q the first quotient is zero if the product is small against the square of the skewness.
theorem start_quotient (a_pos : 0 < A) (b_pos : 0 < B) (scale : (B : ℚ) = A * square skewness) :
    mpzRdivQ (State.start skewness (q, 0) (rho, 1)).s (State.start skewness (q, 0) (rho, 1)).n1 = 0 ↔
      -((rho : ℚ) ^ 2 + square skewness) ≤ 2 * q * rho ∧ 2 * q * rho < (rho : ℚ) ^ 2 + square skewness := by
  have product : (State.start skewness (q, 0) (rho, 1)).gram.s = A * (q * rho) := by
    change quadForm skewness (q, 0) (rho, 1) = _
    rw [form]
    ring
  have norm : (State.start skewness (q, 0) (rho, 1)).gram.n1 = A * rho ^ 2 + B := by
    change quadForm skewness (rho, 1) (rho, 1) = _
    rw [form]
    ring
  have positive : 0 < (State.start skewness (q, 0) (rho, 1)).gram.n1 := by
    rw [norm]
    positivity
  have nearest := mpzRdivQ_nearest positive
  have zero : mpzRdivQ (State.start skewness (q, 0) (rho, 1)).gram.s (State.start skewness (q, 0) (rho, 1)).gram.n1 =
    0 ↔
      (State.start skewness (q, 0) (rho, 1)).gram.Nearest 0 :=
    ⟨fun none => by rwa [none] at nearest, fun none => nearest.unique positive none⟩
  have a_pos' : (0 : ℚ) < A := by exact_mod_cast a_pos
  have norm' : ((A * rho ^ 2 + B : ℤ) : ℚ) = A * ((rho : ℚ) ^ 2 + square skewness) := by
    push_cast
    rw [scale]
    ring
  refine zero.trans (Gram.nearest_zero.trans ?_)
  rw [product, norm]
  have low : -(A * rho ^ 2 + B) ≤ 2 * (A * (q * rho)) ↔ -((rho : ℚ) ^ 2 + square skewness) ≤ 2 * q * rho := by
    rw [← @Int.cast_le ℚ, Int.cast_neg, norm', ← mul_neg,
      show ((2 * (A * (q * rho)) : ℤ) : ℚ) = A * (2 * q * rho) by push_cast; ring]
    exact mul_le_mul_iff_right₀ a_pos'
  have high : 2 * (A * (q * rho)) < A * rho ^ 2 + B ↔ 2 * q * rho < (rho : ℚ) ^ 2 + square skewness := by
    rw [← @Int.cast_lt ℚ, norm', show ((2 * (A * (q * rho)) : ℤ) : ℚ) = A * (2 * q * rho) by push_cast; ring]
    exact mul_lt_mul_iff_right₀ a_pos'
  exact and_congr low high

end

/-- The first vector is not too short for the second one, or the loop does not end at its first test. -/
def Reduces (skewness : ℚ) (q rho : ℤ) : Prop :=
  2 * |rho| ≤ q ∨ (rho : ℚ) ^ 2 + square skewness ≤ 2 * q * rho ∨ 2 * q * rho < -((rho : ℚ) ^ 2 + square skewness)

/-- The reduction ends with a basis of the lattice of the special-q. It is reduced unless the first quotient is zero
while the second vector can be reduced by the first one. -/
theorem genericSkewGauss_reduced_iff {q : ℤ} (q_pos : 0 < q) (rho : ℤ) {skewness : ℚ} (positive : 0 < skewness) :
    ∃ (u v : ℤ × ℤ) (bound : ℕ),
      (∀ fuel : ℕ, bound ≤ fuel → genericSkewGauss fuel skewness (q, 0) (rho, 1) = some (u, v)) ∧
      (∀ w : ℤ × ℤ, w ∈ generated u v ↔ q ∣ w.1 - w.2 * rho) ∧
      (u.1 * v.2 - v.1 * u.2 = q ∨ u.1 * v.2 - v.1 * u.2 = -q) ∧
      (Reduced skewness u v ∧ Shortest skewness u v ↔ Reduces skewness q rho) := by
  obtain ⟨A, B, a_pos, b_pos, scale, form⟩ := quadForm_eq positive
  have start : State.Basis A B q rho (State.start skewness (q, 0) (rho, 1)) := start_basis form
  have definite := start.definite a_pos b_pos q_pos
  obtain ⟨g, run, basis, -, last⟩ := State.loop_ends (P := State.Basis A B q rho) (fun _ k basis => basis.reduce0 k)
    (fun _ k basis => basis.reduce1 k) definite (Nat.lt_succ_self _) start
  obtain ⟨u, v, result⟩ : ∃ u v, g.sorted = (u, v) := ⟨_, _, rfl⟩
  obtain ⟨sorted, reduced, lattice, det⟩ := sorted_spec form q_pos basis result
  refine ⟨u, v, (State.start skewness (q, 0) (rho, 1)).gram.weight + 1, ?_, lattice, det, ?_⟩
  · intro fuel enough
    rw [genericSkewGauss, State.loop_mono enough run]
    exact congrArg some result
  rw [and_iff_left_of_imp (shortest_of_reduced form sorted), reduced]
  rcases last with ⟨zero, rfl⟩ | ⟨nonzero, reduced⟩
  · -- The loop ended at once, and what is left to compare is the norm of the first vector.
    have quotient := (start_quotient form a_pos b_pos scale).mp zero
    have half := State.half_of_zero definite.second zero
    rw [Reduces, or_iff_left (by
      rintro (low | high)
      · exact absurd quotient.2 (not_lt.mpr low)
      · exact absurd quotient.1 (not_le.mpr high)), ← start_half form a_pos q_pos]
    exact and_iff_left half
  · refine iff_of_true reduced (.inr ?_)
    by_contra small
    push Not at small
    exact nonzero ((start_quotient form a_pos b_pos scale).mpr ⟨small.2, small.1⟩)

theorem genericSkewGauss_reduced_iff_eleven : ∃ (u v : ℤ × ℤ) (bound : ℕ),
    (∀ fuel : ℕ, bound ≤ fuel → genericSkewGauss fuel 2 (11, 0) (5, 1) = some (u, v)) ∧
    (∀ w : ℤ × ℤ, w ∈ generated u v ↔ 11 ∣ w.1 - w.2 * 5) ∧ (u.1 * v.2 - v.1 * u.2 = 11 ∨ u.1 * v.2 - v.1 * u.2 = -11) ∧
    (Reduced 2 u v ∧ Shortest 2 u v ↔ Reduces 2 11 5) :=
  genericSkewGauss_reduced_iff (by norm_num) 5 (by norm_num)

theorem genericSkewGauss_not_reduced : ¬ ∀ (q rho : ℤ), 0 < q → 0 ≤ rho → rho < q → ∀ skewness : ℚ, 0 < skewness →
    ∃ (u v : ℤ × ℤ) (bound : ℕ),
      (∀ fuel : ℕ, bound ≤ fuel → genericSkewGauss fuel skewness (q, 0) (rho, 1) = some (u, v)) ∧
      Reduced skewness u v := by
  intro always
  obtain ⟨u, v, bound, run, output⟩ := always 1000003 1000002 (by norm_num) (by norm_num) (by norm_num) (2 ^ 20)
    (by norm_num)
  obtain ⟨A, B, a_pos, b_pos, scale, form⟩ := quadForm_eq (show (0 : ℚ) < 2 ^ 20 by norm_num)
  have near := (double_between (show (0 : ℚ) < 2 ^ 20 * 2 ^ 20 by norm_num)).1
  change _ ≤ square (2 ^ 20) at near
  have zero : mpzRdivQ (State.start (2 ^ 20) (1000003, 0) (1000002, 1)).s (State.start (2 ^ 20) (1000003, 0)
    (1000002, 1)).n1 = 0 := by
    apply (start_quotient form a_pos b_pos scale).mpr
    constructor <;> norm_num at near ⊢ <;> linarith
  have once := run (bound + 1) (Nat.le_succ bound)
  rw [genericSkewGauss, State.loop_first bound zero] at once
  have reduced := (sorted_spec form (by norm_num) (start_basis form) (Option.some.inj once)).2.1.mp output
  exact absurd ((start_half form a_pos (by norm_num)).mp reduced.1) (by norm_num)

end SkewGauss
end CadoNfs.Sieve
