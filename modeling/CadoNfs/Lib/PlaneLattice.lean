import Mathlib

/-!
# Lattices of the plane

A lattice given by two vectors keeps its points when a multiple of one vector is added to the other.
For the bases of Franke and Kleinjung the points of a vertical strip are visited in order by adding
one of the two vectors or both.
-/

namespace CadoNfs.Lib

def generated (u v : ℤ × ℤ) : AddSubgroup (ℤ × ℤ) := AddSubgroup.closure {u, v}

theorem mem_generated {u v x : ℤ × ℤ} : x ∈ generated u v ↔ ∃ m n : ℤ, m • u + n • v = x :=
  AddSubgroup.mem_closure_pair

theorem generated_comm (u v : ℤ × ℤ) : generated u v = generated v u := by
  rw [generated, generated, Set.pair_comm]

theorem generated_le_add (u v : ℤ × ℤ) (k : ℤ) : generated (u + k • v) v ≤ generated u v := by
  intro x member
  obtain ⟨m, n, rfl⟩ := mem_generated.mp member
  refine mem_generated.mpr ⟨m, m * k + n, ?_⟩
  rw [smul_add, smul_smul, add_smul, add_assoc]

theorem generated_add (u v : ℤ × ℤ) (k : ℤ) : generated (u + k • v) v = generated u v := by
  apply le_antisymm (generated_le_add u v k)
  have back := generated_le_add (u + k • v) v (-k)
  rwa [neg_smul, add_neg_cancel_right] at back

theorem generated_neg (u v : ℤ × ℤ) : generated (-u) v = generated u v := by
  ext x
  rw [mem_generated, mem_generated]
  constructor
  · rintro ⟨m, n, rfl⟩
    exact ⟨-m, n, by rw [neg_smul, smul_neg]⟩
  · rintro ⟨m, n, rfl⟩
    exact ⟨-m, n, by rw [neg_smul, smul_neg, neg_neg]⟩

/-! ## The points of a strip in order -/

structure StripBasis (I : ℤ) where
  a : ℤ
  b : ℤ
  c : ℤ
  d : ℤ
  a_nonneg : 0 ≤ a
  a_lt : a < I
  b_pos : 0 < b
  d_nonneg : 0 ≤ d
  narrow : c < I ∨ a = 0
  wide : I ≤ c + a

namespace StripBasis
variable {I : ℤ} (B : StripBasis I)

theorem c_pos : 0 < B.c := by have := B.a_lt; have := B.wide; omega

/-- The points whose first coordinate, moved by `i₀`, is in the strip, row by row. -/
def Hit (i₀ x : ℤ) : Prop :=
  ∃ p ∈ generated (-B.a, B.b) (B.c, B.d), 0 ≤ p.1 + i₀ ∧ p.1 + i₀ < I ∧ x = p.1 + i₀ + p.2 * I

def next (x : ℤ) : ℤ :=
  x + (if I - B.c ≤ x % I then B.b * I - B.a else 0) + if x % I < B.a then B.d * I + B.c else 0

theorem coefficients_nonneg {m n : ℤ} (left : -I < B.c * n - B.a * m) (right : B.c * n - B.a * m < I)
    (forward : 0 < B.b * m + B.d * n ∨ B.b * m + B.d * n = 0 ∧ 0 < B.c * n - B.a * m) :
    0 ≤ m ∧ 0 ≤ n := by
  have ha := B.a_nonneg
  have hb := B.b_pos
  have hc := B.c_pos
  have hd := B.d_nonneg
  have wide := B.wide
  rcases lt_or_ge m 0 with hm | hm <;> rcases lt_or_ge n 0 with hn | hn
  · have low : B.b * m + B.d * n < 0 := by nlinarith
    omega
  · rcases hn.lt_or_eq with pos | rfl
    · nlinarith
    · have low : B.b * m < 0 := by nlinarith
      simp only [mul_zero, add_zero] at forward
      omega
  · rcases hm.lt_or_eq with pos | rfl
    · nlinarith
    · have low : B.d * n ≤ 0 := by nlinarith
      have back : B.c * n < 0 := by nlinarith
      simp only [mul_zero, zero_add, sub_zero] at forward
      omega
  · exact ⟨hm, hn⟩

variable {B}

theorem hit_iff {i₀ m n : ℤ} {y : ℤ} :
    let i := n * B.c - m * B.a + i₀
    let x := i + (m * B.b + n * B.d) * I
    B.Hit i₀ y ↔ ∃ m' n' : ℤ, 0 ≤ i - B.a * m' + B.c * n' ∧ i - B.a * m' + B.c * n' < I ∧
      y = x + (m' * (B.b * I - B.a) + n' * (B.d * I + B.c)) := by
  intro i x
  constructor
  · rintro ⟨q, member, low, high, rfl⟩
    obtain ⟨mq, nq, rfl⟩ := mem_generated.mp member
    simp only [Prod.smul_mk, smul_eq_mul, Prod.mk_add_mk] at low high ⊢
    have column : mq * -B.a + nq * B.c + i₀ = i - B.a * (mq - m) + B.c * (nq - n) := by
      simp only [i]
      ring
    rw [column] at low high ⊢
    refine ⟨mq - m, nq - n, low, high, ?_⟩
    simp only [x]
    ring
  · rintro ⟨m', n', low, high, rfl⟩
    refine ⟨_, mem_generated.mpr ⟨m + m', n + n', rfl⟩, ?_, ?_, ?_⟩ <;>
      simp only [Prod.smul_mk, smul_eq_mul, Prod.mk_add_mk, i, x] at low high ⊢
    · linarith
    · linarith
    · ring

theorem forward_moves {i j m n : ℤ} (low : 0 ≤ i) (high : i < I)
    (inside : 0 ≤ i - B.a * m + B.c * n) (below : i - B.a * m + B.c * n < I)
    (after : i + j * I < i + j * I + (m * (B.b * I - B.a) + n * (B.d * I + B.c))) :
    0 ≤ m ∧ 0 ≤ n ∧ (1 ≤ m ∨ 1 ≤ n) := by
  have positive : 0 < I := lt_of_le_of_lt B.a_nonneg B.a_lt
  have nonneg := B.coefficients_nonneg (m := m) (n := n) (by linarith) (by linarith) ?_
  · refine ⟨nonneg.1, nonneg.2, ?_⟩
    by_contra none
    push Not at none
    obtain ⟨rfl, rfl⟩ : m = 0 ∧ n = 0 := by omega
    simp at after
  · by_contra backward
    push Not at backward
    obtain ⟨rows, columns⟩ := backward
    rcases rows.lt_or_eq with less | same
    · nlinarith
    · have back := columns same
      nlinarith

theorem next_hit {i₀ x : ℤ} (hit : B.Hit i₀ x) :
    B.Hit i₀ (B.next x) ∧ x < B.next x ∧ ∀ y, B.Hit i₀ y → x < y → B.next x ≤ y := by
  have ha := B.a_nonneg
  have haI := B.a_lt
  have hb := B.b_pos
  have hc := B.c_pos
  have hd := B.d_nonneg
  have wide := B.wide
  obtain ⟨p, member, low, high, rfl⟩ := hit
  obtain ⟨m, n, rfl⟩ := mem_generated.mp member
  have coordinates : (m • (-B.a, B.b) + n • (B.c, B.d)).1 + i₀ = n * B.c - m * B.a + i₀ ∧
      (m • (-B.a, B.b) + n • (B.c, B.d)).2 = m * B.b + n * B.d := by
    simp only [Prod.smul_mk, smul_eq_mul, Prod.mk_add_mk, and_true]
    ring
  rw [coordinates.1] at low high
  rw [coordinates.1, coordinates.2]
  have others (y : ℤ) := @hit_iff _ B i₀ m n y
  simp only at others
  simp only [others]
  generalize n * B.c - m * B.a + i₀ = i at low high
  generalize m * B.b + n * B.d = j
  have warpPos : 0 < B.b * I - B.a := by
    have once := le_mul_of_one_le_left (ha.trans haI.le) hb
    linarith only [once, haI]
  have stepPos : 0 < B.d * I + B.c := by
    have rows := mul_nonneg hd (ha.trans haI.le)
    linarith only [rows, hc]
  have warps {m : ℤ} (some : 1 ≤ m) : B.b * I - B.a ≤ m * (B.b * I - B.a) := le_mul_of_one_le_left warpPos.le some
  have steps {n : ℤ} (some : 1 ≤ n) : B.d * I + B.c ≤ n * (B.d * I + B.c) := le_mul_of_one_le_left stepPos.le some
  have warpNeeded {m n : ℤ} (warp : I - B.c ≤ i) (below : i - B.a * m + B.c * n < I) (hm : 0 ≤ m)
      (some : 1 ≤ m ∨ 1 ≤ n) : 1 ≤ m := by
    by_contra zero
    obtain rfl : m = 0 := by omega
    have once := le_mul_of_one_le_right hc.le (some.resolve_left zero)
    linarith only [once, warp, below]
  have stepNeeded {m n : ℤ} (step : i < B.a) (inside : 0 ≤ i - B.a * m + B.c * n) (hn : 0 ≤ n)
      (some : 1 ≤ m ∨ 1 ≤ n) : 1 ≤ n := by
    by_contra zero
    obtain rfl : n = 0 := by omega
    have once := le_mul_of_one_le_right ha (some.resolve_right zero)
    linarith only [once, step, inside]
  have column : (i + j * I) % I = i := by
    rw [Int.add_mul_emod_self_right, Int.emod_eq_of_lt low high]
  unfold next
  rw [column]
  by_cases warp : I - B.c ≤ i <;> by_cases step : i < B.a <;> simp only [warp, step, if_true, if_false]
  · -- Between the two bounds neither vector alone stays in the strip.
    have notVertical : B.c < I := B.narrow.resolve_right (by omega)
    refine ⟨⟨1, 1, by linarith, by linarith, by ring⟩, by linarith, ?_⟩
    rintro y ⟨m', n', inside, below, rfl⟩ after
    obtain ⟨hm, hn, some⟩ := forward_moves low high inside below after
    linarith only [warps (warpNeeded warp below hm some), steps (stepNeeded step inside hn some)]
  · refine ⟨⟨1, 0, by linarith, by linarith, by ring⟩, by linarith, ?_⟩
    rintro y ⟨m', n', inside, below, rfl⟩ after
    obtain ⟨hm, hn, some⟩ := forward_moves low high inside below after
    linarith only [warps (warpNeeded warp below hm some), mul_nonneg hn stepPos.le]
  · refine ⟨⟨0, 1, by linarith, by linarith, by ring⟩, by linarith, ?_⟩
    rintro y ⟨m', n', inside, below, rfl⟩ after
    obtain ⟨hm, hn, some⟩ := forward_moves low high inside below after
    linarith only [mul_nonneg hm warpPos.le, steps (stepNeeded step inside hn some)]
  · omega

end StripBasis

theorem iterate_enumerates {S : Set ℤ} {start : ℤ} {next : ℤ → ℤ} (first : start ∈ S)
    (least : ∀ y ∈ S, start ≤ y)
    (succ : ∀ x ∈ S, next x ∈ S ∧ x < next x ∧ ∀ y ∈ S, x < y → next x ≤ y) :
    StrictMono (fun n => next^[n] start) ∧ Set.range (fun n => next^[n] start) = S := by
  have member (n : Nat) : next^[n] start ∈ S := by
    induction n with
    | zero => exact first
    | succ n ih => rw [Function.iterate_succ_apply']; exact (succ _ ih).1
  have increasing : StrictMono (fun n => next^[n] start) := by
    apply strictMono_nat_of_lt_succ
    intro n
    show next^[n] start < next^[n + 1] start
    rw [Function.iterate_succ_apply']
    exact (succ _ (member n)).2.1
  refine ⟨increasing, Set.Subset.antisymm ?_ fun y hy => ?_⟩
  · rintro _ ⟨n, rfl⟩
    exact member n
  · have unbounded (n : Nat) : start + n ≤ next^[n] start := by
      induction n with
      | zero => simp
      | succ n ih =>
        have step : next^[n] start < next^[n + 1] start := increasing (Nat.lt_succ_self n)
        push_cast
        linarith
    have passed : ∃ n, y ≤ next^[n] start :=
      ⟨(y - start).toNat, by have := unbounded (y - start).toNat; omega⟩
    classical
    -- The first iterate that is not below `y`.
    refine ⟨Nat.find passed, le_antisymm ?_ (Nat.find_spec passed)⟩
    cases found : Nat.find passed with
    | zero => exact least y hy
    | succ n =>
      have before : next^[n] start < y := not_le.mp (Nat.find_min passed (by omega))
      show next^[n + 1] start ≤ y
      rw [Function.iterate_succ_apply']
      exact (succ _ (member n)).2.2 y hy before

namespace StripBasis
variable {I : ℤ} (B : StripBasis I)

theorem enumerates {i₀ : ℤ} (low : 0 ≤ i₀) (high : i₀ < I) :
    StrictMono (fun n => B.next^[n] i₀) ∧
      Set.range (fun n => B.next^[n] i₀) = {x | B.Hit i₀ x ∧ i₀ ≤ x} := by
  apply iterate_enumerates
  · exact ⟨⟨0, zero_mem _, by simpa using low, by simpa using high, by simp⟩, le_rfl⟩
  · exact fun y hy => hy.2
  · rintro x ⟨hit, ge⟩
    obtain ⟨again, lt, least⟩ := next_hit hit
    exact ⟨⟨again, ge.trans lt.le⟩, lt, fun y hy => least y hy.1⟩

end StripBasis

end CadoNfs.Lib
