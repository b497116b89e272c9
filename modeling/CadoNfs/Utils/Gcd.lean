import Mathlib

/-!
# `xgcd_ul`

The extended gcd of `utils/gcd.c`.
-/

namespace CadoNfs.Utils

def xgcdLoop (r0 r1 u0 u1 i : Nat) : Nat × Nat × Nat :=
  if 0 < r1 then
    let q := r0 / r1
    xgcdLoop r1 (r0 - q * r1) u1 (u0 + q * u1) (i + 1)
  else (r0, u0, i)
termination_by r1
decreasing_by
  rw [mul_comm, ← Nat.mod_eq_sub_mul_div]
  exact Nat.mod_lt _ ‹_›

def xgcdUl (a b : Nat) : Nat × Nat :=
  if b = 0 then (a, 1)
  else if b = a then (a, 0)
  else
    let (r0, u0, i) := xgcdLoop b a 0 1 0
    (r0, if i % 2 = 0 ∧ u0 ≠ 0 then b / r0 - u0 else u0)

structure XgcdInv (a b r0 r1 u0 u1 i : Nat) : Prop where
  pos : 0 < r0
  ne : r0 ≠ r1
  det : r0 * u1 + r1 * u0 = b
  left : (b : ℤ) ∣ u0 * a + (-1) ^ i * r0
  right : (b : ℤ) ∣ u1 * a - (-1) ^ i * r1
  last : r1 = 0 → u0 = 0 ∨ 2 * u0 ≤ u1

theorem XgcdInv.step {a b r0 r1 u0 u1 i : Nat} (inv : XgcdInv a b r0 r1 u0 u1 i) (more : 0 < r1) :
    XgcdInv a b r1 (r0 - r0 / r1 * r1) u1 (u0 + r0 / r1 * u1) (i + 1) := by
  have quotient : r0 / r1 * r1 ≤ r0 := Nat.div_mul_le_self r0 r1
  have remainder : r0 - r0 / r1 * r1 = r0 % r1 := by rw [mul_comm, ← Nat.mod_eq_sub_mul_div]
  have less : r0 - r0 / r1 * r1 < r1 := remainder ▸ Nat.mod_lt _ more
  refine ⟨more, less.ne', ?_, ?_, ?_, fun zero => .inr ?_⟩
  · calc r1 * (u0 + r0 / r1 * u1) + (r0 - r0 / r1 * r1) * u1
        = (r0 / r1 * r1 + (r0 - r0 / r1 * r1)) * u1 + r1 * u0 := by ring
      _ = b := by rw [Nat.add_sub_cancel' quotient, inv.det]
  · have same : (u1 : ℤ) * a + (-1) ^ (i + 1) * r1 = u1 * a - (-1) ^ i * r1 := by ring
    rw [same]
    exact inv.right
  · have same : ((u0 + r0 / r1 * u1 : Nat) : ℤ) * a - (-1) ^ (i + 1) * (r0 - r0 / r1 * r1 : Nat) =
        (u0 * a + (-1) ^ i * r0) + (r0 / r1 : Nat) * (u1 * a - (-1) ^ i * r1) := by
      push_cast [Nat.cast_sub quotient]
      ring
    rw [same]
    exact dvd_add inv.left (inv.right.mul_left _)
  · -- The last quotient is at least two, because `r1` divides `r0` and differs from it.
    have divides : r0 = r0 / r1 * r1 := by omega
    have big : 2 ≤ r0 / r1 := by
      by_contra small
      have := inv.pos
      have := inv.ne
      interval_cases r0 / r1 <;> omega
    have := Nat.mul_le_mul_right u1 big
    omega

theorem xgcdLoop_spec {a b r0 r1 u0 u1 i : Nat} (inv : XgcdInv a b r0 r1 u0 u1 i) :
    ∃ g u j, xgcdLoop r0 r1 u0 u1 i = (g, u, j) ∧ g = Nat.gcd r0 r1 ∧ 0 < g ∧ g ∣ b ∧
      (u = 0 ∨ 2 * u ≤ b / g) ∧ (b : ℤ) ∣ u * a + (-1) ^ j * g := by
  induction r0, r1, u0, u1, i using xgcdLoop.induct with
  | case1 r0 r1 u0 u1 i more q ih =>
    obtain ⟨g, u, j, run, gcd, rest⟩ := ih (inv.step more)
    rw [xgcdLoop, if_pos more]
    refine ⟨g, u, j, run, ?_, rest⟩
    rw [gcd, mul_comm, ← Nat.mod_eq_sub_mul_div, Nat.gcd_comm, ← Nat.gcd_rec, Nat.gcd_comm]
  | case2 r0 r1 u0 u1 i done =>
    obtain rfl : r1 = 0 := by omega
    have det : r0 * u1 = b := by simpa using inv.det
    rw [xgcdLoop, if_neg done]
    refine ⟨r0, u0, i, rfl, (Nat.gcd_zero_right r0).symm, inv.pos, ⟨u1, det.symm⟩, ?_, inv.left⟩
    rw [← det, Nat.mul_div_cancel_left _ inv.pos]
    exact inv.last rfl

theorem xgcdUl_spec (a : Nat) {b : Nat} (pos : 0 < b) :
    (xgcdUl a b).1 = Nat.gcd a b ∧ (xgcdUl a b).2 < b / (xgcdUl a b).1 ∧
      (b : ℤ) ∣ (xgcdUl a b).2 * a - (xgcdUl a b).1 := by
  unfold xgcdUl
  rw [if_neg pos.ne']
  split_ifs with same
  · subst same
    simp [Nat.div_self pos]
  · have start : XgcdInv a b b a 0 1 0 := by
      refine ⟨pos, same, by simp, by simp, by simp, fun _ => .inl rfl⟩
    obtain ⟨g, u, j, run, gcd, gpos, divides, bound, congruent⟩ := xgcdLoop_spec start
    have quotient : 0 < b / g := Nat.div_pos (Nat.le_of_dvd pos divides) gpos
    have exactQuotient : ((b / g : Nat) : ℤ) * g = b := by
      exact_mod_cast Nat.div_mul_cancel divides
    simp only [run]
    refine ⟨by rw [gcd, Nat.gcd_comm], ?_, ?_⟩
    · split_ifs <;> omega
    · rcases Nat.even_or_odd j with even | odd
      · rw [even.neg_one_pow, one_mul] at congruent
        by_cases zero : u = 0
        · subst zero
          have : (b : ℤ) ∣ g := by simpa using congruent
          simp [this]
        · rw [if_pos ⟨Nat.even_iff.mp even, zero⟩]
          have le : u ≤ b / g := by omega
          have multiple : (g : ℤ) ∣ a := by
            rw [gcd]
            exact_mod_cast Nat.gcd_dvd_right b a
          obtain ⟨k, hk⟩ := multiple
          have moved : ((b / g - u : Nat) : ℤ) * a - g = k * b - (u * a + g) := by
            rw [Nat.cast_sub le]
            linear_combination ((b / g : Nat) : ℤ) * hk + k * exactQuotient
          rw [moved]
          exact dvd_sub (Dvd.intro_left _ rfl) congruent
      · rw [odd.neg_one_pow] at congruent
        rw [if_neg fun both => by have := Nat.odd_iff.mp odd; omega]
        simpa [sub_eq_add_neg] using congruent

end CadoNfs.Utils
