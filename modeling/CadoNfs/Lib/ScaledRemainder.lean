import Mathlib

/-!
# Scaled remainders

The remainder of `P` modulo `N` is represented by `2 ^ k * P / N`, modulo `2 ^ k` and rounded down, where `k` is the
size of `N` and some guard bits.
-/

namespace CadoNfs.Lib

structure Scaled (P : ℤ) (guard error N scaled : ℕ) : Prop where
  bound : scaled < 2 ^ (N.size + guard)
  close : ∃ z : ℤ, 0 ≤ (P + z * N) * 2 ^ (N.size + guard) - N * scaled ∧
    (P + z * N) * 2 ^ (N.size + guard) - N * scaled < error * N

namespace Scaled
variable {P : ℤ} {guard error N scaled : ℕ}

theorem mono {error' : ℕ} (le : error ≤ error') (approx : Scaled P guard error N scaled) :
    Scaled P guard error' N scaled := by
  obtain ⟨z, low, high⟩ := approx.close
  refine ⟨approx.bound, z, low, high.trans_le ?_⟩
  gcongr

theorem root (P : ℤ) (guard : ℕ) (pos : 0 < N) :
    Scaled P guard 1 N ((P % N).toNat * 2 ^ (N.size + guard) / N) := by
  have nonneg := Int.emod_nonneg P (show (N : ℤ) ≠ 0 by omega)
  have less := Int.emod_lt_of_pos P (show (0 : ℤ) < N by omega)
  have split := Nat.div_add_mod ((P % N).toNat * 2 ^ (N.size + guard)) N
  have rest := Nat.mod_lt ((P % N).toNat * 2 ^ (N.size + guard)) pos
  have remainder : P + -(P / N) * N = (P % N).toNat := by
    rw [Int.toNat_of_nonneg nonneg, Int.emod_def]
    ring
  constructor
  · rw [Nat.div_lt_iff_lt_mul pos, mul_comm]
    exact Nat.mul_lt_mul_of_pos_left (by omega) (Nat.two_pow_pos _)
  · refine ⟨-(P / N), ?_, ?_⟩
    · rw [remainder]
      have := Nat.mul_div_le ((P % N).toNat * 2 ^ (N.size + guard)) N
      have : ((N * ((P % N).toNat * 2 ^ (N.size + guard) / N) : ℕ) : ℤ) ≤
          (((P % N).toNat * 2 ^ (N.size + guard) : ℕ) : ℤ) := by exact_mod_cast this
      push_cast at this ⊢
      linarith
    · rw [remainder]
      have : (((P % N).toNat * 2 ^ (N.size + guard) : ℕ) : ℤ) <
          ((N * ((P % N).toNat * 2 ^ (N.size + guard) / N) + N : ℕ) : ℤ) := by
        exact_mod_cast (show _ < _ by omega)
      push_cast at this ⊢
      linarith

theorem size_le_of_dvd {u t : ℕ} (pos : 0 < t) (divides : u ∣ t) : u.size ≤ t.size :=
  Nat.size_le_size (Nat.le_of_dvd pos divides)

theorem child {u v : ℕ} (upos : 0 < u) (vpos : 0 < v) (approx : Scaled P guard error (u * v) scaled) :
    Scaled P guard (2 * error + 1) u
      (scaled * v % 2 ^ ((u * v).size + guard) / 2 ^ ((u * v).size - u.size)) := by
  obtain ⟨z, low, high⟩ := approx.close
  have sizes := size_le_of_dvd (Nat.mul_pos upos vpos) (Nat.dvd_mul_right u v)
  obtain ⟨s, size⟩ := Nat.exists_eq_add_of_le sizes
  have shift : (u * v).size - u.size = s := by omega
  have width : 2 ^ ((u * v).size + guard) = 2 ^ (u.size + guard) * 2 ^ s := by
    rw [← pow_add]
    congr 1
    omega
  have large : u * v ≤ 2 * u * 2 ^ s := by
    have upper : u * v < 2 ^ (u * v).size := Nat.lt_size_self _
    have lower : 2 ^ (u.size - 1) ≤ u := Nat.lt_size.mp (by have := Nat.size_pos.mpr upos; omega)
    calc
      u * v ≤ 2 ^ (u * v).size := upper.le
      _ = 2 * 2 ^ (u.size - 1) * 2 ^ s := by
        rw [size, ← pow_succ', ← pow_add]
        congr 1
        have := Nat.size_pos.mpr upos
        omega
      _ ≤ 2 * u * 2 ^ s := by gcongr
  rw [shift]
  set m := scaled * v % 2 ^ ((u * v).size + guard) with hm
  set q := scaled * v / 2 ^ ((u * v).size + guard) with hq
  have whole : 2 ^ ((u * v).size + guard) * q + m = scaled * v := Nat.div_add_mod _ _
  have parts : 2 ^ s * (m / 2 ^ s) + m % 2 ^ s = m := Nat.div_add_mod _ _
  have rest : m % 2 ^ s < 2 ^ s := Nat.mod_lt _ (Nat.two_pow_pos s)
  have bound : m < 2 ^ (u.size + guard) * 2 ^ s := by
    rw [← width]
    exact Nat.mod_lt _ (Nat.two_pow_pos _)
  refine ⟨(Nat.div_lt_iff_lt_mul (Nat.two_pow_pos s)).mpr bound, z * v - q, ?_⟩
  have exact : (2 ^ s : ℤ) * ((P + (z * v - q) * u) * 2 ^ (u.size + guard) - u * (m / 2 ^ s : ℕ)) =
      ((P + z * (u * v : ℕ)) * 2 ^ ((u * v).size + guard) - (u * v : ℕ) * scaled) + u * (m % 2 ^ s : ℕ) := by
    have whole' : (2 ^ ((u * v).size + guard) * q + m : ℤ) = scaled * v := by exact_mod_cast whole
    have parts' : (2 ^ s * (m / 2 ^ s : ℕ) + (m % 2 ^ s : ℕ) : ℤ) = m := by exact_mod_cast parts
    have width' : (2 ^ ((u * v).size + guard) : ℤ) = 2 ^ (u.size + guard) * 2 ^ s := by exact_mod_cast width
    rw [width'] at whole' ⊢
    rw [Nat.cast_mul]
    linear_combination -(u : ℤ) * parts' - (u : ℤ) * whole'
  have positive : (0 : ℤ) < 2 ^ s := by positivity
  have rest' : ((m % 2 ^ s : ℕ) : ℤ) < 2 ^ s := by exact_mod_cast rest
  have restNonneg : (0 : ℤ) ≤ (m % 2 ^ s : ℕ) := Int.natCast_nonneg _
  constructor
  · apply nonneg_of_mul_nonneg_right _ positive
    rw [exact]
    positivity
  · apply lt_of_mul_lt_mul_left _ positive.le
    rw [exact]
    have large' : ((u * v : ℕ) : ℤ) ≤ 2 * u * 2 ^ s := by exact_mod_cast large
    have scaledError : (error * (u * v : ℕ) : ℤ) ≤ error * (2 * u * 2 ^ s) := by gcongr
    have truncation : (u * (m % 2 ^ s : ℕ) : ℤ) < u * 2 ^ s := by gcongr
    have sum : (2 ^ s : ℤ) * ((2 * error + 1 : ℕ) * u) = error * (2 * u * 2 ^ s) + u * 2 ^ s := by
      push_cast
      ring
    linarith

theorem finish (pos : 0 < N) (few : error < 2 ^ guard) (approx : Scaled P guard error N scaled) :
    (scaled * N / 2 ^ N.size + (2 ^ guard - 1)) / 2 ^ guard ≤ N ∧
      (((scaled * N / 2 ^ N.size + (2 ^ guard - 1)) / 2 ^ guard : ℕ) : ℤ) ≡ P [ZMOD N] := by
  have sizeBound : N < 2 ^ N.size := Nat.lt_size_self N
  have width : 2 ^ (N.size + guard) = 2 ^ N.size * 2 ^ guard := pow_add 2 _ _
  have guardPos := Nat.two_pow_pos guard
  obtain ⟨bound, z, low, high⟩ := approx
  rw [width] at bound
  have split := Nat.div_add_mod (scaled * N) (2 ^ N.size)
  have rest := Nat.mod_lt (scaled * N) (Nat.two_pow_pos N.size)
  generalize scaled * N / 2 ^ N.size = T at split ⊢
  generalize scaled * N % 2 ^ N.size = ρ at split rest
  constructor
  · have top : T < 2 ^ guard * N := by
      apply Nat.lt_of_mul_lt_mul_left (a := 2 ^ N.size)
      calc
        2 ^ N.size * T ≤ scaled * N := by omega
        _ < 2 ^ N.size * 2 ^ guard * N := Nat.mul_lt_mul_of_pos_right bound pos
        _ = 2 ^ N.size * (2 ^ guard * N) := mul_assoc _ _ _
    apply Nat.le_of_lt_succ
    rw [Nat.div_lt_iff_lt_mul guardPos, Nat.succ_mul, mul_comm N]
    omega
  · -- What is missing from a multiple of `2 ^ guard` is at most the error.
    have exact : (2 ^ N.size : ℤ) * ((P + z * N) * 2 ^ guard - T) =
        ((P + z * N) * 2 ^ (N.size + guard) - N * scaled) + ρ := by
      have split' : (2 ^ N.size * T + ρ : ℤ) = scaled * N := by exact_mod_cast split
      rw [pow_add]
      linear_combination -split'
    have positive : (0 : ℤ) < 2 ^ N.size := by positivity
    have missingLow : 0 ≤ (P + z * N) * 2 ^ guard - T := by
      apply nonneg_of_mul_nonneg_right _ positive
      rw [exact]
      positivity
    have missingHigh : (P + z * N) * 2 ^ guard - T < error + 1 := by
      apply lt_of_mul_lt_mul_left _ positive.le
      rw [exact]
      have errorBound : (error * N : ℤ) ≤ error * 2 ^ N.size := by
        gcongr
        exact_mod_cast sizeBound.le
      have rest' : (ρ : ℤ) < 2 ^ N.size := by exact_mod_cast rest
      linarith [mul_comm (2 ^ N.size : ℤ) (error + 1), add_mul (error : ℤ) 1 (2 ^ N.size)]
    have few' : (error : ℤ) + 1 ≤ 2 ^ guard := by exact_mod_cast few
    have value : (((T + (2 ^ guard - 1)) / 2 ^ guard : ℕ) : ℤ) = P + z * N := by
      rw [Int.natCast_ediv, Nat.cast_add, Nat.cast_sub guardPos]
      push_cast
      rw [Int.ediv_eq_iff_of_pos (by positivity)]
      constructor
      · linarith
      · linarith
    rw [value]
    exact (Int.modEq_iff_dvd.mpr ⟨-z, by ring⟩)

end Scaled

end CadoNfs.Lib
