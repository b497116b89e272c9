import Mathlib.Tactic

/-!
# Gray codes

The reflected binary code of a word, and its inverse by masks of low ones.
-/

namespace CadoNfs.Lib.GrayCode

variable {w : ℕ}

def gray (j : BitVec w) : BitVec w := j ^^^ (j >>> 1)

theorem getLsbD_gray (j : BitVec w) (k : ℕ) : (gray j).getLsbD k = (j.getLsbD k ^^ j.getLsbD (k + 1)) := by
  rw [gray, BitVec.getLsbD_xor, BitVec.getLsbD_ushiftRight, Nat.add_comm 1 k]

theorem getLsbD_of_small {j : BitVec w} {n k : ℕ} (small : j.toNat < 2 ^ n) (high : n ≤ k) : j.getLsbD k = false := by
  rw [BitVec.getLsbD]
  exact Nat.testBit_lt_two_pow (small.trans_le (Nat.pow_le_pow_right (by norm_num) high))

theorem getLsbD_gray_of_small {j : BitVec w} {n k : ℕ} (small : j.toNat < 2 ^ n) (high : n ≤ k) :
    (gray j).getLsbD k = false := by
  rw [getLsbD_gray, getLsbD_of_small small high, getLsbD_of_small small (high.trans k.le_succ)]
  rfl

theorem eq_of_gray {n : ℕ} {j j' : BitVec w} (small : j.toNat < 2 ^ n) (small' : j'.toNat < 2 ^ n)
    (same : ∀ k < n, (gray j).getLsbD k = (gray j').getLsbD k) : j = j' := by
  have down : ∀ d ≤ n, j.getLsbD (n - d) = j'.getLsbD (n - d) := by
    intro d
    induction d with
    | zero =>
      intro _
      rw [Nat.sub_zero, getLsbD_of_small small le_rfl, getLsbD_of_small small' le_rfl]
    | succ d ih =>
      intro le
      have code := same (n - (d + 1)) (by omega)
      rw [getLsbD_gray, getLsbD_gray, show n - (d + 1) + 1 = n - d by omega, ih (by omega)] at code
      exact (Bool.xor_left_inj).mp code
  apply BitVec.eq_of_getLsbD_eq
  intro i _
  by_cases low : i ≤ n
  · have there := down (n - i) (by omega)
    rwa [Nat.sub_sub_self low] at there
  · rw [getLsbD_of_small small (by omega), getLsbD_of_small small' (by omega)]

def Decodes (j : BitVec w) (k : ℕ) (word : BitVec w) : Prop :=
  ∀ i, word.getLsbD i = (decide (i < k) && (j.getLsbD i ^^ j.getLsbD k))

def Ones (k : ℕ) (mask : BitVec w) : Prop :=
  ∀ i < w, mask.getLsbD i = decide (i ≤ k)

theorem decodes_zero (j : BitVec w) : Decodes j 0 0#w := by
  intro i
  simp

theorem Decodes.step {j word mask : BitVec w} {k : ℕ} (decodes : Decodes j k word) (ones : Ones k mask) :
    Decodes j (k + 1) (if (gray j).getLsbD k then word ^^^ mask else word) := by
  intro i
  by_cases width : i < w
  · have old := decodes i
    have mask := ones i width
    have code := getLsbD_gray j k
    rcases lt_trichotomy i k with low | rfl | high
    · rw [decide_eq_true low, Bool.true_and] at old
      rw [decide_eq_true low.le] at mask
      rw [decide_eq_true (by omega), Bool.true_and]
      split
      · rename_i set
        rw [BitVec.getLsbD_xor, old, mask]
        rw [set] at code
        revert code
        cases j.getLsbD i <;> cases j.getLsbD k <;> cases j.getLsbD (k + 1) <;> decide
      · rename_i clear
        rw [old]
        rw [Bool.not_eq_true] at clear
        rw [clear] at code
        rw [(bne_eq_false_iff_eq).mp code.symm]
    · rw [decide_eq_false (lt_irrefl i), Bool.false_and] at old
      rw [decide_eq_true le_rfl] at mask
      rw [decide_eq_true (by omega), Bool.true_and, ← code]
      split
      · rename_i set
        rw [BitVec.getLsbD_xor, old, mask, set]
        rfl
      · rename_i clear
        rw [old, Bool.eq_false_iff.mpr clear]
    · rw [decide_eq_false (by omega), Bool.false_and] at old
      rw [decide_eq_false (by omega)] at mask
      rw [decide_eq_false (by omega), Bool.false_and]
      split
      · rw [BitVec.getLsbD_xor, old, mask]
        rfl
      · exact old
  · -- Above the width every bit is clear, those of `j` too.
    rw [BitVec.getLsbD_of_ge _ _ (by omega), BitVec.getLsbD_of_ge j i (by omega)]
    by_cases low : i < k + 1
    · rw [BitVec.getLsbD_of_ge j (k + 1) (by omega)]
      simp
    · rw [decide_eq_false low]
      rfl

theorem Decodes.eq {j word : BitVec w} {n : ℕ} (decodes : Decodes j n word) (small : j.toNat < 2 ^ n) : word = j := by
  apply BitVec.eq_of_getLsbD_eq
  intro i _
  rw [decodes i, getLsbD_of_small small le_rfl, Bool.xor_false]
  by_cases low : i < n
  · rw [decide_eq_true low, Bool.true_and]
  · rw [decide_eq_false low, Bool.false_and, getLsbD_of_small small (by omega)]

theorem ones_zero : Ones 0 (1#w) := by
  intro i width
  rw [BitVec.getLsbD_one]
  by_cases zero : i = 0
  · subst zero
    simp [width]
  · simp [zero]

theorem Ones.step {k : ℕ} {mask : BitVec w} (ones : Ones k mask) : Ones (k + 1) ((mask <<< 1) + 1#w) := by
  have disjoint : (mask <<< 1) &&& 1#w = 0#w := by
    apply BitVec.eq_of_getLsbD_eq
    intro i width
    rw [BitVec.getLsbD_and, BitVec.getLsbD_shiftLeft, BitVec.getLsbD_one, BitVec.getLsbD_zero]
    by_cases zero : i = 0
    · subst zero
      simp
    · simp [zero]
  intro i width
  rw [BitVec.add_eq_or_of_and_eq_zero _ _ disjoint, BitVec.getLsbD_or, BitVec.getLsbD_shiftLeft, BitVec.getLsbD_one]
  by_cases zero : i = 0
  · subst zero
    simp [width]
  · rw [ones (i - 1) (by omega)]
    have shifted : i - 1 ≤ k ↔ i ≤ k + 1 := by omega
    simp [width, zero, shifted]

theorem Ones.setWidth {v k : ℕ} {mask : BitVec v} (ones : Ones k mask) (narrow : w ≤ v) : Ones k (mask.setWidth w) := by
  intro i width
  rw [BitVec.getLsbD_setWidth, ones i (by omega), decide_eq_true width, Bool.true_and]

end CadoNfs.Lib.GrayCode
