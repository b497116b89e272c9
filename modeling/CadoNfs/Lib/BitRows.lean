import Mathlib.Algebra.Field.ZMod

/-!
# Machine words as rows over the field of two elements
-/

namespace CadoNfs.Lib.BitRows

def bit (b : Bool) : ZMod 2 := if b then 1 else 0

@[simp] theorem bit_true : bit true = 1 := rfl

@[simp] theorem bit_false : bit false = 0 := rfl

theorem bit_eq_zero {b : Bool} : bit b = 0 ↔ b = false := by cases b <;> decide

theorem bit_eq_one {b : Bool} : bit b = 1 ↔ b = true := by cases b <;> decide

theorem bit_xor (a b : Bool) : bit (a ^^ b) = bit a + bit b := by cases a <;> cases b <;> decide

theorem bit_and (a b : Bool) : bit (a && b) = bit a * bit b := by cases a <;> cases b <;> decide

variable {w : Nat}

def mask (i : Fin w) : BitVec w := 1#w <<< i.val

theorem getLsbD_mask (i k : Fin w) : (mask i).getLsbD k = decide (k = i) := by
  rw [mask, BitVec.getLsbD_shiftLeft, Bool.eq_iff_iff]
  simp [Fin.ext_iff]
  omega

theorem and_mask_eq_zero {v : BitVec w} {i : Fin w} : v &&& mask i = 0 ↔ v.getLsbD i = false := by
  constructor
  · intro zero
    have at_i : (v &&& mask i).getLsbD i = false := by rw [zero]; exact BitVec.getLsbD_zero
    rwa [BitVec.getLsbD_and, getLsbD_mask, decide_eq_true rfl, Bool.and_true] at at_i
  · intro clear
    refine BitVec.eq_of_getLsbD_eq fun k bound => ?_
    have hit := getLsbD_mask i ⟨k, bound⟩
    by_cases same : (⟨k, bound⟩ : Fin w) = i
    · rw [← same] at clear
      simp [clear]
    · simp [hit, same]

theorem and_mask_ne_zero {v : BitVec w} {i : Fin w} : v &&& mask i ≠ 0 ↔ v.getLsbD i = true := by
  rw [Ne, and_mask_eq_zero, Bool.not_eq_false]

end CadoNfs.Lib.BitRows
