import Mathlib

/-!
# Decimal text

Printing a natural number with `Nat.toDigits 10` and accumulating its digits from the left in an
arbitrary semiring, as C code does with `v = 10 * v + (c - '0')` in the type of `v`.
-/

namespace CadoNfs.Lib

def digitValue (c : Char) : Nat := c.toNat - 48

def readDigits {R : Type*} [CommSemiring R] (v : R) (text : List Char) : R :=
  text.foldl (fun v c => 10 * v + (digitValue c : R)) v

variable {R : Type*} [CommSemiring R]

@[simp] theorem readDigits_nil (v : R) : readDigits v [] = v := rfl

@[simp] theorem readDigits_cons (v : R) (c : Char) (text : List Char) :
    readDigits v (c :: text) = readDigits (10 * v + (digitValue c : R)) text := rfl

theorem readDigits_append (v : R) (s t : List Char) :
    readDigits v (s ++ t) = readDigits (readDigits v s) t := by
  simp [readDigits]

theorem digitValue_digitChar {n : Nat} (small : n < 10) : digitValue n.digitChar = n :=
  Nat.toNat_digitChar_sub_48_of_lt_ten small

theorem readDigits_toDigits (v : R) (n : Nat) :
    readDigits v (Nat.toDigits 10 n) = 10 ^ (Nat.toDigits 10 n).length * v + (n : R) := by
  induction n using Nat.strong_induction_on with
  | _ n ih =>
    rw [Nat.toDigits_eq_if (by norm_num)]
    split_ifs with small
    · simp [digitValue_digitChar small]
    · have split : (n : R) = 10 * (n / 10 : Nat) + (n % 10 : Nat) := by
        exact_mod_cast congrArg (Nat.cast (R := R)) (Nat.div_add_mod n 10).symm
      rw [readDigits_append, ih (n / 10) (by omega), readDigits_cons, readDigits_nil,
        digitValue_digitChar (Nat.mod_lt n (by norm_num)), List.length_append, List.length_singleton,
        split]
      ring

theorem readDigits_zero_toDigits (n : Nat) : readDigits (0 : R) (Nat.toDigits 10 n) = n := by
  simp [readDigits_toDigits]

theorem toDigits_length_bounds (n : Nat) :
    n < 10 ^ (Nat.toDigits 10 n).length ∧
      (n = 0 ∨ 10 ^ ((Nat.toDigits 10 n).length - 1) ≤ n) := by
  have positive : 0 < (Nat.toDigits 10 n).length := Nat.length_toDigits_pos
  refine ⟨(Nat.length_toDigits_le_iff (by norm_num) positive).mp le_rfl, ?_⟩
  by_cases one : (Nat.toDigits 10 n).length = 1
  · rw [one]
    simp
    omega
  · right
    by_contra short
    have := (Nat.length_toDigits_le_iff (b := 10) (n := n)
      (k := (Nat.toDigits 10 n).length - 1) (by norm_num) (by omega)).mpr (by omega)
    omega

theorem isDigit_of_mem_toDigits {c : Char} {n : Nat} (member : c ∈ Nat.toDigits 10 n) :
    48 ≤ c.toNat ∧ c.toNat ≤ 57 := by
  have digit := Nat.isDigit_of_mem_toDigits (by norm_num) (by norm_num) member
  simp only [Char.isDigit, Bool.and_eq_true, decide_eq_true_eq] at digit
  exact ⟨digit.1, digit.2⟩

end CadoNfs.Lib
