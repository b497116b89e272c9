import Mathlib

/-!
# Digits in a base

Texts of digits, with the value of a digit as a parameter: reading the longest prefix of digits in a base, what
`Nat.toDigits` prints, and the digits of one base read in another.
-/

namespace CadoNfs.Lib

variable (digit : Char → ℕ)

def valueOf (base w : ℕ) (text : List Char) : ℕ := text.foldl (fun w c => w * base + digit c) w

def readNumber (base : ℕ) : ℕ → List Char → ℕ × List Char
  | w, [] => (w, [])
  | w, c :: s => if digit c < base then readNumber base (w * base + digit c) s else (w, c :: s)

variable {digit} {base w n : ℕ} {text s : List Char}

@[simp] theorem valueOf_nil : valueOf digit base w [] = w := rfl

@[simp] theorem valueOf_cons (c : Char) :
  valueOf digit base w (c :: text) = valueOf digit base (w * base + digit c) text := rfl

theorem valueOf_append (t : List Char) :
    valueOf digit base w (text ++ t) = valueOf digit base (valueOf digit base w text) t := List.foldl_append

theorem readNumber_append (digits : ∀ c ∈ text, digit c < base) (stop : ∀ c ∈ s.head?, base ≤ digit c) :
    readNumber digit base w (text ++ s) = (valueOf digit base w text, s) := by
  induction text generalizing w with
  | nil =>
    cases s with
    | nil => rfl
    | cons c s => exact if_neg (not_lt.mpr (stop c rfl))
  | cons c text ih =>
    rw [List.forall_mem_cons] at digits
    rw [List.cons_append, readNumber, if_pos digits.1, ih digits.2]
    rfl

def Prints (digit : Char → ℕ) (base : ℕ) : Prop := ∀ d < base, digit d.digitChar = d

theorem Prints.mono {base' : ℕ} (prints : Prints digit base') (le : base ≤ base') : Prints digit base :=
  fun d lt => prints d (lt.trans_le le)

theorem Prints.digit_lt (prints : Prints digit base) (one_lt : 1 < base) :
    ∀ c ∈ Nat.toDigits base n, digit c < base := by
  induction n using Nat.strong_induction_on with
  | _ n ih =>
    rw [Nat.toDigits_eq_if one_lt]
    split_ifs with small
    · intro c member
      obtain rfl := List.mem_singleton.mp member
      rwa [prints n small]
    · intro c member
      rcases List.mem_append.mp member with before | last
      · exact ih (n / base) (Nat.div_lt_self (by omega) one_lt) c before
      · obtain rfl := List.mem_singleton.mp last
        have lt := Nat.mod_lt n (by omega : 0 < base)
        rwa [prints _ lt]

theorem Prints.valueOf_toDigits (prints : Prints digit base) (one_lt : 1 < base) :
    valueOf digit base 0 (Nat.toDigits base n) = n := by
  induction n using Nat.strong_induction_on with
  | _ n ih =>
    rw [Nat.toDigits_eq_if one_lt]
    split_ifs with small
    · rw [valueOf_cons, valueOf_nil, zero_mul, zero_add, prints n small]
    · have lt := Nat.mod_lt n (by omega : 0 < base)
      rw [valueOf_append, ih (n / base) (Nat.div_lt_self (by omega) one_lt), valueOf_cons, valueOf_nil, prints _ lt,
        Nat.div_add_mod']

theorem Prints.readNumber_toDigits (prints : Prints digit base) (one_lt : 1 < base)
    (stop : ∀ c ∈ s.head?, base ≤ digit c) : readNumber digit base 0 (Nat.toDigits base n ++ s) = (n, s) := by
  rw [readNumber_append (prints.digit_lt one_lt) stop, prints.valueOf_toDigits one_lt]

theorem Prints.toDigits_head (prints : Prints digit base) (one_lt : 1 < base) (pos : 0 < n) :
    ∃ c t, Nat.toDigits base n = c :: t ∧ digit c ≠ 0 := by
  induction n using Nat.strong_induction_on with
  | _ n ih =>
    rw [Nat.toDigits_eq_if one_lt]
    split_ifs with small
    · exact ⟨n.digitChar, [], rfl, by rw [prints n small]; exact pos.ne'⟩
    · have less := Nat.div_lt_self pos one_lt
      obtain ⟨c, t, eq, nonzero⟩ := ih (n / base) less (Nat.div_pos (not_lt.mp small) (by omega))
      exact ⟨c, t ++ [(n % base).digitChar], by rw [eq]; rfl, nonzero⟩

theorem Prints.valueOf_other (prints : Prints digit base) (one_lt : 1 < base) {base' : ℕ} (lt : base < base') :
    (n < base → valueOf digit base' 0 (Nat.toDigits base n) = n) ∧
      (base ≤ n → n < valueOf digit base' 0 (Nat.toDigits base n)) := by
  induction n using Nat.strong_induction_on with
  | _ n ih =>
    rw [Nat.toDigits_eq_if one_lt]
    split_ifs with small
    · refine ⟨fun _ => ?_, fun le => absurd le (not_le.mpr small)⟩
      rw [valueOf_cons, valueOf_nil, zero_mul, zero_add, prints n small]
    · refine ⟨fun less => absurd less small, fun le => ?_⟩
      have last := Nat.mod_lt n (by omega : 0 < base)
      have pos : 0 < n / base := Nat.div_pos le (by omega)
      obtain ⟨kept, grows⟩ := ih (n / base) (Nat.div_lt_self (by omega) one_lt)
      have before : n / base ≤ valueOf digit base' 0 (Nat.toDigits base (n / base)) := by
        by_cases less : n / base < base
        · exact (kept less).ge
        · exact (grows (not_lt.mp less)).le
      rw [valueOf_append, valueOf_cons, valueOf_nil, prints _ last]
      calc n = n / base * base + n % base := (Nat.div_add_mod' n base).symm
        _ < n / base * base' + n % base := Nat.add_lt_add_right (Nat.mul_lt_mul_of_pos_left lt pos) _
        _ ≤ valueOf digit base' 0 (Nat.toDigits base (n / base)) * base' + n % base :=
          Nat.add_le_add_right (Nat.mul_le_mul_right base' before) _

theorem Prints.valueOf_other_eq_iff (prints : Prints digit base) (one_lt : 1 < base) {base' : ℕ} (lt : base < base') :
    valueOf digit base' 0 (Nat.toDigits base n) = n ↔ n < base := by
  obtain ⟨kept, grows⟩ := prints.valueOf_other (n := n) one_lt lt
  refine ⟨fun same => ?_, kept⟩
  by_contra more
  exact absurd same (grows (not_lt.mp more)).ne'

end CadoNfs.Lib
