import Mathlib.Tactic

/-!
# Signed sums of Chinese remainders

Numbers of which each is zero modulo all moduli but its own, added up with signs. Such a sum determines the signs.
-/

namespace CadoNfs.Lib

def signed (minus : Bool) (x : ℤ) : ℤ := if minus then -x else x

def signedSum (minus : ℕ → Bool) : List ℤ → ℤ
  | [] => 0
  | x :: xs => signed (minus 0) x + signedSum (fun k => minus (k + 1)) xs

theorem dvd_signed {q x : ℤ} (minus : Bool) (dvd : q ∣ x) : q ∣ signed minus x := by
  cases minus with
  | false => exact dvd
  | true => exact (dvd_neg).mpr dvd

theorem signed_not (minus : Bool) (x : ℤ) : signed (!minus) x = -signed minus x := by
  cases minus with
  | false => rfl
  | true => exact (neg_neg x).symm

theorem eq_of_signed {q x : ℤ} (odd : ¬ q ∣ 2 * x) {minus minus' : Bool} (same : q ∣ signed minus x - signed minus' x) :
    minus = minus' := by
  cases minus <;> cases minus'
  · rfl
  · exact absurd (show q ∣ 2 * x by rwa [two_mul, ← sub_neg_eq_add]) odd
  · exact absurd (show q ∣ 2 * x by rwa [two_mul, ← dvd_neg, neg_add']) odd
  · rfl

theorem signedSum_not (minus : ℕ → Bool) (xs : List ℤ) : signedSum (fun k => !minus k) xs = -signedSum minus xs := by
  induction xs generalizing minus with
  | nil => rfl
  | cons x xs ih => rw [signedSum, signedSum, signed_not, ih, neg_add]

theorem dvd_signedSum {q : ℤ} (minus : ℕ → Bool) {xs : List ℤ} (dvd : ∀ x ∈ xs, q ∣ x) : q ∣ signedSum minus xs := by
  induction xs generalizing minus with
  | nil => exact dvd_zero q
  | cons x xs ih =>
    exact dvd_add (dvd_signed _ (dvd x (.head _))) (ih _ fun y member => dvd y (List.mem_cons_of_mem x member))

theorem signedSum_component {q x : ℤ} (minus : ℕ → Bool) {xs : List ℤ} {m : ℕ} (at_m : xs[m]? = some x)
    (others : ∀ k y, xs[k]? = some y → k ≠ m → q ∣ y) : q ∣ signedSum minus xs - signed (minus m) x := by
  induction xs generalizing minus m with
  | nil => exact absurd at_m (by simp)
  | cons y xs ih =>
    rw [signedSum]
    cases m with
    | zero =>
      obtain rfl : y = x := by simpa using at_m
      rw [add_sub_cancel_left]
      apply dvd_signedSum
      intro z member
      obtain ⟨k, there⟩ := List.mem_iff_getElem?.mp member
      exact others (k + 1) z (by simpa using there) (by omega)
    | succ m =>
      have rest := ih (fun k => minus (k + 1)) (m := m) (by simpa using at_m)
        fun k z there apart => others (k + 1) z (by simpa using there) (by omega)
      rw [add_sub_assoc]
      exact dvd_add (dvd_signed _ (others 0 y (by simp) (by omega))) rest

section
variable {p : ℤ} {xs : List ℤ} (half : ∀ x ∈ xs, 0 ≤ x ∧ 2 * x ≤ p)
include half

theorem signedSum_le (minus : ℕ → Bool) : 2 * signedSum minus xs ≤ xs.length * p := by
  induction xs generalizing minus with
  | nil => simp [signedSum]
  | cons x xs ih =>
    have tail := ih (fun y member => half y (List.mem_cons_of_mem x member)) fun k => minus (k + 1)
    obtain ⟨low, high⟩ := half x (.head _)
    rw [signedSum, List.length_cons]
    push_cast
    have head : 2 * signed (minus 0) x ≤ p := by
      unfold signed
      split <;> omega
    linarith

theorem le_signedSum (positive : 0 ≤ p) (minus : ℕ → Bool) (t : ℕ) (plus : ∀ k, t ≤ k → minus k = false) :
    -(t * p) ≤ 2 * signedSum minus xs := by
  induction xs generalizing minus t with
  | nil =>
    have := mul_nonneg (Int.natCast_nonneg t) positive
    simpa [signedSum] using this
  | cons x xs ih =>
    obtain ⟨low, high⟩ := half x (.head _)
    rw [signedSum]
    cases t with
    | zero =>
      have tail := ih (fun y member => half y (List.mem_cons_of_mem x member)) (fun k => minus (k + 1)) 0
        fun k _ => plus (k + 1) (by omega)
      have head : signed (minus 0) x = x := by
        rw [plus 0 le_rfl]
        rfl
      rw [head]
      push_cast at tail ⊢
      linarith
    | succ t =>
      have tail := ih (fun y member => half y (List.mem_cons_of_mem x member)) (fun k => minus (k + 1)) t
        fun k le => plus (k + 1) (by omega)
      have head : -p ≤ 2 * signed (minus 0) x := by
        unfold signed
        split <;> omega
      push_cast
      linarith

end

/-- Each number is zero modulo the other moduli, and is not its own opposite modulo its own. -/
structure Components (moduli xs : List ℤ) : Prop where
  length : xs.length = moduli.length
  others : ∀ (k l : ℕ) (q x : ℤ), moduli[k]? = some q → xs[l]? = some x → l ≠ k → q ∣ x
  odd : ∀ (k : ℕ) (q x : ℤ), moduli[k]? = some q → xs[k]? = some x → ¬ q ∣ 2 * x

namespace Components
variable {moduli xs : List ℤ} (components : Components moduli xs)
include components

theorem residue (minus : ℕ → Bool) {k : ℕ} {q x : ℤ} (modulus : moduli[k]? = some q) (number : xs[k]? = some x) :
    q ∣ signedSum minus xs - signed (minus k) x :=
  signedSum_component minus number fun l y there apart => components.others k l q y modulus there apart

omit components in
theorem dvd_parts {q a a' b b' : ℤ} (sums : q ∣ a - a') (first : q ∣ a - b) (second : q ∣ a' - b') : q ∣ b - b' := by
  have combined := dvd_add (dvd_sub sums first) second
  rwa [show a - a' - (a - b) + (a' - b') = b - b' by ring] at combined

theorem signs {minus minus' : ℕ → Bool} (same : ∀ q ∈ moduli, q ∣ signedSum minus xs - signedSum minus' xs) {k : ℕ}
    (inside : k < moduli.length) : minus k = minus' k := by
  have modulus : moduli[k]? = some (moduli.get ⟨k, inside⟩) := by simp [inside]
  have number : xs[k]? = some (xs.get ⟨k, by rw [components.length]; exact inside⟩) := by
    simp [components.length, inside]
  have first := components.residue minus modulus number
  have second := components.residue minus' modulus number
  have sums := same _ (List.get_mem moduli ⟨k, inside⟩)
  apply eq_of_signed (components.odd k _ _ modulus number)
  exact dvd_parts sums first second

end Components

end CadoNfs.Lib
