import Mathlib

/-!
# Smooth parts

The part of a number that is made of the primes dividing another one.
-/

namespace CadoNfs.Lib

def smoothPart (P : ℤ) (R : ℕ) : ℕ := (R.primeFactorsList.filter fun p : ℕ => (p : ℤ) ∣ P).prod

theorem smoothPart_mul (P : ℤ) {r s : ℕ} (rpos : r ≠ 0) (spos : s ≠ 0) :
    smoothPart P (r * s) = smoothPart P r * smoothPart P s := by
  rw [smoothPart, ((Nat.perm_primeFactorsList_mul rpos spos).filter _).prod_eq, List.filter_append,
    List.prod_append]
  rfl

theorem smoothPart_of_smooth {P : ℤ} {s : ℕ} (spos : s ≠ 0)
    (smooth : ∀ p : ℕ, p.Prime → p ∣ s → (p : ℤ) ∣ P) : smoothPart P s = s := by
  have all : s.primeFactorsList.filter (fun p : ℕ => (p : ℤ) ∣ P) = s.primeFactorsList := by
    rw [List.filter_eq_self]
    intro p member
    exact decide_eq_true (smooth p (Nat.prime_of_mem_primeFactorsList member) (Nat.dvd_of_mem_primeFactorsList member))
  rw [smoothPart, all, Nat.prod_primeFactorsList spos]

theorem smoothPart_of_rough {P : ℤ} {r : ℕ} (rough : ∀ p : ℕ, p.Prime → p ∣ r → ¬ (p : ℤ) ∣ P) :
    smoothPart P r = 1 := by
  have none : r.primeFactorsList.filter (fun p : ℕ => (p : ℤ) ∣ P) = [] := by
    rw [List.filter_eq_nil_iff]
    intro p member
    simpa using rough p (Nat.prime_of_mem_primeFactorsList member) (Nat.dvd_of_mem_primeFactorsList member)
  rw [smoothPart, none, List.prod_nil]

def SamePrimes (P : ℤ) (T R : ℕ) : Prop := ∀ p : ℕ, p.Prime → p ∣ R → (p ∣ T ↔ (p : ℤ) ∣ P)

theorem SamePrimes.of_modEq {P : ℤ} {T R : ℕ} (congruent : (T : ℤ) ≡ P [ZMOD R]) : SamePrimes P T R := by
  intro p _ divides
  have dvdR : (p : ℤ) ∣ R := by exact_mod_cast divides
  rw [← Int.natCast_dvd_natCast, (congruent.of_dvd dvdR).dvd_iff]

theorem SamePrimes.gcd {P : ℤ} {T R : ℕ} (same : SamePrimes P T R) : SamePrimes P (T.gcd R) (R / T.gcd R) := by
  intro p prime divides
  have dvdR : p ∣ R := divides.trans (Nat.div_dvd_of_dvd (Nat.gcd_dvd_right T R))
  rw [← same p prime dvdR, Nat.dvd_gcd_iff]
  exact and_iff_left dvdR

end CadoNfs.Lib
