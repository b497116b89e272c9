import Mathlib

/-!
# Dividing out the primes of a list

A number is divided by the first prime of a list that divides it, again and again, up to a limit on the number of
divisions.
-/

namespace CadoNfs.Lib

def firstDivisors (ps : List ℕ) (n : ℕ) : List ℕ := ps.dropWhile fun p => ¬ p ∣ n

def divideFirst : ℕ → List ℕ → ℕ → List ℕ × ℕ
  | 0, _, n => ([], n)
  | limit + 1, ps, n =>
    match firstDivisors ps n with
    | [] => ([], n)
    | p :: rest => (p :: (divideFirst limit (p :: rest) (n / p)).1, (divideFirst limit (p :: rest) (n / p)).2)

def found (ps : List ℕ) (n : ℕ) : ℕ := ∑ p ∈ ps.toFinset, padicValNat p n

section
variable {ps : List ℕ} {n : ℕ}

theorem firstDivisors_suffix (ps : List ℕ) (n : ℕ) : firstDivisors ps n <:+ ps := List.dropWhile_suffix _

theorem firstDivisors_dvd {p : ℕ} {rest : List ℕ} (first : firstDivisors ps n = p :: rest) : p ∣ n := by
  have head := List.head?_dropWhile_not (fun p => decide ¬ p ∣ n) ps
  rw [← firstDivisors, first] at head
  simpa using head

theorem not_dvd_of_dropped {p : ℕ} (mem : p ∈ ps) (dropped : p ∉ firstDivisors ps n) : ¬ p ∣ n := by
  have split : p ∈ ps.takeWhile (fun p => ¬ p ∣ n) ++ firstDivisors ps n := by
    rwa [firstDivisors, List.takeWhile_append_dropWhile]
  have before := (List.mem_append.mp split).resolve_right dropped
  simpa using List.mem_takeWhile_imp before

theorem found_firstDivisors (ps : List ℕ) (n : ℕ) : found (firstDivisors ps n) n = found ps n := by
  apply Finset.sum_subset
  · intro p mem
    rw [List.mem_toFinset] at mem ⊢
    exact (firstDivisors_suffix ps n).subset mem
  · intro p mem dropped
    rw [List.mem_toFinset] at mem dropped
    exact padicValNat.eq_zero_of_not_dvd (not_dvd_of_dropped mem dropped)

theorem found_div {p : ℕ} (primes : ∀ q ∈ ps, q.Prime) (mem : p ∈ ps) (dvd : p ∣ n) (nonzero : n ≠ 0) :
    found ps (n / p) + 1 = found ps n := by
  have inside : p ∈ ps.toFinset := List.mem_toFinset.mpr mem
  have prime : Fact p.Prime := ⟨primes p mem⟩
  have others : ∑ q ∈ ps.toFinset.erase p, padicValNat q (n / p) = ∑ q ∈ ps.toFinset.erase p, padicValNat q n := by
    apply Finset.sum_congr rfl
    intro q member
    obtain ⟨different, member⟩ := Finset.mem_erase.mp member
    have prime' : Fact q.Prime := ⟨primes q (List.mem_toFinset.mp member)⟩
    exact padicValNat.div' ((Nat.coprime_primes prime'.out prime.out).mpr different) dvd
  have one : 1 ≤ padicValNat p n := one_le_padicValNat_of_dvd nonzero dvd
  rw [found, found, ← Finset.add_sum_erase _ _ inside, ← Finset.add_sum_erase _ _ inside, others, padicValNat.div dvd]
  omega

end

structure DividedOut (limit : ℕ) (ps : List ℕ) (n : ℕ) (g : List ℕ) (m : ℕ) : Prop where
  prod : g.prod * m = n
  mem : ∀ q ∈ g, q ∈ ps
  length : g.length = min limit (found ps n)

theorem divideFirst_spec {ps : List ℕ} (primes : ∀ p ∈ ps, p.Prime) (limit : ℕ) {n : ℕ} (nonzero : n ≠ 0) :
    DividedOut limit ps n (divideFirst limit ps n).1 (divideFirst limit ps n).2 := by
  induction limit generalizing ps n with
  | zero => exact ⟨one_mul n, nofun, (Nat.zero_min _).symm⟩
  | succ limit ih =>
    have suffix := firstDivisors_suffix ps n
    have same := found_firstDivisors ps n
    rw [divideFirst]
    cases first : firstDivisors ps n with
    | nil =>
      rw [first] at same
      refine ⟨one_mul n, nofun, ?_⟩
      rw [← same]
      exact (Nat.min_zero _).symm
    | cons p rest =>
      rw [first] at suffix same
      have dvd := firstDivisors_dvd first
      have primes' : ∀ q ∈ p :: rest, q.Prime := fun q mem => primes q (suffix.subset mem)
      have quotient : n / p ≠ 0 := (Nat.div_pos (Nat.le_of_dvd (Nat.pos_of_ne_zero nonzero) dvd)
        (primes' p (List.mem_cons_self)).pos).ne'
      have later := ih primes' quotient
      have one := found_div primes' List.mem_cons_self dvd nonzero
      constructor
      · rw [List.prod_cons, mul_assoc, later.prod]
        exact Nat.mul_div_cancel' dvd
      · exact List.forall_mem_cons.mpr ⟨suffix.subset (.head _), fun q mem => suffix.subset (later.mem q mem)⟩
      · rw [List.length_cons, later.length, ← same, ← one]
        omega

section
variable {limit : ℕ} {ps : List ℕ} {n : ℕ} {g : List ℕ} {m : ℕ}

theorem padicValNat_prod {p : ℕ} (prime : p.Prime) (primes : ∀ q ∈ g, q.Prime) : padicValNat p g.prod = g.count p := by
  rw [← Nat.factorization_def _ prime, ← Nat.primeFactorsList_count_eq]
  exact ((Nat.primeFactorsList_unique rfl primes).count_eq p).symm

theorem DividedOut.count_add (out : DividedOut limit ps n g m) (primes : ∀ q ∈ ps, q.Prime) (nonzero : n ≠ 0) {p : ℕ}
    (mem : p ∈ ps) : g.count p + padicValNat p m = padicValNat p n := by
  have prime : Fact p.Prime := ⟨primes p mem⟩
  have factors := out.prod
  rw [← factors] at nonzero
  rw [← factors, padicValNat.mul (left_ne_zero_of_mul nonzero) (right_ne_zero_of_mul nonzero),
    padicValNat_prod prime.out fun q member => primes q (out.mem q member)]

theorem DividedOut.length_add (out : DividedOut limit ps n g m) (primes : ∀ q ∈ ps, q.Prime) (nonzero : n ≠ 0) :
    g.length + found ps m = found ps n := by
  have counts : ∑ p ∈ ps.toFinset, g.count p = g.length := by
    have sum := Multiset.sum_count_eq_card (m := (g : Multiset ℕ)) fun q mem =>
      List.mem_toFinset.mpr (out.mem q (Multiset.mem_coe.mp mem))
    simpa only [Multiset.coe_count, Multiset.coe_card] using sum
  rw [← counts, found, found, ← Finset.sum_add_distrib]
  apply Finset.sum_congr rfl
  intro p mem
  exact out.count_add primes nonzero (List.mem_toFinset.mp mem)

theorem DividedOut.count (out : DividedOut limit ps n g m) (primes : ∀ q ∈ ps, q.Prime) (nonzero : n ≠ 0)
    (enough : found ps n ≤ limit) {p : ℕ} (mem : p ∈ ps) : g.count p = padicValNat p n := by
  have total := out.length_add primes nonzero
  rw [out.length, min_eq_right enough] at total
  have none : found ps m = 0 := by omega
  have here := Finset.sum_eq_zero_iff.mp none p (List.mem_toFinset.mpr mem)
  have split := out.count_add primes nonzero mem
  omega

end

end CadoNfs.Lib
