import Mathlib

/-!
# The greatest prime factor of a line

`gpf_init` of `utils/gpf.cpp` and the constructor of `j_divisibility_helper` of `sieve/las-unsieve.cpp`
find it in two ways.
-/

namespace CadoNfs.Sieve

variable {p k m r c fuel g : ℕ}

def gpfReduce (p : ℕ) : ℕ → ℕ → ℕ
  | 0, r => r
  | fuel + 1, r => if p < r ∧ p ∣ r then gpfReduce p fuel (r / p) else r

def gpf (m k : ℕ) : ℕ :=
  ((List.range (Nat.sqrt (m + 1) + 1)).filter Nat.Prime).foldl (fun r p => if p ∣ k then gpfReduce p k r else r) k

def divideOut (p : ℕ) : ℕ → ℕ → ℕ
  | 0, c => c
  | fuel + 1, c => if p ∣ c then divideOut p fuel (c / p) else c

def cofactor (p c : ℕ) : ℕ := divideOut p c (c / p)

def jDivPrime : ℕ → ℕ → ℕ → ℕ
  | 0, _, c => c
  | fuel + 1, p, c =>
    if p * p ≤ c then
      let c := divideOut p c c
      if c = 1 then p else jDivPrime fuel (p + (1 + p % 2)) c
    else c

theorem exists_greatest (two : 2 ≤ k) : ∃ g, IsGreatest {q | q.Prime ∧ q ∣ k} g := by
  have nonempty : k.primeFactors.Nonempty := Nat.nonempty_primeFactors.mpr two
  have greatest := k.primeFactors.isGreatest_max' nonempty
  refine ⟨_, ?_, fun q mem => greatest.2 (Nat.mem_primeFactors.mpr ⟨mem.1, mem.2, by omega⟩)⟩
  exact ⟨(Nat.mem_primeFactors.mp greatest.1).1, (Nat.mem_primeFactors.mp greatest.1).2.1⟩

theorem gpfReduce_spec (two : 2 ≤ p) (one : 1 < r) (enough : r ≤ fuel) :
    1 < gpfReduce p fuel r ∧ (∃ e, r = gpfReduce p fuel r * p ^ e) ∧
      (p ∣ gpfReduce p fuel r → gpfReduce p fuel r = p) := by
  induction fuel generalizing r with
  | zero => omega
  | succ fuel ih =>
    rw [gpfReduce]
    by_cases more : p < r ∧ p ∣ r
    · rw [if_pos more]
      obtain ⟨q, rfl⟩ := more.2
      have positive : 0 < p := by omega
      rw [Nat.mul_div_cancel_left q positive]
      have one : 1 < q := by
        by_contra small
        have le := Nat.mul_le_mul_left p (not_lt.mp small)
        omega
      have smaller : q < p * q := by nlinarith
      obtain ⟨stays, ⟨e, eq⟩, last⟩ := ih one (by omega)
      refine ⟨stays, ⟨e + 1, ?_⟩, last⟩
      rw [pow_succ, ← mul_assoc, ← eq, mul_comm]
    · rw [if_neg more]
      refine ⟨one, ⟨0, by simp⟩, fun divides => ?_⟩
      have le := Nat.le_of_dvd (by omega) divides
      by_contra ne
      exact more ⟨by omega, divides⟩

theorem divideOut_spec (two : 2 ≤ p) (positive : 0 < c) (enough : c ≤ fuel) :
    0 < divideOut p fuel c ∧ (∃ e, c = divideOut p fuel c * p ^ e) ∧ ¬ p ∣ divideOut p fuel c := by
  induction fuel generalizing c with
  | zero => omega
  | succ fuel ih =>
    rw [divideOut]
    by_cases more : p ∣ c
    · rw [if_pos more]
      obtain ⟨q, rfl⟩ := more
      have positive' : 0 < q := Nat.pos_of_mul_pos_left positive
      rw [Nat.mul_div_cancel_left q (by omega)]
      have smaller : q < p * q := by nlinarith
      obtain ⟨stays, ⟨e, eq⟩, last⟩ := ih positive' (by omega)
      refine ⟨stays, ⟨e + 1, ?_⟩, last⟩
      rw [pow_succ, ← mul_assoc, ← eq, mul_comm]
    · rw [if_neg more]
      exact ⟨positive, ⟨0, by simp⟩, more⟩

theorem primeFactors_divideOut (prime : p.Prime) (positive : 0 < c) :
    (divideOut p c c).primeFactors = c.primeFactors.erase p := by
  obtain ⟨left, ⟨e, eq⟩, apart⟩ := @divideOut_spec p c c prime.two_le positive le_rfl
  ext q
  rw [Finset.mem_erase, Nat.mem_primeFactors, Nat.mem_primeFactors]
  constructor
  · rintro ⟨q_prime, q_divides, -⟩
    refine ⟨?_, q_prime, q_divides.trans ⟨_, eq⟩, positive.ne'⟩
    rintro rfl
    exact apart q_divides
  · rintro ⟨ne, q_prime, q_divides, -⟩
    rw [eq] at q_divides
    have coprime : q.Coprime (p ^ e) := ((Nat.coprime_primes q_prime prime).mpr ne).pow_right e
    exact ⟨q_prime, coprime.dvd_of_dvd_mul_right q_divides, left.ne'⟩

structure GpfReduced (k g n r : ℕ) : Prop where
  greatest : g ∣ r
  divides : r ∣ k
  one_lt : 1 < r
  reduced : ∀ q < n, q.Prime → q ∣ r → r = q

theorem GpfReduced.step (is : IsGreatest {q | q.Prime ∧ q ∣ k} g) (inv : GpfReduced k g p r) (prime : p.Prime)
    (le : r ≤ k) :
    GpfReduced k g (p + 1) (if p ∣ k then gpfReduce p k r else r) := by
  obtain ⟨greatest, divides, one_lt, reduced⟩ := inv
  by_cases here : p ∣ k
  · rw [if_pos here]
    obtain ⟨stays, ⟨e, eq⟩, last⟩ := gpfReduce_spec prime.two_le one_lt le
    have part : gpfReduce p k r ∣ r := ⟨_, eq⟩
    refine ⟨?_, part.trans divides, stays, fun q lt q_prime q_divides => ?_⟩
    · rcases eq_or_ne g p with rfl | other
      · -- No smaller prime is left in `r`, and no greater one is there at all.
        obtain ⟨q, q_prime, q_divides⟩ := Nat.exists_prime_and_dvd stays.ne'
        have upper : q ≤ g := is.2 ⟨q_prime, (q_divides.trans part).trans divides⟩
        rcases upper.lt_or_eq with smaller | rfl
        · have same := reduced q smaller q_prime (q_divides.trans part)
          rw [same] at greatest
          exact absurd (Nat.le_of_dvd q_prime.pos greatest) (not_le.mpr smaller)
        · exact q_divides
      · rw [eq] at greatest
        exact (((Nat.coprime_primes is.1.1 prime).mpr other).pow_right e).dvd_of_dvd_mul_right greatest
    · rcases Nat.lt_succ_iff_lt_or_eq.mp lt with smaller | rfl
      · have same := reduced q smaller q_prime (q_divides.trans part)
        exact ((Nat.dvd_prime q_prime).mp (part.trans same.dvd)).resolve_left stays.ne'
      · exact last q_divides
  · rw [if_neg here]
    refine ⟨greatest, divides, one_lt, fun q lt q_prime q_divides => ?_⟩
    rcases Nat.lt_succ_iff_lt_or_eq.mp lt with smaller | rfl
    · exact reduced q smaller q_prime q_divides
    · exact absurd (q_divides.trans divides) here

theorem gpf_isGreatest (two : 2 ≤ k) (inside : k ≤ m) : IsGreatest {q | q.Prime ∧ q ∣ k} (gpf m k) := by
  obtain ⟨g, is⟩ := exists_greatest two
  have positive : 0 < k := by omega
  have all (n : ℕ) : GpfReduced k g n
      (((List.range n).filter Nat.Prime).foldl (fun r p => if p ∣ k then gpfReduce p k r else r) k) := by
    induction n with
    | zero => exact ⟨is.1.2, dvd_rfl, two, fun _ lt => (Nat.not_lt_zero _ lt).elim⟩
    | succ n ih =>
      rw [List.range_succ, List.filter_append, List.foldl_append]
      by_cases prime : n.Prime
      · rw [List.filter_singleton, decide_eq_true prime]
        exact ih.step is prime (Nat.le_of_dvd positive ih.divides)
      · rw [List.filter_singleton, decide_eq_false prime]
        refine ⟨ih.greatest, ih.divides, ih.one_lt, fun q lt q_prime => ih.reduced q ?_ q_prime⟩
        rcases Nat.lt_succ_iff_lt_or_eq.mp lt with smaller | rfl
        · exact smaller
        · exact absurd q_prime prime
  have last := all (Nat.sqrt (m + 1) + 1)
  rw [← gpf] at last
  have prime : (gpf m k).Prime := by
    by_contra composite
    have square := Nat.minFac_sq_le_self (Nat.zero_lt_of_lt last.one_lt) composite
    have le : gpf m k ≤ m + 1 := (Nat.le_of_dvd positive last.divides).trans (by omega)
    have small : (gpf m k).minFac ≤ Nat.sqrt (m + 1) := Nat.le_sqrt'.mpr (square.trans le)
    have least := Nat.minFac_prime last.one_lt.ne'
    have same := last.reduced _ (Nat.lt_succ_of_le small) least (Nat.minFac_dvd _)
    exact composite (same ▸ least)
  rwa [← (Nat.prime_dvd_prime_iff_eq is.1.1 prime).mp last.greatest]

theorem cofactor_spec (prime : p.Prime) (positive : 0 < c) (divides : p ∣ c) :
    0 < cofactor p c ∧ cofactor p c < c ∧ (∃ e, c = cofactor p c * p ^ (e + 1)) ∧ ¬ p ∣ cofactor p c := by
  obtain ⟨q, rfl⟩ := divides
  have positive' : 0 < q := Nat.pos_of_mul_pos_left positive
  have smaller : q < p * q := by nlinarith [prime.two_le]
  have spec := @divideOut_spec p q (p * q) prime.two_le positive' smaller.le
  rw [cofactor, Nat.mul_div_cancel_left q prime.pos]
  obtain ⟨stays, ⟨e, eq⟩, last⟩ := spec
  have le : divideOut p (p * q) q ≤ q := Nat.le_of_dvd positive' ⟨_, eq⟩
  refine ⟨stays, le.trans_lt smaller, ⟨e, ?_⟩, last⟩
  rw [pow_succ, ← mul_assoc, ← eq, mul_comm]

theorem cofactor_primes (is : IsGreatest {q | q.Prime ∧ q ∣ c} p) (positive : 0 < c) :
    0 < cofactor p c ∧ cofactor p c < c ∧ cofactor p c ∣ c ∧ ¬ p ∣ cofactor p c ∧
      c.primeFactors = insert p (cofactor p c).primeFactors := by
  obtain ⟨stays, smaller, ⟨e, eq⟩, apart⟩ := cofactor_spec is.1.1 positive is.1.2
  refine ⟨stays, smaller, ⟨_, eq⟩, apart, ?_⟩
  conv_lhs => rw [eq]
  rw [Nat.primeFactors_mul stays.ne' (pow_ne_zero _ is.1.1.ne_zero), Nat.primeFactors_prime_pow e.succ_ne_zero is.1.1,
    Finset.union_comm, Finset.insert_eq]

theorem eq_of_lt_sq (is : IsGreatest {q | q.Prime ∧ q ∣ k} g) (one : 1 < c) (greatest : g ∣ c)
    (rough : ∀ q, q.Prime → q ∣ c → p ≤ q)
    (lt : c < p * p) : c = g := by
  have prime : c.Prime := by
    by_contra composite
    have square := Nat.minFac_sq_le_self (Nat.zero_lt_of_lt one) composite
    have least := rough c.minFac (Nat.minFac_prime one.ne') (Nat.minFac_dvd c)
    have both := Nat.mul_le_mul least least
    rw [pow_two] at square
    omega
  exact ((Nat.prime_dvd_prime_iff_eq is.1.1 prime).mp greatest).symm

theorem jDivPrime_eq (is : IsGreatest {q | q.Prime ∧ q ∣ k} g) (one : 1 < c) (two : 2 ≤ p) (parity : p = 2 ∨ p % 2 = 1)
    (enough : c < fuel + p) (greatest : g ∣ c) (divides : c ∣ k) (rough : ∀ q, q.Prime → q ∣ c → p ≤ q) :
      jDivPrime fuel p c = g := by
  induction fuel generalizing p c with
  | zero =>
    change c = g
    exact eq_of_lt_sq is one greatest rough (by nlinarith)
  | succ fuel ih =>
    rw [jDivPrime]
    by_cases le : p * p ≤ c
    · rw [if_pos le]
      obtain ⟨positive, ⟨e, eq⟩, last⟩ := @divideOut_spec p c c two (Nat.zero_lt_of_lt one) le_rfl
      have part : divideOut p c c ∣ c := ⟨_, eq⟩
      have g_le : p ≤ g := rough g is.1.1 greatest
      by_cases done : divideOut p c c = 1
      · simp only [if_pos done]
        rw [done, one_mul] at eq
        rw [eq] at greatest
        have dvd := is.1.1.dvd_of_dvd_pow greatest
        exact le_antisymm g_le (Nat.le_of_dvd (by omega) dvd)
      · simp only [if_neg done]
        have more : 1 < divideOut p c c := by omega
        have stays : g ∣ divideOut p c c := by
          have other : ¬ p ∣ g ∨ e = 0 := by
            by_contra both
            obtain ⟨dvd, nonzero⟩ := not_or.mp both
            have same : p = g := ((Nat.dvd_prime is.1.1).mp (not_not.mp dvd)).resolve_left (by omega)
            obtain ⟨q, q_prime, q_divides⟩ := Nat.exists_prime_and_dvd more.ne'
            have upper : q ≤ g := is.2 ⟨q_prime, (q_divides.trans part).trans divides⟩
            have lower := rough q q_prime (q_divides.trans part)
            have q_eq : q = p := by omega
            exact last (q_eq ▸ q_divides)
          rcases other with apart | zero
          · rw [eq] at greatest
            have coprime : g.Coprime (p ^ e) := by
              refine Nat.Coprime.pow_right e ((Nat.coprime_or_dvd_of_prime is.1.1 p).resolve_right fun dvd => ?_)
              have same : p = g := le_antisymm g_le (Nat.le_of_dvd (by omega) dvd)
              exact apart same.dvd
            exact coprime.dvd_of_dvd_mul_right greatest
          · rw [zero, pow_zero, mul_one] at eq
            rwa [← eq]
        have smaller : divideOut p c c ≤ c := Nat.le_of_dvd (Nat.zero_lt_of_lt one) part
        have rough' (q : ℕ) (q_prime : q.Prime) (q_divides : q ∣ divideOut p c c) : p + (1 + p % 2) ≤ q := by
          have lower := rough q q_prime (q_divides.trans part)
          have ne : q ≠ p := fun same => last (same ▸ q_divides)
          rcases parity with rfl | odd
          · omega
          · have q_odd := q_prime.eq_two_or_odd
            omega
        exact ih more (by omega) (by omega) (by omega) stays (part.trans divides) rough'
    · rw [if_neg le]
      exact eq_of_lt_sq is one greatest rough (not_le.mp le)

theorem jDivPrime_isGreatest (two : 2 ≤ k) : IsGreatest {q | q.Prime ∧ q ∣ k} (jDivPrime k 2 k) := by
  obtain ⟨g, is⟩ := exists_greatest two
  rwa [jDivPrime_eq is two le_rfl (.inl rfl) (by omega) is.1.2 dvd_rfl fun q prime _ => prime.two_le]

end CadoNfs.Sieve

/-!
# The primes of a line

`j_divisibility_helper` of `sieve/las-unsieve.hpp` has an entry for each line: its greatest prime factor,
and what it takes to test a number for it.
-/

namespace CadoNfs.Sieve

def invmodTable : List ℤ := [
  1, 171, 205, 183, 57, 163, 197, 239, 241, 27, 61, 167, 41, 19, 53, 223, 225, 139, 173, 151, 25, 131,
  165, 207, 209, 251, 29, 135, 9, 243, 21, 191, 193, 107, 141, 119, 249, 99, 133, 175, 177, 219, 253, 103,
  233, 211, 245, 159, 161, 75, 109, 87, 217, 67, 101, 143, 145, 187, 221, 71, 201, 179, 213, 127, 129, 43,
  77, 55, 185, 35, 69, 111, 113, 155, 189, 39, 169, 147, 181, 95, 97, 11, 45, 23, 153, 3, 37, 79,
  81, 123, 157, 7, 137, 115, 149, 63, 65, 235, 13, 247, 121, 227, 5, 47, 49, 91, 125, 231, 105, 83,
  117, 31, 33, 203, 237, 215, 89, 195, 229, 15, 17, 59, 93, 199, 73, 51, 85, 255]

def newton (n r : ℤ) : ℤ := (2 * r - r * r * n) % 2 ^ 64

def ularithInvmod (n : ℕ) : ℕ := (newton n (newton n (newton n (invmodTable.getD (n % 256 / 2) 0)))).toNat

structure JDivEntry where
  p : ℕ
  cof : ℕ
  inv : ℕ
  bound : ℕ

def jDivEntry (k : ℕ) : JDivEntry :=
  if k = 0 then ⟨0, 0, 0, 0⟩
  else if k = 1 then ⟨1, 1, 1, 2 ^ 32 - 1⟩
  else
    let p := jDivPrime k 2 k
    ⟨p, cofactor p k, if p = 2 then 0 else ularithInvmod p % 2 ^ 32, (2 ^ 32 - 1) / p⟩

def extractLoop (pmin pmax : ℕ) : ℕ → ℕ → List (ℕ × ℕ)
  | 0, _ => []
  | fuel + 1, c =>
    if 1 < c then
      let e := jDivEntry c
      if e.p < pmin then []
      else if e.p ≤ pmax then (e.inv, e.bound) :: extractLoop pmin pmax fuel e.cof
      else extractLoop pmin pmax fuel e.cof
    else []

def extractJDiv (j pmin pmax : ℕ) : List (ℕ × ℕ) := extractLoop pmin pmax (j + 1) (divideOut 2 j j)

def divides (div : List (ℕ × ℕ)) (i : ℕ) : Bool := div.any fun d => decide (i * d.1 % 2 ^ 32 ≤ d.2)

/-! ## The test by an inverse -/

theorem newton_spec {n r : ℤ} {e : ℕ} (inverse : 2 ^ e ∣ r * n - 1) (le : 2 * e ≤ 64) :
    2 ^ (2 * e) ∣ newton n r * n - 1 := by
  obtain ⟨k, eq⟩ := inverse
  have square : (2 * r - r * r * n) * n - 1 = 2 ^ (2 * e) * -(k * k) := by
    calc
      (2 * r - r * r * n) * n - 1 = -((r * n - 1) * (r * n - 1)) := by ring
      _ = 2 ^ (2 * e) * -(k * k) := by
        rw [eq]
        ring
  obtain ⟨m, whole⟩ : (2 ^ 64 : ℤ) ∣ (2 * r - r * r * n) - newton n r := Int.dvd_self_sub_emod
  have power : (2 ^ (2 * e) : ℤ) ∣ 2 ^ 64 := pow_dvd_pow 2 le
  have split : newton n r * n - 1 = (2 * r - r * r * n) * n - 1 - 2 ^ 64 * (m * n) := by
    have value : newton n r = (2 * r - r * r * n) - 2 ^ 64 * m := by omega
    rw [value]
    ring
  rw [split, square]
  exact dvd_sub (dvd_mul_right _ _) (power.mul_right _)

theorem invmodTable_getElem? {n : ℕ} (odd : n % 2 = 1) :
    invmodTable[n % 256 / 2]? = some (invmodTable.getD (n % 256 / 2) 0) := by
  have lt : n % 256 / 2 < invmodTable.length := show n % 256 / 2 < 128 by omega
  rw [List.getD_eq_getElem _ _ lt, List.getElem?_eq_getElem lt]

theorem invmodTable_spec {n : ℕ} (odd : n % 2 = 1) : (2 ^ 8 : ℤ) ∣ invmodTable.getD (n % 256 / 2) 0 * n - 1 := by
  have table : ∀ e ∈ invmodTable.zipIdx, (e.1 * (2 * e.2 + 1) - 1) % 256 = 0 := by decide +kernel
  have here := table _ (List.mk_mem_zipIdx_iff_getElem?.mpr (invmodTable_getElem? odd))
  set t := invmodTable.getD (n % 256 / 2) 0
  have index : (2 * (n % 256 / 2 : ℕ) + 1 : ℤ) = n % 256 := by omega
  rw [index] at here
  have split : t * n - 1 = t * (n % 256) - 1 + 256 * (t * (n / 256)) := by
    conv_lhs => rw [← Int.emod_add_mul_ediv n 256]
    ring
  rw [split]
  exact dvd_add (Int.dvd_of_emod_eq_zero here) (dvd_mul_right _ _)

theorem ularithInvmod_spec {n : ℕ} (odd : n % 2 = 1) : n * ularithInvmod n ≡ 1 [MOD 2 ^ 64] := by
  have last := newton_spec (newton_spec (newton_spec (invmodTable_spec odd) (by norm_num)) (by norm_num)) (by norm_num)
  have nonneg (n r : ℤ) : 0 ≤ newton n r := Int.emod_nonneg _ (by norm_num)
  rw [← Int.natCast_modEq_iff]
  push_cast
  rw [ularithInvmod, Int.toNat_of_nonneg (nonneg _ _), mul_comm]
  exact (Int.modEq_iff_dvd.mpr last).symm

theorem mul_inv_le_iff {M p q i : ℕ} (positive : 0 < p) (inverse : p * q ≡ 1 [MOD M]) (lt : i < M) :
    i * q % M ≤ (M - 1) / p ↔ p ∣ i := by
  have back : i * q % M * p ≡ i [MOD M] := by
    calc
      i * q % M * p ≡ i * q * p [MOD M] := (Nat.mod_modEq _ _).mul_right p
      _ = i * (p * q) := by ring
      _ ≡ i * 1 [MOD M] := inverse.mul_left i
      _ = i := mul_one i
  constructor
  · intro small
    have le := (Nat.le_div_iff_mul_le positive).mp small
    have whole : i * q % M * p = i := Nat.ModEq.eq_of_lt_of_lt back (by omega) lt
    exact ⟨_, (mul_comm _ _).trans whole |>.symm⟩
  · rintro ⟨k, rfl⟩
    have quotient : p * k * q ≡ k [MOD M] := by
      calc
        p * k * q = p * q * k := by ring
        _ ≡ 1 * k [MOD M] := inverse.mul_right k
        _ = k := one_mul k
    have k_le : k ≤ p * k := Nat.le_mul_of_pos_left k positive
    have value : p * k * q % M = k := Eq.trans quotient (Nat.mod_eq_of_lt (by omega))
    rw [value, Nat.le_div_iff_mul_le positive, mul_comm]
    omega

/-! ## The primes that are found -/

theorem jDivEntry_spec {c : ℕ} (one : 1 < c) (odd : c % 2 = 1) :
    IsGreatest {q | q.Prime ∧ q ∣ c} (jDivEntry c).p ∧ (jDivEntry c).cof = cofactor (jDivEntry c).p c ∧
      ∀ i < 2 ^ 32, i * (jDivEntry c).inv % 2 ^ 32 ≤ (jDivEntry c).bound ↔ (jDivEntry c).p ∣ i := by
  have is := jDivPrime_isGreatest one
  have p_odd : jDivPrime c 2 c % 2 = 1 := Nat.odd_iff.mp ((Nat.odd_iff.mpr odd).of_dvd_nat is.1.2)
  have two : jDivPrime c 2 c ≠ 2 := by omega
  rw [jDivEntry, if_neg (by omega), if_neg one.ne']
  refine ⟨is, rfl, fun i lt => ?_⟩
  simp only [if_neg two]
  have inverse := (ularithInvmod_spec p_odd).of_dvd (pow_dvd_pow 2 (by norm_num : 32 ≤ 64))
  exact mul_inv_le_iff is.1.1.pos (((Nat.mod_modEq _ _).mul_left _).trans inverse) lt

theorem extractLoop_spec {pmin pmax fuel c : ℕ} (positive : 0 < c) (odd : c % 2 = 1) (enough : c < fuel) :
    (extractLoop pmin pmax fuel c).length = (c.primeFactors.filter fun p => pmin ≤ p ∧ p ≤ pmax).card ∧
      ∀ i < 2 ^ 32, divides (extractLoop pmin pmax fuel c) i = true ↔ ∃ p ∈ c.primeFactors, (pmin ≤ p ∧ p ≤ pmax) ∧
        p ∣ i := by
  induction fuel generalizing c with
  | zero => omega
  | succ fuel ih =>
    rw [extractLoop]
    by_cases one : 1 < c
    · rw [if_pos one]
      obtain ⟨is, cof, test⟩ := jDivEntry_spec one odd
      obtain ⟨positive', smaller, part, apart, primes⟩ := cofactor_primes is positive
      rw [← cof] at positive' smaller part apart primes
      have odd' : (jDivEntry c).cof % 2 = 1 := Nat.odd_iff.mp ((Nat.odd_iff.mpr odd).of_dvd_nat part)
      obtain ⟨length, rest⟩ := ih positive' odd' (by omega)
      have absent : (jDivEntry c).p ∉ (jDivEntry c).cof.primeFactors :=
        fun member => apart (Nat.dvd_of_mem_primeFactors member)
      dsimp only
      by_cases low : (jDivEntry c).p < pmin
      · have none : c.primeFactors.filter (fun p => pmin ≤ p ∧ p ≤ pmax) = ∅ := by
          refine Finset.filter_eq_empty_iff.mpr fun p member both => ?_
          have le := is.2 ⟨Nat.prime_of_mem_primeFactors member, Nat.dvd_of_mem_primeFactors member⟩
          omega
        rw [if_pos low]
        refine ⟨by rw [none]; rfl, fun i _ => iff_of_false (by simp [divides]) ?_⟩
        rintro ⟨p, member, both, -⟩
        exact Finset.notMem_empty p (none ▸ Finset.mem_filter.mpr ⟨member, both⟩)
      · rw [if_neg low]
        by_cases high : (jDivEntry c).p ≤ pmax
        · have both : pmin ≤ (jDivEntry c).p ∧ (jDivEntry c).p ≤ pmax := ⟨not_lt.mp low, high⟩
          rw [if_pos high, primes, Finset.filter_insert, if_pos both, Finset.card_insert_of_notMem (by simp [absent]),
            List.length_cons, length]
          refine ⟨rfl, fun i lt => ?_⟩
          rw [divides, List.any_cons, Bool.or_eq_true, decide_eq_true_eq, test i lt, ← divides, rest i lt]
          simp only [Finset.mem_insert, exists_eq_or_imp, both, true_and]
        · rw [if_neg high, primes, Finset.filter_insert, if_neg (fun both => high both.2), length]
          refine ⟨rfl, fun i lt => ?_⟩
          rw [rest i lt]
          simp only [Finset.mem_insert, exists_eq_or_imp, high, and_false, false_and, false_or]
    · obtain rfl : c = 1 := by omega
      rw [if_neg one]
      exact ⟨by simp, fun i _ => by simp [divides]⟩

theorem extractJDiv_spec {j pmin pmax : ℕ} (positive : 0 < j) :
    (extractJDiv j pmin pmax).length = ((divideOut 2 j j).primeFactors.filter fun p => pmin ≤ p ∧ p ≤ pmax).card ∧
      ∀ i < 2 ^ 32, divides (extractJDiv j pmin pmax) i = true ↔
        ∃ p ∈ (divideOut 2 j j).primeFactors, (pmin ≤ p ∧ p ≤ pmax) ∧ p ∣ i := by
  obtain ⟨left, ⟨e, eq⟩, odd⟩ := @divideOut_spec 2 j j le_rfl positive le_rfl
  have le : divideOut 2 j j ≤ j := Nat.le_of_dvd positive ⟨_, eq⟩
  apply extractLoop_spec left
  · omega
  · omega

end CadoNfs.Sieve
