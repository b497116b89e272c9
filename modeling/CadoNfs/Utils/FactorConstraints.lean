import CadoNfs.Utils.Getprime

/-!
# The next number with constrained prime factors

`next_mpz_with_factor_constraints` of `utils/gmp_aux.c`, with exact primality tests.
-/

namespace CadoNfs.Utils.FactorConstraints

def divideOut (p : ℕ) : ℕ → ℕ → ℕ → ℕ × ℕ
  | 0, rr, c => (rr, c)
  | fuel + 1, rr, c => if rr % p = 0 then divideOut p fuel (rr / p) (c + 1) else (rr, c)

def factorLoop (pmax : ℕ) : List ℕ → ℕ → List ℕ → Option (List ℕ)
  | [], _, _ => none
  | p :: ps, rr, factorR =>
    if rr ≤ 1 then none
    else if rr % p ≠ 0 then factorLoop pmax ps rr factorR
    else
      let divided := divideOut p rr rr 0
      if 1 < divided.2 then none
      else if ¬divided.1.Prime then factorLoop pmax ps divided.1 (factorR ++ [p])
      else if pmax ≤ divided.1 then none
      else some (factorR ++ [p] ++ [divided.1])

def primesBetween (pmin pmax : ℕ) : List ℕ := (List.range' pmin (pmax - pmin)).filter (·.Prime)

def check (pmin pmax r : ℕ) : Option (List ℕ) :=
  if r.Prime then
    if r < pmax then some [r % 2 ^ 64] else none
  else
    let rr := r % 2 ^ 64
    if (primesBetween 0 pmin).any fun p => rr % p = 0 then none
    else factorLoop pmax (primesBetween pmin pmax) rr []

def search (pmin pmax : ℕ) : ℕ → ℕ → Option (ℕ × List ℕ)
  | 0, _ => none
  | fuel + 1, r =>
    match check pmin pmax r with
    | some factorR => some (r, factorR)
    | none => search pmin pmax fuel (r + 2)

def start (s : ℤ) (diff pmin : ℕ) : ℕ :=
  let r := if s + diff < pmin then pmin else (s + diff).toNat
  if r % 2 = 0 then r + 1 else r

inductive Outcome
  | aborted
  | running
  | returned (r : ℕ) (factorR : List ℕ)
  deriving DecidableEq

def nextMpzWithFactorConstraints (fuel : ℕ) (s : ℤ) (diff pmin pmax : ℕ) : Outcome :=
  if ¬2 < pmin then .aborted
  else
    match search pmin pmax fuel (start s diff pmin) with
    | some (r, factorR) => .returned r factorR
    | none => .running

/-- Prime or squarefree composite, with every prime factor in `[pmin, pmax[`. -/
structure Legitimate (pmin pmax r : ℕ) : Prop where
  gt : 1 < r
  squarefree : Squarefree r
  bounds : ∀ p, p.Prime → p ∣ r → pmin ≤ p ∧ p < pmax

theorem le_divideOut (p fuel rr c : ℕ) : c ≤ (divideOut p fuel rr c).2 := by
  induction fuel generalizing rr c with
  | zero => exact le_rfl
  | succ fuel ih =>
    rw [divideOut]
    split
    · exact (Nat.le_succ c).trans (ih _ _)
    · exact le_rfl

theorem divideOut_of_dvd {p rr : ℕ} (divides : p ∣ rr) (large : 1 < rr) :
    p ∣ rr / p ∧ 1 < (divideOut p rr rr 0).2 ∨ ¬p ∣ rr / p ∧ divideOut p rr rr 0 = (rr / p, 1) := by
  obtain ⟨fuel, enough⟩ : ∃ fuel, rr = fuel + 1 + 1 := ⟨rr - 2, by omega⟩
  have first : divideOut p rr rr 0 = divideOut p (fuel + 1) (rr / p) 1 := by
    conv_lhs => rw [show divideOut p rr rr 0 = divideOut p (fuel + 1 + 1) rr 0 by rw [← enough]]
    rw [divideOut, if_pos (Nat.mod_eq_zero_of_dvd divides)]
  rw [first, divideOut]
  by_cases twice : p ∣ rr / p
  · rw [if_pos (Nat.mod_eq_zero_of_dvd twice)]
    exact .inl ⟨twice, le_divideOut p fuel _ 2⟩
  · rw [if_neg fun zero => twice (Nat.dvd_of_mod_eq_zero zero)]
    exact .inr ⟨twice, rfl⟩

theorem primeFactorsList_mul {p n : ℕ} (prime : p.Prime) (positive : 0 < n)
    (least : ∀ q, q.Prime → q ∣ p * n → p ≤ q) : (p * n).primeFactorsList = p :: n.primeFactorsList := by
  have large : 1 < p * n := by nlinarith [prime.two_le]
  have smallest : (p * n).minFac = p := by
    apply le_antisymm (Nat.minFac_le_of_dvd prime.two_le (dvd_mul_right p n))
    exact least _ (Nat.minFac_prime (by omega)) (Nat.minFac_dvd _)
  obtain ⟨k, eq⟩ : ∃ k, p * n = k + 2 := ⟨p * n - 2, by omega⟩
  rw [eq, Nat.primeFactorsList, ← eq, smallest, Nat.mul_div_cancel_left n prime.pos]

theorem factorLoop_spec (k : ℕ) {pmax m rr : ℕ} (last : m + k = pmax) (large : 1 < rr) (composite : ¬rr.Prime)
    (least : ∀ q, q.Prime → q ∣ rr → m ≤ q) (factorR factors : List ℕ) :
    factorLoop pmax ((List.range' m k).filter (·.Prime)) rr factorR = some factors ↔
      (Squarefree rr ∧ ∀ q, q.Prime → q ∣ rr → q < pmax) ∧ factors = factorR ++ rr.primeFactorsList := by
  induction k generalizing m rr factorR with
  | zero =>
    obtain ⟨q, prime, divides⟩ := Nat.exists_prime_and_dvd (show rr ≠ 1 by omega)
    have above := least q prime divides
    apply iff_of_false (by simp [factorLoop])
    intro holds
    have below := holds.1.2 q prime divides
    omega
  | succ k ih =>
    have next {rest : ℕ} (still : ∀ q, q.Prime → q ∣ rest → q ∣ rr) (absent : m.Prime → ¬m ∣ rest) :
        ∀ q, q.Prime → q ∣ rest → m + 1 ≤ q := by
      intro q prime divides
      rcases (least q prime (still q prime divides)).eq_or_lt with rfl | more
      · exact absurd divides (absent prime)
      · exact more
    rw [List.range'_succ]
    by_cases prime : m.Prime
    swap
    · rw [List.filter_cons_of_neg (by simpa using prime)]
      exact ih (by omega) large composite (next (fun q _ divides => divides) fun holds => absurd holds prime) factorR
    rw [List.filter_cons_of_pos (by simpa using prime), factorLoop, if_neg (by omega)]
    by_cases divides : m ∣ rr
    swap
    · rw [if_pos fun zero => divides (Nat.dvd_of_mod_eq_zero zero)]
      exact ih (by omega) large composite (next (fun q _ divides => divides) fun _ => divides) factorR
    rw [if_neg (by simpa using Nat.mod_eq_zero_of_dvd divides)]
    obtain ⟨rest, rfl⟩ := divides
    have positive : 0 < rest := Nat.pos_of_ne_zero fun zero => by simp [zero] at large
    have above : 1 < rest := by
      by_contra small
      exact composite (by simpa [show rest = 1 by omega] using prime)
    have cancel : m * rest / m = rest := Nat.mul_div_cancel_left rest prime.pos
    have list := primeFactorsList_mul prime positive least
    rcases divideOut_of_dvd (dvd_mul_right m rest) large with ⟨twice, count⟩ | ⟨once, divided⟩
    · rw [cancel] at twice
      simp only [if_pos count]
      apply iff_of_false (by simp)
      intro holds
      exact prime.not_isUnit (holds.1.1 m (Nat.mul_dvd_mul_left m twice))
    rw [cancel] at once divided
    have coprime : Nat.Coprime m rest := (Nat.Prime.coprime_iff_not_dvd prime).mpr once
    have squarefree : Squarefree (m * rest) ↔ Squarefree rest := by
      rw [Nat.squarefree_mul coprime]
      exact and_iff_right prime.squarefree
    have bounds : (∀ q, q.Prime → q ∣ m * rest → q < pmax) ↔ ∀ q, q.Prime → q ∣ rest → q < pmax := by
      constructor
      · exact fun all q isPrime there => all q isPrime (there.mul_left m)
      · intro all q isPrime there
        rcases (Nat.Prime.dvd_mul isPrime).mp there with left | right
        · rw [(Nat.prime_dvd_prime_iff_eq isPrime prime).mp left]
          omega
        · exact all q isPrime right
    simp only [divided, lt_irrefl, if_false]
    rw [squarefree, bounds, list]
    by_cases cofactor : rest.Prime
    · rw [if_neg (not_not.mpr cofactor), Nat.primeFactorsList_prime cofactor]
      split_ifs with beyond
      · apply iff_of_false (by simp)
        intro holds
        exact absurd (holds.1.2 rest cofactor dvd_rfl) (by omega)
      · have holds : Squarefree rest ∧ ∀ q, q.Prime → q ∣ rest → q < pmax := by
          refine ⟨cofactor.squarefree, fun q isPrime there => ?_⟩
          rw [(Nat.prime_dvd_prime_iff_eq isPrime cofactor).mp there]
          omega
        rw [and_iff_right holds, Option.some_inj, List.append_assoc, eq_comm]
        rfl
    · rw [if_pos cofactor, ih (by omega) above cofactor (next (fun q _ there => there.mul_left m) fun _ => once)]
      simp

theorem mem_primesBetween {a b p : ℕ} : p ∈ primesBetween a b ↔ (a ≤ p ∧ p < b) ∧ p.Prime := by
  simp only [primesBetween, List.mem_filter, List.mem_range'_1, decide_eq_true_eq]
  constructor
  · exact fun holds => ⟨⟨holds.1.1, by omega⟩, holds.2⟩
  · exact fun holds => ⟨⟨holds.1.1, by omega⟩, holds.2⟩

open Getprime in
/-- The primes as `getprime_mt` returns them: from 3 on, and 2 divides no odd number. -/
theorem getprimes_primesBetween {pmin pmax : ℕ} (bound : 2 < pmin) (order : pmin ≤ pmax)
    (meets : RunMeets ((List.range' 3 (pmax - 3)).filter (·.Prime)).length primeInfoInit) :
    ∃ n ps pi', getprimes n primeInfoInit = some (ps, pi') ∧
      primesBetween 0 pmin ++ primesBetween pmin pmax = 2 :: ps := by
  obtain ⟨pi', run⟩ := getprimes_filter meets
  refine ⟨_, _, pi', run, ?_⟩
  rw [primesBetween, primesBetween, ← List.filter_append, Nat.sub_zero,
    show List.range' 0 pmin ++ List.range' pmin (pmax - pmin) = List.range' 0 (3 + (pmax - 3)) by
      rw [show 3 + (pmax - 3) = pmin + (pmax - pmin) by omega, ← List.range'_append_1, Nat.zero_add],
    ← List.range'_append_1, List.filter_append]
  rfl

theorem Legitimate.ge {pmin pmax r : ℕ} (legitimate : Legitimate pmin pmax r) : pmin ≤ r := by
  obtain ⟨p, prime, divides⟩ := Nat.exists_prime_and_dvd (show r ≠ 1 from legitimate.gt.ne')
  exact (legitimate.bounds p prime divides).1.trans (Nat.le_of_dvd (by have := legitimate.gt; omega) divides)

theorem check_spec {pmin pmax r : ℕ} (low : pmin ≤ r) (large : 1 < r) (word : r < 2 ^ 64) (factors : List ℕ) :
    check pmin pmax r = some factors ↔ Legitimate pmin pmax r ∧ factors = r.primeFactorsList := by
  rw [check, Nat.mod_eq_of_lt word]
  by_cases prime : r.Prime
  · rw [if_pos prime, Nat.primeFactorsList_prime prime]
    split_ifs with below
    · have holds : Legitimate pmin pmax r := by
        refine ⟨large, prime.squarefree, fun p isPrime divides => ?_⟩
        rw [(Nat.prime_dvd_prime_iff_eq isPrime prime).mp divides]
        exact ⟨low, below⟩
      rw [and_iff_right holds, Option.some_inj, eq_comm]
    · apply iff_of_false (by simp)
      exact fun holds => below (holds.1.bounds r prime dvd_rfl).2
  rw [if_neg prime]
  have small : ((primesBetween 0 pmin).any fun p => r % p = 0) = true ↔
      ∃ p, ((0 ≤ p ∧ p < pmin) ∧ p.Prime) ∧ r % p = 0 := by
    simp only [List.any_eq_true, mem_primesBetween, decide_eq_true_eq]
  by_cases found : ∃ p, ((0 ≤ p ∧ p < pmin) ∧ p.Prime) ∧ r % p = 0
  · simp only [if_pos (small.mpr found)]
    obtain ⟨p, ⟨⟨-, below⟩, isPrime⟩, divides⟩ := found
    apply iff_of_false (by simp)
    intro holds
    have above := (holds.1.bounds p isPrime (Nat.dvd_of_mod_eq_zero divides)).1
    omega
  simp only [if_neg (mt small.mp found)]
  have least : ∀ p, p.Prime → p ∣ r → pmin ≤ p := by
    intro p isPrime divides
    by_contra below
    exact found ⟨p, ⟨⟨Nat.zero_le p, by omega⟩, isPrime⟩, Nat.mod_eq_zero_of_dvd divides⟩
  rcases Nat.le_total pmin pmax with order | empty
  · rw [primesBetween, factorLoop_spec (pmax - pmin) (by omega) large prime least]
    simp only [List.nil_append]
    apply and_congr_left'
    constructor
    · exact fun holds => ⟨large, holds.1, fun p isPrime divides => ⟨least p isPrime divides, holds.2 p isPrime divides⟩⟩
    · exact fun holds => ⟨holds.squarefree, fun p isPrime divides => (holds.bounds p isPrime divides).2⟩
  · obtain ⟨p, isPrime, divides⟩ := Nat.exists_prime_and_dvd (show r ≠ 1 by omega)
    apply iff_of_false
    · simp [primesBetween, Nat.sub_eq_zero_of_le empty, factorLoop]
    · intro holds
      have := holds.1.bounds p isPrime divides
      omega

theorem Legitimate.odd {pmin pmax r : ℕ} (legitimate : Legitimate pmin pmax r) (bound : 2 < pmin) : r % 2 = 1 := by
  by_contra even
  have := legitimate.bounds 2 Nat.prime_two (by omega)
  omega

theorem search_spec {pmin pmax v : ℕ} (bound : 2 < pmin) (legitimate : Legitimate pmin pmax v) (word : v < 2 ^ 64)
    (k : ℕ) {r : ℕ} (low : pmin ≤ r) (distance : r + 2 * k = v) :
    ∃ w, IsLeast {u | Legitimate pmin pmax u ∧ r ≤ u} w ∧
      ∀ fuel, k < fuel → search pmin pmax fuel r = some (w, w.primeFactorsList) := by
  induction k generalizing r with
  | zero =>
    obtain rfl : r = v := by omega
    refine ⟨r, ⟨⟨legitimate, le_rfl⟩, fun u holds => holds.2⟩, fun fuel enough => ?_⟩
    obtain ⟨fuel, rfl⟩ := Nat.exists_eq_succ_of_ne_zero (show fuel ≠ 0 by omega)
    rw [search, (check_spec low legitimate.gt word _).mpr ⟨legitimate, rfl⟩]
  | succ k ih =>
    by_cases here : Legitimate pmin pmax r
    · refine ⟨r, ⟨⟨here, le_rfl⟩, fun u holds => holds.2⟩, fun fuel enough => ?_⟩
      obtain ⟨fuel, rfl⟩ := Nat.exists_eq_succ_of_ne_zero (show fuel ≠ 0 by omega)
      rw [search, (check_spec low here.gt (by omega) _).mpr ⟨here, rfl⟩]
    · obtain ⟨w, ⟨⟨holds, above⟩, least⟩, found⟩ := ih (r := r + 2) (by omega) (by omega)
      refine ⟨w, ⟨⟨holds, by omega⟩, ?_⟩, fun fuel enough => ?_⟩
      · rintro u ⟨other, from_r⟩
        have parity := other.odd bound
        have target := legitimate.odd bound
        have differs : u ≠ r := fun eq => here (eq ▸ other)
        exact least ⟨other, by omega⟩
      · obtain ⟨fuel, rfl⟩ := Nat.exists_eq_succ_of_ne_zero (show fuel ≠ 0 by omega)
        have skipped : check pmin pmax r = none := by
          rw [Option.eq_none_iff_forall_ne_some]
          exact fun factors some => here ((check_spec low (by omega) (by omega) factors).mp some).1
        rw [search, skipped]
        exact found fuel (by omega)

theorem start_le {s : ℤ} {diff pmin v : ℕ} (low : pmin ≤ v) (parity : v % 2 = 1) :
    start s diff pmin ≤ v ↔ s + diff ≤ v := by
  rw [start]
  split_ifs <;> omega

theorem le_start (s : ℤ) (diff pmin : ℕ) : pmin ≤ start s diff pmin := by
  rw [start]
  split_ifs <;> omega

theorem start_odd (s : ℤ) (diff pmin : ℕ) : start s diff pmin % 2 = 1 := by
  rw [start]
  split_ifs <;> omega

/-- As soon as a legitimate value of 64 bits is ahead, the least one is returned with its prime factors, in order. -/
theorem nextMpzWithFactorConstraints_isLeast (s : ℤ) (diff : ℕ) {pmin pmax v : ℕ} (bound : 2 < pmin)
    (legitimate : Legitimate pmin pmax v) (ahead : s + diff ≤ v) (word : v < 2 ^ 64) :
    ∃ r fuel, IsLeast {u : ℕ | Legitimate pmin pmax u ∧ s + diff ≤ u} r ∧
      ∀ more, fuel ≤ more →
        nextMpzWithFactorConstraints more s diff pmin pmax = .returned r r.primeFactorsList := by
  have before := (start_le legitimate.ge (legitimate.odd bound)).mpr ahead
  have target := legitimate.odd bound
  have parity := start_odd s diff pmin
  obtain ⟨r, least, found⟩ := search_spec bound legitimate word ((v - start s diff pmin) / 2)
    (le_start s diff pmin) (by omega)
  have same : {u : ℕ | Legitimate pmin pmax u ∧ start s diff pmin ≤ u} =
      {u : ℕ | Legitimate pmin pmax u ∧ s + diff ≤ u} := by
    ext u
    exact and_congr_right fun holds => start_le holds.ge (holds.odd bound)
  refine ⟨r, (v - start s diff pmin) / 2 + 1, same ▸ least, fun more enough => ?_⟩
  rw [nextMpzWithFactorConstraints, if_neg (not_not.mpr bound), found more enough]

theorem nextMpzWithFactorConstraints_isLeast_fifteen :
    ∃ r fuel, IsLeast {u : ℕ | Legitimate 3 10 u ∧ (9 : ℤ) + (0 : ℕ) ≤ u} r ∧
      ∀ more, fuel ≤ more → nextMpzWithFactorConstraints more 9 0 3 10 = .returned r r.primeFactorsList := by
  have factors : ∀ p : ℕ, p.Prime → p ∣ 3 * 5 → 3 ≤ p ∧ p < 10 := by
    intro p prime divides
    rcases (Nat.Prime.dvd_mul prime).mp divides with three | five
    · rw [(Nat.prime_dvd_prime_iff_eq prime Nat.prime_three).mp three]
      decide
    · rw [(Nat.prime_dvd_prime_iff_eq prime Nat.prime_five).mp five]
      decide
  have squarefree : Squarefree (3 * 5) := by
    rw [Nat.squarefree_mul (by decide)]
    exact ⟨Nat.prime_three.squarefree, Nat.prime_five.squarefree⟩
  exact nextMpzWithFactorConstraints_isLeast 9 0 (v := 15) (by decide) ⟨by decide, squarefree, factors⟩ (by decide)
    (by decide)

theorem square_passed_over :
    ¬∀ (fuel : ℕ) (s : ℤ) (diff pmin pmax r : ℕ) (factorR : List ℕ),
      nextMpzWithFactorConstraints fuel s diff pmin pmax = .returned r factorR →
        ∀ primes : List ℕ, primes.length = factorR.length → (∀ p ∈ primes, p.Prime ∧ pmin ≤ p ∧ p < pmax) →
          s + diff ≤ primes.prod → r ≤ primes.prod := by
  intro least
  have fifteen : nextMpzWithFactorConstraints 4 9 0 3 10 = .returned 15 [3, 5] := by decide +kernel
  have smaller := least 4 9 0 3 10 15 [3, 5] fifteen [3, 3] rfl (by simp [Nat.prime_three]) (by decide)
  simp at smaller

end CadoNfs.Utils.FactorConstraints
