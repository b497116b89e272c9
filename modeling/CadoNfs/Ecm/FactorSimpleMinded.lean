import CadoNfs.Lib.Double

/-!
# Factoring the norms of a batch

`factor_simple_minded` of `sieve/ecm/batch.cpp`. What does not return, and what an assertion stops, is `none`.
-/

namespace CadoNfs.Ecm.FactorSimpleMinded
open Lib

inductive FaculStatus
  | notSmooth
  | maybe
  | smooth
  deriving DecidableEq

structure OneFm where
  status : FaculStatus
  temp : List ℕ
  comp : List ℕ

def trialDivideBy (p : ℕ) : ℕ → List ℕ × ℕ → Option (List ℕ × ℕ)
  | 0, _ => none
  | fuel + 1, (factors, n) =>
    if p ∣ n then trialDivideBy p fuel (factors ++ [p], n / p) else some (factors, n)

def trialDivide (fuel : ℕ) (SP : List ℕ) (factors : List ℕ) (n : ℕ) : Option (List ℕ × ℕ) :=
  SP.foldlM (fun s p => trialDivideBy p fuel s) (factors, n)

-- `mpz_divexact` after `ASSERT (mpz_divisible_p (n, d))`; without the assertion its result is undefined.
def divexact (n d : ℕ) : Option ℕ := if d ∣ n then some (n / d) else none

structure Work (FaculMethod : Type) where
  factors : List ℕ
  composites : List (ℕ × List FaculMethod)

inductive Result
  | factored (factors : List ℕ)
  | failed (cofac : ℕ)
  deriving DecidableEq

variable {FaculMethod : Type}
variable (ndebug : Bool) (faculDoitOnefm : ℕ → FaculMethod → ℕ → ℚ → ℚ → OneFm) (probabPrime : ℕ → Bool) (lpb : ℕ)
  (BB BBB : ℚ)

def pushComposite (pm : List FaculMethod) (s : Work FaculMethod) (t : ℕ) : Option (Work FaculMethod) :=
  if ¬ndebug ∧ (t : ℚ) < BB then none
  else if t.sqrt * t.sqrt = t then
    if probabPrime t.sqrt then some { s with factors := s.factors ++ [t.sqrt, t.sqrt] }
    else some { s with composites := s.composites ++ [(t.sqrt, pm), (t.sqrt, pm)] }
  else some { s with composites := s.composites ++ [(t, pm)] }

def workStep (s : Work FaculMethod) : Option (Work FaculMethod ⊕ Result) :=
  match s.composites with
  | [] => some (.inr (.factored s.factors))
  | (n0, pm) :: composites =>
    if (n0 : ℚ) < BB then
      some (.inl { factors := if 1 < n0 then s.factors ++ [n0] else s.factors, composites })
    else match pm with
      | [] => some (.inr (.failed n0))
      | method :: pm =>
        let nf := faculDoitOnefm n0 method lpb BB BBB
        if nf.status = .notSmooth then some (.inr (.failed n0))
        else if nf.status = .maybe ∧ nf.comp = [] then some (.inl { s with composites := (n0, pm) :: composites })
        else
          (nf.comp.foldlM (pushComposite ndebug probabPrime BB pm) { factors := s.factors ++ nf.temp, composites }).map
            .inl

def workLoop : ℕ → Work FaculMethod → Option Result
  | 0, _ => none
  | fuel + 1, s =>
    match workStep ndebug faculDoitOnefm probabPrime lpb BB BBB s with
    | none => none
    | some (.inl s) => workLoop fuel s
    | some (.inr r) => some r

def removeKnown (fuel : ℕ) (factors : List ℕ) (n : ℕ) (SP : List ℕ) (cofac : ℕ) (sqFactors : List ℕ) :
    Option (List ℕ × ℕ × ℕ) :=
  if cofac = 0 then do
    let n ← sqFactors.foldlM divexact n
    let (factors, n) ← trialDivide fuel SP factors n
    return (factors, n, cofac)
  else do
    let n ← divexact n cofac
    let n ← sqFactors.foldlM divexact n
    let (factors, n) ← trialDivide fuel SP factors n
    let (factors, cofac) ← trialDivide fuel SP factors cofac
    return (factors, n, cofac)

def startWork (factors : List ℕ) (n cofac : ℕ) (methods : List FaculMethod) : Work FaculMethod where
  factors := factors
  composites := (if 1 < n then [(n, methods)] else []) ++ (if 1 < cofac then [(cofac, methods)] else [])

def factorSimpleMinded (fuel : ℕ) (factors : List ℕ) (n : ℕ) (methods : List FaculMethod) (B : ℚ) (SP : List ℕ)
    (cofac : ℕ) (sqFactors : List ℕ) : Option Result := do
  let BB := double (B * B)
  let BBB := double (BB * B)
  let (factors, n, cofac) ← removeKnown fuel factors n SP cofac sqFactors
  match ← workLoop ndebug faculDoitOnefm probabPrime lpb BB BBB fuel (startWork factors n cofac methods) with
  | .factored factors => return .factored (factors ++ sqFactors)
  | .failed cofac => return .failed cofac

/-! ## What is known of a cofactor -/

def Rough (n : ℕ) : Prop := n ≠ 0 ∧ ∀ d, d ∣ n → (d : ℚ) < BB → d = 1 ∨ d.Prime

/-- `facul_doit_onefm` only returns true factorisations, with the primes in `temp`. -/
def FactorsTruly : Prop :=
  ∀ n method, Rough BB n →
    let nf := faculDoitOnefm n method lpb BB BBB
    nf.status ≠ .notSmooth → (nf.status ≠ .maybe ∨ nf.comp ≠ []) →
      nf.temp.prod * nf.comp.prod = n ∧ ∀ p ∈ nf.temp, p.Prime

variable {ndebug faculDoitOnefm probabPrime lpb BB BBB}

theorem Rough.of_dvd {n d : ℕ} (rough : Rough BB n) (dvd : d ∣ n) : Rough BB d :=
  ⟨ne_zero_of_dvd_ne_zero rough.1 dvd, fun e divides => rough.2 e (divides.trans dvd)⟩

theorem rough_of_coprime {B n : ℕ} (bound : BB ≤ (B + 1) * (B + 1)) (nonzero : n ≠ 0)
    (coprime : ∀ p, p.Prime → p ≤ B → ¬ p ∣ n) : Rough BB n := by
  refine ⟨nonzero, fun d dvd below => ?_⟩
  by_contra composite
  rw [not_or] at composite
  have positive : 0 < d := Nat.pos_of_dvd_of_pos dvd (Nat.pos_of_ne_zero nonzero)
  have least : d.minFac.Prime := Nat.minFac_prime composite.1
  have square : d.minFac ^ 2 ≤ d := Nat.minFac_sq_le_self positive composite.2
  have small : d < (B + 1) * (B + 1) := by exact_mod_cast below.trans_le bound
  have bounded : d.minFac ≤ B := by
    by_contra large
    nlinarith
  exact coprime d.minFac least bounded ((Nat.minFac_dvd d).trans dvd)

/-! ## The loop loses nothing -/

structure Accounts (BB : ℚ) (m : ℕ) (s : Work FaculMethod) : Prop where
  product : s.factors.prod * (s.composites.map Prod.fst).prod = m
  prime : ∀ p ∈ s.factors, p.Prime
  rough : ∀ c ∈ s.composites, Rough BB c.1

theorem Accounts.pushFactors {m : ℕ} {s : Work FaculMethod} {l : List ℕ} (accounts : Accounts BB m s)
    (prime : ∀ p ∈ l, p.Prime) : Accounts BB (m * l.prod) { s with factors := s.factors ++ l } where
  product := by rw [List.prod_append, mul_right_comm, accounts.product]
  prime p mem := (List.mem_append.mp mem).elim (accounts.prime p) (prime p)
  rough := accounts.rough

theorem Accounts.pushComposites {m : ℕ} {s : Work FaculMethod} {l : List (ℕ × List FaculMethod)}
    (accounts : Accounts BB m s) (rough : ∀ c ∈ l, Rough BB c.1) :
    Accounts BB (m * (l.map Prod.fst).prod) { s with composites := s.composites ++ l } where
  product := by rw [List.map_append, List.prod_append, ← mul_assoc, accounts.product]
  prime := accounts.prime
  rough c mem := (List.mem_append.mp mem).elim (accounts.rough c) (rough c)

theorem pushComposite_accounts {m t : ℕ} {pm : List FaculMethod} {s s' : Work FaculMethod}
    (probable : ∀ t, probabPrime t = true → t.Prime) (accounts : Accounts BB m s) (rough : Rough BB t)
    (pushed : pushComposite ndebug probabPrime BB pm s t = some s') : Accounts BB (m * t) s' := by
  unfold pushComposite at pushed
  split_ifs at pushed with small square prime
  · cases pushed
    have accounts := accounts.pushFactors (l := [t.sqrt, t.sqrt]) (by simpa using probable _ prime)
    rwa [List.prod_pair, square] at accounts
  · cases pushed
    have root : Rough BB t.sqrt := rough.of_dvd (Dvd.intro _ square)
    have accounts := accounts.pushComposites (l := [(t.sqrt, pm), (t.sqrt, pm)]) (by simpa using root)
    rwa [List.map_cons, List.map_singleton, List.prod_pair, square] at accounts
  · cases pushed
    have accounts := accounts.pushComposites (l := [(t, pm)]) (by simpa using rough)
    rwa [List.map_singleton, List.prod_singleton] at accounts

theorem pushComposites_accounts {m : ℕ} {pm : List FaculMethod} {s s' : Work FaculMethod}
    (probable : ∀ t, probabPrime t = true → t.Prime) (comp : List ℕ) (accounts : Accounts BB m s)
    (rough : ∀ t ∈ comp, Rough BB t) (pushed : comp.foldlM (pushComposite ndebug probabPrime BB pm) s = some s') :
    Accounts BB (m * comp.prod) s' := by
  induction comp generalizing m s with
  | nil =>
    cases pushed
    rwa [List.prod_nil, mul_one]
  | cons t comp ih =>
    rw [List.foldlM_cons] at pushed
    obtain ⟨next, first, pushed⟩ := Option.bind_eq_some_iff.mp pushed
    have step := pushComposite_accounts probable accounts (rough t (.head _)) first
    rw [List.prod_cons, ← mul_assoc]
    exact ih step (fun t mem => rough t (.tail _ mem)) pushed

theorem workStep_accounts {m : ℕ} {s s' : Work FaculMethod} (probable : ∀ t, probabPrime t = true → t.Prime)
    (truly : FactorsTruly faculDoitOnefm lpb BB BBB) (accounts : Accounts BB m s)
    (step : workStep ndebug faculDoitOnefm probabPrime lpb BB BBB s = some (.inl s')) : Accounts BB m s' := by
  obtain ⟨factors, composites⟩ := s
  cases composites with
  | nil => cases step
  | cons front composites =>
    obtain ⟨n0, pm⟩ := front
    obtain ⟨product, prime, rough⟩ := accounts
    have front := rough (n0, pm) (.head _)
    have behind : ∀ c ∈ composites, Rough BB c.1 := fun c mem => rough c (.tail _ mem)
    rw [List.map_cons, List.prod_cons, ← mul_assoc, mul_right_comm] at product
    have rest : Accounts BB (factors.prod * (composites.map Prod.fst).prod) { factors, composites } :=
      ⟨rfl, prime, behind⟩
    simp only [workStep] at step
    by_cases small : (n0 : ℚ) < BB
    · -- what is below the bound is 1 or prime
      rw [if_pos small] at step
      cases step
      split_ifs with large
      · have divisors := (front.2 n0 dvd_rfl small).resolve_left large.ne'
        have accounts := rest.pushFactors (l := [n0]) (by simpa using divisors)
        rwa [List.prod_singleton, product] at accounts
      · have one : n0 = 1 := le_antisymm (not_lt.mp large) (Nat.one_le_iff_ne_zero.mpr front.1)
        rw [one, mul_one] at product
        rwa [product] at rest
    · rw [if_neg small] at step
      cases pm with
      | nil => cases step
      | cons method pm =>
        simp only at step
        split_ifs at step with fails nothing
        · cases step
        · -- the next method will try it
          cases step
          refine ⟨?_, prime, ?_⟩
          · rw [List.map_cons, List.prod_cons, ← mul_assoc, mul_right_comm, product]
          · exact List.forall_mem_cons.mpr ⟨front, behind⟩
        · obtain ⟨after, pushed, same⟩ := Option.map_eq_some_iff.mp step
          cases same
          have found : (faculDoitOnefm n0 method lpb BB BBB).status ≠ .maybe ∨
              (faculDoitOnefm n0 method lpb BB BBB).comp ≠ [] := not_and_or.mp nothing
          obtain ⟨factorisation, primes⟩ := truly n0 method front fails found
          have parts : ∀ t ∈ (faculDoitOnefm n0 method lpb BB BBB).comp, Rough BB t := fun t mem =>
            front.of_dvd ((List.dvd_prod mem).trans (Dvd.intro_left _ factorisation))
          have accounts := pushComposites_accounts probable _ (rest.pushFactors primes) parts pushed
          rwa [mul_assoc, factorisation, product] at accounts

theorem workStep_factored {s : Work FaculMethod} {factors : List ℕ}
    (step : workStep ndebug faculDoitOnefm probabPrime lpb BB BBB s = some (.inr (.factored factors))) :
    s.composites = [] ∧ s.factors = factors := by
  obtain ⟨found, composites⟩ := s
  cases composites with
  | nil =>
    cases step
    exact ⟨rfl, rfl⟩
  | cons front composites =>
    obtain ⟨n0, pm⟩ := front
    simp only [workStep] at step
    cases pm with
    | nil => split_ifs at step <;> cases step
    | cons method pm =>
      simp only at step
      split_ifs at step
      · cases step
      · cases step
      · cases step
      · cases step
      · obtain ⟨after, -, same⟩ := Option.map_eq_some_iff.mp step
        cases same

theorem workLoop_accounts {m : ℕ} {s : Work FaculMethod} {factors : List ℕ}
    (probable : ∀ t, probabPrime t = true → t.Prime) (truly : FactorsTruly faculDoitOnefm lpb BB BBB) (fuel : ℕ)
    (accounts : Accounts BB m s)
    (done : workLoop ndebug faculDoitOnefm probabPrime lpb BB BBB fuel s = some (.factored factors)) :
    factors.prod = m ∧ ∀ p ∈ factors, p.Prime := by
  induction fuel generalizing s with
  | zero => cases done
  | succ fuel ih =>
    rw [workLoop] at done
    cases step : workStep ndebug faculDoitOnefm probabPrime lpb BB BBB s with
    | none =>
      rw [step] at done
      cases done
    | some next =>
      rw [step] at done
      cases next with
      | inl next => exact ih (workStep_accounts probable truly accounts step) done
      | inr result =>
        cases done
        obtain ⟨empty, rfl⟩ := workStep_factored step
        have product := accounts.product
        rw [empty, List.map_nil, List.prod_nil, mul_one] at product
        exact ⟨product, accounts.prime⟩

/-! ## What comes before the loop -/

theorem trialDivideBy_spec {p : ℕ} {fuel : ℕ} {s t : List ℕ × ℕ} (prime : p.Prime) (primes : ∀ q ∈ s.1, q.Prime)
    (done : trialDivideBy p fuel s = some t) :
    t.1.prod * t.2 = s.1.prod * s.2 ∧ (∀ q ∈ t.1, q.Prime) ∧ t.2 ∣ s.2 ∧ ¬ p ∣ t.2 := by
  induction fuel generalizing s with
  | zero => cases done
  | succ fuel ih =>
    obtain ⟨factors, n⟩ := s
    rw [trialDivideBy] at done
    split_ifs at done with divides
    · have primes' : ∀ q ∈ factors ++ [p], q.Prime := fun q mem =>
        (List.mem_append.mp mem).elim (primes q) fun last => List.mem_singleton.mp last ▸ prime
      obtain ⟨product, allPrime, dvd, stuck⟩ := ih primes' done
      refine ⟨?_, allPrime, dvd.trans (Nat.div_dvd_of_dvd divides), stuck⟩
      rw [product, List.prod_append, List.prod_singleton, mul_assoc, Nat.mul_div_cancel' divides]
    · cases done
      exact ⟨rfl, primes, dvd_rfl, divides⟩

theorem trialDivide_spec {fuel n : ℕ} {SP factors : List ℕ} {t : List ℕ × ℕ} (small : ∀ p ∈ SP, p.Prime)
    (primes : ∀ q ∈ factors, q.Prime) (done : trialDivide fuel SP factors n = some t) :
    t.1.prod * t.2 = factors.prod * n ∧ (∀ q ∈ t.1, q.Prime) ∧ t.2 ∣ n ∧ ∀ p ∈ SP, ¬ p ∣ t.2 := by
  unfold trialDivide at done
  induction SP generalizing factors n with
  | nil =>
    cases done
    exact ⟨rfl, primes, dvd_rfl, fun p mem => (List.not_mem_nil mem).elim⟩
  | cons p SP ih =>
    rw [List.foldlM_cons] at done
    obtain ⟨next, first, done⟩ := Option.bind_eq_some_iff.mp done
    obtain ⟨product, allPrime, dvd, stuck⟩ := trialDivideBy_spec (small p (.head _)) primes first
    obtain ⟨product', allPrime', dvd', stuck'⟩ :=
      ih (fun q mem => small q (.tail _ mem)) allPrime done
    refine ⟨product'.trans product, allPrime', dvd'.trans dvd, ?_⟩
    rintro q mem divides
    rcases List.mem_cons.mp mem with rfl | mem
    · exact stuck (divides.trans dvd')
    · exact stuck' q mem divides

theorem divexact_spec {n d q : ℕ} (done : divexact n d = some q) : n = d * q := by
  unfold divexact at done
  split_ifs at done with divides
  cases done
  exact (Nat.mul_div_cancel' divides).symm

theorem divexacts_spec {n q : ℕ} (sqFactors : List ℕ) (done : sqFactors.foldlM divexact n = some q) :
    n = sqFactors.prod * q := by
  induction sqFactors generalizing n with
  | nil =>
    cases done
    rw [List.prod_nil, one_mul]
  | cons d sqFactors ih =>
    rw [List.foldlM_cons] at done
    obtain ⟨next, first, done⟩ := Option.bind_eq_some_iff.mp done
    rw [divexact_spec first, ih done, List.prod_cons, mul_assoc]

structure Known (SP : List ℕ) (norm : ℕ) (sqFactors factors : List ℕ) (n cofac : ℕ) : Prop where
  product : factors.prod * (n * max cofac 1) * sqFactors.prod = norm
  prime : ∀ p ∈ factors, p.Prime
  stuck : ∀ p ∈ SP, ¬ p ∣ n
  stuckCofac : cofac ≠ 0 → ∀ p ∈ SP, ¬ p ∣ cofac

theorem removeKnown_spec {fuel norm cofac n cofac' : ℕ} {SP sqFactors factors factors' : List ℕ}
    (small : ∀ p ∈ SP, p.Prime) (primes : ∀ q ∈ factors, q.Prime)
    (done : removeKnown fuel factors norm SP cofac sqFactors = some (factors', n, cofac')) :
    Known SP (factors.prod * norm) sqFactors factors' n cofac' := by
  unfold removeKnown at done
  split_ifs at done with untested
  · obtain ⟨m, divided, done⟩ := Option.bind_eq_some_iff.mp done
    obtain ⟨t, trial, done⟩ := Option.bind_eq_some_iff.mp done
    cases done
    obtain ⟨product, allPrime, -, stuck⟩ := trialDivide_spec small primes trial
    refine ⟨?_, allPrime, stuck, fun nonzero => (nonzero untested).elim⟩
    rw [untested, Nat.zero_max, mul_one, product, divexacts_spec sqFactors divided]
    ring
  · obtain ⟨m, known, done⟩ := Option.bind_eq_some_iff.mp done
    obtain ⟨m', divided, done⟩ := Option.bind_eq_some_iff.mp done
    obtain ⟨t, trial, done⟩ := Option.bind_eq_some_iff.mp done
    obtain ⟨t', trial', done⟩ := Option.bind_eq_some_iff.mp done
    cases done
    obtain ⟨product, allPrime, -, stuck⟩ := trialDivide_spec small primes trial
    obtain ⟨product', allPrime', dvd', stuck'⟩ := trialDivide_spec small allPrime trial'
    have positive : 1 ≤ t'.2 := Nat.one_le_iff_ne_zero.mpr (ne_zero_of_dvd_ne_zero untested dvd')
    refine ⟨?_, allPrime', stuck, fun _ => stuck'⟩
    rw [max_eq_left positive, divexact_spec known, divexacts_spec sqFactors divided]
    calc t'.1.prod * (t.2 * t'.2) * sqFactors.prod = t'.1.prod * t'.2 * t.2 * sqFactors.prod := by ring
      _ = t.1.prod * t.2 * cofac * sqFactors.prod := by rw [product']; ring
      _ = factors.prod * (cofac * (sqFactors.prod * m')) := by rw [product]; ring

theorem square_le {lim : ℕ} (exact : lim < 2 ^ 53) : double (double lim * double lim) ≤ (lim + 1) * (lim + 1) := by
  rw [double_natCast exact]
  have limit : (lim : ℚ) < 2 ^ 53 := by exact_mod_cast exact
  have nonneg : (0 : ℚ) ≤ lim := Nat.cast_nonneg lim
  rcases nonneg.eq_or_lt with zero | positive
  · rw [← zero]
    norm_num [double, roundEven]
  · have rounded := (double_between (mul_pos positive positive)).2
    have error : (lim : ℚ) * lim / 2 ^ 53 ≤ lim := by
      rw [div_le_iff₀ (by positivity)]
      exact mul_le_mul_of_nonneg_left limit.le nonneg
    linarith

theorem startWork_accounts {n cofac : ℕ} {factors : List ℕ} {methods : List FaculMethod}
    (prime : ∀ p ∈ factors, p.Prime) (rough : Rough BB n) (roughCofac : cofac ≠ 0 → Rough BB cofac) :
    Accounts BB (factors.prod * (n * max cofac 1)) (startWork factors n cofac methods) where
  product := by
    have value : ∀ m, ((if 1 < m then [(m, methods)] else []).map Prod.fst).prod = max m 1 := by
      intro m
      split_ifs with large
      · simp [large.le]
      · simp [not_lt.mp large]
    rw [startWork, List.map_append, List.prod_append, value, value, max_eq_left (Nat.one_le_iff_ne_zero.mpr rough.1)]
  prime := prime
  rough c mem := by
    rcases List.mem_append.mp mem with mem | mem
    · split_ifs at mem
      · rwa [List.mem_singleton.mp mem]
      · cases mem
    · split_ifs at mem with large
      · rw [List.mem_singleton.mp mem]
        exact roughCofac (Nat.ne_zero_of_lt large)
      · cases mem

/-! ## The factors of a norm -/

theorem factorSimpleMinded_factors (fuel lim norm cofac : ℕ) (methods : List FaculMethod)
    (SP sqFactors factors : List ℕ)
    (range : 2 ≤ lim ∧ lim < 2 ^ 53) (small : ∀ p ∈ SP, p.Prime) (all : ∀ p, p.Prime → p ≤ lim → p ∣ norm → p ∈ SP)
    (special : ∀ q ∈ sqFactors, q.Prime) (truly : ∀ BB BBB, FactorsTruly faculDoitOnefm lpb BB BBB)
    (probable : ∀ t, probabPrime t = true → t.Prime)
    (success : factorSimpleMinded ndebug faculDoitOnefm probabPrime lpb fuel [] norm methods (double lim) SP cofac
      sqFactors = some (.factored factors)) :
    (factors.mergeSort (· ≤ ·)).prod = norm ∧ (∀ p ∈ factors.mergeSort (· ≤ ·), p.Prime) ∧
      factors.mergeSort (· ≤ ·) = norm.primeFactorsList := by
  have bound := square_le range.2
  obtain ⟨⟨found, n, cofac'⟩, removed, success⟩ := Option.bind_eq_some_iff.mp success
  have known := removeKnown_spec small (by simp) removed
  rw [List.prod_nil, one_mul] at known
  obtain ⟨product, prime, stuck, stuckCofac⟩ := known
  have rough : ∀ d, d ∣ norm → (∀ p ∈ SP, ¬ p ∣ d) → Rough (double (double lim * double lim)) d := by
    intro d dvd stuck
    have coprime : ∀ p, p.Prime → p ≤ lim → ¬ p ∣ d := fun p prime low divides =>
      stuck p (all p prime low (divides.trans dvd)) divides
    refine rough_of_coprime bound ?_ coprime
    rintro rfl
    exact coprime 2 Nat.prime_two range.1 (dvd_zero 2)
  have dvd : n * max cofac' 1 ∣ norm := Dvd.intro_left (found.prod * sqFactors.prod) (by rw [← product]; ring)
  have roughN := rough n (dvd_of_mul_right_dvd dvd) stuck
  have roughCofac : cofac' ≠ 0 → Rough (double (double lim * double lim)) cofac' := by
    intro nonzero
    rw [max_eq_left (Nat.one_le_iff_ne_zero.mpr nonzero)] at dvd
    exact rough cofac' (dvd_of_mul_left_dvd dvd) (stuckCofac nonzero)
  obtain ⟨result, loop, success⟩ := Option.bind_eq_some_iff.mp success
  cases result with
  | failed cofac => cases success
  | factored primes =>
    cases success
    obtain ⟨total, allPrime⟩ :=
      workLoop_accounts probable (truly _ _) fuel (startWork_accounts prime roughN roughCofac) loop
    have allPrime' : ∀ p ∈ primes ++ sqFactors, p.Prime := fun p mem =>
      (List.mem_append.mp mem).elim (allPrime p) (special p)
    have total' : (primes ++ sqFactors).prod = norm := by rw [List.prod_append, total, product]
    have perm := List.mergeSort_perm (primes ++ sqFactors) (· ≤ ·)
    have factorisation := perm.trans (Nat.primeFactorsList_unique total' allPrime')
    refine ⟨perm.prod_eq.trans total', fun p mem => allPrime' p (perm.mem_iff.mp mem), ?_⟩
    exact List.Perm.eq_of_pairwise' (List.pairwise_mergeSort' (· ≤ ·) _)
      (Nat.primeFactorsList_sorted norm).pairwise factorisation

def splitThirtyFive (n : ℕ) (_ : Unit) (_ : ℕ) (_ _ : ℚ) : OneFm :=
  if n = 35 then { status := .smooth, temp := [5, 7], comp := [] } else { status := .maybe, temp := [], comp := [] }

theorem splitThirtyFive_truly (lpb : ℕ) (BB BBB : ℚ) : FactorsTruly splitThirtyFive lpb BB BBB := by
  intro n method _ nf smooth found
  by_cases hit : n = 35
  · have same : nf = { status := .smooth, temp := [5, 7], comp := [] } := if_pos hit
    rw [same, hit]
    norm_num
  · have same : nf = { status := .maybe, temp := [], comp := [] } := if_neg hit
    rw [same] at found
    exact (found.elim (fun h => h rfl) fun h => h rfl).elim

theorem factorSimpleMinded_run : factorSimpleMinded false splitThirtyFive (fun _ => false) 4 4 [] 2310 [()]
    (double (4 : ℕ)) [2, 3] 35 [11] = some (.factored [2, 3, 5, 7, 11]) := by
  have limit : double (4 : ℕ) = 4 := double_natCast (by norm_num)
  have square : double (4 * 4) = 16 := by
    have := double_natCast (n := 16) (by norm_num)
    norm_num at this ⊢
    exact this
  rw [limit]
  simp [factorSimpleMinded, removeKnown, divexact, trialDivide, trialDivideBy, startWork, square]
  have large : ¬ (35 : ℚ) < 16 := by norm_num
  simp [workLoop, workStep, splitThirtyFive, large]

theorem factorSimpleMinded_factors_run : ([2, 3, 5, 7, 11].mergeSort (· ≤ ·)).prod = 2310 ∧
    (∀ p ∈ [2, 3, 5, 7, 11].mergeSort (· ≤ ·), p.Prime) ∧
      [2, 3, 5, 7, 11].mergeSort (· ≤ ·) = (2310).primeFactorsList := by
  refine factorSimpleMinded_factors 4 4 2310 35 [()] [2, 3] [11] _ (by norm_num) (by norm_num) ?_ (by norm_num)
    (splitThirtyFive_truly 4) (fun t impossible => by simp at impossible) factorSimpleMinded_run
  intro p prime low _
  have least := prime.two_le
  interval_cases p
  · decide
  · decide
  · exact absurd prime (by norm_num)

end CadoNfs.Ecm.FactorSimpleMinded
