import Mathlib
import CadoNfs.Lib.Combinadic

/-!
# The todo list of the quadratic sieve

`siqs_todo_list` of `sieve/las-todo-list.cpp` numbers the products of `qfac_nfac` primes by the combinatorial number
system.
-/

namespace CadoNfs.Sieve.SiqsTodoList
open Lib.Combinadic

/-- The search of `k_combination_from_index`. `*it` is a `uint64_t`. -/
def searchUp (k idx : ℕ) : ℕ → ℕ → Option ℕ
  | 0, _ => none
  | fuel + 1, it =>
    if ((it + 1) % 2 ^ 64).choose k ≤ idx then searchUp k idx fuel ((it + 1) % 2 ^ 64) else some ((it + 1) % 2 ^ 64)

/-- The entries from the last one down to the first. -/
def kCombinationFromIndex (fuel : ℕ) : ℕ → ℕ → Option (List ℕ)
  | 0, idx => if idx = 0 then some [] else none
  | k + 1, idx =>
    if idx = 0 then (kCombinationFromIndex fuel k 0).map (k :: ·)
    else do
      let it ← searchUp (k + 1) idx fuel 0
      let rest ← kCombinationFromIndex fuel k (idx - (it - 1).choose (k + 1))
      return (it - 1) :: rest

variable {k idx fuel it c : ℕ} {cs : List ℕ}

theorem searchUp_eq (it_lt : it < 2 ^ 64) (start : it.choose (k + 1) ≤ idx)
    (found : searchUp (k + 1) idx fuel it = some c) :
    ∃ d, c = d + 1 ∧ d + 1 < 2 ^ 64 ∧ d.choose (k + 1) ≤ idx ∧ idx < (d + 1).choose (k + 1) := by
  induction fuel generalizing it with
  | zero => cases found
  | succ fuel ih =>
    have small : (it + 1) % 2 ^ 64 < 2 ^ 64 := Nat.mod_lt _ (by decide)
    rw [searchUp] at found
    split at found
    · next goes_on => exact ih small goes_on found
    · next above =>
      have no_wrap : (it + 1) % 2 ^ 64 = it + 1 := by
        refine Nat.mod_eq_of_lt (lt_of_le_of_ne it_lt fun wraps => above ?_)
        rw [wraps, Nat.mod_self, Nat.choose_zero_succ]
        exact Nat.zero_le idx
      cases found
      rw [no_wrap] at above small ⊢
      exact ⟨it, rfl, small, start, not_le.mp above⟩

theorem searchUp_returns (n : ℕ) (small : it + n + 1 < 2 ^ 64) (above : idx < (it + n + 1).choose (k + 1))
    (enough : n < fuel) : ∃ c, searchUp (k + 1) idx fuel it = some c := by
  induction n generalizing it fuel with
  | zero =>
    obtain ⟨fuel, rfl⟩ := Nat.exists_eq_succ_of_ne_zero (Nat.ne_of_gt enough)
    refine ⟨it + 1, ?_⟩
    rw [searchUp, Nat.mod_eq_of_lt small]
    exact if_neg (not_le.mpr above)
  | succ n ih =>
    obtain ⟨fuel, rfl⟩ := Nat.exists_eq_succ_of_ne_zero (Nat.ne_of_gt (Nat.zero_lt_of_lt enough))
    rw [searchUp, Nat.mod_eq_of_lt (by omega)]
    split
    · have next : it + 1 + n + 1 = it + (n + 1) + 1 := by omega
      exact ih (next ▸ small) (next ▸ above) (Nat.lt_of_succ_lt_succ enough)
    · exact ⟨_, rfl⟩

theorem searchUp_eq_none (large : (2 ^ 64 - 1).choose (k + 1) ≤ idx) : searchUp (k + 1) idx fuel it = none := by
  induction fuel generalizing it with
  | zero => rfl
  | succ fuel ih =>
    have most : (it + 1) % 2 ^ 64 ≤ 2 ^ 64 - 1 := Nat.le_sub_one_of_lt (Nat.mod_lt _ (by decide))
    rw [searchUp]
    exact (if_pos ((Nat.choose_le_choose _ most).trans large)).trans ih

theorem kCombinationFromIndex_eq (k_lt : k < 2 ^ 64) (found : kCombinationFromIndex fuel k idx = some cs) :
    cs.length = k ∧ Decreasing cs ∧ value cs = idx ∧ ∀ c ∈ cs, c < 2 ^ 64 - 1 := by
  induction k generalizing idx cs with
  | zero =>
    rw [kCombinationFromIndex] at found
    split at found
    · next zero =>
      cases found
      exact ⟨rfl, .nil, zero.symm, nofun⟩
    · cases found
  | succ k ih =>
    have k_lt' := Nat.lt_of_succ_lt k_lt
    rw [kCombinationFromIndex] at found
    split at found
    · next zero =>
      obtain ⟨rest, later, rfl⟩ := Option.map_eq_some_iff.mp found
      obtain ⟨length, decreasing, value_eq, small⟩ := ih k_lt' later
      have below : value rest < k.choose rest.length := by
        rw [value_eq, length, Nat.choose_self]
        exact Nat.one_pos
      refine ⟨congrArg Nat.succ length, decreasing_cons decreasing below, ?_, ?_⟩
      · rw [value, value_eq, length, Nat.choose_succ_self, zero]
      · exact List.forall_mem_cons.mpr ⟨Nat.lt_sub_of_add_lt k_lt, small⟩
    · next nonzero =>
      obtain ⟨it, search, found⟩ := Option.bind_eq_some_iff.mp found
      obtain ⟨rest, later, eq⟩ := Option.bind_eq_some_iff.mp found
      obtain ⟨d, rfl, d_lt, least, above⟩ := searchUp_eq (by decide) (Nat.zero_le _) search
      cases eq
      rw [Nat.add_sub_cancel] at later ⊢
      obtain ⟨length, decreasing, value_eq, small⟩ := ih k_lt' later
      refine ⟨congrArg Nat.succ length, decreasing_cons decreasing ?_, ?_, ?_⟩
      · rw [value_eq, length]
        exact sub_lt_choose least above
      · rw [value, value_eq, length, Nat.add_sub_cancel' least]
      · exact List.forall_mem_cons.mpr ⟨Nat.lt_sub_of_add_lt d_lt, small⟩

theorem kCombinationFromIndex_returns (enough : 2 ^ 64 ≤ fuel) (less : idx < (2 ^ 64 - 1).choose k) :
    ∃ cs, kCombinationFromIndex fuel k idx = some cs := by
  induction k generalizing idx with
  | zero =>
    rw [Nat.choose_zero_right] at less
    exact ⟨[], if_pos (Nat.lt_one_iff.mp less)⟩
  | succ k ih =>
    rw [kCombinationFromIndex]
    split
    · next zero =>
      have fits : 0 < (2 ^ 64 - 1).choose k := Nat.choose_pos
        (Nat.le_of_succ_le (not_lt.mp fun large => by
          rw [Nat.choose_eq_zero_of_lt large] at less
          exact Nat.not_lt_zero _ less))
      obtain ⟨rest, found⟩ := ih fits
      exact ⟨k :: rest, by rw [found]; rfl⟩
    · have last : 0 + (2 ^ 64 - 2) + 1 = 2 ^ 64 - 1 := rfl
      obtain ⟨it, search⟩ : ∃ c, searchUp (k + 1) idx fuel 0 = some c :=
        searchUp_returns (2 ^ 64 - 2) (by decide) (last ▸ less) (by omega)
      obtain ⟨d, rfl, d_lt, least, above⟩ := searchUp_eq (by decide) (Nat.zero_le _) search
      have fits : idx - d.choose (k + 1) < (2 ^ 64 - 1).choose k :=
        (sub_lt_choose least above).trans_le (Nat.choose_le_choose _ (by omega))
      obtain ⟨rest, found⟩ := ih fits
      refine ⟨d :: rest, ?_⟩
      rw [search, Option.bind_eq_bind, Option.bind_some, Nat.add_sub_cancel, found]
      rfl

structure SpecialQ where
  p : ℕ
  r : ℤ
  side : ℤ
  primeFactors : List ℕ
  deriving DecidableEq

/-- The constant coefficient of the polynomial, the range of the factors, their number, and `mpz_nextprime`. -/
structure Env where
  constCoeff : ℤ
  qfacMin : ℕ
  qfacMax : ℕ
  qfacNfac : ℕ
  sqside : ℤ
  nextprime : ℕ → ℕ

namespace Env

variable (env : Env) (fuel : ℕ)

def legendre (p : ℕ) : ℤ := jacobiSym (-env.constCoeff) p

def nextQfac : ℕ → ℕ → Option ℕ
  | 0, _ => none
  | fuel + 1, p => if env.legendre (env.nextprime p) ≠ 1 then nextQfac fuel (env.nextprime p) else some (env.nextprime p)

def lastQfac (qfacPrimes : List ℕ) : ℕ := qfacPrimes.getLastD (env.qfacMin - 1)

def extend : ℕ → List ℕ → Option (List ℕ)
  | 0, qfacPrimes => some qfacPrimes
  | n + 1, qfacPrimes => do
    let p ← env.nextQfac fuel (env.lastQfac qfacPrimes)
    guard (p ≤ env.qfacMax)
    extend n (qfacPrimes ++ [p])

def getQfacPrime (i : ℕ) (qfacPrimes : List ℕ) : Option (ℕ × List ℕ) :=
  (env.extend fuel (i + 1 - qfacPrimes.length) qfacPrimes).map fun qfacPrimes => (qfacPrimes.getD i 0, qfacPrimes)

def getQfacPrimes : List ℕ → List ℕ → Option (List ℕ × List ℕ)
  | [], qfacPrimes => some ([], qfacPrimes)
  | c :: cs, qfacPrimes => do
    let (f, qfacPrimes) ← env.getQfacPrime fuel c qfacPrimes
    let (fs, qfacPrimes) ← getQfacPrimes cs qfacPrimes
    return (f :: fs, qfacPrimes)

def specialQFromIndex (idx : ℤ) (qfacPrimes : List ℕ) : Option (SpecialQ × List ℕ) := do
  guard (0 ≤ idx)
  let scratchVec ← kCombinationFromIndex fuel env.qfacNfac idx.toNat
  let (factors, qfacPrimes) ← env.getQfacPrimes fuel scratchVec.reverse qfacPrimes
  return (⟨factors.prod, -1, env.sqside, factors⟩, qfacPrimes)

end Env

structure TodoList where
  qidx0 : ℤ
  qidx1 : ℤ
  nqMax : ℕ
  created : ℕ
  stack : List SpecialQ
  qfacPrimes : List ℕ

def sizeMax : ℕ := 2 ^ 64 - 1

def uintMax : ℕ := 2 ^ 32 - 1

def toInt (n : ℕ) : ℤ := Int.bmod n (2 ^ 32)

def make (env : Env) (qidx0 : ℤ) (qidx1 : Option ℤ) (nq : Option ℕ) : Option TodoList := do
  let nqMax := nq.getD sizeMax
  guard (2 < env.qfacMin)
  guard (qidx0 ≠ -1)
  guard (∀ q ∈ qidx1, nq.isSome → qidx0 + nqMax = q)
  let qidx1 := qidx1.getD (-1)
  let qidx1 := if qidx1 = -1 then if nqMax < sizeMax then qidx0 + nqMax else qidx0 + 1 else qidx1
  return ⟨qidx0, qidx1, nqMax, 0, [], []⟩

variable (env : Env) (fuel : ℕ)

def pushLoop : ℕ → ℤ → List ℕ → List SpecialQ → Option (List SpecialQ × List ℕ)
  | 0, _, qfacPrimes, pushed => some (pushed, qfacPrimes)
  | n + 1, idx, qfacPrimes, pushed => do
    let (q, qfacPrimes) ← env.specialQFromIndex fuel idx qfacPrimes
    pushLoop n (idx - 1) qfacPrimes (q :: pushed)

def feedQrange (t : TodoList) : Option (TodoList × List SpecialQ) :=
  if t.stack ≠ [] then some (t, [])
  else do
    let idx := if t.nqMax < uintMax then t.qidx0 + (toInt t.nqMax - toInt t.created - 1) else t.qidx1 - 1
    let nadded := (idx - t.qidx0 + 1).toNat
    let (pushed, qfacPrimes) ← pushLoop env fuel nadded idx t.qfacPrimes []
    return ({ t with qidx0 := t.qidx0 + nadded, created := t.created + nadded, stack := pushed, qfacPrimes := qfacPrimes },
      pushed)

inductive Op
  | feed
  | pop

def run : List Op → TodoList → Option (TodoList × List SpecialQ)
  | [], t => some (t, [])
  | .pop :: ops, t => run ops { t with stack := t.stack.tail }
  | .feed :: ops, t => do
    let (t, pushed) ← feedQrange env fuel t
    let (t, later) ← run ops t
    return (t, pushed ++ later)

namespace Env

variable {env fuel}

def NextPrime (env : Env) : Prop := ∀ n, IsLeast {p : ℕ | n < p ∧ p.Prime} (env.nextprime n)

def Factor (env : Env) (p : ℕ) : Prop := env.qfacMin ≤ p ∧ p.Prime ∧ env.legendre p = 1

instance : DecidablePred env.Factor := fun p => inferInstanceAs (Decidable (env.qfacMin ≤ p ∧ p.Prime ∧ env.legendre p = 1))

def HasIndex (env : Env) (i p : ℕ) : Prop := env.Factor p ∧ Nat.count env.Factor p = i

theorem HasIndex.lt {i j p q : ℕ} (first : env.HasIndex i p) (second : env.HasIndex j q) (less : i < j) : p < q :=
  Nat.lt_of_count_lt_count ((first.2.trans_lt less).trans_eq second.2.symm)

theorem nextQfac_eq (next : env.NextPrime) {p q : ℕ} (found : env.nextQfac fuel p = some q)
    (low : env.qfacMin ≤ p + 1) : env.HasIndex (Nat.count env.Factor (p + 1)) q ∧ p < q := by
  induction fuel generalizing p with
  | zero => cases found
  | succ fuel ih =>
    obtain ⟨⟨above, prime⟩, least⟩ := next p
    have between (m : ℕ) (beyond : p < m) (under : m < env.nextprime p) : ¬env.Factor m := fun factor =>
      absurd (least ⟨beyond, factor.2.1⟩) (not_le.mpr under)
    have same : Nat.count env.Factor (env.nextprime p) = Nat.count env.Factor (p + 1) := by
      refine le_antisymm (not_lt.mp fun less => ?_) (Nat.count_monotone _ above)
      obtain ⟨m, ⟨beyond, under⟩, factor⟩ := Nat.exists_of_count_lt_count less
      exact between m beyond under factor
    rw [nextQfac] at found
    split at found
    · next other =>
      have not_factor : ¬env.Factor (env.nextprime p) := fun factor => other factor.2.2
      obtain ⟨index, later⟩ := ih found (low.trans (Nat.succ_le_succ above.le))
      rw [Nat.count_succ_eq_count_iff.mpr not_factor, same] at index
      exact ⟨index, above.trans later⟩
    · next good =>
      cases found
      exact ⟨⟨⟨low.trans above, prime, not_not.mp good⟩, same⟩, above⟩

theorem nextQfac_returns (next : env.NextPrime) {p m : ℕ} (factor : env.Factor m) (above : p < m) (enough : m ≤ p + fuel) :
    ∃ q, env.nextQfac fuel p = some q ∧ q ≤ m := by
  induction fuel generalizing p with
  | zero => exact absurd enough (not_le.mpr above)
  | succ fuel ih =>
    obtain ⟨⟨beyond, prime⟩, least⟩ := next p
    have le : env.nextprime p ≤ m := least ⟨above, factor.2.1⟩
    rw [nextQfac]
    split
    · next other =>
      have less : env.nextprime p < m := lt_of_le_of_ne le fun same => other (same ▸ factor.2.2)
      exact ih less (by omega)
    · exact ⟨_, rfl, le⟩

def Listed (env : Env) (qfacPrimes : List ℕ) : Prop :=
  ∀ i, ∀ p ∈ qfacPrimes[i]?, env.HasIndex i p ∧ p ≤ env.qfacMax

def available (env : Env) : ℕ := Nat.count env.Factor (env.qfacMax + 1)

variable {qfacPrimes after : List ℕ}

theorem Listed.last (listed : env.Listed qfacPrimes) (pos : 0 < env.qfacMin) :
    Nat.count env.Factor (env.lastQfac qfacPrimes + 1) = qfacPrimes.length ∧
      env.qfacMin ≤ env.lastQfac qfacPrimes + 1 := by
  rcases List.eq_nil_or_concat qfacPrimes with rfl | ⟨front, p, rfl⟩
  · have start : env.lastQfac [] + 1 = env.qfacMin := Nat.sub_add_cancel pos
    rw [start]
    exact ⟨Nat.count_iff_forall_not.mpr fun m less factor => absurd factor.1 (not_le.mpr less), le_rfl⟩
  · obtain ⟨⟨factor, count⟩, -⟩ := listed front.length p (by simp)
    have last : env.lastQfac (front.concat p) = p := by simp [lastQfac]
    rw [last, Nat.count_succ_eq_succ_count_iff.mpr factor, count]
    exact ⟨by simp, factor.1.trans (Nat.le_succ p)⟩

theorem Listed.concat (listed : env.Listed qfacPrimes) {p : ℕ} (index : env.HasIndex qfacPrimes.length p)
    (le : p ≤ env.qfacMax) : env.Listed (qfacPrimes ++ [p]) := by
  intro i q found
  rw [Option.mem_def, List.getElem?_append] at found
  split at found
  · exact listed i q found
  · next notBefore =>
    obtain ⟨here, rfl⟩ := List.getElem?_eq_some_iff.mp found
    have same : i = qfacPrimes.length := by
      rw [List.length_singleton] at here
      omega
    subst same
    rw [List.getElem_singleton]
    exact ⟨index, le⟩

theorem extend_eq (next : env.NextPrime) (pos : 0 < env.qfacMin) (listed : env.Listed qfacPrimes) {n : ℕ}
    (extended : env.extend fuel n qfacPrimes = some after) : env.Listed after ∧ after.length = qfacPrimes.length + n := by
  induction n generalizing qfacPrimes with
  | zero =>
    cases extended
    exact ⟨listed, rfl⟩
  | succ n ih =>
    obtain ⟨p, found, extended⟩ := Option.bind_eq_some_iff.mp extended
    obtain ⟨_, fits, extended⟩ := Option.bind_eq_some_iff.mp extended
    obtain ⟨count, low⟩ := listed.last pos
    obtain ⟨index, -⟩ := nextQfac_eq next found low
    have le : p ≤ env.qfacMax := by
      by_contra large
      cases (if_neg large).symm.trans fits
    obtain ⟨all, length⟩ := ih (listed.concat (count ▸ index) le) extended
    refine ⟨all, length.trans ?_⟩
    rw [List.length_append, List.length_singleton]
    omega

theorem extend_returns (next : env.NextPrime) (pos : 0 < env.qfacMin) (listed : env.Listed qfacPrimes) {n : ℕ}
    (enough : env.qfacMax ≤ fuel) (fits : qfacPrimes.length + n ≤ env.available) :
    ∃ after, env.extend fuel n qfacPrimes = some after := by
  induction n generalizing qfacPrimes with
  | zero => exact ⟨qfacPrimes, rfl⟩
  | succ n ih =>
    obtain ⟨count, low⟩ := listed.last pos
    have more : Nat.count env.Factor (env.lastQfac qfacPrimes + 1) < Nat.count env.Factor (env.qfacMax + 1) := by
      rw [count]
      exact (Nat.lt_add_of_pos_right (Nat.succ_pos n)).trans_le fits
    obtain ⟨m, ⟨above, le⟩, factor⟩ := Nat.exists_of_count_lt_count more
    obtain ⟨q, found, q_le⟩ := nextQfac_returns next factor above
      ((Nat.le_of_lt_succ le).trans (enough.trans (Nat.le_add_left ..)))
    obtain ⟨index, -⟩ := nextQfac_eq next found low
    have in_range : q ≤ env.qfacMax := q_le.trans (Nat.le_of_lt_succ le)
    obtain ⟨after, extended⟩ := ih (listed.concat (count ▸ index) in_range) (by
      rw [List.length_append, List.length_singleton]
      omega)
    refine ⟨after, ?_⟩
    rw [extend, found, Option.bind_eq_bind, Option.bind_some, guard, if_pos in_range]
    exact extended

theorem getQfacPrime_eq (next : env.NextPrime) (pos : 0 < env.qfacMin) (listed : env.Listed qfacPrimes) {i f : ℕ}
    (found : env.getQfacPrime fuel i qfacPrimes = some (f, after)) : env.HasIndex i f ∧ env.Listed after := by
  obtain ⟨primes, extended, eq⟩ := Option.map_eq_some_iff.mp found
  cases eq
  obtain ⟨all, length⟩ := extend_eq next pos listed extended
  have inside : i < after.length := by omega
  have here : after[i]? = some (after.getD i 0) := by
    rw [List.getD_eq_getElem?_getD, List.getElem?_eq_getElem inside]
    rfl
  exact ⟨(all i _ here).1, all⟩

theorem getQfacPrime_returns (next : env.NextPrime) (pos : 0 < env.qfacMin) (listed : env.Listed qfacPrimes) {i : ℕ}
    (enough : env.qfacMax ≤ fuel) (less : i < env.available) : ∃ r, env.getQfacPrime fuel i qfacPrimes = some r := by
  have le : qfacPrimes.length ≤ env.available := by
    by_contra large
    rw [not_le] at large
    obtain ⟨⟨factor, count⟩, le⟩ := listed env.available _ (List.getElem?_eq_getElem large)
    exact absurd (Nat.count_strict_mono factor (Nat.lt_succ_of_le le)) (not_lt.mpr count.ge)
  have fits : qfacPrimes.length + (i + 1 - qfacPrimes.length) ≤ env.available := by omega
  obtain ⟨after, extended⟩ := extend_returns next pos listed enough fits
  exact ⟨_, Option.map_eq_some_iff.mpr ⟨after, extended, rfl⟩⟩

theorem getQfacPrimes_eq (next : env.NextPrime) (pos : 0 < env.qfacMin) (listed : env.Listed qfacPrimes) {cs fs : List ℕ}
    (found : env.getQfacPrimes fuel cs qfacPrimes = some (fs, after)) :
    List.Forall₂ env.HasIndex cs fs ∧ env.Listed after := by
  induction cs generalizing qfacPrimes fs with
  | nil =>
    cases found
    exact ⟨.nil, listed⟩
  | cons c cs ih =>
    obtain ⟨⟨f, middle⟩, first, found⟩ := Option.bind_eq_some_iff.mp found
    obtain ⟨⟨fs, last⟩, later, eq⟩ := Option.bind_eq_some_iff.mp found
    cases eq
    obtain ⟨index, listed⟩ := getQfacPrime_eq next pos listed first
    obtain ⟨indices, listed⟩ := ih listed later
    exact ⟨.cons index indices, listed⟩

theorem getQfacPrimes_returns (next : env.NextPrime) (pos : 0 < env.qfacMin) (listed : env.Listed qfacPrimes)
    {cs : List ℕ} (enough : env.qfacMax ≤ fuel) (less : ∀ c ∈ cs, c < env.available) :
    ∃ r, env.getQfacPrimes fuel cs qfacPrimes = some r := by
  induction cs generalizing qfacPrimes with
  | nil => exact ⟨_, rfl⟩
  | cons c cs ih =>
    obtain ⟨first, less⟩ := List.forall_mem_cons.mp less
    obtain ⟨⟨f, middle⟩, found⟩ := getQfacPrime_returns next pos listed enough first
    obtain ⟨⟨fs, after⟩, later⟩ := ih (getQfacPrime_eq next pos listed found).2 less
    refine ⟨(f :: fs, after), ?_⟩
    rw [getQfacPrimes, found, Option.bind_eq_bind, Option.bind_some]
    dsimp only
    rw [later]
    rfl

structure IsSpecialQ (env : Env) (idx : ℕ) (q : SpecialQ) : Prop where
  combination : ∃ cs, cs.length = env.qfacNfac ∧ Decreasing cs ∧ value cs = idx ∧
    List.Forall₂ env.HasIndex cs.reverse q.primeFactors
  p : q.p = q.primeFactors.prod
  r : q.r = -1
  side : q.side = env.sqside

theorem specialQFromIndex_eq (next : env.NextPrime) (pos : 0 < env.qfacMin) (few : env.qfacNfac < 2 ^ 64)
    (listed : env.Listed qfacPrimes) {idx : ℕ} {q : SpecialQ}
    (found : env.specialQFromIndex fuel idx qfacPrimes = some (q, after)) : env.IsSpecialQ idx q ∧ env.Listed after := by
  rw [specialQFromIndex, guard, if_pos (Int.natCast_nonneg idx), Int.toNat_natCast] at found
  obtain ⟨⟨⟩, -, found⟩ := Option.bind_eq_some_iff.mp found
  obtain ⟨cs, combination, found⟩ := Option.bind_eq_some_iff.mp found
  obtain ⟨⟨factors, primes⟩, primes_eq, eq⟩ := Option.bind_eq_some_iff.mp found
  cases eq
  obtain ⟨length, decreasing, value_eq, -⟩ := kCombinationFromIndex_eq few combination
  obtain ⟨indices, all⟩ := getQfacPrimes_eq next pos listed primes_eq
  exact ⟨⟨⟨cs, length, decreasing, value_eq, indices⟩, rfl, rfl, rfl⟩, all⟩

theorem specialQFromIndex_returns (next : env.NextPrime) (pos : 0 < env.qfacMin) (word : env.qfacMax < 2 ^ 64)
    (few : env.qfacNfac < 2 ^ 64) (listed : env.Listed qfacPrimes) {idx : ℕ} (enough : 2 ^ 64 ≤ fuel)
    (less : idx < env.available.choose env.qfacNfac) : ∃ r, env.specialQFromIndex fuel idx qfacPrimes = some r := by
  have available_le : env.available ≤ 2 ^ 64 - 1 := by
    have zero : ¬env.Factor 0 := fun factor => Nat.not_prime_zero factor.2.1
    have shifted := Nat.count_succ' env.Factor env.qfacMax
    rw [if_neg zero, Nat.add_zero] at shifted
    rw [available, shifted]
    exact (Nat.count_le _).trans (Nat.le_sub_one_of_lt word)
  obtain ⟨cs, combination⟩ := kCombinationFromIndex_returns enough
    (less.trans_le (Nat.choose_le_choose _ available_le))
  obtain ⟨length, decreasing, value_eq, -⟩ := kCombinationFromIndex_eq few combination
  have below := below_of_value_lt decreasing (value_eq ▸ length ▸ less)
  obtain ⟨⟨factors, primes⟩, found⟩ := getQfacPrimes_returns next pos listed (word.le.trans enough)
    fun c member => below c (List.mem_reverse.mp member)
  refine ⟨(⟨factors.prod, -1, env.sqside, factors⟩, primes), ?_⟩
  rw [specialQFromIndex, guard, if_pos (Int.natCast_nonneg idx), Int.toNat_natCast, combination]
  simp only [Option.bind_eq_bind, Option.pure_def, Option.bind_some, found]

theorem IsSpecialQ.factors {idx : ℕ} {q : SpecialQ} (special : env.IsSpecialQ idx q) :
    q.primeFactors.length = env.qfacNfac ∧ q.primeFactors.Pairwise (· < ·) ∧ ∀ f ∈ q.primeFactors, env.Factor f := by
  obtain ⟨cs, length, decreasing, -, indices⟩ := special.combination
  have increasing : cs.reverse.Pairwise (· < ·) := List.pairwise_reverse.mpr decreasing
  refine ⟨?_, ?_, fun f member => ?_⟩
  · rw [← indices.length_eq, List.length_reverse, length]
  · rw [List.pairwise_iff_getElem] at increasing ⊢
    intro i j i_lt j_lt less
    have i_lt' := i_lt.trans_eq indices.length_eq.symm
    have j_lt' := j_lt.trans_eq indices.length_eq.symm
    exact (indices.get i_lt' i_lt).lt (indices.get j_lt' j_lt) (increasing i j i_lt' j_lt' less)
  · obtain ⟨i, inside, rfl⟩ := List.getElem_of_mem member
    exact (indices.get (inside.trans_eq indices.length_eq.symm) inside).1

theorem IsSpecialQ.inj {idx idx' : ℕ} {q q' : SpecialQ} (special : env.IsSpecialQ idx q)
    (special' : env.IsSpecialQ idx' q') (same : q.p = q'.p) : idx = idx' := by
  obtain ⟨-, increasing, factor⟩ := special.factors
  obtain ⟨-, increasing', factor'⟩ := special'.factors
  have factors : q.primeFactors = q'.primeFactors := by
    have perm : q.primeFactors.Perm q'.primeFactors := by
      refine (Nat.primeFactorsList_unique ?_ fun f member => (factor f member).2.1).trans
        (Nat.primeFactorsList_unique rfl fun f member => (factor' f member).2.1).symm
      rw [← special'.p, ← same, special.p]
    exact perm.eq_of_pairwise' increasing increasing'
  obtain ⟨cs, length, decreasing, value_eq, indices⟩ := special.combination
  obtain ⟨cs', length', decreasing', value_eq', indices'⟩ := special'.combination
  have reverse : cs.reverse = cs'.reverse := by
    rw [← factors] at indices'
    have lengths : cs.reverse.length = cs'.reverse.length := indices.length_eq.trans indices'.length_eq.symm
    refine List.ext_getElem lengths fun i inside inside' => ?_
    exact (indices.get inside (inside.trans_eq indices.length_eq)).2.symm.trans
      (indices'.get inside' (inside.trans_eq indices.length_eq)).2
  rw [← value_eq, ← value_eq', List.reverse_inj.mp reverse]

end Env

section
variable {env fuel} {t t' : TodoList} {qfacPrimes after : List ℕ} {pushed all : List SpecialQ}
variable (next : env.NextPrime) (pos : 0 < env.qfacMin) (few : env.qfacNfac < 2 ^ 64)
include next pos few

theorem pushLoop_eq (n base : ℕ) (listed : env.Listed qfacPrimes)
    (done : pushLoop env fuel n (base + n - 1) qfacPrimes pushed = some (all, after)) :
    ∃ added, all = added ++ pushed ∧ List.Forall₂ env.IsSpecialQ (List.range' base n) added ∧ env.Listed after := by
  induction n generalizing qfacPrimes pushed with
  | zero =>
    cases done
    exact ⟨[], rfl, .nil, listed⟩
  | succ n ih =>
    obtain ⟨⟨q, primes⟩, first, done⟩ := Option.bind_eq_some_iff.mp done
    have idx : (base : ℤ) + (n + 1 : ℕ) - 1 = (base + n : ℕ) := by
      push_cast
      ring
    rw [idx] at first
    dsimp only at done
    rw [show (base : ℤ) + (n + 1 : ℕ) - 1 - 1 = base + n - 1 by push_cast; ring] at done
    obtain ⟨special, listed⟩ := Env.specialQFromIndex_eq next pos few listed first
    obtain ⟨added, rfl, specials, listed⟩ := ih listed done
    refine ⟨added ++ [q], by simp, ?_, listed⟩
    rw [List.range'_concat, Nat.one_mul]
    exact List.rel_append specials (.cons special .nil)

theorem pushLoop_returns (word : env.qfacMax < 2 ^ 64) (enough : 2 ^ 64 ≤ fuel) (n base : ℕ) (listed : env.Listed qfacPrimes)
    (inside : base + n ≤ env.available.choose env.qfacNfac) :
    ∃ r, pushLoop env fuel n (base + n - 1) qfacPrimes pushed = some r := by
  induction n generalizing qfacPrimes pushed with
  | zero => exact ⟨_, rfl⟩
  | succ n ih =>
    have idx : (base : ℤ) + (n + 1 : ℕ) - 1 = (base + n : ℕ) := by
      push_cast
      ring
    obtain ⟨⟨q, primes⟩, found⟩ := Env.specialQFromIndex_returns next pos word few listed enough
      (show base + n < env.available.choose env.qfacNfac from inside)
    obtain ⟨r, later⟩ : ∃ r, pushLoop env fuel n (base + n - 1) primes (q :: pushed) = some r :=
      ih (Env.specialQFromIndex_eq next pos few listed found).2 (Nat.le_of_succ_le inside)
    refine ⟨r, ?_⟩
    rw [pushLoop, idx, found, Option.bind_eq_bind, Option.bind_some, ← later]
    congr 1

end

def TodoList.top (t : TodoList) : ℤ :=
  if t.nqMax < uintMax then t.qidx0 + (toInt t.nqMax - toInt t.created - 1) else t.qidx1 - 1

def TodoList.size (t : TodoList) : ℕ := (t.qidx1 - t.qidx0).toNat

structure TodoList.Fresh (t : TodoList) : Prop where
  nonneg : 0 ≤ t.qidx0
  created : t.created = 0
  stack : t.stack = []
  qfacPrimes : t.qfacPrimes = []
  nq : t.nqMax < uintMax → t.nqMax < 2 ^ 31 ∧ t.qidx1 = t.qidx0 + t.nqMax

def TodoList.Exhausted (t : TodoList) : Prop := t.top < t.qidx0

variable {env fuel} {t t' : TodoList} {pushed : List SpecialQ}

theorem toInt_of_lt {n : ℕ} (small : n < 2 ^ 31) : toInt n = n := Int.bmod_eq_of_le (by omega) (by omega)

theorem make_fresh {qidx0 : ℤ} {qidx1 : Option ℤ} {nq : Option ℕ} (made : make env qidx0 qidx1 nq = some t)
    (nonneg : 0 ≤ qidx0) (fits : ∀ n ∈ nq, n < 2 ^ 31 ∨ uintMax ≤ n) : t.Fresh ∧ 2 < env.qfacMin := by
  obtain ⟨⟨⟩, above, made⟩ := Option.bind_eq_some_iff.mp made
  obtain ⟨⟨⟩, -, made⟩ := Option.bind_eq_some_iff.mp made
  obtain ⟨⟨⟩, same, made⟩ := Option.bind_eq_some_iff.mp made
  cases made
  have odd : 2 < env.qfacMin := by
    by_contra low
    cases (if_neg low).symm.trans above
  refine ⟨⟨nonneg, rfl, rfl, rfl, fun less => ?_⟩, odd⟩
  cases nq with
  | none => exact absurd less (show ¬sizeMax < uintMax by decide)
  | some n =>
    refine ⟨(fits n rfl).resolve_right (not_le.mpr less), ?_⟩
    cases qidx1 with
    | none =>
      have small : n < sizeMax := lt_trans less (by decide)
      simp [small]
    | some q =>
      have eq : qidx0 + n = q := by
        by_contra other
        cases (if_neg fun all => other (all q rfl rfl)).symm.trans same
      have given : q ≠ -1 := by omega
      exact (if_neg given).trans eq.symm

theorem Fresh.top (fresh : t.Fresh) : t.top = t.qidx1 - 1 := by
  rw [TodoList.top]
  split
  · next some =>
    obtain ⟨small, qidx1⟩ := fresh.nq some
    rw [fresh.created, toInt_of_lt small, qidx1, toInt_of_lt (by decide)]
    push_cast
    ring
  · rfl

theorem feedQrange_eq (empty : t.stack = []) : feedQrange env fuel t =
    (pushLoop env fuel (t.top - t.qidx0 + 1).toNat t.top t.qfacPrimes []).map fun r =>
      ({ t with qidx0 := t.qidx0 + (t.top - t.qidx0 + 1).toNat, created := t.created + (t.top - t.qidx0 + 1).toNat,
                stack := r.1, qfacPrimes := r.2 }, r.1) := by
  rw [feedQrange, if_neg (not_not.mpr empty)]
  change (pushLoop env fuel (t.top - t.qidx0 + 1).toNat t.top t.qfacPrimes []).bind _ = _
  cases pushLoop env fuel (t.top - t.qidx0 + 1).toNat t.top t.qfacPrimes [] <;> rfl

theorem feedQrange_exhausted (exhausted : t.Exhausted) : feedQrange env fuel t = some (t, []) := by
  by_cases empty : t.stack = []
  · have none : (t.top - t.qidx0 + 1).toNat = 0 := by
      rw [TodoList.Exhausted] at exhausted
      omega
    rw [feedQrange_eq empty, none, pushLoop, Nat.cast_zero, Int.add_zero, Nat.add_zero, ← empty]
    rfl
  · exact if_pos empty

variable (env fuel) in
theorem run_exhausted (ops : List Op) (exhausted : t.Exhausted) : ∃ t', run env fuel ops t = some (t', []) := by
  induction ops generalizing t with
  | nil => exact ⟨t, rfl⟩
  | cons op ops ih =>
    cases op with
    | pop =>
      rw [run]
      exact ih exhausted
    | feed =>
      obtain ⟨t', later⟩ := ih exhausted
      refine ⟨t', ?_⟩
      rw [run, feedQrange_exhausted exhausted, Option.bind_eq_bind, Option.bind_some]
      dsimp only
      rw [later]
      rfl

section
variable (next : env.NextPrime) (pos : 0 < env.qfacMin) (few : env.qfacNfac < 2 ^ 64)
include next pos few

theorem feedQrange_fresh (fresh : t.Fresh) (fed : feedQrange env fuel t = some (t', pushed)) :
    t'.Exhausted ∧ List.Forall₂ env.IsSpecialQ (List.range' t.qidx0.toNat t.size) pushed := by
  have nonneg := fresh.nonneg
  have size : (t.top - t.qidx0 + 1).toNat = t.size := by
    rw [Fresh.top fresh, TodoList.size]
    congr 1
    ring
  rw [feedQrange_eq fresh.stack, size] at fed
  obtain ⟨⟨all, primes⟩, done, eq⟩ := Option.map_eq_some_iff.mp fed
  cases eq
  constructor
  · rw [TodoList.Exhausted, TodoList.top]
    dsimp only
    split
    · next some =>
      obtain ⟨small, qidx1⟩ := fresh.nq some
      have all : t.size = t.nqMax := by
        rw [TodoList.size, qidx1]
        omega
      rw [fresh.created, Nat.zero_add, all]
      omega
    · rw [TodoList.size]
      omega
  · rcases Nat.eq_zero_or_pos t.size with none | some
    · rw [none] at done ⊢
      cases done
      exact .nil
    · have top : t.top = (t.qidx0.toNat : ℤ) + t.size - 1 := by
        rw [Fresh.top fresh, TodoList.size] at *
        omega
      rw [top, fresh.qfacPrimes] at done
      obtain ⟨added, rfl, specials, -⟩ := pushLoop_eq next pos few _ _ (fun _ _ found => by simp at found) done
      rwa [List.append_nil]

theorem feedQrange_returns (word : env.qfacMax < 2 ^ 64) (enough : 2 ^ 64 ≤ fuel) (fresh : t.Fresh)
    (inside : t.qidx1 ≤ env.available.choose env.qfacNfac) : ∃ r, feedQrange env fuel t = some r := by
  have nonneg := fresh.nonneg
  have size : (t.top - t.qidx0 + 1).toNat = t.size := by
    rw [Fresh.top fresh, TodoList.size]
    congr 1
    ring
  rw [feedQrange_eq fresh.stack, size]
  rcases Nat.eq_zero_or_pos t.size with none | more
  · rw [none]
    exact ⟨_, rfl⟩
  · have top : t.top = (t.qidx0.toNat : ℤ) + t.size - 1 := by
      rw [Fresh.top fresh, TodoList.size] at *
      omega
    rw [top, fresh.qfacPrimes]
    obtain ⟨r, done⟩ : ∃ r, pushLoop env fuel t.size (t.qidx0.toNat + t.size - 1) [] [] = some r :=
      pushLoop_returns next pos few word enough t.size t.qidx0.toNat (fun _ _ found => by simp at found) (by
        rw [TodoList.size] at more ⊢
        omega)
    exact ⟨_, Option.map_eq_some_iff.mpr ⟨r, done, rfl⟩⟩

theorem run_fresh {ops : List Op} (fresh : t.Fresh) (done : run env fuel ops t = some (t', pushed)) (fed : .feed ∈ ops) :
    List.Forall₂ env.IsSpecialQ (List.range' t.qidx0.toNat t.size) pushed := by
  induction ops generalizing t with
  | nil => cases fed
  | cons op ops ih =>
    cases op with
    | pop =>
      have still : ({ t with stack := t.stack.tail } : TodoList).Fresh :=
        ⟨fresh.nonneg, fresh.created, by rw [fresh.stack]; rfl, fresh.qfacPrimes, fresh.nq⟩
      have rest := ih still done ((List.mem_cons.mp fed).resolve_left nofun)
      exact rest
    | feed =>
      obtain ⟨⟨middle, first⟩, feeding, done⟩ := Option.bind_eq_some_iff.mp done
      obtain ⟨⟨last, later⟩, rest, eq⟩ := Option.bind_eq_some_iff.mp done
      cases eq
      obtain ⟨exhausted, specials⟩ := feedQrange_fresh next pos few fresh feeding
      obtain ⟨last', same⟩ := run_exhausted env fuel ops exhausted
      cases rest.symm.trans same
      rwa [List.append_nil]

theorem run_returns (word : env.qfacMax < 2 ^ 64) (enough : 2 ^ 64 ≤ fuel) (ops : List Op) (fresh : t.Fresh)
    (inside : t.qidx1 ≤ env.available.choose env.qfacNfac) : ∃ r, run env fuel ops t = some r := by
  induction ops generalizing t with
  | nil => exact ⟨_, rfl⟩
  | cons op ops ih =>
    cases op with
    | pop =>
      have still : ({ t with stack := t.stack.tail } : TodoList).Fresh :=
        ⟨fresh.nonneg, fresh.created, by rw [fresh.stack]; rfl, fresh.qfacPrimes, fresh.nq⟩
      have rest := ih still inside
      exact rest
    | feed =>
      obtain ⟨⟨middle, first⟩, feeding⟩ := feedQrange_returns next pos few word enough fresh inside
      obtain ⟨last, same⟩ := run_exhausted env fuel ops (feedQrange_fresh next pos few fresh feeding).1
      refine ⟨(last, first ++ []), ?_⟩
      rw [run, feeding, Option.bind_eq_bind, Option.bind_some]
      dsimp only
      rw [same]
      rfl

end

def combinations (k : ℕ) : Set (List ℕ) := {cs | cs.length = k ∧ Decreasing cs ∧ ∀ c ∈ cs, c < 2 ^ 64 - 1}

theorem kCombinationFromIndex_bijOn (k_lt : k < 2 ^ 64) (enough : 2 ^ 64 ≤ fuel) :
    Set.BijOn (fun idx => (kCombinationFromIndex fuel k idx).getD []) (Set.Iio ((2 ^ 64 - 1).choose k)) (combinations k) := by
  have found {idx : ℕ} (less : idx < (2 ^ 64 - 1).choose k) :
      (kCombinationFromIndex fuel k idx).getD [] ∈ combinations k ∧ value ((kCombinationFromIndex fuel k idx).getD []) = idx := by
    obtain ⟨cs, found⟩ := kCombinationFromIndex_returns enough less
    obtain ⟨length, decreasing, value_eq, small⟩ := kCombinationFromIndex_eq k_lt found
    rw [found]
    exact ⟨⟨length, decreasing, small⟩, value_eq⟩
  refine ⟨fun idx less => (found less).1, fun idx less idx' less' same => ?_, fun cs inside => ?_⟩
  · exact (found less).2.symm.trans ((congrArg value same).trans (found less').2)
  · obtain ⟨length, decreasing, small⟩ := inside
    have less : value cs < (2 ^ 64 - 1).choose k := length ▸ value_lt decreasing small
    obtain ⟨⟨length', decreasing', -⟩, same⟩ := found less
    exact ⟨value cs, less, eq_of_value_eq decreasing' decreasing (length'.trans length.symm) same⟩

theorem kCombinationFromIndex_eq_none (k_lt : k < 2 ^ 64) (large : (2 ^ 64 - 1).choose k ≤ idx) :
    kCombinationFromIndex fuel k idx = none := by
  have pos : 0 < (2 ^ 64 - 1).choose k := Nat.choose_pos (Nat.le_sub_one_of_lt k_lt)
  have nonzero : idx ≠ 0 := Nat.ne_of_gt (pos.trans_le large)
  cases k with
  | zero => exact if_neg nonzero
  | succ k => rw [kCombinationFromIndex, if_neg nonzero, searchUp_eq_none large, Option.bind_eq_bind, Option.bind_none]

/-- `k_combination_from_index` enumerates the combinations, and the list has the special-q of each index of its
range once, in order. -/
theorem siqs_enumerates (env : Env) (next : env.NextPrime) (word : env.qfacMax < 2 ^ 64) (few : env.qfacNfac < 2 ^ 64)
    (qidx0 : ℤ) (qidx1 : Option ℤ) (nq : Option ℕ) (t : TodoList) (made : make env qidx0 qidx1 nq = some t)
    (nonneg : 0 ≤ qidx0) (fits : ∀ n ∈ nq, n < 2 ^ 31 ∨ uintMax ≤ n) :
    (∀ k < 2 ^ 64, ∀ fuel ≥ 2 ^ 64, Set.BijOn (fun idx => (kCombinationFromIndex fuel k idx).getD [])
        (Set.Iio ((2 ^ 64 - 1).choose k)) (combinations k)) ∧
      (∀ k < 2 ^ 64, ∀ fuel idx, (∀ cs ∈ kCombinationFromIndex fuel k idx, value cs = idx ∧ cs ∈ combinations k) ∧
        ((2 ^ 64 - 1).choose k ≤ idx → kCombinationFromIndex fuel k idx = none)) ∧
      (∀ fuel ops t' pushed, run env fuel ops t = some (t', pushed) → Op.feed ∈ ops →
        List.Forall₂ env.IsSpecialQ (List.range' t.qidx0.toNat t.size) pushed ∧ (pushed.map SpecialQ.p).Nodup ∧
          ∀ q ∈ pushed, q.primeFactors.length = env.qfacNfac ∧ q.primeFactors.Pairwise (· < ·) ∧
            (∀ f ∈ q.primeFactors, f.Prime) ∧ q.p = q.primeFactors.prod) ∧
      (t.qidx1 ≤ env.available.choose env.qfacNfac → ∀ fuel ≥ 2 ^ 64, ∀ ops, ∃ r, run env fuel ops t = some r) := by
  obtain ⟨fresh, odd⟩ := make_fresh made nonneg fits
  have pos : 0 < env.qfacMin := Nat.zero_lt_of_lt odd
  refine ⟨fun k k_lt fuel enough => kCombinationFromIndex_bijOn k_lt enough,
    fun k k_lt fuel idx => ⟨fun cs found => ?_, kCombinationFromIndex_eq_none k_lt⟩,
    fun fuel ops t' pushed done fed => ?_,
    fun inside fuel enough ops => run_returns next pos few word enough ops fresh inside⟩
  · obtain ⟨length, decreasing, value_eq, small⟩ := kCombinationFromIndex_eq k_lt found
    exact ⟨value_eq, length, decreasing, small⟩
  · have specials := run_fresh next pos few fresh done fed
    refine ⟨specials, ?_, fun q member => ?_⟩
    · rw [List.Nodup, List.pairwise_map, List.pairwise_iff_getElem]
      intro i j i_lt j_lt less same
      have i_lt' := i_lt.trans_eq specials.length_eq.symm
      have j_lt' := j_lt.trans_eq specials.length_eq.symm
      have index := (specials.get i_lt' i_lt).inj (specials.get j_lt' j_lt) same
      rw [List.get_eq_getElem, List.get_eq_getElem, List.getElem_range', List.getElem_range'] at index
      dsimp only at index
      omega
    · obtain ⟨i, inside, rfl⟩ := List.getElem_of_mem member
      have special := specials.get (inside.trans_eq specials.length_eq.symm) inside
      obtain ⟨length, increasing, factor⟩ := special.factors
      exact ⟨length, increasing, fun f member => (factor f member).2.1, special.p⟩

noncomputable def smallEnv : Env := ⟨-1, 3, 7, 1, 0, fun n => Nat.find (Nat.exists_infinite_primes (n + 1))⟩

theorem smallEnv_next : smallEnv.NextPrime := fun n =>
  ⟨Nat.find_spec (Nat.exists_infinite_primes (n + 1)), fun _ above => Nat.find_min' (Nat.exists_infinite_primes (n + 1)) above⟩

theorem smallEnv_available : 2 ≤ smallEnv.available := by
  have legendre (p : ℕ) : smallEnv.legendre p = 1 := by
    rw [Env.legendre, show -smallEnv.constCoeff = 1 from neg_neg 1]
    exact jacobiSym.one_left p
  have three : smallEnv.Factor 3 := ⟨le_rfl, by norm_num, legendre 3⟩
  have five : smallEnv.Factor 5 := ⟨by decide, by norm_num, legendre 5⟩
  have first := Nat.count_strict_mono three (show 3 < 5 by decide)
  have second := Nat.count_strict_mono five (show 5 < smallEnv.qfacMax + 1 by decide)
  rw [Env.available]
  omega

theorem siqs_enumerates_two : ∃ r, run smallEnv (2 ^ 64) [.feed, .pop, .pop, .feed] ⟨0, 2, sizeMax, 0, [], []⟩ = some r := by
  have made : make smallEnv 0 (some 2) none = some ⟨0, 2, sizeMax, 0, [], []⟩ := by
    rfl
  have all := siqs_enumerates smallEnv smallEnv_next (by decide) (by decide) 0 (some 2) none _ made le_rfl nofun
  refine all.2.2.2 ?_ _ le_rfl _
  rw [show smallEnv.qfacNfac = 1 from rfl, Nat.choose_one_right]
  exact Int.ofNat_le.mpr smallEnv_available

theorem kCombinationFromIndex_loops : ¬∀ k idx, 1 ≤ k → ∃ fuel cs, kCombinationFromIndex fuel k idx = some cs := by
  intro all
  obtain ⟨fuel, cs, found⟩ := all 1 (2 ^ 64 - 1) le_rfl
  rw [kCombinationFromIndex_eq_none (by decide) (Nat.choose_one_right _).le] at found
  cases found

end CadoNfs.Sieve.SiqsTodoList
