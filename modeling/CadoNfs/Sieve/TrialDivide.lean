import CadoNfs.Lib.DivideFirst
import CadoNfs.Lib.ExceptRun
import CadoNfs.Sieve.Trialdiv

/-!
# The loop of trial division

`trial_divide` of `sieve/trialdiv.cpp`: the primes are tried in turn, each as long as it divides, by the test for the
number of words that are left.
-/

namespace CadoNfs.Sieve.Trialdiv
open Lib

inductive TrialdivError
  | assertion
  | pastEnd
  deriving DecidableEq

/-- The sign and the words of an `mpz_t`, the low word first. -/
structure Mpz where
  negative : Bool
  limbs : List ℕ
  deriving DecidableEq

def Mpz.abs (N : Mpz) : ℕ := Nat.ofDigits (2 ^ 64) N.limbs

def Mpz.toInt (N : Mpz) : ℤ := if N.negative then -(N.abs : ℤ) else N.abs

def Mpz.ofInt (z : ℤ) : Mpz := ⟨decide (z < 0), Nat.digits (2 ^ 64) z.natAbs⟩

def check (ndebug : Bool) (condition : Prop) [Decidable condition] : Except TrialdivError Unit :=
  if ndebug ∨ condition then .ok () else .error .assertion

def trialdiv2Divexact (ndebug : Bool) (n : List ℕ) (p pinv : ℕ) : Except TrialdivError (List ℕ) := do
  let x0 := n.getD 0 0 * pinv % 2 ^ 64
  let r := mulUlUl2ul x0 p
  check ndebug (r.low = n.getD 0 0)
  let r1 := (n.getD 1 0 + 2 ^ 64 - r.high) % 2 ^ 64
  return if r1 = 0 then [x0] else [x0, r1 * pinv % 2 ^ 64]

def mpzDivexactUi (N : Mpz) (p : ℕ) : Mpz := ⟨N.negative, Nat.digits (2 ^ 64) (N.abs / p)⟩

def divideBy (ndebug : Bool) (N : Mpz) (d : Divisor) : Except TrialdivError Mpz :=
  if N.limbs.length = 1 then return ⟨N.negative, [N.limbs.getD 0 0 * d.pinv % 2 ^ 64]⟩
  else if N.limbs.length = 2 then return ⟨N.negative, ← trialdiv2Divexact ndebug N.limbs d.p d.pinv⟩
  else return mpzDivexactUi N d.p

def divideLoop (ndebug : Bool) : ℕ → List Divisor → List ℕ → Mpz → Except TrialdivError (List ℕ × Mpz)
  | 0, _, f, N => return (f, N)
  | maxFactors + 1, ds, f, N =>
    if ¬ 1 < N.toInt then return (f, N) else do
      check false (N.limbs.length ≤ maxlen)
      match ds.dropWhile fun d => ! divisible N.limbs d with
      | [] => .error .pastEnd
      | d :: rest =>
        if d.p = 1 then return (f, N) else do
          check ndebug ((d.p : ℤ) ∣ N.toInt)
          divideLoop ndebug maxFactors (d :: rest) (f ++ [d.p]) (← divideBy ndebug N d)

def trialDivide (ndebug : Bool) (ds : List Divisor) (f : List ℕ) (N : Mpz) (maxFactors : ℕ) :
    Except TrialdivError (ℕ × List ℕ × Mpz) := do
  let (f, N) ← divideLoop ndebug maxFactors ds f N
  return (f.length, f, N)

def trialdivData (ndebug : Bool) (primes : List ℕ) (skip : ℕ) : Except Failure (List Divisor) := do
  assert false (skip ≤ primes.length)
  let ds ← (primes.drop skip).mapM (initDivisor ndebug)
  return ds ++ [← initDivisor ndebug 1]

theorem check_of {ndebug : Bool} {condition : Prop} [Decidable condition] (holds : condition) :
    check ndebug condition = .ok () := if_pos (.inr holds)

def divisors (ps : List ℕ) : List Divisor := ps.map divisor ++ [divisor 1]

theorem trialdivData_ok (ndebug : Bool) {primes : List ℕ} {skip : ℕ} (le : skip ≤ primes.length)
    (accepted : ∀ p ∈ primes.drop skip, p % 2 = 1 ∧ p ≤ maxP) :
    trialdivData ndebug primes skip = .ok (divisors (primes.drop skip)) := by
  have list : (primes.drop skip).mapM (initDivisor ndebug) = .ok ((primes.drop skip).map divisor) :=
    mapM_ok fun p mem => initDivisor_ok ndebug (accepted p mem).1 (accepted p mem).2
  rw [trialdivData, assert_of le, list, initDivisor_ok ndebug (p := 1) rfl (by rw [maxP_eq]; norm_num)]
  rfl

section
variable {ps : List ℕ} {n : ℕ}

theorem digits_length_pos (positive : 0 < n) : 1 ≤ (Nat.digits (2 ^ 64) n).length := by
  rw [Nat.one_le_iff_ne_zero, ne_eq, List.length_eq_zero_iff, Nat.digits_eq_nil_iff_eq_zero]
  omega

theorem digits_length_le (fits : n < (2 ^ 64) ^ maxlen) : (Nat.digits (2 ^ 64) n).length ≤ maxlen := by
  rwa [Nat.digits_length_le_iff (by norm_num)]

theorem divisible_digits (positive : 0 < n) (fits : n < (2 ^ 64) ^ maxlen) {p : ℕ} (odd : p % 2 = 1) (le : p ≤ maxP) :
    divisible (Nat.digits (2 ^ 64) n) (divisor p) = decide (p ∣ n) := by
  have test := divisible_iff (fun x mem => Nat.digits_lt_base (by norm_num) mem) (digits_length_pos positive)
    (digits_length_le fits) odd le
  rw [Nat.ofDigits_digits] at test
  rw [Bool.eq_iff_iff, test, decide_eq_true_eq]

theorem dropWhile_divisors (positive : 0 < n) (fits : n < (2 ^ 64) ^ maxlen)
    (accepted : ∀ p ∈ ps, p % 2 = 1 ∧ p ≤ maxP) :
    (divisors ps).dropWhile (fun d => ! divisible (Nat.digits (2 ^ 64) n) d) = divisors (firstDivisors ps n) := by
  induction ps with
  | nil =>
    have one := divisible_digits positive fits (p := 1) rfl (by rw [maxP_eq]; norm_num)
    rw [divisors, firstDivisors, List.map_nil, List.nil_append, List.dropWhile_cons_of_neg]
    · rfl
    · rw [one]
      simp
  | cons p ps ih =>
    obtain ⟨head, tail⟩ := List.forall_mem_cons.mp accepted
    have here := divisible_digits positive fits head.1 head.2
    have cons : divisors (p :: ps) = divisor p :: divisors ps := rfl
    rw [cons, firstDivisors]
    by_cases dvd : p ∣ n
    · rw [List.dropWhile_cons_of_neg (by rw [here]; simp [dvd]), List.dropWhile_cons_of_neg (by simp [dvd])]
      rfl
    · rw [List.dropWhile_cons_of_pos (by rw [here]; simp [dvd]), List.dropWhile_cons_of_pos (by simp [dvd]), ih tail]
      rfl

theorem ofInt_natCast (n : ℕ) : Mpz.ofInt n = ⟨false, Nat.digits (2 ^ 64) n⟩ := by
  rw [Mpz.ofInt, Int.natAbs_natCast, decide_eq_false (by omega)]

theorem toInt_ofInt (z : ℤ) : (Mpz.ofInt z).toInt = z := by
  have abs : (Mpz.ofInt z).abs = z.natAbs := Nat.ofDigits_digits _ _
  rw [Mpz.toInt, abs]
  by_cases negative : z < 0
  · have sign : (Mpz.ofInt z).negative = true := decide_eq_true negative
    rw [if_pos sign]
    omega
  · have sign : (Mpz.ofInt z).negative = false := decide_eq_false negative
    rw [if_neg (by rw [sign]; exact Bool.false_ne_true)]
    omega

theorem mul_pinv_mod {p : ℕ} (odd : p % 2 = 1) (k : ℕ) : p * k * ularithInvmod p % 2 ^ 64 = k % 2 ^ 64 := by
  have inverse := (ularithInvmod_spec odd).mul_right k
  rw [one_mul] at inverse
  calc
    p * k * ularithInvmod p % 2 ^ 64 = p * ularithInvmod p * k % 2 ^ 64 := by rw [mul_right_comm]
    _ = k % 2 ^ 64 := inverse

theorem digits_two {k : ℕ} (low : k % 2 ^ 64 ≠ 0 ∨ 2 ^ 64 ≤ k) (fits : k < 2 ^ 64 * 2 ^ 64) :
    Nat.digits (2 ^ 64) k = if k / 2 ^ 64 = 0 then [k % 2 ^ 64] else [k % 2 ^ 64, k / 2 ^ 64] := by
  have positive : 0 < k := by
    rcases low with low | large
    · exact Nat.pos_of_ne_zero fun zero => low (by rw [zero, Nat.zero_mod])
    · omega
  rw [Nat.digits_def' (by norm_num) positive]
  by_cases one : k / 2 ^ 64 = 0
  · rw [if_pos one, one, Nat.digits_zero]
  · rw [if_neg one, Nat.digits_of_lt _ _ one (Nat.div_lt_of_lt_mul fits)]

theorem trialdiv2Divexact_ok (ndebug : Bool) {p k : ℕ} (odd : p % 2 = 1) (positive : 0 < k)
    (fits : p * k < 2 ^ 64 * 2 ^ 64) :
    trialdiv2Divexact ndebug [p * k % 2 ^ 64, p * k / 2 ^ 64] p (ularithInvmod p) = .ok (Nat.digits (2 ^ 64) k) := by
  have le : k ≤ p * k := Nat.le_mul_of_pos_left k (by omega)
  have x0 : p * k % 2 ^ 64 * ularithInvmod p % 2 ^ 64 = k % 2 ^ 64 := by
    rw [Nat.mod_mul_mod, mul_pinv_mod odd]
  have split : p * k = p * (k % 2 ^ 64) + 2 ^ 64 * (p * (k / 2 ^ 64)) := by
    conv_lhs => rw [← Nat.mod_add_div k (2 ^ 64)]
    ring
  have low : (mulUlUl2ul (k % 2 ^ 64) p).low = p * k % 2 ^ 64 := by
    change k % 2 ^ 64 * p % 2 ^ 64 = _
    rw [Nat.mod_mul_mod, mul_comm]
  have high : p * k / 2 ^ 64 = (mulUlUl2ul (k % 2 ^ 64) p).high + p * (k / 2 ^ 64) := by
    change _ = k % 2 ^ 64 * p / 2 ^ 64 + _
    rw [mul_comm (k % 2 ^ 64), split, Nat.add_mul_div_left _ _ (by norm_num)]
  have word : p * k / 2 ^ 64 < 2 ^ 64 := Nat.div_lt_of_lt_mul fits
  have rest : (p * k / 2 ^ 64 + 2 ^ 64 - (mulUlUl2ul (k % 2 ^ 64) p).high) % 2 ^ 64 = p * (k / 2 ^ 64) := by
    rw [high] at word ⊢
    omega
  have quotient : p * (k / 2 ^ 64) * ularithInvmod p % 2 ^ 64 = k / 2 ^ 64 := by
    rw [mul_pinv_mod odd, Nat.mod_eq_of_lt (Nat.div_lt_of_lt_mul (by omega))]
  have zero : p * (k / 2 ^ 64) = 0 ↔ k / 2 ^ 64 = 0 := by
    rw [Nat.mul_eq_zero]
    omega
  rw [trialdiv2Divexact]
  simp only [List.getD_cons_zero, List.getD_cons_succ, x0, check_of low, rest, quotient, zero]
  rw [digits_two (by omega) (by omega)]
  rfl

theorem divideBy_ok (ndebug : Bool) (positive : 0 < n) {p : ℕ} (odd : p % 2 = 1) (dvd : p ∣ n) :
    divideBy ndebug (.ofInt n) (divisor p) = .ok (.ofInt (n / p : ℕ)) := by
  obtain ⟨k, rfl⟩ := dvd
  have factor : 0 < k := Nat.pos_of_mul_pos_left positive
  have le : k ≤ p * k := Nat.le_mul_of_pos_left k (by omega)
  rw [Nat.mul_div_cancel_left k (by omega), ofInt_natCast, ofInt_natCast, divideBy]
  simp only [mpzDivexactUi, Mpz.abs]
  by_cases one : (Nat.digits (2 ^ 64) (p * k)).length = 1
  · have small : p * k < 2 ^ 64 := by
      have fits := (Nat.digits_length_le_iff (by norm_num) (p * k)).mp one.le
      rwa [pow_one] at fits
    rw [if_pos one, Nat.digits_of_lt _ _ positive.ne' small, List.getD_cons_zero, divisor, mul_pinv_mod odd,
      Nat.mod_eq_of_lt (by omega), Nat.digits_of_lt _ _ factor.ne' (by omega)]
    rfl
  by_cases two : (Nat.digits (2 ^ 64) (p * k)).length = 2
  · have fits : p * k < 2 ^ 64 * 2 ^ 64 := by
      have fits := (Nat.digits_length_le_iff (by norm_num) (p * k)).mp two.le
      rwa [pow_two] at fits
    have large : 2 ^ 64 ≤ p * k := by
      by_contra small
      rw [Nat.digits_of_lt _ _ positive.ne' (by omega)] at one
      exact one rfl
    have words : Nat.digits (2 ^ 64) (p * k) = [p * k % 2 ^ 64, p * k / 2 ^ 64] := by
      rw [digits_two (.inr large) fits, if_neg (by omega)]
    rw [if_neg one, if_pos two, words, divisor, trialdiv2Divexact_ok ndebug odd factor fits]
    rfl
  · rw [if_neg one, if_neg two, Nat.ofDigits_digits, divisor, Nat.mul_div_cancel_left k (by omega)]
    rfl

theorem divideLoop_nil (ndebug : Bool) (maxFactors : ℕ) (f : List ℕ) (positive : 0 < n)
    (fits : n < (2 ^ 64) ^ maxlen) (accepted : ∀ p ∈ ps, p % 2 = 1 ∧ p ≤ maxP) (none : firstDivisors ps n = []) :
    divideLoop ndebug (maxFactors + 1) (divisors ps) f (.ofInt n) = .ok (f, .ofInt n) := by
  have search := dropWhile_divisors positive fits accepted
  rw [none] at search
  rw [divideLoop, toInt_ofInt]
  by_cases more : (1 : ℤ) < n
  · rw [if_neg (not_not.mpr more), ofInt_natCast, search, check_of (digits_length_le fits)]
    rfl
  · rw [if_pos more]
    rfl

theorem divideLoop_cons (ndebug : Bool) (maxFactors : ℕ) (f : List ℕ) (positive : 0 < n)
    (fits : n < (2 ^ 64) ^ maxlen) (accepted : ∀ p ∈ ps, p % 2 = 1 ∧ p ≤ maxP) {p : ℕ} {rest : List ℕ}
    (first : firstDivisors ps n = p :: rest) (prime : p.Prime) :
    divideLoop ndebug (maxFactors + 1) (divisors ps) f (.ofInt n) =
      divideLoop ndebug maxFactors (divisors (p :: rest)) (f ++ [p]) (.ofInt (n / p : ℕ)) := by
  have search := dropWhile_divisors positive fits accepted
  rw [first] at search
  have mem : p ∈ ps := (firstDivisors_suffix ps n).subset (by rw [first]; exact (.head _))
  have dvd := firstDivisors_dvd first
  have more : (1 : ℤ) < n := by
    have := Nat.le_of_dvd positive dvd
    have := prime.one_lt
    omega
  have divides : ((divisor p).p : ℤ) ∣ n := Int.natCast_dvd_natCast.mpr dvd
  have exact := divideBy_ok ndebug positive (accepted p mem).1 dvd
  rw [ofInt_natCast n] at exact
  rw [divideLoop, toInt_ofInt, if_neg (not_not.mpr more), ofInt_natCast, search, check_of (digits_length_le fits)]
  change (if p = 1 then _ else _) = _
  rw [if_neg prime.ne_one, check_of divides, exact]
  rfl

theorem divideLoop_ok (ndebug : Bool) (maxFactors : ℕ) (f : List ℕ) (positive : 0 < n) (fits : n < (2 ^ 64) ^ maxlen)
    (accepted : ∀ p ∈ ps, p.Prime ∧ p % 2 = 1 ∧ p ≤ maxP) :
    divideLoop ndebug maxFactors (divisors ps) f (.ofInt n) =
      .ok (f ++ (divideFirst maxFactors ps n).1, .ofInt (divideFirst maxFactors ps n).2) := by
  induction maxFactors generalizing ps f n with
  | zero =>
    rw [divideLoop, divideFirst, List.append_nil]
    rfl
  | succ maxFactors ih =>
    have odd : ∀ p ∈ ps, p % 2 = 1 ∧ p ≤ maxP := fun p mem => (accepted p mem).2
    have suffix := firstDivisors_suffix ps n
    rw [divideFirst]
    cases first : firstDivisors ps n with
    | nil => rw [divideLoop_nil ndebug maxFactors f positive fits odd first, List.append_nil]
    | cons p rest =>
      rw [first] at suffix
      have inside : ∀ q ∈ p :: rest, q.Prime ∧ q % 2 = 1 ∧ q ≤ maxP := fun q mem => accepted q (suffix.subset mem)
      have prime := (inside p (.head _)).1
      have quotient : 0 < n / p := Nat.div_pos (Nat.le_of_dvd positive (firstDivisors_dvd first)) prime.pos
      have smaller : n / p < (2 ^ 64) ^ maxlen := (Nat.div_le_self n p).trans_lt fits
      have later := ih (f ++ [p]) quotient smaller inside
      rw [List.append_assoc] at later
      rw [divideLoop_cons ndebug maxFactors f positive fits odd first prime]
      exact later

end

/-! ## The promise of the documentation -/

/-- The primes added to `f` and what is left make up the number. They are all the primes of the list that divide it,
or the returned value says that there are more than `maxFactors`. -/
def AsDocumented (ps f : List ℕ) (N : ℤ) (maxFactors : ℕ) (out : Except TrialdivError (ℕ × List ℕ × Mpz)) : Prop :=
  ∃ (returned : ℕ) (g : List ℕ) (rest : ℤ), out = .ok (returned, f ++ g, .ofInt rest) ∧ g.prod * rest = N ∧
    (∀ q ∈ g, q ∈ ps) ∧ (found ps N.natAbs ≤ maxFactors → ∀ p ∈ ps, g.count p = padicValNat p N.natAbs) ∧
    (maxFactors < found ps N.natAbs → returned = maxFactors + 1)

theorem trialDivide_ok (ndebug : Bool) {ps : List ℕ} (f : List ℕ) (maxFactors : ℕ) {n : ℕ} (positive : 0 < n)
    (fits : n < (2 ^ 64) ^ maxlen) (accepted : ∀ p ∈ ps, p.Prime ∧ p % 2 = 1 ∧ p ≤ maxP) :
    trialDivide ndebug (divisors ps) f (.ofInt n) maxFactors =
      .ok ((f ++ (divideFirst maxFactors ps n).1).length, f ++ (divideFirst maxFactors ps n).1,
        .ofInt (divideFirst maxFactors ps n).2) := by
  rw [trialDivide, divideLoop_ok ndebug maxFactors f positive fits accepted]
  rfl

theorem trialDivide_idle (ndebug : Bool) (ds : List Divisor) (f : List ℕ) {N : ℤ} {maxFactors : ℕ}
    (idle : N ≤ 1 ∨ maxFactors = 0) :
    trialDivide ndebug ds f (.ofInt N) maxFactors = .ok (f.length, f, .ofInt N) := by
  have loop : divideLoop ndebug maxFactors ds f (.ofInt N) = .ok (f, .ofInt N) := by
    cases maxFactors with
    | zero => rfl
    | succ maxFactors =>
      have small : N ≤ 1 := idle.resolve_right (Nat.succ_ne_zero _)
      rw [divideLoop, toInt_ofInt, if_pos (not_lt.mpr small)]
      rfl
  rw [trialDivide, loop]
  rfl

theorem trialDivide_long (ndebug : Bool) (ds : List Divisor) (f : List ℕ) {N : ℤ} {maxFactors : ℕ}
    (long : (2 ^ 64) ^ maxlen ≤ N) (some : maxFactors ≠ 0) :
    trialDivide ndebug ds f (.ofInt N) maxFactors = .error .assertion := by
  obtain ⟨count, rfl⟩ := Nat.exists_eq_succ_of_ne_zero some
  have base : (1 : ℤ) < (2 ^ 64) ^ maxlen := by norm_num [maxlen]
  have words : ¬ (Mpz.ofInt N).limbs.length ≤ maxlen := by
    rw [Mpz.ofInt, Nat.digits_length_le_iff (by norm_num)]
    zify
    rw [abs_of_nonneg (by omega)]
    exact not_lt.mpr long
  have fails : check false ((Mpz.ofInt N).limbs.length ≤ maxlen) = .error .assertion := by
    rw [check, if_neg]
    rintro (released | short)
    · cases released
    · exact words short
  rw [trialDivide, divideLoop, toInt_ofInt, if_neg (not_not.mpr (base.trans_le long)), fails]
  rfl

theorem asDocumented_idle (ps f : List ℕ) (N : ℤ) (maxFactors : ℕ) :
    AsDocumented ps f N maxFactors (.ok (f.length, f, .ofInt N)) ↔
      found ps N.natAbs = 0 ∨ maxFactors < found ps N.natAbs ∧ f.length = maxFactors + 1 := by
  have counts : found ps N.natAbs = 0 ↔ ∀ p ∈ ps, 0 = padicValNat p N.natAbs := by
    rw [found, Finset.sum_eq_zero_iff]
    simp only [List.mem_toFinset, eq_comm]
  constructor
  · rintro ⟨returned, g, rest, same, -, -, all, more⟩
    obtain ⟨rfl, list, -⟩ : f.length = returned ∧ f = f ++ g ∧ Mpz.ofInt N = .ofInt rest := by
      simpa only [Except.ok.injEq, Prod.mk.injEq] using same
    obtain rfl : g = [] := List.self_eq_append_right.mp list
    rcases Nat.lt_or_ge maxFactors (found ps N.natAbs) with exceeded | within
    · exact .inr ⟨exceeded, more exceeded⟩
    · exact .inl (counts.mpr (all within))
  · intro cases
    refine ⟨f.length, [], N, by rw [List.append_nil], ?_, fun q none => absurd none List.not_mem_nil, ?_, ?_⟩
    · rw [List.prod_nil, Nat.cast_one, one_mul]
    · intro within
      rcases cases with none | ⟨exceeded, -⟩
      · exact counts.mp none
      · omega
    · intro exceeded
      rcases cases with none | ⟨-, length⟩
      · omega
      · exact length

theorem asDocumented_divided (ndebug : Bool) {ps : List ℕ} (f : List ℕ) (maxFactors : ℕ) {n : ℕ} (positive : 0 < n)
    (fits : n < (2 ^ 64) ^ maxlen) (accepted : ∀ p ∈ ps, p.Prime ∧ p % 2 = 1 ∧ p ≤ maxP) :
    AsDocumented ps f n maxFactors (trialDivide ndebug (divisors ps) f (.ofInt n) maxFactors) ↔
      found ps n ≤ maxFactors ∨ f.length = 1 := by
  have primes : ∀ p ∈ ps, p.Prime := fun p mem => (accepted p mem).1
  have out := divideFirst_spec primes maxFactors positive.ne'
  rw [trialDivide_ok ndebug f maxFactors positive fits accepted, AsDocumented, Int.natAbs_natCast]
  constructor
  · rintro ⟨returned, g, rest, same, -, -, -, more⟩
    rcases Nat.lt_or_ge maxFactors (found ps n) with exceeded | within
    · have size : (f ++ (divideFirst maxFactors ps n).1).length = returned := congrArg Prod.fst (Except.ok.inj same)
      have length := out.length
      rw [List.length_append, more exceeded] at size
      right
      omega
    · exact .inl within
  · intro cases
    refine ⟨_, _, _, rfl, by exact_mod_cast out.prod, out.mem, ?_, ?_⟩
    · intro within p mem
      exact out.count primes positive.ne' within mem
    · intro exceeded
      have length := out.length
      rw [List.length_append]
      omega

/-- The promise is kept for the positive numbers of at most eight words whose primes do not exceed the limit. When
they do, the returned value is the new length of the list. -/
theorem trialDivide_iff (ndebug : Bool) {primes : List ℕ} {skip : ℕ} (le : skip ≤ primes.length)
    (accepted : ∀ p ∈ primes.drop skip, p.Prime ∧ p % 2 = 1 ∧ p ≤ maxP) (f : List ℕ) {N : ℤ} (nonzero : N ≠ 0)
    (maxFactors : ℕ) :
    ∃ ds, trialdivData ndebug primes skip = .ok ds ∧
      (AsDocumented (primes.drop skip) f N maxFactors (trialDivide ndebug ds f (.ofInt N) maxFactors) ↔
        (0 < N ∧ (N < (2 ^ 64) ^ maxlen ∨ maxFactors = 0) ∧
          (found (primes.drop skip) N.natAbs ≤ maxFactors ∨ f.length = 1)) ∨
        (N < 0 ∧ (found (primes.drop skip) N.natAbs = 0 ∨
          maxFactors < found (primes.drop skip) N.natAbs ∧ f.length = maxFactors + 1))) := by
  refine ⟨_, trialdivData_ok ndebug le fun p mem => (accepted p mem).2, ?_⟩
  rcases lt_or_gt_of_ne nonzero with negative | positive
  · rw [trialDivide_idle ndebug _ f (.inl (by omega)), asDocumented_idle]
    constructor
    · exact fun kept => .inr ⟨negative, kept⟩
    · rintro (⟨positive, -⟩ | ⟨-, kept⟩)
      · omega
      · exact kept
  · have other : ¬ N < 0 := by omega
    simp only [positive, other, true_and, false_and, or_false]
    by_cases fits : N < (2 ^ 64) ^ maxlen
    · obtain ⟨n, rfl⟩ := Int.eq_ofNat_of_zero_le positive.le
      rw [asDocumented_divided ndebug f maxFactors (by omega) (by exact_mod_cast fits) accepted, Int.natAbs_natCast]
      simp only [fits, true_or, true_and]
    · by_cases none : maxFactors = 0
      · rw [trialDivide_idle ndebug _ f (.inr none), asDocumented_idle, none]
        simp only [fits, false_or, true_and]
        omega
      · rw [trialDivide_long ndebug _ f (by omega) none]
        simp only [fits, none, or_self, false_and, iff_false]
        rintro ⟨returned, g, rest, same, -⟩
        cases same

theorem trialDivide_iff_three :
    ∃ ds, trialdivData false [3, 5] 0 = .ok ds ∧
      (AsDocumented [3, 5] [] 45 2 (trialDivide false ds [] (.ofInt 45) 2) ↔
        ((0 : ℤ) < 45 ∧ ((45 : ℤ) < (2 ^ 64) ^ maxlen ∨ 2 = 0) ∧
          (found [3, 5] (45 : ℤ).natAbs ≤ 2 ∨ ([] : List ℕ).length = 1)) ∨
        ((45 : ℤ) < 0 ∧ (found [3, 5] (45 : ℤ).natAbs = 0 ∨
          2 < found [3, 5] (45 : ℤ).natAbs ∧ ([] : List ℕ).length = 2 + 1))) :=
  trialDivide_iff false (show 0 ≤ [3, 5].length by decide) (by
    intro p mem
    rcases List.mem_cons.mp mem with rfl | mem
    · exact ⟨by norm_num, rfl, by rw [maxP_eq]; norm_num⟩
    · obtain rfl := List.mem_singleton.mp mem
      exact ⟨by norm_num, rfl, by rw [maxP_eq]; norm_num⟩) [] (by decide) 2

theorem limit_not_reported :
    ∃ ds, trialdivData false [3] 0 = .ok ds ∧ ¬ AsDocumented [3] [] 9 1 (trialDivide false ds [] (.ofInt 9) 1) := by
  have accepted : ∀ p ∈ [3], p.Prime ∧ p % 2 = 1 ∧ p ≤ maxP := by
    intro p mem
    obtain rfl := List.mem_singleton.mp mem
    exact ⟨Nat.prime_three, rfl, by rw [maxP_eq]; norm_num⟩
  have two : found [3] 9 = 2 := by
    have prime : Fact (Nat.Prime 3) := ⟨Nat.prime_three⟩
    change padicValNat 3 (3 ^ 2) + 0 = 2
    rw [padicValNat.prime_pow]
  refine ⟨_, trialdivData_ok false (Nat.zero_le _) fun p mem => (accepted p mem).2, fun promise => ?_⟩
  have cases := (asDocumented_divided false [] 1 (n := 9) (by norm_num) (by norm_num [maxlen]) accepted).mp promise
  rw [two] at cases
  rcases cases with within | one
  · omega
  · cases one

end CadoNfs.Sieve.Trialdiv
