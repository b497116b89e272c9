import CadoNfs.Lib.PrimeTable

/-!
# The primes one after the other

`utils/getprime.c`: a sieve of Eratosthenes that moves a window over the odd numbers, with a table of small primes
that grows with it. A loop that does not end, an overflow of a `long` and a failed assertion are `none`.
-/

namespace CadoNfs.Utils.Getprime
open Lib

structure SmallPrime where
  p : ℕ
  modulus : ℕ
  deriving DecidableEq

structure PrimeInfo where
  offset : ℕ
  current : ℕ
  small : List SmallPrime
  sieve : List Bool
  len : ℕ
  deriving DecidableEq

def primeInfoInit : PrimeInfo where
  offset := 3
  current := 0
  small := []
  sieve := []
  len := 0

def primeInfoSeek (pi : PrimeInfo) (lowerBound : ℕ) : PrimeInfo :=
  let lowerBound := lowerBound + if lowerBound < 2 then 1 else 0
  let lowerBound := lowerBound + if lowerBound < 2 then 1 else 0
  let lowerBound := if 3 ≤ lowerBound ∧ lowerBound % 2 = 0 then lowerBound + 1 else lowerBound
  { pi with offset := lowerBound, len := 0, small := [] }

def modulus (offset p : ℕ) : ℕ :=
  let j := offset % p
  let j := if j = 0 then j else p - j
  let j := if j % 2 ≠ 0 then (j + p) % 2 ^ 32 else j
  j / 2

def smallPrimesTableBootstrap (pi : PrimeInfo) : PrimeInfo :=
  let offset := if pi.offset ≤ 3 then 3 else pi.offset
  { pi with offset, small := [⟨3, modulus offset 3 + if offset = 3 then 3 else 0⟩] }

def lastPrime (small : List SmallPrime) : ℕ := (small.getLast?.map SmallPrime.p).getD 0

def sievingMaxReach (small : List SmallPrime) : ℕ := lastPrime small * lastPrime small

def nextPrime (small : List SmallPrime) : ℕ → ℕ → Option ℕ
  | 0, _ => none
  | fuel + 1, p =>
    let p := (p + 2) % 2 ^ 32
    if small.all fun q => p % q.p ≠ 0 then some p else nextPrime small fuel p

def addPrimes (offset : ℕ) : ℕ → ℕ → List SmallPrime → Option (List SmallPrime)
  | 0, _, small => some small
  | count + 1, p, small => do
    let p ← nextPrime small (2 ^ 31) p
    addPrimes offset count p (small ++ [⟨p, modulus offset p⟩])

def smallPrimesTableExpand (limit offset : ℕ) : ℕ → List SmallPrime → Option (List SmallPrime)
  | 0, _ => none
  | fuel + 1, small =>
    if sievingMaxReach small < limit then do
      let small ← addPrimes offset small.length (lastPrime small) small
      smallPrimesTableExpand limit offset fuel small
    else some small

def doubleLen (offset : ℕ) : ℕ → ℕ → Option ℕ
  | 0, _ => none
  | fuel + 1, len =>
    if 2 ^ 63 ≤ len * len then none
    else if len * len < offset then doubleLen offset fuel (len * 2)
    else some len

def sievingTableExpand (len offset : ℕ) : Option ℕ := doubleLen offset 64 (len + if len = 0 then 1 else 0)

def strike (len p : ℕ) : ℕ → ℕ → List Bool → List Bool × ℕ
  | 0, k, sieve => (sieve, k)
  | fuel + 1, k, sieve => if k < len then strike len p fuel (k + p) (sieve.set k false) else (sieve, k)

def sieveMore (len : ℕ) : List SmallPrime → List Bool → List Bool × List SmallPrime
  | [], sieve => (sieve, [])
  | q :: small, sieve =>
    let (sieve, k) := strike len q.p len q.modulus sieve
    let (sieve, small) := sieveMore len small sieve
    (sieve, { q with modulus := (k - len) % 2 ^ 32 } :: small)

def sieveFind (pi : PrimeInfo) : ℕ × PrimeInfo :=
  match (List.range' pi.current (pi.len - pi.current)).find? fun i => pi.sieve.getD i false with
  | some i => ((pi.offset + 2 * i) % 2 ^ 64, { pi with current := i + 1 })
  | none => (0, { pi with current := max pi.current pi.len })

def refill (pi : PrimeInfo) : Option PrimeInfo := do
  let pi := { pi with offset := (pi.offset + 2 * pi.len) % 2 ^ 64 }
  let pi := if pi.small = [] then smallPrimesTableBootstrap pi else pi
  let len ← sievingTableExpand pi.len pi.offset
  let small ← smallPrimesTableExpand ((pi.offset + 2 * len) % 2 ^ 64) pi.offset 33 pi.small
  let (sieve, small) := sieveMore len small (List.replicate (len + 1) true)
  return { pi with len, small, sieve, current := 0 }

def getprimeMt (pi : PrimeInfo) : Option (ℕ × PrimeInfo) :=
  let (p, pi) := sieveFind pi
  if p ≠ 0 then some (p, pi)
  else if pi.offset ≤ 2 then some (2, { pi with offset := 3 })
  else do
    let pi ← refill pi
    let (p, pi) := sieveFind pi
    if p ≠ 0 then some (p, pi) else none

def getprimes : ℕ → PrimeInfo → Option (List ℕ × PrimeInfo)
  | 0, pi => some ([], pi)
  | n + 1, pi => do
    let (p, pi) ← getprimeMt pi
    let (ps, pi) ← getprimes n pi
    return (p :: ps, pi)

/-! ## The table of small primes -/

/-- `modulus` is where `p` next strikes the window at `o`, at a proper multiple. -/
structure Marks (o : ℕ) (q : SmallPrime) : Prop where
  positive : 0 < q.p
  small : q.p < 2 ^ 31
  bounded : q.modulus < 2 ^ 31
  strikes (i : ℕ) : (q.modulus ≤ i ∧ q.p ∣ i - q.modulus) ↔ (q.p ∣ o + 2 * i ∧ q.p < o + 2 * i)

theorem marks_three : Marks 3 ⟨3, modulus 3 3 + 3⟩ where
  positive := by decide
  small := by decide
  bounded := by decide
  strikes i := by
    have three : modulus 3 3 + 3 = 3 := by decide
    simp only [three]
    omega

theorem modulus_spec {o p : ℕ} (odd : p % 2 = 1) (small : p < 2 ^ 31) :
    p ∣ o + 2 * modulus o p ∧ modulus o p < p := by
  have positive : 0 < p := by omega
  have below := Nat.mod_lt o positive
  have whole := Nat.div_add_mod o p
  unfold modulus
  generalize o % p = r at below whole ⊢
  simp only
  by_cases zero : r = 0
  · rw [if_pos zero, zero, if_neg (by decide)]
    exact ⟨⟨o / p, by omega⟩, by omega⟩
  · rw [if_neg zero]
    by_cases parity : (p - r) % 2 = 0
    · rw [if_neg (by omega)]
      exact ⟨⟨o / p + 1, by rw [mul_add]; omega⟩, by omega⟩
    · rw [if_pos parity, Nat.mod_eq_of_lt (by omega)]
      exact ⟨⟨o / p + 2, by rw [mul_add]; omega⟩, by omega⟩

theorem marks_modulus {o p : ℕ} (odd : p % 2 = 1) (small : p < 2 ^ 31) (below : p < o) : Marks o ⟨p, modulus o p⟩ := by
  obtain ⟨dvd, least⟩ := modulus_spec (o := o) odd small
  have coprime : Nat.Coprime p 2 := Nat.coprime_two_right.mpr (Nat.odd_iff.mpr odd)
  refine ⟨by simp only; omega, small, least.trans small, fun i => ⟨?_, ?_⟩⟩
  · rintro ⟨after, divides⟩
    refine ⟨?_, by simp only; omega⟩
    have sum : o + 2 * i = o + 2 * modulus o p + 2 * (i - modulus o p) := by simp only at after; omega
    rw [sum]
    exact dvd_add dvd (divides.mul_left 2)
  · rintro ⟨divides, -⟩
    simp only at divides ⊢
    by_cases after : modulus o p ≤ i
    · have difference : 2 * (i - modulus o p) = o + 2 * i - (o + 2 * modulus o p) := by omega
      have dvd' : p ∣ 2 * (i - modulus o p) := difference ▸ Nat.dvd_sub divides dvd
      exact ⟨after, coprime.dvd_of_dvd_mul_left dvd'⟩
    · -- `modulus` is the least
      have difference : 2 * (modulus o p - i) = o + 2 * modulus o p - (o + 2 * i) := by omega
      have dvd' : p ∣ 2 * (modulus o p - i) := difference ▸ Nat.dvd_sub dvd divides
      have := Nat.le_of_dvd (by omega) (coprime.dvd_of_dvd_mul_left dvd')
      omega

structure Table (o k : ℕ) (small : List SmallPrime) : Prop where
  primes : small.map SmallPrime.p = (List.range k).map fun i => oddPrime (i + 1)
  marks : ∀ q ∈ small, Marks o q

theorem Table.length {o k : ℕ} {small : List SmallPrime} (table : Table o k small) : small.length = k := by
  have := congrArg List.length table.primes
  simpa using this

theorem Table.lastPrime {o k : ℕ} {small : List SmallPrime} (table : Table o k small) (nonempty : 1 ≤ k) :
    lastPrime small = oddPrime k := by
  rw [Getprime.lastPrime, ← List.getLast?_map, table.primes, List.getLast?_map, List.getLast?_range,
    if_neg (by omega)]
  simp [Nat.sub_add_cancel nonempty]

theorem Table.exists_mem {o k i : ℕ} {small : List SmallPrime} (table : Table o k small) (positive : 1 ≤ i)
    (inside : i ≤ k) : ∃ q ∈ small, q.p = oddPrime i := by
  have mem : oddPrime i ∈ small.map SmallPrime.p := by
    rw [table.primes]
    exact List.mem_map.mpr ⟨i - 1, List.mem_range.mpr (by omega), by rw [Nat.sub_add_cancel positive]⟩
  exact List.mem_map.mp mem

theorem Table.eq_oddPrime {o k : ℕ} {small : List SmallPrime} (table : Table o k small) {q : SmallPrime}
    (mem : q ∈ small) : ∃ i, 1 ≤ i ∧ i ≤ k ∧ oddPrime i = q.p := by
  have mem' : q.p ∈ small.map SmallPrime.p := List.mem_map_of_mem mem
  rw [table.primes] at mem'
  obtain ⟨i, inside, equal⟩ := List.mem_map.mp mem'
  exact ⟨i + 1, by omega, List.mem_range.mp inside, equal⟩

theorem Table.prime_iff {o k c : ℕ} {small : List SmallPrime} (table : Table o k small) (odd : c % 2 = 1)
    (above : oddPrime k < c) (below : c ≤ oddPrime (k + 1)) :
    (small.all fun q => c % q.p ≠ 0) = true ↔ c.Prime := by
  rw [List.all_eq_true]
  constructor
  · intro none
    by_contra composite
    have large := (oddPrime_prime k).two_le
    have least : c.minFac.Prime := Nat.minFac_prime (by omega)
    have smaller : c.minFac < c := (Nat.not_prime_iff_minFac_lt (by omega)).mp composite
    have odd' : c.minFac ≠ 2 := by
      intro two
      have := two ▸ Nat.minFac_dvd c
      omega
    obtain ⟨i, positive, -, equal⟩ := exists_oddPrime least odd' (smaller.le.trans below)
    have inside : i ≤ k := by
      rw [← Nat.lt_succ_iff, ← oddPrime_strictMono.lt_iff_lt, equal]
      exact smaller.trans_le below
    obtain ⟨q, mem, same⟩ := table.exists_mem positive inside
    have := none q mem
    rw [same, equal, decide_eq_true_eq] at this
    exact this (Nat.mod_eq_zero_of_dvd (Nat.minFac_dvd c))
  · intro prime q mem
    obtain ⟨i, positive, inside, equal⟩ := table.eq_oddPrime mem
    rw [decide_eq_true_eq, ← equal]
    intro divides
    have same := (Nat.prime_dvd_prime_iff_eq (oddPrime_prime i) prime).mp (Nat.dvd_of_mod_eq_zero divides)
    have := oddPrime_strictMono.monotone inside
    omega

theorem nextPrime_spec {o k fuel p : ℕ} {small : List SmallPrime} (table : Table o k small) (odd : p % 2 = 1)
    (above : oddPrime k ≤ p) (below : p < oddPrime (k + 1)) (limit : oddPrime (k + 1) < 2 ^ 31)
    (enough : oddPrime (k + 1) ≤ p + 2 * fuel) : nextPrime small fuel p = some (oddPrime (k + 1)) := by
  have odd' := oddPrime_odd (show 1 ≤ k + 1 by omega)
  induction fuel generalizing p with
  | zero => omega
  | succ fuel ih =>
    rw [nextPrime, Nat.mod_eq_of_lt (by omega)]
    have inside : p + 2 ≤ oddPrime (k + 1) := by omega
    by_cases prime : (p + 2).Prime
    · rw [if_pos ((table.prime_iff (by omega) (by omega) inside).mpr prime)]
      obtain ⟨i, -, -, equal⟩ := exists_oddPrime prime (by omega) inside
      have after : k < i := by
        rw [← oddPrime_strictMono.lt_iff_lt, equal]
        omega
      have reached := oddPrime_strictMono.monotone (Nat.succ_le_of_lt after)
      rw [equal] at reached
      rw [le_antisymm inside reached]
    · rw [if_neg (fun all => prime ((table.prime_iff (by omega) (by omega) inside).mp all))]
      refine ih (by omega) (by omega) ?_ (by omega)
      refine lt_of_le_of_ne inside fun equal => prime ?_
      rw [equal]
      exact oddPrime_prime (k + 1)

theorem Table.push {o k : ℕ} {small : List SmallPrime} (table : Table o k small) (below : oddPrime (k + 1) < o)
    (limit : oddPrime (k + 1) < 2 ^ 31) :
    Table o (k + 1) (small ++ [⟨oddPrime (k + 1), modulus o (oddPrime (k + 1))⟩]) where
  primes := by rw [List.map_append, table.primes, List.range_succ, List.map_append]; rfl
  marks q mem := by
    rcases List.mem_append.mp mem with mem | mem
    · exact table.marks q mem
    · rw [List.mem_singleton.mp mem]
      exact marks_modulus (oddPrime_odd (by omega)) limit below

theorem addPrimes_spec {o k : ℕ} {small : List SmallPrime} (count : ℕ) (table : Table o k small) (nonempty : 1 ≤ k)
    (below : oddPrime (k + count) < o) (limit : oddPrime (k + count) < 2 ^ 31) :
    ∃ small', addPrimes o count (oddPrime k) small = some small' ∧ Table o (k + count) small' := by
  induction count generalizing k small with
  | zero => exact ⟨small, rfl, table⟩
  | succ count ih =>
    rw [show k + (count + 1) = k + 1 + count by omega] at below limit ⊢
    have reached : oddPrime (k + 1) ≤ oddPrime (k + 1 + count) := oddPrime_strictMono.monotone (by omega)
    have next : nextPrime small (2 ^ 31) (oddPrime k) = some (oddPrime (k + 1)) :=
      nextPrime_spec table (oddPrime_odd nonempty) le_rfl (oddPrime_strictMono (Nat.lt_add_one k))
        (reached.trans_lt limit) (by omega)
    obtain ⟨small', added, table'⟩ :=
      ih (table.push (by omega) (by omega)) (Nat.le_succ_of_le nonempty) below limit
    exact ⟨small', by rw [addPrimes, next]; exact added, table'⟩

/-- The end of the largest window for which the table stays below `2 ^ 31`. -/
noncomputable def reach : ℕ := oddPrime (2 ^ 26) ^ 2

theorem reach_lt : reach < 2 ^ 62 := by
  have := oddPrime_lt_two_pow le_rfl
  calc reach < (2 ^ 31) ^ 2 := Nat.pow_lt_pow_left this (by norm_num)
    _ = 2 ^ 62 := by norm_num

theorem le_reach : 2 ^ 54 ≤ reach := by
  have far := double_le_oddPrime (k := 2 ^ 26) (by norm_num)
  calc 2 ^ 54 = (2 * 2 ^ 26) ^ 2 := by norm_num
    _ ≤ reach := Nat.pow_le_pow_left (by omega) 2

theorem smallPrimesTableExpand_spec {o len t fuel : ℕ} {small : List SmallPrime} (table : Table o (2 ^ t) small)
    (inReach : o + 2 * len ≤ reach) (short : len ^ 2 < 4 * o) (large : 7 ≤ o ∨ o + 2 * len ≤ 9) (few : t ≤ 26)
    (enough : 27 ≤ fuel + t) : ∃ t' small', smallPrimesTableExpand (o + 2 * len) o fuel small = some small' ∧
      t' ≤ 26 ∧ Table o (2 ^ t') small' ∧ o + 2 * len ≤ oddPrime (2 ^ t') ^ 2 := by
  have nonempty : 1 ≤ 2 ^ t := Nat.one_le_two_pow
  induction fuel generalizing t small with
  | zero => omega
  | succ fuel ih =>
    have maxReach : sievingMaxReach small = oddPrime (2 ^ t) ^ 2 := by
      rw [sievingMaxReach, table.lastPrime nonempty, sq]
    rw [smallPrimesTableExpand, maxReach]
    by_cases wide : oddPrime (2 ^ t) ^ 2 < o + 2 * len
    · have fewer : t < 26 := by
        have := lt_of_pow_lt_pow_left₀ 2 (Nat.zero_le _) (wide.trans_le inReach)
        exact (Nat.pow_lt_pow_iff_right (by norm_num)).mp (oddPrime_strictMono.lt_iff_lt.mp this)
      have large' : 7 ≤ o := by
        refine large.resolve_right fun tiny => ?_
        have := three_le_oddPrime nonempty
        nlinarith
      have double : 2 ^ t + 2 ^ t = 2 ^ (t + 1) := by rw [pow_succ]; omega
      have added := addPrimes_spec (2 ^ t) table nonempty
      rw [double] at added
      obtain ⟨small', added, table'⟩ := added (oddPrime_double_lt wide short large')
        (oddPrime_lt_two_pow (Nat.pow_le_pow_right (by norm_num) (by omega)))
      rw [if_pos wide, table.length, table.lastPrime nonempty, added]
      exact ih table' (by omega) (by omega) Nat.one_le_two_pow
    · rw [if_neg wide]
      exact ⟨t, small, rfl, few, table, not_lt.mp wide⟩

/-! ## The length of the window -/

def windowLen (o : ℕ) : ℕ := 2 ^ Nat.clog 4 o

theorem le_windowLen_sq (o : ℕ) : o ≤ windowLen o ^ 2 := by
  rw [windowLen, ← pow_mul, mul_comm, pow_mul]
  exact Nat.le_pow_clog (by norm_num) o

theorem windowLen_sq_lt {o : ℕ} (positive : 1 ≤ o) : windowLen o ^ 2 < 4 * o := by
  rw [windowLen, ← pow_mul, mul_comm, pow_mul]
  norm_num
  rcases positive.eq_or_lt with rfl | large
  · norm_num
  · have below : 4 ^ (Nat.clog 4 o - 1) < o := Nat.pow_pred_clog_lt_self (by norm_num) large
    have some : 1 ≤ Nat.clog 4 o := Nat.clog_pos (by norm_num) large
    calc 4 ^ Nat.clog 4 o = 4 * 4 ^ (Nat.clog 4 o - 1) := by rw [← pow_succ', Nat.sub_add_cancel some]
      _ < 4 * o := by omega

theorem doubleLen_spec {o a fuel : ℕ} (limit : o < 2 ^ 62) (small : a ≤ Nat.clog 4 o)
    (enough : Nat.clog 4 o < fuel + a) : doubleLen o fuel (2 ^ a) = some (windowLen o) := by
  have most : Nat.clog 4 o ≤ 31 := Nat.clog_le_of_le_pow (limit.le.trans (by norm_num))
  induction fuel generalizing a with
  | zero => omega
  | succ fuel ih =>
    have square : 2 ^ a * 2 ^ a = 4 ^ a := by
      rw [← mul_pow]
      norm_num
    have fits : 4 ^ a < 2 ^ 63 :=
      (Nat.pow_le_pow_right (by norm_num) (small.trans most)).trans_lt (by norm_num : 4 ^ 31 < 2 ^ 63)
    rw [doubleLen, square, if_neg (not_le.mpr fits)]
    by_cases short : 4 ^ a < o
    · rw [if_pos short, ← pow_succ]
      exact ih ((Nat.lt_clog_iff_pow_lt (by norm_num)).mpr short) (by omega)
    · have least : Nat.clog 4 o ≤ a := (Nat.clog_le_iff_le_pow (by norm_num)).mpr (not_lt.mp short)
      rw [if_neg short, windowLen, le_antisymm small least]

theorem sievingTableExpand_zero {o : ℕ} (limit : o < 2 ^ 62) : sievingTableExpand 0 o = some (windowLen o) := by
  have most : Nat.clog 4 o ≤ 31 := Nat.clog_le_of_le_pow (limit.le.trans (by norm_num))
  exact doubleLen_spec (a := 0) limit (Nat.zero_le _) (by omega)

theorem sievingTableExpand_windowLen {o o' : ℕ} (later : o ≤ o') (limit : o' < 2 ^ 62) :
    sievingTableExpand (windowLen o) o' = some (windowLen o') := by
  have most : Nat.clog 4 o' ≤ 31 := Nat.clog_le_of_le_pow (limit.le.trans (by norm_num))
  rw [sievingTableExpand, if_neg (by rw [windowLen]; positivity), add_zero]
  exact doubleLen_spec limit (Nat.clog_mono_right 4 later) (by omega)

theorem getD_set (sieve : List Bool) (k i : ℕ) :
    (sieve.set k false).getD i false = (sieve.getD i false && decide (i ≠ k)) := by
  by_cases same : i = k
  · subst same
    by_cases inside : i < sieve.length
    · simp [inside]
    · simp [not_lt.mp inside]
  · simp [List.getD, List.getElem?_set_ne (Ne.symm same), same]

theorem progression_iff {p k i : ℕ} : (k ≤ i ∧ p ∣ i - k) ↔ i = k ∨ (k + p ≤ i ∧ p ∣ i - (k + p)) := by
  constructor
  · rintro ⟨after, divides⟩
    rcases after.eq_or_lt with rfl | after
    · exact .inl rfl
    · have step := Nat.le_of_dvd (by omega) divides
      refine .inr ⟨by omega, ?_⟩
      rw [← Nat.sub_sub]
      exact Nat.dvd_sub divides dvd_rfl
  · rintro (rfl | ⟨after, divides⟩)
    · exact ⟨le_rfl, by simp⟩
    · refine ⟨by omega, ?_⟩
      rw [show i - k = i - (k + p) + p by omega]
      exact dvd_add divides dvd_rfl

theorem strike_spec {len p fuel k : ℕ} (sieve : List Bool) (positive : 0 < p) (enough : len ≤ fuel + k) :
    (∀ i < len, (strike len p fuel k sieve).1.getD i false =
      (sieve.getD i false && !decide (k ≤ i ∧ p ∣ i - k))) ∧
    (∀ i, ((strike len p fuel k sieve).2 - len ≤ i ∧ p ∣ i - ((strike len p fuel k sieve).2 - len)) ↔
      (k ≤ len + i ∧ p ∣ len + i - k)) ∧
    (strike len p fuel k sieve).2 - len ≤ max (k - len) p := by
  have stop : ∀ k, len ≤ k → ∀ sieve : List Bool, (∀ i < len, sieve.getD i false =
      (sieve.getD i false && !decide (k ≤ i ∧ p ∣ i - k))) ∧
      (∀ i, (k - len ≤ i ∧ p ∣ i - (k - len)) ↔ (k ≤ len + i ∧ p ∣ len + i - k)) ∧
      k - len ≤ max (k - len) p := by
    refine fun k past sieve => ⟨fun i inside => ?_, fun i => ?_, ?_⟩
    · have before : ¬ (k ≤ i ∧ p ∣ i - k) := fun both => by omega
      simp [before]
    · rw [show i - (k - len) = len + i - k by omega, show k - len ≤ i ↔ k ≤ len + i by omega]
    · omega
  induction fuel generalizing k sieve with
  | zero => exact stop k (by omega) sieve
  | succ fuel ih =>
    rw [strike]
    by_cases inside : k < len
    · rw [if_pos inside]
      obtain ⟨values, later, bound⟩ := ih (k := k + p) (sieve.set k false) (by omega)
      refine ⟨fun i below => ?_, fun i => (later i).trans ?_, ?_⟩
      · rw [values i below, getD_set, Bool.and_assoc]
        congr 1
        rw [← decide_not, ← decide_not, ← Bool.decide_and]
        refine decide_eq_decide.mpr ?_
        rw [progression_iff (k := k), not_or]
      · rw [progression_iff (i := len + i) (k := k)]
        exact (or_iff_right (by omega)).symm
      · omega
    · rw [if_neg inside]
      exact stop k (not_lt.mp inside) sieve

theorem sieveMore_spec {o : ℕ} {small : List SmallPrime} (len : ℕ) (marks : ∀ q ∈ small, Marks o q)
    (sieve : List Bool) :
    (∀ i < len, (sieveMore len small sieve).1.getD i false =
      (sieve.getD i false && decide (∀ q ∈ small, ¬ (q.p ∣ o + 2 * i ∧ q.p < o + 2 * i)))) ∧
    (sieveMore len small sieve).2.map SmallPrime.p = small.map SmallPrime.p ∧
    ∀ q ∈ (sieveMore len small sieve).2, Marks (o + 2 * len) q := by
  induction small generalizing sieve with
  | nil => exact ⟨fun i _ => by simp [sieveMore], rfl, fun q mem => (List.not_mem_nil mem).elim⟩
  | cons q small ih =>
    have mark := marks q (.head _)
    obtain ⟨values, later, bound⟩ := strike_spec sieve mark.positive (Nat.le_add_right len q.modulus)
    obtain ⟨values', primes, marks'⟩ :=
      ih (fun q mem => marks q (.tail _ mem)) (strike len q.p len q.modulus sieve).1
    have fits : (strike len q.p len q.modulus sieve).2 - len < 2 ^ 31 := by
      have := mark.small
      have := mark.bounded
      omega
    refine ⟨fun i inside => ?_, ?_, ?_⟩
    · rw [sieveMore]
      simp only
      rw [values' i inside, values i inside, Bool.and_assoc]
      congr 1
      rw [← decide_not, ← Bool.decide_and]
      refine decide_eq_decide.mpr ?_
      rw [mark.strikes i, List.forall_mem_cons]
    · rw [sieveMore]
      simp only [List.map_cons, primes]
    · intro r mem
      rw [sieveMore] at mem
      simp only [Nat.mod_eq_of_lt (fits.trans (by norm_num : 2 ^ 31 < 2 ^ 32))] at mem
      rcases List.mem_cons.mp mem with rfl | mem
      · refine ⟨mark.positive, mark.small, fits, fun i => (later i).trans ?_⟩
        rw [mark.strikes (len + i), mul_add, add_assoc]
      · exact marks' r mem

theorem Table.sieved_iff {o k n : ℕ} {small : List SmallPrime} (table : Table o k small) (odd : n % 2 = 1)
    (least : 3 ≤ n) (inside : n < oddPrime k ^ 2) : (∀ q ∈ small, ¬ (q.p ∣ n ∧ q.p < n)) ↔ n.Prime := by
  constructor
  · intro none
    by_contra composite
    have prime : n.minFac.Prime := Nat.minFac_prime (by omega)
    have odd' : n.minFac ≠ 2 := by
      intro two
      have := two ▸ Nat.minFac_dvd n
      omega
    have square : n.minFac ^ 2 ≤ n := Nat.minFac_sq_le_self (by omega) composite
    have small := lt_of_pow_lt_pow_left₀ 2 (Nat.zero_le _) (square.trans_lt inside)
    obtain ⟨i, positive, inside, equal⟩ := exists_oddPrime prime odd' small.le
    obtain ⟨q, mem, same⟩ := table.exists_mem positive inside
    refine none q mem ⟨?_, ?_⟩
    · rw [same, equal]
      exact Nat.minFac_dvd n
    · rw [same, equal]
      exact (Nat.not_prime_iff_minFac_lt (by omega)).mp composite
  · rintro prime q mem ⟨divides, smaller⟩
    obtain ⟨i, -, -, equal⟩ := table.eq_oddPrime mem
    rw [← equal] at divides smaller
    have same := (Nat.prime_dvd_prime_iff_eq (oddPrime_prime i) prime).mp divides
    omega

structure Window (pi : PrimeInfo) : Prop where
  odd : pi.offset % 2 = 1
  least : 3 ≤ pi.offset
  len : pi.len = windowLen pi.offset
  table : ∃ t, t ≤ 26 ∧ Table (pi.offset + 2 * pi.len) (2 ^ t) pi.small
  sieved : ∀ i < pi.len, pi.sieve.getD i false = true ↔ (pi.offset + 2 * i).Prime
  inReach : pi.offset + 2 * pi.len ≤ reach
  current : pi.current ≤ pi.len

theorem bootstrap_table {o : ℕ} (least : 3 ≤ o) : Table o 1 [⟨3, modulus o 3 + if o = 3 then 3 else 0⟩] where
  primes := by simp [oddPrime_one]
  marks q mem := by
    rw [List.mem_singleton.mp mem]
    split_ifs with three
    · rw [three]
      exact marks_three
    · exact marks_modulus (by norm_num) (by norm_num) (by omega)

theorem bootstrap_eq {pi : PrimeInfo} {o : ℕ} (least : 3 ≤ o) : smallPrimesTableBootstrap { pi with offset := o } =
    { pi with offset := o, small := [⟨3, modulus o 3 + if o = 3 then 3 else 0⟩] } := by
  have same : (if o ≤ 3 then 3 else o) = o := by split_ifs <;> omega
  rw [smallPrimesTableBootstrap]
  simp only [same]

theorem windowLen_three : windowLen 3 = 2 := by
  rw [windowLen, Nat.clog_eq_one (by norm_num) (by norm_num), pow_one]

theorem refill_spec {pi : PrimeInfo} {o : ℕ} (odd : o % 2 = 1) (least : 3 ≤ o) (notFive : o ≠ 5)
    (offset : pi.offset + 2 * pi.len = o) (len : sievingTableExpand pi.len o = some (windowLen o))
    (start : pi.small = [] ∨ ∃ t, t ≤ 26 ∧ Table o (2 ^ t) pi.small)
    (inReach : o + 2 * windowLen o ≤ reach) :
    ∃ pi', refill pi = some pi' ∧ Window pi' ∧ pi'.offset = o ∧ pi'.current = 0 := by
  have limit := inReach.trans_lt reach_lt
  obtain ⟨small, known⟩ : ∃ small, small = if pi.small = [] then
      [⟨3, modulus o 3 + if o = 3 then 3 else 0⟩] else pi.small := ⟨_, rfl⟩
  have table : ∃ t, t ≤ 26 ∧ Table o (2 ^ t) small := by
    rcases start with empty | ⟨t, few, table⟩
    · rw [known, if_pos empty]
      exact ⟨0, by norm_num, bootstrap_table least⟩
    · have nonempty : pi.small ≠ [] := by
        have length := table.length
        have := Nat.one_le_two_pow (n := t)
        intro empty
        rw [empty, List.length_nil] at length
        omega
      rw [known, if_neg nonempty]
      exact ⟨t, few, table⟩
  obtain ⟨t, few, table⟩ := table
  have large : 7 ≤ o ∨ o + 2 * windowLen o ≤ 9 := by
    rcases least.eq_or_lt with rfl | above
    · rw [windowLen_three]
      omega
    · omega
  obtain ⟨t', small', expanded, few', table', wide⟩ :=
    smallPrimesTableExpand_spec table inReach (windowLen_sq_lt (by omega)) large few (by omega : 27 ≤ 33 + t)
  have spec := sieveMore_spec (windowLen o) table'.marks (List.replicate (windowLen o + 1) true)
  obtain ⟨sieve, small'', more⟩ : ∃ sieve small'',
      sieveMore (windowLen o) small' (List.replicate (windowLen o + 1) true) = (sieve, small'') := ⟨_, _, rfl⟩
  rw [more] at spec
  obtain ⟨values, primes, marks⟩ := spec
  have shifted : (if pi.small = [] then smallPrimesTableBootstrap { pi with offset := o }
      else { pi with offset := o }) = { pi with offset := o, small := small } := by
    rw [known, bootstrap_eq least]
    split_ifs <;> rfl
  have refilled : refill pi = some ⟨o, 0, small'', sieve, windowLen o⟩ := by
    rw [refill, offset, Nat.mod_eq_of_lt (by omega)]
    simp only [shifted, len, Option.bind_eq_bind, Option.bind_some]
    rw [Nat.mod_eq_of_lt (by omega), expanded]
    simp only [Option.bind_some, more]
    rfl
  refine ⟨_, refilled, ⟨odd, least, rfl, ⟨t', few', ⟨primes.trans table'.primes, marks⟩⟩, fun i inside => ?_, inReach,
    Nat.zero_le _⟩, rfl, rfl⟩
  have full : (List.replicate (windowLen o + 1) true).getD i false = true := by
    simp only at inside
    rw [List.getD_replicate _ (by omega)]
  rw [values i inside, full, Bool.true_and, decide_eq_true_eq]
  simp only at inside ⊢
  exact table'.sieved_iff (by omega) (by omega) (by omega)

theorem sieveFind_prime {pi : PrimeInfo} (window : Window pi) {p : ℕ} (prime : p.Prime)
    (after : pi.offset + 2 * pi.current ≤ p) (inside : p < pi.offset + 2 * pi.len) :
    ∃ i, i < pi.len ∧ IsLeast { q | q.Prime ∧ pi.offset + 2 * pi.current ≤ q } (pi.offset + 2 * i) ∧
      sieveFind pi = (pi.offset + 2 * i, { pi with current := i + 1 }) := by
  have odd := window.odd
  have least := window.least
  have inReach := window.inReach.trans_lt reach_lt
  have position : ∀ q, q.Prime → pi.offset + 2 * pi.current ≤ q → q < pi.offset + 2 * pi.len →
      ∃ j, pi.current ≤ j ∧ j < pi.len ∧ pi.offset + 2 * j = q ∧ pi.sieve.getD j false = true := by
    intro q prime after inside
    have odd' := prime.mod_two_eq_one_iff_ne_two.mpr (by omega)
    obtain ⟨j, rfl⟩ : ∃ j, q = pi.offset + 2 * j := ⟨(q - pi.offset) / 2, by omega⟩
    exact ⟨j, by omega, by omega, rfl, (window.sieved j (by omega)).mpr prime⟩
  unfold sieveFind
  cases found : (List.range' pi.current (pi.len - pi.current)).find? fun i => pi.sieve.getD i false with
  | none =>
    obtain ⟨j, low, high, -, marked⟩ := position p prime after inside
    have missed := List.find?_eq_none.mp found j (List.mem_range'_1.mpr (by omega))
    exact (missed marked).elim
  | some i =>
    obtain ⟨marked, mem, first⟩ := List.find?_range'_eq_some.mp found
    obtain ⟨low, high⟩ := List.mem_range'_1.mp mem
    have below : i < pi.len := by omega
    refine ⟨i, below, ⟨⟨(window.sieved i below).mp marked, by omega⟩, ?_⟩, ?_⟩
    · rintro q ⟨prime, after⟩
      by_contra smaller
      obtain ⟨j, low', -, rfl, marked'⟩ := position q prime after (by omega)
      have skipped := first j low' (by omega)
      rw [marked'] at skipped
      cases skipped
    · simp only
      rw [Nat.mod_eq_of_lt (by omega)]

theorem sieveFind_none {pi : PrimeInfo} (window : Window pi)
    (none : ∀ q, q.Prime → pi.offset + 2 * pi.current ≤ q → pi.offset + 2 * pi.len ≤ q) :
    sieveFind pi = (0, { pi with current := max pi.current pi.len }) := by
  have missed : ((List.range' pi.current (pi.len - pi.current)).find? fun i => pi.sieve.getD i false) = .none := by
    refine List.find?_eq_none.mpr fun i mem marked => ?_
    obtain ⟨low, high⟩ := List.mem_range'_1.mp mem
    have := none _ ((window.sieved i (by omega)).mp marked) (by omega)
    omega
  rw [sieveFind, missed]

theorem sieveFind_fresh {pi : PrimeInfo} (empty : pi.len = 0) :
    sieveFind pi = (0, { pi with current := max pi.current 0 }) := by
  rw [sieveFind, empty, Nat.zero_sub]
  rfl

def Meets (pi : PrimeInfo) : Prop :=
  (sieveFind pi).1 = 0 → 3 ≤ pi.offset →
    let o := pi.offset + 2 * pi.len
    o + 2 * windowLen o ≤ reach ∧ ∃ p, p.Prime ∧ o ≤ p ∧ p < o + 2 * windowLen o

inductive Awaits (b : ℕ) (pi : PrimeInfo) : Prop
  | two (len : pi.len = 0) (small : pi.small = []) (offset : pi.offset = 2) (bound : b ≤ 2)
  | fresh (len : pi.len = 0) (small : pi.small = []) (odd : pi.offset % 2 = 1) (least : 3 ≤ pi.offset)
    (notFive : pi.offset ≠ 5) (bound : ∀ p, p.Prime → (b ≤ p ↔ pi.offset ≤ p))
  | window (window : Window pi) (bound : ∀ p, p.Prime → (b ≤ p ↔ pi.offset + 2 * pi.current ≤ p))

theorem Window.next {pi : PrimeInfo} (window : Window pi) {i : ℕ} (inside : i < pi.len) :
    Awaits (pi.offset + 2 * i + 1) { pi with current := i + 1 } := by
  have odd := window.odd
  have least := window.least
  refine .window ⟨window.odd, window.least, window.len, window.table, window.sieved, window.inReach, inside⟩ ?_
  intro q prime'
  simp only
  have odd' := prime'.mod_two_eq_one_iff_ne_two
  omega

theorem getprimeMt_refill {b o c : ℕ} {pi : PrimeInfo} (odd : o % 2 = 1) (least : 3 ≤ pi.offset) (notFive : o ≠ 5)
    (used : sieveFind pi = (0, { pi with current := c })) (offset : pi.offset + 2 * pi.len = o)
    (len : o < 2 ^ 62 → sievingTableExpand pi.len o = some (windowLen o))
    (start : pi.small = [] ∨ ∃ t, t ≤ 26 ∧ Table o (2 ^ t) pi.small) (meets : Meets pi)
    (bound : ∀ p, p.Prime → (b ≤ p ↔ o ≤ p)) :
    ∃ p pi', getprimeMt pi = some (p, pi') ∧ IsLeast { q | q.Prime ∧ b ≤ q } p ∧ Awaits (p + 1) pi' := by
  obtain ⟨inReach, q, prime, after, inside⟩ := meets (congrArg Prod.fst used) least
  rw [offset] at inReach after inside
  have limit := inReach.trans_lt reach_lt
  obtain ⟨pi', refilled, window, offset', current⟩ : ∃ pi', refill { pi with current := c } = some pi' ∧ Window pi' ∧
      pi'.offset = o ∧ pi'.current = 0 :=
    refill_spec odd (by omega) notFive offset (len (by omega)) start inReach
  have length := window.len
  rw [offset'] at length
  subst offset'
  obtain ⟨i, below, first, found⟩ :=
    sieveFind_prime window prime (by rw [current]; omega) (by rw [length]; omega)
  rw [current, mul_zero, add_zero] at first
  have value : pi'.offset + 2 * i ≠ 0 := by omega
  refine ⟨pi'.offset + 2 * i, { pi' with current := i + 1 }, ?_, ?_, window.next below⟩
  · rw [getprimeMt, used]
    simp only
    rw [if_neg (by simp), if_neg (by omega), refilled]
    simp only [Option.bind_eq_bind, Option.bind_some, found]
    rw [if_pos value]
  · refine ⟨⟨first.1.1, (bound _ first.1.1).mpr first.1.2⟩, ?_⟩
    rintro q ⟨prime, after⟩
    exact first.2 ⟨prime, (bound q prime).mp after⟩

theorem two_le_windowLen {o : ℕ} (least : 3 ≤ o) : 2 ≤ windowLen o := by
  have square := le_windowLen_sq o
  by_contra short
  have : windowLen o ^ 2 ≤ 1 := Nat.pow_le_one_iff (by norm_num) |>.mpr (by omega)
  omega

theorem getprimeMt_next {b : ℕ} {pi : PrimeInfo} (awaits : Awaits b pi) (meets : Meets pi) :
    ∃ p pi', getprimeMt pi = some (p, pi') ∧ IsLeast { q | q.Prime ∧ b ≤ q } p ∧ Awaits (p + 1) pi' := by
  cases awaits with
  | two len small offset bound =>
    refine ⟨2, { pi with offset := 3, current := max pi.current 0 }, ?_, ⟨⟨Nat.prime_two, bound⟩, ?_⟩, ?_⟩
    · rw [getprimeMt, sieveFind_fresh len]
      simp only
      rw [if_neg (by simp), if_pos offset.le]
    · exact fun q member => member.1.two_le
    · exact .fresh len small (by simp) (by simp) (by simp) fun p _ => Iff.rfl
  | fresh len small odd least notFive bound =>
    have offset : pi.offset + 2 * pi.len = pi.offset := by rw [len, mul_zero, add_zero]
    refine getprimeMt_refill odd least notFive (sieveFind_fresh len) offset (fun limit => ?_) (.inl small) meets bound
    rw [len]
    exact sievingTableExpand_zero limit
  | window window bound =>
    have least := window.least
    have odd := window.odd
    by_cases more : ∃ q, q.Prime ∧ pi.offset + 2 * pi.current ≤ q ∧ q < pi.offset + 2 * pi.len
    · obtain ⟨q, prime, after, inside⟩ := more
      obtain ⟨i, below, first, found⟩ := sieveFind_prime window prime after inside
      refine ⟨pi.offset + 2 * i, { pi with current := i + 1 }, ?_, ?_, window.next below⟩
      · rw [getprimeMt, found]
        simp only
        rw [if_pos (by omega)]
      · refine ⟨⟨first.1.1, (bound _ first.1.1).mpr first.1.2⟩, ?_⟩
        rintro q ⟨prime, after⟩
        exact first.2 ⟨prime, (bound q prime).mp after⟩
    · have none : ∀ q, q.Prime → pi.offset + 2 * pi.current ≤ q → pi.offset + 2 * pi.len ≤ q := by
        intro q prime after
        by_contra inside
        exact more ⟨q, prime, after, not_le.mp inside⟩
      have wide := two_le_windowLen least
      rw [← window.len] at wide
      refine getprimeMt_refill (o := pi.offset + 2 * pi.len) (by omega) least (by omega) (sieveFind_none window none)
        rfl (fun limit => ?_) (.inr window.table) meets fun p prime => ?_
      · have expanded := sievingTableExpand_windowLen (Nat.le_add_right pi.offset (2 * pi.len)) limit
        rwa [← window.len] at expanded
      · rw [bound p prime]
        have current := window.current
        exact ⟨none p prime, fun after => by omega⟩

def RunMeets : ℕ → PrimeInfo → Prop
  | 0, _ => True
  | n + 1, pi => Meets pi ∧ ∀ p pi', getprimeMt pi = some (p, pi') → RunMeets n pi'

theorem meets_of_more {pi : PrimeInfo} (more : (sieveFind pi).1 ≠ 0) : Meets pi := fun used => (more used).elim

theorem RunMeets.cons {n p : ℕ} {pi pi' : PrimeInfo} (meets : Meets pi) (value : getprimeMt pi = some (p, pi'))
    (rest : RunMeets n pi') : RunMeets (n + 1) pi := by
  refine ⟨meets, fun q next other => ?_⟩
  rw [value] at other
  cases other
  exact rest

noncomputable def primesFrom (b n : ℕ) : List ℕ := (List.range n).map (Nat.nth fun p => p.Prime ∧ b ≤ p)

theorem count_below {b p : ℕ} (least : IsLeast { q | q.Prime ∧ b ≤ q } p) :
    Nat.count (fun q => q.Prime ∧ b ≤ q) p = 0 :=
  Nat.count_iff_forall_not.mpr fun q smaller member => absurd (least.2 member) (by omega)

theorem count_least {b p : ℕ} (least : IsLeast { q | q.Prime ∧ b ≤ q } p) (d : ℕ) :
    Nat.count (fun q => q.Prime ∧ b ≤ q) (p + 1 + d) = Nat.count (fun q => q.Prime ∧ p + 1 ≤ q) (p + 1 + d) + 1 := by
  have low : b ≤ p := least.1.2
  induction d with
  | zero =>
    have member : p.Prime ∧ b ≤ p := least.1
    have after : Nat.count (fun q => q.Prime ∧ p + 1 ≤ q) (p + 1) = 0 :=
      Nat.count_iff_forall_not.mpr fun q smaller member => by omega
    rw [add_zero, after, Nat.count_succ, count_below least, if_pos member]
  | succ d ih =>
    have same : ((p + 1 + d).Prime ∧ b ≤ p + 1 + d) ↔ ((p + 1 + d).Prime ∧ p + 1 ≤ p + 1 + d) :=
      and_congr_right fun _ => by omega
    rw [← add_assoc, Nat.count_succ, Nat.count_succ, ih]
    simp only [same]
    omega

theorem infinite_primes (b : ℕ) : (Set.ofPred fun p => p.Prime ∧ b ≤ p).Infinite := by
  refine Set.infinite_of_not_bddAbove fun ⟨m, bound⟩ => ?_
  obtain ⟨p, large, prime⟩ := Nat.exists_infinite_primes (max b (m + 1))
  have := bound ⟨prime, (le_max_left _ _).trans large⟩
  have := (le_max_right b (m + 1)).trans large
  omega

theorem primesFrom_succ {b p : ℕ} (least : IsLeast { q | q.Prime ∧ b ≤ q } p) (n : ℕ) :
    primesFrom b (n + 1) = p :: primesFrom (p + 1) n := by
  have first : Nat.nth (fun q => q.Prime ∧ b ≤ q) 0 = p := by
    rw [← count_below least]
    exact Nat.nth_count (p := fun q => q.Prime ∧ b ≤ q) least.1
  rw [primesFrom, List.range_succ_eq_map, List.map_cons, List.map_map, first, primesFrom]
  congr 1
  refine List.map_congr_left fun i _ => ?_
  have member := Nat.nth_mem_of_infinite (infinite_primes (p + 1)) i
  have position := Nat.count_nth_of_infinite (infinite_primes (p + 1)) i
  set q := Nat.nth (fun q => q.Prime ∧ p + 1 ≤ q) i
  obtain ⟨d, far⟩ := Nat.exists_eq_add_of_le member.2
  have count := count_least least d
  rw [← far, position] at count
  have low : b ≤ q := least.1.2.trans ((Nat.le_succ p).trans member.2)
  rw [Function.comp_apply, Nat.succ_eq_add_one, ← count]
  exact Nat.nth_count (p := fun q => q.Prime ∧ b ≤ q) ⟨member.1, low⟩

theorem primesFrom_of_not_prime {b : ℕ} (composite : ¬b.Prime) (n : ℕ) : primesFrom b n = primesFrom (b + 1) n := by
  have same : (fun p => p.Prime ∧ b ≤ p) = fun p => p.Prime ∧ b + 1 ≤ p := by
    funext p
    refine propext (and_congr_right fun prime => ⟨fun le => le.lt_of_ne ?_, Nat.le_of_succ_le⟩)
    rintro rfl
    exact composite prime
  rw [primesFrom, same, primesFrom]

theorem primesFrom_filter (b n : ℕ) :
    primesFrom b ((List.range' b n).filter (·.Prime)).length = (List.range' b n).filter (·.Prime) := by
  induction n generalizing b with
  | zero => rfl
  | succ n ih =>
    rw [List.range'_succ]
    by_cases prime : b.Prime
    · rw [List.filter_cons_of_pos (by simpa using prime), List.length_cons,
        primesFrom_succ ⟨⟨prime, le_rfl⟩, fun q member => member.2⟩, ih]
    · rw [List.filter_cons_of_neg (by simpa using prime), primesFrom_of_not_prime prime, ih]

theorem getprimes_run {b n : ℕ} {pi : PrimeInfo} (awaits : Awaits b pi) (meets : RunMeets n pi) :
    ∃ pi', getprimes n pi = some (primesFrom b n, pi') := by
  induction n generalizing b pi with
  | zero => exact ⟨pi, rfl⟩
  | succ n ih =>
    obtain ⟨p, pi', next, least, awaits'⟩ := getprimeMt_next awaits meets.1
    obtain ⟨pi'', rest⟩ := ih awaits' (meets.2 p pi' next)
    refine ⟨pi'', ?_⟩
    rw [getprimes, next, primesFrom_succ least]
    simp only [Option.bind_eq_bind, Option.bind_some, rest]
    rfl

theorem awaits_seek (pi : PrimeInfo) {b : ℕ} (notFour : b ≠ 4) (notFive : b ≠ 5) : Awaits b (primeInfoSeek pi b) := by
  rcases le_or_gt b 2 with small | large
  · have offset : (primeInfoSeek pi b).offset = 2 := by
      interval_cases b <;> rfl
    exact .two rfl rfl offset small
  · have offset : (primeInfoSeek pi b).offset = if b % 2 = 0 then b + 1 else b := by
      simp only [primeInfoSeek, if_neg (show ¬ b < 2 by omega), add_zero]
      split_ifs <;> omega
    refine .fresh rfl rfl ?_ ?_ ?_ fun p prime => ?_
    · rw [offset]
      split_ifs <;> omega
    · rw [offset]
      split_ifs <;> omega
    · rw [offset]
      split_ifs <;> omega
    · rw [offset]
      have odd := prime.mod_two_eq_one_iff_ne_two
      split_ifs <;> omega

theorem awaits_init : Awaits 3 primeInfoInit := .fresh rfl rfl rfl le_rfl (by decide) fun _ _ => Iff.rfl

/-- The primes below a bound are what a loop over `getprime_mt` takes one after the other. -/
theorem getprimes_filter {n : ℕ} (meets : RunMeets ((List.range' 3 n).filter (·.Prime)).length primeInfoInit) :
    ∃ pi', getprimes ((List.range' 3 n).filter (·.Prime)).length primeInfoInit =
      some ((List.range' 3 n).filter (·.Prime), pi') := by
  obtain ⟨pi', run⟩ := getprimes_run awaits_init meets
  rw [primesFrom_filter] at run
  exact ⟨pi', run⟩

theorem getprimes_of_meets (pi : PrimeInfo) (b n : ℕ) :
    (b ≠ 4 → b ≠ 5 → RunMeets n (primeInfoSeek pi b) →
      ∃ pi', getprimes n (primeInfoSeek pi b) = some (primesFrom b n, pi')) ∧
    (RunMeets n primeInfoInit → ∃ pi', getprimes n primeInfoInit = some (primesFrom 3 n, pi')) := by
  exact ⟨fun notFour notFive => getprimes_run (awaits_seek pi notFour notFive), getprimes_run awaits_init⟩

theorem getprimes_of_meets_ten : RunMeets 2 (primeInfoSeek primeInfoInit 10) ∧
    ∃ pi', getprimes 2 (primeInfoSeek primeInfoInit 10) = some (primesFrom 10 2, pi') := by
  have meets : RunMeets 2 (primeInfoSeek primeInfoInit 10) := by
    have value : getprimeMt (primeInfoSeek primeInfoInit 10) =
        some (11, ⟨11, 1, [⟨3, 1⟩, ⟨5, 3⟩], [true, true, false, true, true], 4⟩) := by decide +kernel
    refine .cons (fun _ _ => ?_) value ⟨meets_of_more (by decide), fun _ _ _ => trivial⟩
    have offset : (primeInfoSeek primeInfoInit 10).offset + 2 * (primeInfoSeek primeInfoInit 10).len = 11 := rfl
    have len : windowLen 11 = 4 := by decide
    simp only [offset, len]
    exact ⟨le_trans (by norm_num) le_reach, 11, by norm_num, le_rfl, by norm_num⟩
  exact ⟨meets, (getprimes_of_meets primeInfoInit 10 2).1 (by decide) (by decide) meets⟩

theorem seek_five : ¬ ∃ pi', getprimes 1 (primeInfoSeek primeInfoInit 5) = some (primesFrom 5 1, pi') := by
  rintro ⟨pi', run⟩
  have value : (getprimes 1 (primeInfoSeek primeInfoInit 5)).map Prod.fst = some [7] := by decide +kernel
  have first : primesFrom 5 1 = [5] := by
    rw [primesFrom_succ ⟨⟨by norm_num, le_rfl⟩, fun q member => member.2⟩]
    rfl
  rw [run, first] at value
  cases value

end CadoNfs.Utils.Getprime
