import CadoNfs.Utils.Getprime

/-!
# The product of the primes of a batch

The product tree of `sieve/ecm/batch.cpp`, filled with the primes that pass the filter on a polynomial. Fewer than
`2 ^ 63` primes are ever added, so that the counts of the levels do not wrap.
-/

namespace CadoNfs.Ecm.ProductTree
open Utils.Getprime

structure Level where
  l : ℕ
  n : ℕ
  deriving DecidableEq

def carry : ℕ → Level → List Level → List Level
  | i, level, [] => if level.n = 2 <<< i then [⟨1, 0⟩, ⟨level.l, 0 + level.n⟩] else [level]
  | i, level, next :: levels =>
    if level.n = 2 <<< i then
      ⟨1, 0⟩ :: carry (i + 1) ⟨if next.n = 0 then level.l else next.l * level.l, next.n + level.n⟩ levels
    else level :: next :: levels

def addUi (t : List Level) (n : ℕ) : List Level :=
  match t with
  | [] => [⟨n, 1⟩]
  | level :: levels => carry 0 ⟨if level.n = 0 then n else level.l * n, level.n + 1⟩ levels

def accumulate (t : List Level) : List Level :=
  match t with
  | [] => []
  | level :: levels =>
    ⟨levels.foldl (fun l next => l * next.l) level.l, levels.foldl (fun n next => n + next.n) level.n⟩ ::
      levels.map fun next => ⟨next.l, 0⟩

-- The coefficients from the constant one on; the last one is not 0.
structure MpzPoly where
  coeffs : List ℤ

def MpzPoly.deg (f : MpzPoly) : ℕ := f.coeffs.length - 1

def MpzPoly.lc (f : MpzPoly) : ℤ := f.coeffs.getLastD 0

def primeTree (pMax : ℕ) : ℕ → ℕ → PrimeInfo → List Level → Option (List Level)
  | 0, _, _, _ => none
  | fuel + 1, p, pi, t =>
    if p < pMax then do
      let (next, pi) ← getprimeMt pi
      primeTree pMax fuel next pi (addUi t p)
    else some t

def readBlock (pMax : ℕ) : ℕ → ℕ → PrimeInfo → Option (List ℕ × ℕ × PrimeInfo)
  | 0, p, pi => some ([], p, pi)
  | free + 1, p, pi =>
    if p < pMax then do
      let (next, pi) ← getprimeMt pi
      let (q, p', pi) ← readBlock pMax free next pi
      return (p :: q, p', pi)
    else some ([], p, pi)

-- `rootsUlong f p` is `mpz_poly_roots_ulong (nullptr, f, p, rstate)`.
variable (rootsUlong : MpzPoly → ℕ → ℕ)

def dropped (f : MpzPoly) (q : ℕ) : Bool := ¬ (q : ℤ) ∣ f.lc ∧ rootsUlong f q = 0

def primeTreeBlocks (pMax nthreads : ℕ) (f : MpzPoly) : ℕ → ℕ → PrimeInfo → List Level → Option (List Level)
  | 0, _, _, _ => none
  | fuel + 1, p, pi, t =>
    if p < pMax then do
      let (q, p, pi) ← readBlock pMax nthreads p pi
      let q := q.map fun p => if dropped rootsUlong f p then 0 else p
      primeTreeBlocks pMax nthreads f fuel p pi ((q.filter (· ≠ 0)).foldl addUi t)
    else some t

def primeTreePoly (pMax threads : ℕ) (f : MpzPoly) : Option (List Level) :=
  if f.deg = 1 then primeTree pMax (pMax + 1) 2 primeInfoInit []
  else primeTreeBlocks rootsUlong pMax (threads * 10) f (pMax + 1) 2 primeInfoInit []

def primeProductPoly (pMax threads : ℕ) (f : MpzPoly) : Option ℕ := do
  let t ← primeTreePoly rootsUlong pMax threads f
  ((accumulate t).head?).map Level.l

/-! ## The binary counter -/

def Counts : ℕ → ℕ → List Level → Prop
  | _, c, [] => c = 0
  | i, c, level :: levels => level.n = c % 2 * 2 ^ i ∧ (level.n = 0 → level.l = 1) ∧ Counts (i + 1) (c / 2) levels

def product (t : List Level) : ℕ := (t.map Level.l).prod

@[simp] theorem product_cons (level : Level) (levels : List Level) :
    product (level :: levels) = level.l * product levels := by
  rw [product, List.map_cons, List.prod_cons, product]

theorem full_iff {i c n : ℕ} (filled : n = (c % 2 + 1) * 2 ^ i) : n = 2 <<< i ↔ c % 2 = 1 := by
  rw [filled, Nat.shiftLeft_eq, Nat.mul_right_cancel_iff (Nat.two_pow_pos i)]
  omega

theorem carry_spec {i c : ℕ} {level : Level} {levels : List Level} (filled : level.n = (c % 2 + 1) * 2 ^ i)
    (counts : Counts (i + 1) (c / 2) levels) :
    Counts i (c + 1) (carry i level levels) ∧ product (carry i level levels) = level.l * product levels := by
  have nonempty : level.n ≠ 0 := by
    rw [filled]
    positivity
  induction levels generalizing i c level with
  | nil =>
    have zero : c / 2 = 0 := counts
    by_cases odd : c % 2 = 1
    · have one : c = 1 := by omega
      rw [carry, if_pos ((full_iff filled).mpr odd)]
      refine ⟨⟨?_, fun _ => rfl, ?_, fun empty => ?_, ?_⟩, ?_⟩
      · simp [one]
      · simp [one, filled, pow_succ, mul_comm]
      · simp [nonempty] at empty
      · simp [Counts, one]
      · simp [product]
    · have zero' : c = 0 := by omega
      rw [carry, if_neg ((full_iff filled).not.mpr odd)]
      refine ⟨⟨?_, fun empty => (nonempty empty).elim, ?_⟩, rfl⟩
      · simp [zero', filled]
      · simp [Counts, zero']
  | cons next levels ih =>
    by_cases odd : c % 2 = 1
    · obtain ⟨count, empty, counts⟩ := counts
      have filled' : (⟨if next.n = 0 then level.l else next.l * level.l, next.n + level.n⟩ : Level).n =
          (c / 2 % 2 + 1) * 2 ^ (i + 1) := by
        show next.n + level.n = _
        rw [count, filled, odd, pow_succ]
        ring
      have value : (if next.n = 0 then level.l else next.l * level.l) = next.l * level.l := by
        split_ifs with zero
        · rw [empty zero, one_mul]
        · rfl
      obtain ⟨counts', product'⟩ := ih filled' counts (by simp [nonempty])
      rw [carry, if_pos ((full_iff filled).mpr odd)]
      refine ⟨⟨?_, fun _ => rfl, ?_⟩, ?_⟩
      · rw [show (c + 1) % 2 = 0 by omega, zero_mul]
      · rwa [show (c + 1) / 2 = c / 2 + 1 by omega]
      · rw [product_cons, product', product_cons, value]
        ring
    · rw [carry, if_neg ((full_iff filled).not.mpr odd)]
      refine ⟨⟨?_, fun empty => (nonempty empty).elim, ?_⟩, product_cons _ _⟩
      · rw [filled, show (c + 1) % 2 = c % 2 + 1 by omega]
      · rwa [show (c + 1) / 2 = c / 2 by omega]

theorem addUi_spec {c n : ℕ} {t : List Level} (counts : Counts 0 c t) :
    Counts 0 (c + 1) (addUi t n) ∧ product (addUi t n) = product t * n := by
  cases t with
  | nil =>
    have zero : c = 0 := counts
    subst zero
    exact ⟨⟨rfl, fun empty => (one_ne_zero empty).elim, rfl⟩, by simp [addUi, product]⟩
  | cons level levels =>
    obtain ⟨count, empty, counts⟩ := counts
    have value : (if level.n = 0 then n else level.l * n) = level.l * n := by
      split_ifs with zero
      · rw [empty zero, one_mul]
      · rfl
    have filled : (⟨if level.n = 0 then n else level.l * n, level.n + 1⟩ : Level).n = (c % 2 + 1) * 2 ^ 0 := by
      show level.n + 1 = _
      rw [count]
      ring
    have carried := carry_spec filled counts
    refine ⟨carried.1, ?_⟩
    rw [addUi, carried.2, product_cons, value]
    ring

theorem foldl_addUi_spec (pushed : List ℕ) {c : ℕ} {t : List Level} (counts : Counts 0 c t) :
    Counts 0 (c + pushed.length) (pushed.foldl addUi t) ∧ product (pushed.foldl addUi t) = product t * pushed.prod := by
  induction pushed generalizing c t with
  | nil => exact ⟨counts, by simp⟩
  | cons n pushed ih =>
    obtain ⟨counts', product'⟩ := addUi_spec (n := n) counts
    obtain ⟨counts'', product''⟩ := ih counts'
    rw [List.foldl_cons, List.length_cons, List.prod_cons]
    refine ⟨?_, ?_⟩
    · rwa [show c + (pushed.length + 1) = c + 1 + pushed.length by omega]
    · rw [product'', product', mul_assoc]

theorem Counts.product_filter {i c : ℕ} {t : List Level} (counts : Counts i c t) :
    product (t.filter fun level => level.n ≠ 0) = product t := by
  induction t generalizing i c with
  | nil => rfl
  | cons level levels ih =>
    obtain ⟨-, empty, counts⟩ := counts
    by_cases zero : level.n = 0
    · rw [List.filter_cons_of_neg (by simpa using zero), ih counts, product_cons, empty zero, one_mul]
    · rw [List.filter_cons_of_pos (by simpa using zero), product_cons, ih counts, product_cons]

theorem Counts.getD {i c : ℕ} {t : List Level} (counts : Counts i c t) (j : ℕ) :
    (t.map Level.n).getD j 0 = if c.testBit j then 2 ^ (i + j) else 0 := by
  induction t generalizing i c j with
  | nil =>
    have zero : c = 0 := counts
    simp [zero]
  | cons level levels ih =>
    obtain ⟨count, -, counts⟩ := counts
    cases j with
    | zero =>
      rw [List.map_cons, List.getD_cons_zero, count, Nat.testBit_zero]
      rcases Nat.mod_two_eq_zero_or_one c with even | odd
      · simp [even]
      · simp [odd]
    | succ j =>
      rw [List.map_cons, List.getD_cons_succ, ih counts, Nat.testBit_succ, show i + 1 + j = i + (j + 1) by omega]

theorem accumulate_head {t : List Level} (nonempty : t ≠ []) : (accumulate t).head?.map Level.l = some (product t) := by
  cases t with
  | nil => exact (nonempty rfl).elim
  | cons level levels =>
    clear nonempty
    have folded : ∀ l, levels.foldl (fun l next => l * next.l) l = l * product levels := by
      intro l
      induction levels generalizing l with
      | nil => simp [product]
      | cons next levels ih => rw [List.foldl_cons, ih, product_cons, mul_assoc]
    rw [accumulate, List.head?_cons, Option.map_some, folded, product_cons]

/-! ## The primes that are added -/

def primesIn (a b : ℕ) : List ℕ := (List.range' a (b - a)).filter fun p => p.Prime

theorem primesIn_of_le {a b : ℕ} (empty : b ≤ a) : primesIn a b = [] := by
  rw [primesIn, Nat.sub_eq_zero_of_le empty]
  rfl

theorem primesIn_gap {a b c : ℕ} (later : a ≤ b) (gap : ∀ x, a ≤ x → x < b → ¬ x.Prime) :
    primesIn a c = primesIn b c := by
  induction later using Nat.decreasingInduction with
  | self => rfl
  | of_succ a later ih =>
    rw [← ih fun x low => gap x (by omega)]
    rcases le_or_gt c a with done | more
    · rw [primesIn_of_le done, primesIn_of_le (by omega)]
    · rw [primesIn, show c - a = c - (a + 1) + 1 by omega, List.range'_succ, List.filter_cons_of_neg, primesIn]
      simpa using gap a le_rfl (by omega)

theorem primesIn_prime {p q c : ℕ} (prime : p.Prime) (below : p < c) (later : p < q)
    (gap : ∀ x, p < x → x < q → ¬ x.Prime) : primesIn p c = p :: primesIn q c := by
  rw [← primesIn_gap (a := p + 1) later gap, primesIn, show c - p = c - (p + 1) + 1 by omega, List.range'_succ,
    List.filter_cons_of_pos (by simpa using prime), primesIn]

theorem mem_primesIn {a b p : ℕ} : p ∈ primesIn a b ↔ a ≤ p ∧ p < b ∧ p.Prime := by
  have inside : (a ≤ p ∧ p < a + (b - a)) ↔ a ≤ p ∧ p < b := by omega
  rw [primesIn, List.mem_filter, List.mem_range'_1, decide_eq_true_eq, inside, and_assoc]

theorem length_primesIn_zero (n : ℕ) : (primesIn 0 n).length = Nat.count Nat.Prime n := by
  induction n with
  | zero => rfl
  | succ n ih =>
    have last : primesIn 0 (n + 1) = primesIn 0 n ++ if n.Prime then [n] else [] := by
      rw [primesIn, primesIn, Nat.sub_zero, Nat.sub_zero, List.range'_concat, List.filter_append, zero_add, one_mul]
      congr 1
      by_cases prime : n.Prime
      · simp [prime]
      · simp [prime]
    rw [last, List.length_append, ih, Nat.count_succ]
    split_ifs <;> rfl

theorem primesIn_two (n : ℕ) : primesIn 0 n = primesIn 2 n :=
  primesIn_gap (Nat.zero_le 2) fun x _ small prime => by
    have := prime.two_le
    omega

structure Stream (m p : ℕ) (pi : PrimeInfo) : Prop where
  prime : p.Prime
  awaits : Awaits (p + 1) pi
  meets : RunMeets m pi

theorem Stream.next {m p : ℕ} {pi : PrimeInfo} (stream : Stream (m + 1) p pi) :
    ∃ q pi', getprimeMt pi = some (q, pi') ∧ Stream m q pi' ∧ p < q ∧ ∀ x, p < x → x < q → ¬ x.Prime := by
  obtain ⟨q, pi', value, least, awaits⟩ := getprimeMt_next stream.awaits stream.meets.1
  refine ⟨q, pi', value, ⟨least.1.1, awaits, stream.meets.2 q pi' value⟩, least.1.2, fun x above below prime => ?_⟩
  exact absurd (least.2 ⟨prime, above⟩) (not_le.mpr below)

theorem Stream.take {pMax p : ℕ} {pi : PrimeInfo} (stream : Stream (primesIn p pMax).length p pi) (below : p < pMax) :
    ∃ q pi', getprimeMt pi = some (q, pi') ∧ Stream (primesIn q pMax).length q pi' ∧
      primesIn p pMax = p :: primesIn q pMax := by
  have some : ∃ m, (primesIn p pMax).length = m + 1 :=
    Nat.exists_eq_succ_of_ne_zero fun zero => by
      have member := mem_primesIn.mpr ⟨le_rfl, below, stream.prime⟩
      rw [List.length_eq_zero_iff.mp zero] at member
      cases member
  obtain ⟨m, length⟩ := some
  rw [length] at stream
  obtain ⟨q, pi', value, stream', later, gap⟩ := stream.next
  have split := primesIn_prime stream.prime below later gap
  have rest : m = (primesIn q pMax).length := by
    rw [split, List.length_cons] at length
    omega
  exact ⟨q, pi', value, rest ▸ stream', split⟩

theorem primeTree_spec {pMax fuel p : ℕ} {pi : PrimeInfo} {t : List Level}
    (stream : Stream (primesIn p pMax).length p pi) (enough : (primesIn p pMax).length < fuel) :
    primeTree pMax fuel p pi t = some ((primesIn p pMax).foldl addUi t) := by
  induction fuel generalizing p pi t with
  | zero => omega
  | succ fuel ih =>
    rw [primeTree]
    by_cases below : p < pMax
    · obtain ⟨q, pi', value, stream', split⟩ := stream.take below
      rw [split, List.length_cons] at enough
      rw [if_pos below, value, split, List.foldl_cons]
      exact ih stream' (by omega)
    · rw [if_neg below, primesIn_of_le (not_lt.mp below)]
      rfl

theorem readBlock_spec {pMax free p : ℕ} {pi : PrimeInfo} (stream : Stream (primesIn p pMax).length p pi) :
    ∃ q p' pi', readBlock pMax free p pi = some (q, p', pi') ∧ primesIn p pMax = q ++ primesIn p' pMax ∧
      Stream (primesIn p' pMax).length p' pi' ∧ (0 < free → p < pMax → q ≠ []) := by
  induction free generalizing p pi with
  | zero => exact ⟨[], p, pi, rfl, rfl, stream, fun impossible => (lt_irrefl 0 impossible).elim⟩
  | succ free ih =>
    rw [readBlock]
    by_cases below : p < pMax
    · obtain ⟨next, pi', value, stream', split⟩ := stream.take below
      obtain ⟨q, p', pi'', read, split', stream'', -⟩ := ih stream'
      refine ⟨p :: q, p', pi'', ?_, by rw [split, split', List.cons_append], stream'', fun _ _ => List.cons_ne_nil _ _⟩
      rw [if_pos below, value]
      simp only [Option.bind_eq_bind, Option.bind_some, read]
      rfl
    · rw [if_neg below]
      exact ⟨[], p, pi, rfl, rfl, stream, fun _ below' => (below below').elim⟩

variable {rootsUlong}

theorem zeroed_filter (f : MpzPoly) {q : List ℕ} (nonzero : ∀ p ∈ q, p ≠ 0) :
    ((q.map fun p => if dropped rootsUlong f p then 0 else p).filter (· ≠ 0)) =
      q.filter fun p => ¬ dropped rootsUlong f p := by
  induction q with
  | nil => rfl
  | cons p q ih =>
    have rest := ih fun p mem => nonzero p (.tail _ mem)
    rw [List.map_cons]
    by_cases drop : dropped rootsUlong f p = true
    · rw [if_pos drop, List.filter_cons_of_neg (by simp), List.filter_cons_of_neg (by simpa using drop), rest]
    · rw [if_neg drop, List.filter_cons_of_pos (by simpa using nonzero p (.head _)),
        List.filter_cons_of_pos (by simpa using drop), rest]

theorem primeTreeBlocks_spec {pMax nthreads fuel p : ℕ} (f : MpzPoly) {pi : PrimeInfo} {t : List Level}
    (threads : 0 < nthreads) (stream : Stream (primesIn p pMax).length p pi)
    (enough : (primesIn p pMax).length < fuel) : primeTreeBlocks rootsUlong pMax nthreads f fuel p pi t =
      some (((primesIn p pMax).filter fun p => ¬ dropped rootsUlong f p).foldl addUi t) := by
  induction fuel generalizing p pi t with
  | zero => omega
  | succ fuel ih =>
    rw [primeTreeBlocks]
    by_cases below : p < pMax
    · obtain ⟨q, p', pi', read, split, stream', progress⟩ := @readBlock_spec pMax nthreads p pi stream
      have nonzero : ∀ p ∈ q, p ≠ 0 := fun x mem =>
        (mem_primesIn.mp (split ▸ List.mem_append_left _ mem)).2.2.ne_zero
      have shorter : (primesIn p' pMax).length < fuel := by
        have := List.length_pos_iff.mpr (progress threads below)
        rw [split, List.length_append] at enough
        omega
      rw [if_pos below, read, split, List.filter_append, List.foldl_append]
      simp only [Option.bind_eq_bind, Option.bind_some]
      rw [ih stream' shorter, zeroed_filter f nonzero]
    · rw [if_neg below, primesIn_of_le (not_lt.mp below)]
      rfl

def Passes (rootsUlong : MpzPoly → ℕ → ℕ) (f : MpzPoly) (p : ℕ) : Prop :=
  f.deg = 1 ∨ (p : ℤ) ∣ f.lc ∨ rootsUlong f p ≠ 0

instance (f : MpzPoly) (p : ℕ) : Decidable (Passes rootsUlong f p) := inferInstanceAs (Decidable (_ ∨ _))

def BinaryCounter (pushed : List ℕ) : Prop :=
  product ((pushed.foldl addUi []).filter fun level => level.n ≠ 0) = pushed.prod ∧
    ∀ i, ((pushed.foldl addUi []).map Level.n).getD i 0 = if pushed.length.testBit i then 2 ^ i else 0

theorem foldl_addUi_nil (pushed : List ℕ) :
    Counts 0 pushed.length (pushed.foldl addUi []) ∧ product (pushed.foldl addUi []) = pushed.prod := by
  have spec := foldl_addUi_spec pushed (c := 0) (t := []) rfl
  rwa [zero_add, show product [] = 1 from rfl, one_mul] at spec

theorem binaryCounter (pushed : List ℕ) : BinaryCounter pushed := by
  obtain ⟨counts, total⟩ := foldl_addUi_nil pushed
  refine ⟨counts.product_filter.trans total, fun i => ?_⟩
  rw [counts.getD, zero_add]

theorem primeTreePoly_spec {pMax threads : ℕ} (f : MpzPoly) (positive : 0 < threads)
    (meets : RunMeets (Nat.count Nat.Prime pMax) primeInfoInit) : primeTreePoly rootsUlong pMax threads f =
      some (((primesIn 2 pMax).filter fun p => Passes rootsUlong f p).foldl addUi []) := by
  have length : (primesIn 2 pMax).length = Nat.count Nat.Prime pMax := by
    rw [← primesIn_two, length_primesIn_zero]
  have stream : Stream (primesIn 2 pMax).length 2 primeInfoInit :=
    ⟨Nat.prime_two, .fresh rfl rfl rfl le_rfl (by decide) fun _ _ => Iff.rfl, length ▸ meets⟩
  have enough : (primesIn 2 pMax).length < pMax + 1 := by
    rw [length]
    exact Nat.lt_succ_of_le (Nat.count_le _)
  unfold primeTreePoly
  split_ifs with linear
  · rw [primeTree_spec stream enough, List.filter_eq_self.mpr fun p _ => decide_eq_true (.inl linear)]
  · rw [primeTreeBlocks_spec f (by omega) stream enough]
    congr 2
    refine List.filter_congr fun p _ => ?_
    simp only [dropped, Passes, linear, false_or, decide_eq_true_eq, not_and_or, not_not, ne_eq]

theorem primeProductPoly_iff (f : MpzPoly) (pMax threads : ℕ) (positive : 0 < threads)
    (meets : RunMeets (Nat.count Nat.Prime pMax) primeInfoInit) :
    (∀ pushed, BinaryCounter pushed) ∧ (primeProductPoly rootsUlong pMax threads f =
      some (∏ p ∈ Finset.range pMax with p.Prime ∧ Passes rootsUlong f p, p) ↔
        ∃ p < pMax, p.Prime ∧ Passes rootsUlong f p) := by
  refine ⟨binaryCounter, ?_⟩
  set passing := (primesIn 2 pMax).filter fun p => Passes rootsUlong f p with hpassing
  have member : ∀ p, p ∈ passing ↔ p < pMax ∧ p.Prime ∧ Passes rootsUlong f p := by
    intro p
    rw [hpassing, List.mem_filter, mem_primesIn, decide_eq_true_eq]
    exact ⟨fun h => ⟨h.1.2.1, h.1.2.2, h.2⟩, fun h => ⟨⟨h.2.1.two_le, h.1, h.2.1⟩, h.2.2⟩⟩
  have distinct : passing.Nodup := ((List.nodup_range' 1).filter _).filter _
  have total : passing.prod = ∏ p ∈ Finset.range pMax with p.Prime ∧ Passes rootsUlong f p, p := by
    have same : (Finset.range pMax).filter (fun p => p.Prime ∧ Passes rootsUlong f p) = passing.toFinset := by
      ext p
      rw [List.mem_toFinset, member, Finset.mem_filter, Finset.mem_range]
    rw [same, List.prod_toFinset _ distinct, List.map_id']
  obtain ⟨counts, products⟩ := foldl_addUi_nil passing
  rw [primeProductPoly, primeTreePoly_spec f positive meets, Option.bind_eq_bind, Option.bind_some, ← total]
  constructor
  · intro result
    by_contra none
    have empty : passing = [] := List.eq_nil_iff_forall_not_mem.mpr fun p mem => none ⟨p, (member p).mp mem⟩
    rw [← hpassing, empty] at result
    cases result
  · rintro ⟨p, below, prime, passes⟩
    have nonempty : passing.foldl addUi [] ≠ [] := by
      intro empty
      rw [empty] at counts
      have none := List.length_eq_zero_iff.mp (show passing.length = 0 from counts)
      have mem := (member p).mpr ⟨below, prime, passes⟩
      rw [none] at mem
      cases mem
    rw [accumulate_head nonempty, products]

def countRoots (f : MpzPoly) (p : ℕ) : ℕ :=
  (List.range p).countP fun x => (f.coeffs.foldr (fun c v => c + (x : ℤ) * v) 0) % p = 0

theorem primeProductPoly_eight : RunMeets (Nat.count Nat.Prime 8) primeInfoInit ∧
    primeProductPoly countRoots 8 1 ⟨[5, 1, 1]⟩ =
      some (∏ p ∈ Finset.range 8 with p.Prime ∧ Passes countRoots ⟨[5, 1, 1]⟩ p, p) := by
  have meets : RunMeets (Nat.count Nat.Prime 8) primeInfoInit := by
    have first : getprimeMt primeInfoInit = some (3, ⟨3, 1, [⟨3, 1⟩], [true, true, true], 2⟩) := by decide +kernel
    have second : getprimeMt ⟨3, 1, [⟨3, 1⟩], [true, true, true], 2⟩ =
        some (5, ⟨3, 2, [⟨3, 1⟩], [true, true, true], 2⟩) := by decide +kernel
    have third : getprimeMt ⟨3, 2, [⟨3, 1⟩], [true, true, true], 2⟩ =
        some (7, ⟨7, 1, [⟨3, 0⟩, ⟨5, 0⟩], [true, false, true, true, true], 4⟩) := by decide +kernel
    have len : windowLen 7 = 4 := by decide
    rw [show Nat.count Nat.Prime 8 = 4 by decide]
    refine .cons (fun _ _ => ?_) first (.cons (meets_of_more (by decide)) second (.cons (fun _ _ => ?_) third
      ⟨meets_of_more (by decide), fun _ _ _ => trivial⟩))
    · simp only [primeInfoInit, mul_zero, add_zero, windowLen_three]
      exact ⟨le_trans (by norm_num) le_reach, 3, by norm_num, le_rfl, by norm_num⟩
    · simp only [Nat.reduceMul, Nat.reduceAdd, len]
      exact ⟨le_trans (by norm_num) le_reach, 7, by norm_num, le_rfl, by norm_num⟩
  exact ⟨meets, ((primeProductPoly_iff ⟨[5, 1, 1]⟩ 8 1 (by decide) meets).2).mpr ⟨5, by decide, by decide, by decide⟩⟩

theorem primeProductPoly_four : ¬ primeProductPoly countRoots 4 1 ⟨[5, 1, 1]⟩ =
    some (∏ p ∈ Finset.range 4 with p.Prime ∧ Passes countRoots ⟨[5, 1, 1]⟩ p, p) := by
  have crash : primeProductPoly countRoots 4 1 ⟨[5, 1, 1]⟩ = none := by decide +kernel
  rw [crash]
  exact fun equal => nomatch equal

end CadoNfs.Ecm.ProductTree
