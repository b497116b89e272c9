import CadoNfs.Lib.GrayCode
import CadoNfs.Lib.SignedSum
import CadoNfs.Sieve.Qlattice

/-!
# Special-q of the quadratic sieve

`siqs_special_q_data` of `sieve/las-qlattice.hpp`: the square roots of `-c` modulo a product of primes, each given by
a sign for every prime, and enumerated by the Gray code of `j`.
-/

namespace CadoNfs.Sieve
open Lib Lib.GrayCode

structure SiqsSpecialQData where
  p : ℤ
  r : ℤ
  primeFactors : List (BitVec 64)
  crtDataModq : List ℤ
  deriving DecidableEq

namespace SiqsSpecialQData

def mpzInvert (x p : ℤ) : ℤ := Int.gcdA x p % p

def crtComponent (p qk root : ℤ) : ℤ :=
  let crt := p / qk
  let crt := crt * mpzInvert crt qk
  let t0 := root * crt % p
  if p ≤ 2 * t0 then p - t0 else t0

/-- `roots` stands for `mpz_poly_roots`. -/
def crtData (roots : BitVec 64 → List (BitVec 64)) (p : ℤ) : List (BitVec 64) → Except Failure (List ℤ)
  | [] => .ok []
  | qk :: rest => do
    let rk := roots qk
    assert false (rk.length = 2)
    let data ← crtData roots p rest
    return crtComponent p qk.toNat (rk.headD 0).toNat :: data

def product (factors : List (BitVec 64)) : ℕ := (factors.map BitVec.toNat).prod

def ofSpecialQ (roots : BitVec 64 → List (BitVec 64)) (factors : List (BitVec 64)) :
    Except Failure SiqsSpecialQData := do
  let p : ℤ := product factors
  let data ← crtData roots p factors
  return ⟨p, data.sum, factors, data⟩

def grayCodeFromJ (j : BitVec 32) : BitVec 32 := j ^^^ (j >>> 1)

def rootLoop : List ℤ → BitVec 32 → ℤ → ℤ
  | [], _, rj => rj
  | Rk :: rest, g, rj => rootLoop rest (g >>> 1) (if g &&& 1 ≠ 0 then rj - Rk else rj + Rk)

def rootFromJ (Q : SiqsSpecialQData) (j : BitVec 32) : ℤ := rootLoop Q.crtDataModq (grayCodeFromJ j) 0

def deltaLoop : List ℤ → BitVec 32 → ℤ → ℤ
  | [], _, dj => dj
  | Rk :: rest, g, dj => deltaLoop rest (g >>> 1) (if g &&& 1 ≠ 0 then dj + Rk else dj)

def deltaToR (Q : SiqsSpecialQData) (j : BitVec 32) : ℤ := -(2 * deltaLoop Q.crtDataModq (grayCodeFromJ j) 0)

def convertIjToAb (Q : SiqsSpecialQData) (i j : BitVec 32) : BitVec 64 × BitVec 64 :=
  (SpecialQData.mpzGetSi (Q.rootFromJ j) + SpecialQData.mpzGetSi Q.p * i.signExtend 64, 1)

def convertIjToAbMpz (Q : SiqsSpecialQData) (i j : BitVec 32) : ℤ × ℤ :=
  (Q.rootFromJ j + Q.p * i.toInt, 1)

def mpzTdivUint64 (x : ℤ) (q : BitVec 64) : BitVec 64 := .ofNat 64 (x.natAbs % q.toNat)

def amodqk (a : ℤ) (qk : BitVec 64) : BitVec 64 :=
  if a < 0 then qk - mpzTdivUint64 a qk else mpzTdivUint64 a qk

def bitLoop (ndebug : Bool) (a : ℤ) : List (BitVec 64 × ℤ) → BitVec 64 → BitVec 32 → ℤ → Except Failure (BitVec 32 × ℤ)
  | [], _, j, rj => .ok (j, rj)
  | (qk, Rk) :: rest, mask, j, rj =>
    if mpzTdivUint64 Rk qk = amodqk a qk then bitLoop ndebug a rest ((mask <<< 1) + 1#64) j (rj + Rk)
    else do
      assert ndebug (qk - mpzTdivUint64 Rk qk = amodqk a qk)
      bitLoop ndebug a rest ((mask <<< 1) + 1#64) (j ^^^ mask.setWidth 32) (rj - Rk)

/-- `i` and `j` are the values that the references have before the call. -/
def convertAbToIjMpz (ndebug : Bool) (Q : SiqsSpecialQData) (a b : ℤ) (i j : BitVec 32) :
    Except Failure (Bool × BitVec 32 × BitVec 32) :=
  if b ≠ 1 then .ok (false, i, j)
  else do
    let (j, rj) ← bitLoop ndebug a (Q.primeFactors.zip Q.crtDataModq) 1#64 0#32 0
    assert ndebug (Q.p ∣ rj - a)
    let t := -((rj - a) / Q.p)
    if -2 ^ 31 ≤ t ∧ t < 2 ^ 31 then return (true, (SpecialQData.mpzGetSi t).setWidth 32, j)
    else return (false, i, j)

def convertAbToIj (ndebug : Bool) (Q : SiqsSpecialQData) (a b : BitVec 64) (i j : BitVec 32) :
    Except Failure (Bool × BitVec 32 × BitVec 32) :=
  Q.convertAbToIjMpz ndebug a.toInt b.toNat i j

/-- The sieve area, of width `2^logI` and height `J`, or `none` for a special-q that is not sieved. -/
def chooseSieveArea (supportLargeQ : Bool) (roots : BitVec 64 → List (BitVec 64)) (logA : ℕ)
    (factors : List (BitVec 64)) :
    Except Failure (Option (ℕ × SiqsSpecialQData × BitVec 32)) :=
  let n := factors.length
  let logI := logA - (n - 1)
  let aUb := (product factors <<< (logI - 1)) + product factors * (n / 2)
  if !supportLargeQ ∧ 63 < aUb.size then .ok none
  else do
    let Q ← ofSpecialQ roots factors
    return some (logI, Q, 1#32 <<< (n - 1))

variable {Q : SiqsSpecialQData}

theorem and_one (g : BitVec 32) : g &&& 1 ≠ 0 ↔ g.getLsbD 0 = true := by
  have bit : (g &&& 1).getLsbD 0 = g.getLsbD 0 := by
    rw [BitVec.getLsbD_and]
    simp
  constructor
  · intro set
    by_contra clear
    apply set
    apply BitVec.eq_of_getLsbD_eq
    intro i _
    rw [BitVec.getLsbD_and]
    by_cases zero : i = 0
    · subst zero
      rw [Bool.eq_false_iff.mpr clear]
      simp
    · simp [zero]
  · intro set none
    rw [none] at bit
    rw [set] at bit
    exact absurd bit (by simp)

theorem rootLoop_eq (data : List ℤ) (g : BitVec 32) (rj : ℤ) : rootLoop data g rj = rj + signedSum g.getLsbD data := by
  induction data generalizing g rj with
  | nil => exact (add_zero rj).symm
  | cons R rest ih =>
    have shifted : (g >>> 1).getLsbD = fun k => g.getLsbD (k + 1) := by
      funext k
      rw [BitVec.getLsbD_ushiftRight, Nat.add_comm]
    rw [rootLoop, ih, shifted, signedSum, signed]
    simp only [and_one]
    split <;> ring

theorem rootFromJ_eq (j : BitVec 32) : Q.rootFromJ j = signedSum (gray j).getLsbD Q.crtDataModq := by
  rw [rootFromJ, rootLoop_eq, zero_add, grayCodeFromJ, gray]

theorem rootLoop_delta (data : List ℤ) (g : BitVec 32) (rj dj : ℤ) :
    rootLoop data g (rj - 2 * dj) = rj + data.sum - 2 * deltaLoop data g dj := by
  induction data generalizing g rj dj with
  | nil => simp [rootLoop, deltaLoop]
  | cons R rest ih =>
    rw [rootLoop, deltaLoop, List.sum_cons]
    split
    · have next := ih (g >>> 1) (rj + R) (dj + R)
      rw [show rj + R - 2 * (dj + R) = rj - 2 * dj - R by ring] at next
      rw [next]
      ring
    · have next := ih (g >>> 1) (rj + R) dj
      rw [show rj + R - 2 * dj = rj - 2 * dj + R by ring] at next
      rw [next]
      ring

/-! ## The Chinese remainders -/

theorem mpzInvert_inverts {x q : ℤ} (coprime : Int.gcd x q = 1) : q ∣ x * mpzInvert x q - 1 := by
  have bezout := Int.gcd_eq_gcd_ab x q
  rw [coprime] at bezout
  have near : q ∣ Int.gcdA x q - mpzInvert x q := Int.dvd_self_sub_emod
  obtain ⟨k, multiple⟩ := near
  refine ⟨-(x * k) - Int.gcdB x q, ?_⟩
  push_cast at bezout
  linear_combination -x * multiple - bezout

theorem crtComponent_spec {p q m root : ℤ} (factor : p = q * m) (positive : 0 < p) (prime : 0 < q)
    (coprime : Int.gcd m q = 1) : m ∣ crtComponent p q root ∧
      (q ∣ crtComponent p q root - root ∨ q ∣ crtComponent p q root + root) ∧
      0 ≤ crtComponent p q root ∧ 2 * crtComponent p q root ≤ p := by
  have cofactor : p / q = m := by rw [factor, Int.mul_ediv_cancel_left _ prime.ne']
  unfold crtComponent
  simp only [cofactor]
  obtain ⟨k, inverse⟩ := mpzInvert_inverts coprime
  have low := Int.emod_nonneg (root * (m * mpzInvert m q)) positive.ne'
  have high := Int.emod_lt_of_pos (root * (m * mpzInvert m q)) positive
  obtain ⟨l, reduced⟩ : p ∣ root * (m * mpzInvert m q) - root * (m * mpzInvert m q) % p := Int.dvd_self_sub_emod
  generalize root * (m * mpzInvert m q) % p = t0 at low high reduced
  have other : m ∣ t0 := ⟨root * mpzInvert m q - q * l, by linear_combination -reduced - l * factor⟩
  have own : q ∣ t0 - root := ⟨root * k - m * l, by linear_combination root * inverse - reduced - l * factor⟩
  split
  · refine ⟨dvd_sub ⟨q, by rw [factor, mul_comm]⟩ other, .inr ?_, by omega, by omega⟩
    obtain ⟨d, away⟩ := own
    exact ⟨m - d, by linear_combination factor - away⟩
  · exact ⟨other, .inl own, low, by omega⟩

theorem cofactor {qs : List ℕ} (prime : ∀ q ∈ qs, q.Prime) (distinct : qs.Nodup) {q : ℕ} (member : q ∈ qs) :
    ∃ m, qs.prod = q * m ∧ m.Coprime q ∧ ∀ q' ∈ qs, q' ≠ q → q' ∣ m := by
  refine ⟨(qs.erase q).prod, (List.prod_erase member).symm, ?_, ?_⟩
  · rw [Nat.coprime_list_prod_left_iff]
    intro q' rest
    obtain ⟨apart, there⟩ := (distinct.mem_erase_iff).mp rest
    exact (Nat.coprime_primes (prime q' there) (prime q member)).mpr apart
  · intro q' there apart
    exact List.dvd_prod ((List.mem_erase_of_ne apart).mpr there)

theorem prod_dvd_of_primes {qs : List ℕ} (prime : ∀ q ∈ qs, q.Prime) (distinct : qs.Nodup) {z : ℤ}
    (each : ∀ q ∈ qs, (q : ℤ) ∣ z) : (qs.prod : ℤ) ∣ z := by
  induction qs with
  | nil => simp
  | cons q qs ih =>
    obtain ⟨fresh, rest⟩ := List.nodup_cons.mp distinct
    have tail := ih (fun q' member => prime q' (List.mem_cons_of_mem q member)) rest
      fun q' member => each q' (List.mem_cons_of_mem q member)
    have coprime : q.Coprime qs.prod := by
      rw [Nat.coprime_list_prod_right_iff]
      intro q' member
      apply (Nat.coprime_primes (prime q (.head _)) (prime q' (List.mem_cons_of_mem q member))).mpr
      rintro rfl
      exact fresh member
    rw [List.prod_cons, Nat.cast_mul]
    exact (Nat.isCoprime_iff_coprime.mpr coprime).mul_dvd (each q (.head _)) tail

structure IsRoots (c : ℤ) (q : BitVec 64) (rk : List (BitVec 64)) : Prop where
  distinct : rk.Nodup
  reduced : ∀ x ∈ rk, x.toNat < q.toNat
  root : ∀ x ∈ rk, (q.toNat : ℤ) ∣ (x.toNat : ℤ) ^ 2 + c

theorem isRoots_pair {c : ℤ} {q x y : BitVec 64} (apart : x ≠ y) (below : x.toNat < q.toNat)
    (below' : y.toNat < q.toNat)
    (root : (q.toNat : ℤ) ∣ (x.toNat : ℤ) ^ 2 + c) (root' : (q.toNat : ℤ) ∣ (y.toNat : ℤ) ^ 2 + c) :
    IsRoots c q [x, y] := by
  refine ⟨by simpa using apart, ?_, ?_⟩
  · intro z member
    rcases List.mem_pair.mp member with rfl | rfl
    · exact below
    · exact below'
  · intro z member
    rcases List.mem_pair.mp member with rfl | rfl
    · exact root
    · exact root'

theorem IsRoots.opposite {c : ℤ} {q : BitVec 64} {x y : BitVec 64} (prime : q.toNat.Prime)
    (roots : IsRoots c q [x, y]) :
    (q.toNat : ℤ) ∣ x.toNat + y.toNat ∧ ¬ (q.toNat : ℤ) ∣ 2 * x.toNat := by
  have first := roots.root x (by simp)
  have second := roots.root y (by simp)
  have below := roots.reduced x (by simp)
  have below' := roots.reduced y (by simp)
  have apart : ¬ (q.toNat : ℤ) ∣ (x.toNat : ℤ) - y.toNat := by
    intro dvd
    have same : (x.toNat : ℤ) - y.toNat = 0 := by
      apply Int.eq_zero_of_abs_lt_dvd dvd
      rw [abs_lt]
      omega
    have equal : x = y := BitVec.eq_of_toNat_eq (by omega)
    have distinct := roots.distinct
    rw [equal] at distinct
    simp at distinct
  have product : (q.toNat : ℤ) ∣ ((x.toNat : ℤ) + y.toNat) * ((x.toNat : ℤ) - y.toNat) := by
    have difference := dvd_sub first second
    rwa [show (x.toNat : ℤ) ^ 2 + c - ((y.toNat : ℤ) ^ 2 + c) = ((x.toNat : ℤ) + y.toNat) * ((x.toNat : ℤ) - y.toNat)
      by ring] at difference
  have sum := ((Nat.prime_iff_prime_int.mp prime).dvd_or_dvd product).resolve_right apart
  refine ⟨sum, fun double => apart ?_⟩
  have difference := dvd_sub double sum
  rwa [show 2 * (x.toNat : ℤ) - (x.toNat + y.toNat) = x.toNat - y.toNat by ring] at difference

theorem crtData_ok {roots : BitVec 64 → List (BitVec 64)} {p : ℤ} {factors : List (BitVec 64)} {data : List ℤ}
    (run : crtData roots p factors = .ok data) :
    data = (factors.map fun q => crtComponent p q.toNat ((roots q).headD 0).toNat) ∧
      ∀ q ∈ factors, (roots q).length = 2 := by
  induction factors generalizing data with
  | nil =>
    obtain rfl : [] = data := by simpa [crtData] using run
    exact ⟨rfl, by simp⟩
  | cons q rest ih =>
    rw [crtData] at run
    obtain ⟨two, run⟩ := of_assert run
    cases tail : crtData roots p rest with
    | error failure =>
      rw [tail] at run
      exact absurd run (by simp [bind, Except.bind])
    | ok data' =>
      rw [tail] at run
      obtain ⟨same, each⟩ := ih tail
      have value : crtComponent p q.toNat ((roots q).headD 0).toNat :: data' = data := by
        simpa [bind, Except.bind, pure, Except.pure] using run
      subst same
      refine ⟨value.symm, ?_⟩
      exact List.forall_mem_cons.mpr ⟨two.resolve_left (by decide), each⟩

structure Valid (roots : BitVec 64 → List (BitVec 64)) (Q : SiqsSpecialQData) : Prop where
  prime : ∀ q ∈ Q.primeFactors, q.toNat.Prime
  distinct : Q.primeFactors.Nodup
  p_eq : Q.p = product Q.primeFactors
  r_eq : Q.r = Q.crtDataModq.sum
  components : Components (Q.primeFactors.map fun q => (q.toNat : ℤ)) Q.crtDataModq
  half : ∀ x ∈ Q.crtDataModq, 0 ≤ x ∧ 2 * x ≤ Q.p
  root : ∀ (k : ℕ) (q : BitVec 64) (R : ℤ), Q.primeFactors[k]? = some q → Q.crtDataModq[k]? = some R →
    ∀ minus : Bool, ∃ x ∈ roots q, (q.toNat : ℤ) ∣ signed minus R - x.toNat

section
variable {c : ℤ} {roots : BitVec 64 → List (BitVec 64)} {factors : List (BitVec 64)}
  (prime : ∀ q ∈ factors, q.toNat.Prime) (distinct : factors.Nodup)
include prime distinct

theorem primes_toNat : (∀ q ∈ factors.map BitVec.toNat, q.Prime) ∧ (factors.map BitVec.toNat).Nodup := by
  constructor
  · intro q member
    obtain ⟨q, there, rfl⟩ := List.mem_map.mp member
    exact prime q there
  · exact distinct.map fun x y same => BitVec.eq_of_toNat_eq same

theorem crtComponent_of_roots (exact : ∀ q ∈ factors, IsRoots c q (roots q)) {q : BitVec 64} (member : q ∈ factors)
    (two : (roots q).length = 2) {R : ℤ}
    (value : R = crtComponent (product factors) q.toNat ((roots q).headD 0).toNat) :
    (∀ q' ∈ factors, q' ≠ q → (q'.toNat : ℤ) ∣ R) ∧ ¬ (q.toNat : ℤ) ∣ 2 * R ∧ (0 ≤ R ∧ 2 * R ≤ product factors) ∧
      ∀ minus : Bool, ∃ x ∈ roots q, (q.toNat : ℤ) ∣ signed minus R - x.toNat := by
  obtain ⟨primes, apart⟩ := primes_toNat prime distinct
  obtain ⟨m, factor, coprime, others⟩ := cofactor primes apart (List.mem_map_of_mem member)
  have positive : 0 < product factors := List.prod_pos fun q there => (primes q there).pos
  obtain ⟨x, y, both⟩ := List.length_eq_two.mp two
  have opposite := (both ▸ exact q member).opposite (prime q member)
  obtain ⟨other, own, low, high⟩ := @crtComponent_spec (product factors) q.toNat m x.toNat
    (by exact_mod_cast factor) (by exact_mod_cast positive) (by exact_mod_cast (prime q member).pos)
      (by exact_mod_cast coprime)
  have head : (roots q).headD 0 = x := by rw [both]; rfl
  rw [head] at value
  rw [← value] at other own low high
  refine ⟨?_, ?_, ⟨low, high⟩, ?_⟩
  · intro q' there different
    refine dvd_trans ?_ other
    exact_mod_cast others _ (List.mem_map_of_mem there) fun same => different (BitVec.eq_of_toNat_eq same)
  · intro double
    apply opposite.2
    rcases own with near | near
    · have sum := dvd_sub double (near.mul_left 2)
      rwa [show 2 * R - 2 * (R - x.toNat) = 2 * x.toNat by ring] at sum
    · have sum := dvd_sub (near.mul_left 2) double
      rwa [show 2 * (R + x.toNat) - 2 * R = 2 * x.toNat by ring] at sum
  · -- If one sign gives one of the two roots, the other one gives the other.
    have flip {z : ℤ} {u v : BitVec 64} (sum : (q.toNat : ℤ) ∣ u.toNat + v.toNat) (near : (q.toNat : ℤ) ∣ z - u.toNat) :
        (q.toNat : ℤ) ∣ -z - v.toNat := by
      have total := dvd_add near sum
      rw [← dvd_neg] at total
      rwa [show -(z - (u.toNat : ℤ) + (u.toNat + v.toNat)) = -z - v.toNat by ring] at total
    intro minus
    rw [both]
    rcases own with near | near
    · cases minus with
      | false => exact ⟨x, by simp, near⟩
      | true => exact ⟨y, by simp, flip opposite.1 near⟩
    · have minus_near : (q.toNat : ℤ) ∣ -R - x.toNat := by
        rw [← dvd_neg]
        rwa [show -(-R - (x.toNat : ℤ)) = R + x.toNat by ring]
      cases minus with
      | false => exact ⟨y, by simp, by simpa [signed] using flip opposite.1 minus_near⟩
      | true => exact ⟨x, by simp, minus_near⟩

theorem valid_of_built (exact : ∀ q ∈ factors, IsRoots c q (roots q)) {Q : SiqsSpecialQData}
    (built : ofSpecialQ roots factors = .ok Q) : Q.primeFactors = factors ∧ Valid roots Q := by
  unfold ofSpecialQ at built
  cases run : crtData roots (product factors) factors with
  | error failure =>
    simp only [run] at built
    exact absurd built (by simp [bind, Except.bind])
  | ok data =>
    simp only [run] at built
    obtain rfl : SiqsSpecialQData.mk (product factors) data.sum factors data = Q := by
      simpa [bind, Except.bind, pure, Except.pure] using built
    obtain ⟨value, two⟩ := crtData_ok run
    have entry {k : ℕ} {q : BitVec 64} {R : ℤ} (modulus : factors[k]? = some q) (number : data[k]? = some R) :
        R = crtComponent (product factors) q.toNat ((roots q).headD 0).toNat := by
      rw [value, List.getElem?_map, modulus] at number
      exact (Option.some.inj number).symm
    have spec {k : ℕ} {q : BitVec 64} {R : ℤ} (modulus : factors[k]? = some q) (number : data[k]? = some R) :=
      crtComponent_of_roots prime distinct exact (List.mem_of_getElem? modulus) (two q (List.mem_of_getElem? modulus))
        (entry modulus number)
    refine ⟨rfl, prime, distinct, rfl, rfl, ⟨?_, ?_, ?_⟩, ?_, ?_⟩
    · rw [value, List.length_map, List.length_map]
    · intro k l q x modulus number apart
      rw [List.getElem?_map, Option.map_eq_some_iff] at modulus
      obtain ⟨q, there, rfl⟩ := modulus
      have inside : l < factors.length := by
        have := (List.getElem?_eq_some_iff.mp number).1
        rwa [value, List.length_map] at this
      have own : factors[l]? = some (factors.get ⟨l, inside⟩) := by simp
      refine (spec own number).1 q (List.mem_of_getElem? there) ?_
      intro same
      apply apart
      obtain ⟨_, get⟩ := List.getElem?_eq_some_iff.mp there
      exact distinct.getElem_inj_iff.mp (same.symm.trans get.symm)
    · intro k q x modulus number
      rw [List.getElem?_map, Option.map_eq_some_iff] at modulus
      obtain ⟨q, there, rfl⟩ := modulus
      exact (spec there number).2.1
    · intro x member
      obtain ⟨k, number⟩ := List.mem_iff_getElem?.mp member
      have inside : k < factors.length := by
        have := (List.getElem?_eq_some_iff.mp number).1
        rwa [value, List.length_map] at this
      exact (spec (show factors[k]? = some (factors.get ⟨k, inside⟩) by simp) number).2.2.1
    · intro k q R modulus number
      exact (spec modulus number).2.2.2

end

end SiqsSpecialQData
end CadoNfs.Sieve
