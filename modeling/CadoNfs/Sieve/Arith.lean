import CadoNfs.Lib.BinaryInverse
import CadoNfs.Lib.Montgomery
import CadoNfs.Sieve.Plattice

/-!
# Arithmetic modulo factor base primes

`sieve/las-arith.hpp`: Montgomery reduction on 32 bits, with or without a check of the carry, and modular
inverses.
-/

namespace CadoNfs.Sieve
open Lib

def redcNoCarry (p : BitVec 32) : Bool := p < 1#32 <<< 31

-- What `redc_u32` and `redc_32` do from the addition `xtp += tp` on.
def addReduce (carrycheck : Bool) (xtp tp : BitVec 64) (p : BitVec 32) : BitVec 32 :=
  let xtp := xtp + tp
  let t := if carrycheck ∧ xtp < tp then p else 0
  let u := (xtp >>> 32).setWidth 32
  let t := if p ≤ u then p else t
  u - t

def redcU32 (carrycheck : Bool) (x : BitVec 64) (p invp : BitVec 32) : BitVec 32 :=
  let t := x.setWidth 32 * invp
  let tp := t.setWidth 64 * p.setWidth 64
  addReduce carrycheck x tp p

def redc32 (carrycheck : Bool) (x : BitVec 64) (p invp : BitVec 32) : BitVec 32 :=
  let t := x.setWidth 32 * invp
  let tp := t.setWidth 64 * p.setWidth 64
  let xtp := if 0 ≤ x.toInt then x else x + (p.setWidth 64 <<< 32)
  addReduce carrycheck xtp tp p

def mulmodredcU32 (carrycheck : Bool) (a b p invp : BitVec 32) : BitVec 32 :=
  redcU32 carrycheck (a.setWidth 64 * b.setWidth 64) p invp

def varredcU32 (ndebug : Bool) (x p invp : BitVec 32) (s : BitVec 8) : Except Failure (BitVec 32) := do
  assert ndebug (s < 32)
  assert ndebug (x < p)
  let mask := (1#32 <<< s.toNat) - 1
  let t := (x * invp) &&& mask
  let tp := t.setWidth 64 * p.setWidth 64
  let xtp := x.setWidth 64 + tp
  assert ndebug ((xtp &&& mask.setWidth 64) = 0)
  return (xtp >>> s.toNat).setWidth 32

def addmodU32 (a b m : BitVec 32) : BitVec 32 :=
  let t := a + b
  let tr := a - m
  if 2 ^ 32 ≤ tr.toNat + b.toNat then tr + b else t

def invmodPo2 (ndebug : Bool) (n : BitVec 32) : Except Failure (BitVec 32) := do
  assert ndebug (n &&& 1 ≠ 0)
  let r := (3 * n) ^^^ 2
  let r := r * (2 - r * n)
  let r := r * (2 - r * n)
  return r * (2 - r * n)

structure InvmodState where
  a : BitVec 32
  b : BitVec 32
  u : BitVec 32
  v : BitVec 32
  t : BitVec 8

-- `while (true)`, cut off after `fuel` iterations.
def invmodLoop : Nat → InvmodState → Except Failure InvmodState
  | 0, _ => .error .outOfFuel
  | fuel + 1, ⟨a, b, u, v, t⟩ =>
    let diff1 := b - a
    if diff1 = 0 then .ok ⟨a, b, u, v, t⟩ else
    let lsh := diff1.ctz
    let diff1 := diff1 >>> lsh.toNat
    let v2 := v <<< lsh.toNat
    let diff2 := (a - b) >>> lsh.toNat
    let v := v + u
    let u := u <<< lsh.toNat
    let t := t + lsh.setWidth 8
    if a < b then invmodLoop fuel ⟨a, diff1, u, v, t⟩
    else invmodLoop fuel ⟨diff2, b, v, v2, t⟩

/-- For odd `p`; even moduli, which do without `invp`, are left out. -/
def invmodRedc32 (ndebug : Bool) (a p invp : BitVec 32) : Except Failure (BitVec 32) := do
  assert ndebug (a < p)
  if a = 0 then return a
  let lsh := a.ctz
  let s ← invmodLoop 64 ⟨a >>> lsh.toNat, p, 1, 0, lsh.setWidth 8⟩
  if s.a ≠ 1 then return 0
  if 32 ≤ s.t then varredcU32 ndebug s.u p invp (s.t - 32)
  else return (fun u => addmodU32 u u p)^[32 - s.t.toNat] s.u

/-! ## Montgomery reduction -/

structure RedcModulus (carrycheck : Bool) (p invp : BitVec 32) : Prop where
  inverse : p * invp = -1
  carry : carrycheck = true ∨ p.toNat < 2 ^ 31

section
variable {carrycheck : Bool} {p invp : BitVec 32}

theorem RedcModulus.dvd (modulus : RedcModulus carrycheck p invp) :
    2 ^ 32 ∣ p.toNat * invp.toNat + 1 := by
  have zero : p * invp + 1 = 0 := by rw [modulus.inverse]; rfl
  have value := congrArg BitVec.toNat zero
  rw [BitVec.toNat_add, BitVec.toNat_mul, show (1 : BitVec 32).toNat = 1 from rfl, Nat.mod_add_mod] at value
  exact Nat.dvd_of_mod_eq_zero value

theorem RedcModulus.isUnit (modulus : RedcModulus carrycheck p invp) : IsUnit (2 ^ 32 : ZMod p.toNat) := by
  have unit := (ZMod.isUnit_iff_coprime _ _).mpr (coprime_of_inverse modulus.dvd)
  rwa [Nat.cast_pow, Nat.cast_ofNat] at unit

theorem RedcModulus.odd (modulus : RedcModulus carrycheck p invp) : p.toNat % 2 = 1 := by
  have coprime := (coprime_of_inverse modulus.dvd).coprime_dvd_left (show 2 ∣ 2 ^ 32 by norm_num)
  exact Nat.odd_iff.mp (Nat.coprime_two_left.mp coprime)

theorem toNat_product (a b : BitVec 32) :
    (a.setWidth 64 * b.setWidth 64).toNat = a.toNat * b.toNat := by
  have wide {c : ℕ} (lt : c < 2 ^ 32) : c < 2 ^ 64 := lt.trans (by norm_num)
  have product : a.toNat * b.toNat < 2 ^ 32 * 2 ^ 32 := Nat.mul_lt_mul'' a.isLt b.isLt
  rw [← pow_add] at product
  rw [BitVec.toNat_mul, BitVec.toNat_setWidth, BitVec.toNat_setWidth, Nat.mod_eq_of_lt (wide a.isLt),
    Nat.mod_eq_of_lt (wide b.isLt), Nat.mod_eq_of_lt product]

-- The carry stands for `2^32` in the quotient, which is below `2 * p`.
theorem toNat_addReduce (modulus : RedcModulus carrycheck p invp) {x tp : BitVec 64} {r : Nat}
    (quotient : 2 ^ 32 * r = x.toNat + tp.toNat) (bound : r < 2 * p.toNat) :
    (addReduce carrycheck x tp p).toNat = if r < p.toNat then r else r - p.toNat := by
  have xLt := x.isLt
  have tpLt := tp.isLt
  have pLt := p.isLt
  have sum : (x + tp).toNat = (x.toNat + tp.toNat) % 2 ^ 64 := BitVec.toNat_add _ _
  have high : ((x + tp) >>> 32).setWidth 32 = .ofNat 32 r := by
    apply BitVec.eq_of_toNat_eq
    rw [BitVec.toNat_setWidth, BitVec.toNat_ushiftRight, sum, Nat.shiftRight_eq_div_pow, BitVec.toNat_ofNat]
    omega
  simp only [addReduce, high]
  by_cases carry : 2 ^ 32 ≤ r
  · have checked : carrycheck = true ∧ x + tp < tp := by
      refine ⟨modulus.carry.resolve_right (by omega), ?_⟩
      rw [BitVec.lt_def, sum]
      omega
    have small : ¬ p ≤ BitVec.ofNat 32 r := by
      rw [BitVec.le_def, BitVec.toNat_ofNat]
      omega
    rw [if_pos checked, if_neg small, if_neg (show ¬ r < p.toNat by omega)]
    rw [BitVec.toNat_sub, BitVec.toNat_ofNat]
    omega
  · have unchecked : ¬ (carrycheck = true ∧ x + tp < tp) := by
      rintro ⟨-, wrapped⟩
      rw [BitVec.lt_def, sum] at wrapped
      omega
    have exact : (BitVec.ofNat 32 r).toNat = r := by
      rw [BitVec.toNat_ofNat, Nat.mod_eq_of_lt (by omega)]
    rw [if_neg unchecked]
    by_cases large : p.toNat ≤ r
    · simp only [if_pos (show p ≤ BitVec.ofNat 32 r by rw [BitVec.le_def, exact]; exact large)]
      rw [BitVec.toNat_sub_of_le (by rw [BitVec.le_def, exact]; exact large), exact, if_neg (by omega)]
    · simp only [if_neg (show ¬ p ≤ BitVec.ofNat 32 r by rw [BitVec.le_def, exact]; exact large)]
      rw [if_pos (by omega), show (0 : BitVec 32) = 0#32 from rfl, BitVec.sub_zero, exact]

theorem addReduce_spec (modulus : RedcModulus carrycheck p invp) {x : BitVec 64} {low : BitVec 32}
    (bound : x.toNat < 2 ^ 32 * p.toNat) (same : low.toNat = x.toNat % 2 ^ 32) :
    (addReduce carrycheck x ((low * invp).setWidth 64 * p.setWidth 64) p).toNat < p.toNat ∧
      (2 ^ 32 * (addReduce carrycheck x ((low * invp).setWidth 64 * p.setWidth 64) p).toNat :
        ZMod p.toNat) = x.toNat := by
  have digit : (low * invp).toNat = x.toNat * invp.toNat % 2 ^ 32 := by
    rw [BitVec.toNat_mul, same, Nat.mod_mul_mod]
  have quotient := mul_redc modulus.dvd x.toNat
  have less := redc_lt_two_mul (Nat.two_pow_pos 32) modulus.dvd bound
  have cast := redc_cast modulus.dvd x.toNat
  rw [← digit, ← toNat_product] at quotient
  rw [Nat.cast_pow, Nat.cast_ofNat] at cast
  rw [toNat_addReduce modulus quotient less]
  split
  · exact ⟨by assumption, cast⟩
  · refine ⟨by omega, ?_⟩
    rw [Nat.cast_sub (by omega), ZMod.natCast_self, sub_zero]
    exact cast

theorem redcU32_spec (modulus : RedcModulus carrycheck p invp) {x : BitVec 64}
    (bound : x.toNat < 2 ^ 32 * p.toNat) :
    (redcU32 carrycheck x p invp).toNat < p.toNat ∧
      (2 ^ 32 * (redcU32 carrycheck x p invp).toNat : ZMod p.toNat) = x.toNat :=
  addReduce_spec modulus bound (BitVec.toNat_setWidth 32 x)

theorem mulmodredcU32_spec (modulus : RedcModulus carrycheck p invp) {a b : BitVec 32}
    (bound : a.toNat < p.toNat) :
    (mulmodredcU32 carrycheck a b p invp).toNat < p.toNat ∧
      (2 ^ 32 * (mulmodredcU32 carrycheck a b p invp).toNat : ZMod p.toNat) = a.toNat * b.toNat := by
  have small : (a.setWidth 64 * b.setWidth 64).toNat < 2 ^ 32 * p.toNat := by
    rw [toNat_product]
    have := b.isLt
    nlinarith
  have spec := redcU32_spec modulus small
  rw [toNat_product, Nat.cast_mul] at spec
  exact spec

theorem redc32_spec (modulus : RedcModulus carrycheck p invp) {x : BitVec 64}
    (bound : |x.toInt| < 2 ^ 32 * p.toNat) :
    (redc32 carrycheck x p invp).toNat < p.toNat ∧
      (2 ^ 32 * (redc32 carrycheck x p invp).toNat : ZMod p.toNat) = x.toInt := by
  have xLt := x.isLt
  have pLt := p.isLt
  rw [abs_lt] at bound
  have split : x.toInt = if 2 * x.toNat < 2 ^ 64 then (x.toNat : ℤ) else x.toNat - 2 ^ 64 := by
    simpa using BitVec.toInt_eq_toNat_cond x
  by_cases negative : 0 ≤ x.toInt
  · have exact : x.toInt = x.toNat := by omega
    simp only [redc32, if_pos negative]
    have spec := addReduce_spec modulus (by omega) (BitVec.toNat_setWidth 32 x)
    rwa [exact, Int.cast_natCast]
  · have shifted : (p.setWidth 64 <<< 32).toNat = p.toNat * 2 ^ 32 := by
      rw [BitVec.toNat_shiftLeft, BitVec.toNat_setWidth, Nat.shiftLeft_eq,
        Nat.mod_eq_of_lt (show p.toNat < 2 ^ 64 by omega),
        Nat.mod_eq_of_lt (by omega)]
    have value : (x + (p.setWidth 64 <<< 32)).toNat = x.toInt + p.toNat * 2 ^ 32 := by
      rw [BitVec.toNat_add, shifted]
      omega
    simp only [redc32, if_neg negative]
    have low : (x.setWidth 32).toNat = (x + (p.setWidth 64 <<< 32)).toNat % 2 ^ 32 := by
      rw [BitVec.toNat_setWidth, BitVec.toNat_add, shifted]
      omega
    have spec := addReduce_spec modulus (by omega) low
    have cast := congrArg (Int.cast (R := ZMod p.toNat)) value
    push_cast [ZMod.natCast_self] at cast
    rw [zero_mul, add_zero] at cast
    rwa [cast] at spec

theorem varredcU32_spec (modulus : RedcModulus carrycheck p invp) (ndebug : Bool) {x : BitVec 32} {s : BitVec 8}
    (bound : x.toNat < p.toNat) (small : s.toNat < 32) :
    ∃ r, varredcU32 ndebug x p invp s = .ok r ∧ r.toNat < p.toNat ∧
      (2 ^ s.toNat * r.toNat : ZMod p.toNat) = x.toNat := by
  have inverse : 2 ^ s.toNat ∣ p.toNat * invp.toNat + 1 :=
    (pow_dvd_pow 2 (show s.toNat ≤ 32 by omega)).trans modulus.dvd
  have quotient := mul_redc inverse x.toNat
  have less := redc_lt (Nat.two_pow_pos s.toNat) inverse bound
  have cast := redc_cast inverse x.toNat
  rw [Nat.cast_pow, Nat.cast_ofNat] at cast
  have pLt := p.isLt
  have power : 2 ^ s.toNat ≤ 2 ^ 31 := Nat.pow_le_pow_right (by norm_num) (by omega)
  have mask : ((1#32 <<< s.toNat) - 1).toNat = 2 ^ s.toNat - 1 := by
    have one := toNat_sieveWidth small
    rw [sieveWidth] at one
    have := Nat.two_pow_pos s.toNat
    rw [BitVec.toNat_sub_of_le (by rw [BitVec.le_def, one]; exact this), one]
    rfl
  have digit : ((x * invp) &&& ((1#32 <<< s.toNat) - 1)).toNat = x.toNat * invp.toNat % 2 ^ s.toNat := by
    rw [BitVec.toNat_and, mask, Nat.and_two_pow_sub_one_eq_mod, BitVec.toNat_mul]
    exact Nat.mod_mod_of_dvd _ (pow_dvd_pow 2 (by omega))
  have sum : (x.setWidth 64 + ((x * invp) &&& ((1#32 <<< s.toNat) - 1)).setWidth 64 * p.setWidth 64).toNat =
      2 ^ s.toNat * redc (2 ^ s.toNat) p.toNat invp.toNat x.toNat := by
    have product := Nat.mul_le_mul power less.le
    rw [BitVec.toNat_add, toNat_product, digit, BitVec.toNat_setWidth,
      Nat.mod_eq_of_lt (show x.toNat < 2 ^ 64 by omega),
      ← quotient, Nat.mod_eq_of_lt (by omega)]
  have cleared : (x.setWidth 64 + ((x * invp) &&& ((1#32 <<< s.toNat) - 1)).setWidth 64 * p.setWidth 64) &&&
      ((1#32 <<< s.toNat) - 1).setWidth 64 = 0 := by
    apply BitVec.eq_of_toNat_eq
    rw [BitVec.toNat_and, sum, BitVec.toNat_setWidth, mask, Nat.mod_eq_of_lt (by omega),
      Nat.and_two_pow_sub_one_eq_mod, Nat.mul_mod_right]
    rfl
  have result : (((x.setWidth 64 + ((x * invp) &&& ((1#32 <<< s.toNat) - 1)).setWidth 64 * p.setWidth 64) >>>
      s.toNat).setWidth 32).toNat = redc (2 ^ s.toNat) p.toNat invp.toNat x.toNat := by
    rw [BitVec.toNat_setWidth, BitVec.toNat_ushiftRight, sum, Nat.shiftRight_eq_div_pow,
      Nat.mul_div_cancel_left _ (Nat.two_pow_pos _), Nat.mod_eq_of_lt (by omega)]
  have width : s < 32 := small
  have below : x < p := bound
  refine ⟨_, ?_, by rw [result]; exact less, by rw [result]; exact cast⟩
  simp only [varredcU32, assert_of width, assert_of below, assert_of cleared]
  rfl

theorem toNat_addmodU32 {a b m : BitVec 32} (ha : a.toNat < m.toNat) (hb : b.toNat ≤ m.toNat) :
    (addmodU32 a b m).toNat = if m.toNat ≤ a.toNat + b.toNat then a.toNat + b.toNat - m.toNat
      else a.toNat + b.toNat := by
  have aLt := a.isLt
  have mLt := m.isLt
  have tr : (a - m).toNat = 2 ^ 32 + a.toNat - m.toNat := by
    rw [BitVec.toNat_sub]
    omega
  unfold addmodU32
  by_cases carry : m.toNat ≤ a.toNat + b.toNat
  · rw [if_pos carry]
    simp only [tr, if_pos (show 2 ^ 32 ≤ 2 ^ 32 + a.toNat - m.toNat + b.toNat by omega)]
    rw [BitVec.toNat_add, tr]
    omega
  · rw [if_neg carry]
    simp only [tr, if_neg (show ¬ 2 ^ 32 ≤ 2 ^ 32 + a.toNat - m.toNat + b.toNat by omega)]
    rw [BitVec.toNat_add_of_lt (by omega)]

theorem addmodU32_double {u m : BitVec 32} (bound : u.toNat < m.toNat) :
    (addmodU32 u u m).toNat < m.toNat ∧
      ((addmodU32 u u m).toNat : ZMod m.toNat) = 2 * u.toNat := by
  rw [toNat_addmodU32 bound bound.le]
  split
  · refine ⟨by omega, ?_⟩
    rw [Nat.cast_sub (by assumption), ZMod.natCast_self, sub_zero, Nat.cast_add, two_mul]
  · refine ⟨by omega, ?_⟩
    rw [Nat.cast_add, two_mul]

theorem addmodU32_doubles {u m : BitVec 32} (bound : u.toNat < m.toNat) (n : Nat) :
    ((fun u => addmodU32 u u m)^[n] u).toNat < m.toNat ∧
      (((fun u => addmodU32 u u m)^[n] u).toNat : ZMod m.toNat) = 2 ^ n * u.toNat := by
  induction n with
  | zero => exact ⟨bound, by simp⟩
  | succ n ih =>
    rw [Function.iterate_succ_apply']
    obtain ⟨less, value⟩ := addmodU32_double ih.1
    refine ⟨less, ?_⟩
    rw [value, ih.2]
    ring

-- The trailing zeros are a power of two, and what is left is odd.
theorem ctz_split {x : BitVec 32} (nonzero : x ≠ 0) :
    x.toNat = 2 ^ x.ctz.toNat * (x >>> x.ctz.toNat).toNat ∧ (x >>> x.ctz.toNat).toNat % 2 = 1 ∧
      x.ctz.toNat < 32 := by
  have cleared : x.toNat % 2 ^ x.ctz.toNat = 0 := by
    apply Nat.eq_of_testBit_eq
    intro i
    rw [Nat.testBit_mod_two_pow, Nat.zero_testBit, Bool.and_eq_false_imp]
    intro low
    exact BitVec.getLsbD_false_of_lt_ctz (of_decide_eq_true low)
  have shifted : (x >>> x.ctz.toNat).toNat = x.toNat / 2 ^ x.ctz.toNat := by
    rw [BitVec.toNat_ushiftRight, Nat.shiftRight_eq_div_pow]
  refine ⟨?_, ?_, BitVec.ctz_lt_iff_ne_zero.mpr nonzero⟩
  · rw [shifted, Nat.mul_div_cancel' (Nat.dvd_of_mod_eq_zero cleared)]
  · have bit := BitVec.getLsbD_true_ctz_of_ne_zero nonzero
    rw [BitVec.getLsbD, Nat.testBit_eq_decide_div_mod_eq, decide_eq_true_eq] at bit
    rwa [shifted]

theorem invmodLoop_step {bound divisor : ℕ} {w : ZMod p.toNat} {a b u v : BitVec 32} {t : BitVec 8}
    (inv : BinaryInverse p.toNat bound divisor w a.toNat b.toNat u.toNat v.toNat t.toNat)
    (small : bound < 2 ^ 64) {c k : Nat} (split : b.toNat = a.toNat + 2 ^ k * c) (odd : c % 2 = 1) :
    t.toNat < (t + .ofNat 8 k).toNat ∧ BinaryInverse p.toNat bound divisor w a.toNat c (u <<< k).toNat
      (v + u).toNat (t + .ofNat 8 k).toNat := by
  have next := inv.step split odd
  have pLt := p.isLt
  have total := next.add_le
  have exponent : t.toNat + k < 64 :=
    (Nat.pow_lt_pow_iff_right (show 1 < 2 by norm_num)).mp (next.two_pow_le.trans_lt small)
  have positive : 0 < k := by
    rcases Nat.eq_zero_or_pos k with rfl | positive
    · have := inv.odd
      have := inv.odd'
      omega
    · exact positive
  have shifted : (u <<< k).toNat = 2 ^ k * u.toNat := by
    rw [BitVec.toNat_shiftLeft, Nat.shiftLeft_eq, mul_comm, Nat.mod_eq_of_lt (by omega)]
  have sum : (v + u).toNat = u.toNat + v.toNat := by
    rw [add_comm v u]
    exact BitVec.toNat_add_of_lt (by omega)
  have time : (t + .ofNat 8 k).toNat = t.toNat + k := by
    rw [BitVec.toNat_add, BitVec.toNat_ofNat]
    omega
  rw [shifted, sum, time]
  exact ⟨by omega, next⟩

theorem invmodLoop_spec {bound divisor : ℕ} {w : ZMod p.toNat} (small : bound < 2 ^ 64) {fuel : Nat}
    {s : InvmodState} (enough : 64 ≤ fuel + s.t.toNat)
    (inv : BinaryInverse p.toNat bound divisor w s.a.toNat s.b.toNat s.u.toNat s.v.toNat s.t.toNat) :
    ∃ s', invmodLoop fuel s = .ok s' ∧
      BinaryInverse p.toNat bound divisor w s'.a.toNat s'.a.toNat s'.u.toNat s'.v.toNat s'.t.toNat := by
  induction fuel generalizing s with
  | zero =>
    have power := Nat.pow_le_pow_right (show 0 < 2 by norm_num) enough
    have := inv.two_pow_le
    rw [Nat.zero_add] at power
    omega
  | succ fuel ih =>
    obtain ⟨a, b, u, v, t⟩ := s
    replace inv : BinaryInverse p.toNat bound divisor w a.toNat b.toNat u.toNat v.toNat t.toNat := inv
    replace enough : 64 ≤ fuel + 1 + t.toNat := enough
    by_cases same : b - a = 0
    · obtain rfl : b = a := by bv_omega
      exact ⟨⟨b, b, u, v, t⟩, if_pos same, inv⟩
    · obtain ⟨split, odd, width⟩ := ctz_split same
      simp only [invmodLoop, if_neg same]
      generalize (b - a).ctz = lsh at split odd width ⊢
      rw [← BitVec.ofNat_toNat]
      by_cases less : a < b
      · have difference : (b - a).toNat = b.toNat - a.toNat := BitVec.toNat_sub_of_le (BitVec.le_of_lt less)
        obtain ⟨later, next⟩ := invmodLoop_step inv small
          (c := ((b - a) >>> lsh.toNat).toNat) (k := lsh.toNat) (by rw [BitVec.lt_def] at less; omega) odd
        rw [if_pos less]
        exact ih (show 64 ≤ fuel + (t + .ofNat 8 lsh.toNat).toNat by omega) next
      · -- `a - b` has the same trailing zeros as `b - a`.
        have complement : 2 ^ 32 = 2 ^ lsh.toNat * 2 ^ (32 - lsh.toNat) := by
          rw [← pow_add, Nat.add_sub_cancel' width.le]
        have even : 2 ^ (32 - lsh.toNat) % 2 = 0 := by
          rw [← Nat.sub_add_cancel (show 1 ≤ 32 - lsh.toNat by omega), pow_succ, Nat.mul_mod_left]
        have opposite : (a - b).toNat = 2 ^ lsh.toNat * (2 ^ (32 - lsh.toNat) -
            ((b - a) >>> lsh.toNat).toNat) := by
          rw [Nat.mul_sub, ← complement, ← split]
          bv_omega
        have shifted : ((a - b) >>> lsh.toNat).toNat =
            2 ^ (32 - lsh.toNat) - ((b - a) >>> lsh.toNat).toNat := by
          rw [BitVec.toNat_ushiftRight, opposite, Nat.shiftRight_eq_div_pow,
            Nat.mul_div_cancel_left _ (Nat.two_pow_pos _)]
        have difference : (a - b).toNat = a.toNat - b.toNat := BitVec.toNat_sub_of_le (BitVec.not_lt.mp less)
        rw [← shifted] at opposite
        have odd' : ((a - b) >>> lsh.toNat).toNat % 2 = 1 := by
          have := (b - a).isLt
          have bounded : ((b - a) >>> lsh.toNat).toNat < 2 ^ (32 - lsh.toNat) := by
            apply Nat.lt_of_mul_lt_mul_left (a := 2 ^ lsh.toNat)
            omega
          omega
        obtain ⟨later, next⟩ := invmodLoop_step inv.swap small (c := ((a - b) >>> lsh.toNat).toNat)
          (k := lsh.toNat) (by have := BitVec.not_lt.mp less; rw [BitVec.le_def] at this; omega) odd'
        have back := next.swap
        rw [neg_neg, add_comm u v] at back
        rw [if_neg less]
        exact ih (show 64 ≤ fuel + (t + .ofNat 8 lsh.toNat).toNat by omega) back

theorem RedcModulus.two_isUnit (modulus : RedcModulus carrycheck p invp) : IsUnit (2 : ZMod p.toNat) :=
  isUnit_pow_iff (by norm_num) |>.mp modulus.isUnit

theorem invmodRedc32_finish (modulus : RedcModulus carrycheck p invp) (ndebug : Bool) {u : BitVec 32}
    {t : BitVec 8} {w : ZMod p.toNat} (bound : u.toNat < p.toNat) (small : t.toNat < 64)
    (inverse : w * u.toNat = 2 ^ t.toNat) :
    ∃ r, (if 32 ≤ t then varredcU32 ndebug u p invp (t - 32)
        else return (fun u => addmodU32 u u p)^[32 - t.toNat] u) = .ok r ∧
      r.toNat < p.toNat ∧ w * r.toNat = 2 ^ 32 := by
  by_cases large : 32 ≤ t
  · have time : (t - 32).toNat = t.toNat - 32 := BitVec.toNat_sub_of_le large
    have large' : 32 ≤ t.toNat := large
    obtain ⟨r, run, less, value⟩ := varredcU32_spec modulus ndebug (s := t - 32) bound (by omega)
    refine ⟨r, by rw [if_pos large, run], less, ?_⟩
    apply (modulus.two_isUnit.pow (t.toNat - 32)).mul_left_cancel
    rw [mul_left_comm, ← time, value, inverse, ← pow_add, time, Nat.sub_add_cancel large']
  · have small' : t.toNat < 32 := BitVec.not_le.mp large
    obtain ⟨less, value⟩ := addmodU32_doubles bound (32 - t.toNat)
    refine ⟨_, if_neg large, less, ?_⟩
    rw [value, mul_left_comm, inverse, ← pow_add, Nat.sub_add_cancel small'.le]

theorem invmodLoop_start (modulus : RedcModulus carrycheck p invp) {a : BitVec 32} (bound : a.toNat < p.toNat)
    (zero : a ≠ 0) :
    ∃ s, invmodLoop 64 ⟨a >>> a.ctz.toNat, p, 1, 0, a.ctz.setWidth 8⟩ = .ok s ∧ s.t.toNat < 64 ∧
      BinaryInverse p.toNat (a.toNat * p.toNat) (a.toNat.gcd p.toNat) (a.toNat : ZMod p.toNat) s.a.toNat s.a.toNat
        s.u.toNat s.v.toNat s.t.toNat := by
  obtain ⟨split, odd, width⟩ := ctz_split zero
  have shift : (a.ctz.setWidth 8).toNat = a.ctz.toNat := by
    rw [BitVec.toNat_setWidth]
    omega
  have part : (a >>> a.ctz.toNat).toNat ≤ a.toNat := by
    rw [split]
    exact Nat.le_mul_of_pos_left _ (Nat.two_pow_pos _)
  have start := BinaryInverse.start modulus.odd odd split (part.trans_lt bound)
  have small : a.toNat * p.toNat < 2 ^ 64 := by
    have := a.isLt
    have := p.isLt
    nlinarith
  obtain ⟨s, run, final⟩ := invmodLoop_spec small
    (s := ⟨a >>> a.ctz.toNat, p, 1, 0, a.ctz.setWidth 8⟩) (show 64 ≤ 64 + _ from Nat.le_add_right _ _)
    (by rw [shift]; exact start)
  exact ⟨s, run, (Nat.pow_lt_pow_iff_right (show 1 < 2 by norm_num)).mp (final.two_pow_le.trans_lt small), final⟩

theorem invmodRedc32_spec (modulus : RedcModulus carrycheck p invp) (ndebug : Bool) (one : 1 < p.toNat)
    {a : BitVec 32} (bound : a.toNat < p.toNat) :
    ∃ r, invmodRedc32 ndebug a p invp = .ok r ∧ r.toNat < p.toNat ∧
      (r ≠ 0 ↔ IsUnit (a.toNat : ZMod p.toNat)) ∧
      (r ≠ 0 → (a.toNat * r.toNat : ZMod p.toNat) = 2 ^ 32) := by
  have : Fact (1 < p.toNat) := ⟨one⟩
  have below : a < p := bound
  unfold invmodRedc32
  rw [assert_of below]
  by_cases zero : a = 0
  · refine ⟨0, ?_, Nat.zero_lt_of_lt one, ?_, fun nonzero => absurd rfl nonzero⟩
    · rw [if_pos zero, zero]
      rfl
    · simp [zero]
  obtain ⟨s, run, exponent, final⟩ := invmodLoop_start modulus bound zero
  obtain ⟨gcd, less, inverse⟩ := final.finish
  by_cases coprime : s.a = 1
  · have unit : IsUnit (a.toNat : ZMod p.toNat) := by
      rw [ZMod.isUnit_iff_coprime, Nat.Coprime, ← gcd, coprime]
      rfl
    obtain ⟨r, finished, below, value⟩ := invmodRedc32_finish modulus ndebug less exponent
      (inverse (by rw [coprime]; rfl))
    refine ⟨r, ?_, below, ⟨fun _ => unit, ?_⟩, fun _ => value⟩
    · simp only [bind, Except.bind, if_neg zero, run, if_neg (not_not.mpr coprime)]
      exact finished
    · rintro - rfl
      have zero : (2 ^ 32 : ZMod p.toNat) = 0 := by rw [← value]; simp
      exact modulus.isUnit.ne_zero zero
  · refine ⟨0, ?_, Nat.zero_lt_of_lt one, ?_, fun nonzero => absurd rfl nonzero⟩
    · simp only [bind, Except.bind, if_neg zero, run, if_pos coprime]
      rfl
    · refine iff_of_false (fun nonzero => nonzero rfl) fun unit => coprime ?_
      rw [ZMod.isUnit_iff_coprime, Nat.Coprime, ← gcd] at unit
      exact BitVec.eq_of_toNat_eq unit

end

theorem newton_step {R : Type*} [CommRing R] {r n e : R} (approximate : r * n = 1 + e) :
    r * (2 - r * n) * n = 1 + -e ^ 2 := by
  linear_combination -(r * n - 1 + e) * approximate

theorem toNat_and_one (n : BitVec 32) : (n &&& 1).toNat = n.toNat % 2 := by
  rw [BitVec.toNat_and, show (1 : BitVec 32).toNat = 1 from rfl, Nat.and_one_is_mod]

-- The seed is right modulo 32; `decide` tries the odd residues.
theorem invmodPo2_seed {n : BitVec 32} (odd : n.toNat % 2 = 1) :
    ∃ k : BitVec 32, ((3 * n) ^^^ 2) * n = 1 + 32 * k := by
  have residues : ∀ m : BitVec 5, m.toNat % 2 = 1 → (((3 * m) ^^^ 2) * m).toNat = 1 := by decide
  have residue := residues (n.setWidth 5) (by
    rw [BitVec.toNat_setWidth]
    omega)
  have width : (((3 * n) ^^^ 2) * n).setWidth 5 = ((3 * n.setWidth 5) ^^^ 2) * n.setWidth 5 := by
    rw [BitVec.setWidth_mul _ _ (by norm_num), BitVec.setWidth_xor, BitVec.setWidth_mul _ _ (by norm_num)]
    rfl
  rw [← width, BitVec.toNat_setWidth] at residue
  generalize ((3 * n) ^^^ 2) * n = x at residue
  refine ⟨.ofNat 32 (x.toNat / 2 ^ 5), BitVec.eq_of_toNat_eq ?_⟩
  have := x.isLt
  rw [BitVec.toNat_add, BitVec.toNat_mul, BitVec.toNat_ofNat, show (1 : BitVec 32).toNat = 1 from rfl,
    show (32 : BitVec 32).toNat = 32 from rfl]
  omega

theorem invmodPo2_spec (ndebug : Bool) {n : BitVec 32} (odd : n.toNat % 2 = 1) :
    ∃ r, invmodPo2 ndebug n = .ok r ∧ r * n = 1 := by
  have nonzero : n &&& 1 ≠ 0 := fun zero => by
    have value := congrArg BitVec.toNat zero
    rw [toNat_and_one, odd] at value
    cases value
  obtain ⟨k, seed⟩ := invmodPo2_seed odd
  refine ⟨_, by rw [invmodPo2, assert_of nonzero]; rfl, ?_⟩
  rw [newton_step (newton_step (newton_step seed))]
  have vanishes : -(-(-(32 * k) ^ 2) ^ 2) ^ 2 = 2 ^ 40 * -k ^ 8 := by ring
  rw [vanishes, show (2 ^ 40 : BitVec 32) = 0 by decide, zero_mul, add_zero]

end CadoNfs.Sieve

/-!
# The inverse for an odd modulus

`invmod_redc_32` of `sieve/las-arith.hpp` as a whole: what it returns for every residue of an odd modulus, and by how
much it shifts on the way.
-/

namespace CadoNfs.Sieve
open Lib

def InvmodState.next (s : InvmodState) : InvmodState :=
  let lsh := (s.b - s.a).ctz
  if s.a < s.b then ⟨s.a, (s.b - s.a) >>> lsh.toNat, s.u <<< lsh.toNat, s.v + s.u, s.t + lsh.setWidth 8⟩
  else ⟨(s.a - s.b) >>> lsh.toNat, s.b, s.v + s.u, s.v <<< lsh.toNat, s.t + lsh.setWidth 8⟩

def invmodShifts : Nat → InvmodState → List Nat
  | 0, _ => []
  | fuel + 1, s => if s.b - s.a = 0 then [] else (s.b - s.a).ctz.toNat :: invmodShifts fuel s.next

def invmodStart (a p : BitVec 32) : InvmodState :=
  ⟨a >>> a.ctz.toNat, p, 1, 0, a.ctz.setWidth 8⟩

def reductionShifts (s : InvmodState) : List Nat :=
  if s.a = 1 ∧ 32 ≤ s.t then [(s.t - 32).toNat] else []

/-- Every count by which `invmod_redc_32` shifts a word of 32 bits, in the order of the run. -/
def shiftCounts (a p : BitVec 32) : List Nat :=
  if a = 0 then [] else
    a.ctz.toNat :: invmodShifts 64 (invmodStart a p) ++
      ((invmodLoop 64 (invmodStart a p)).toOption.map reductionShifts).getD []

theorem invmodShifts_lt {fuel : Nat} {s : InvmodState} {n : Nat} (mem : n ∈ invmodShifts fuel s) : n < 32 := by
  induction fuel generalizing s with
  | zero => cases mem
  | succ fuel ih =>
    rw [invmodShifts] at mem
    by_cases same : s.b - s.a = 0
    · rw [if_pos same] at mem
      cases mem
    · rw [if_neg same] at mem
      cases mem with
      | head => exact BitVec.ctz_lt_iff_ne_zero.mpr same
      | tail _ later => exact ih later

theorem redcModulus_of_inverse {p invp : BitVec 32} (inverse : p * invp = -1) : RedcModulus true p invp :=
  ⟨inverse, .inl rfl⟩

theorem shiftCounts_lt {p invp : BitVec 32} (inverse : p * invp = -1) {a : BitVec 32}
    (bound : a.toNat < p.toNat) : ∀ n ∈ shiftCounts a p, n < 32 := by
  intro n mem
  unfold shiftCounts at mem
  by_cases zero : a = 0
  · rw [if_pos zero] at mem
    cases mem
  · obtain ⟨s, run, small, -⟩ := invmodLoop_start (redcModulus_of_inverse inverse) bound zero
    rw [if_neg zero, show invmodLoop 64 (invmodStart a p) = _ from run] at mem
    rcases List.mem_append.mp mem with early | late
    · cases early with
      | head => exact BitVec.ctz_lt_iff_ne_zero.mpr zero
      | tail _ loop => exact invmodShifts_lt loop
    · change n ∈ reductionShifts s at late
      rw [reductionShifts] at late
      split at late
      · rename_i reduced
        have value : (s.t - 32).toNat = s.t.toNat - 32 := BitVec.toNat_sub_of_le reduced.2
        rw [List.mem_singleton] at late
        omega
      · cases late

theorem invmodRedc32_value {p invp : BitVec 32} (inverse : p * invp = -1) (ndebug : Bool) {a : BitVec 32}
    (bound : a.toNat < p.toNat) :
    ∃ r, invmodRedc32 ndebug a p invp = .ok r ∧ r.toNat < p.toNat ∧
      (a.toNat.gcd p.toNat = 1 → a.toNat * r.toNat ≡ 2 ^ 32 [MOD p.toNat]) ∧
      (1 < p.toNat → (r = 0 ↔ a.toNat.gcd p.toNat ≠ 1)) := by
  have modulus := redcModulus_of_inverse inverse
  by_cases one : 1 < p.toNat
  · obtain ⟨r, run, less, unit, value⟩ := invmodRedc32_spec modulus ndebug one bound
    have nonzero : r ≠ 0 ↔ a.toNat.gcd p.toNat = 1 := by
      rw [unit, ZMod.isUnit_iff_coprime, Nat.Coprime]
    refine ⟨r, run, less, ?_, fun _ => ?_⟩
    · intro coprime
      have equal := value (nonzero.mpr coprime)
      rw [← ZMod.natCast_eq_natCast_iff, Nat.cast_mul, Nat.cast_pow, Nat.cast_ofNat]
      exact equal
    · rw [ne_eq, ← nonzero, not_not]
  · -- The only residue is 0, which the code returns at once.
    have trivial : p.toNat = 1 := by omega
    have zero : a = 0 := BitVec.eq_of_toNat_eq (show a.toNat = 0 by omega)
    have below : a < p := bound
    refine ⟨0, ?_, by rw [trivial]; exact Nat.one_pos, fun _ => ?_, fun large => absurd large one⟩
    · rw [invmodRedc32, assert_of below, zero]
      rfl
    · rw [trivial]
      exact Nat.modEq_one

/-- The run ends with its assertions true, with `2^32 / a` or, where `a` is not invertible, with 0, and no shift
count reaches the size of a word. -/
theorem invmodRedc32_inverts {p invp : BitVec 32} (inverse : p * invp = -1) {a : BitVec 32} (bound : a < p) :
    (∃ r, invmodRedc32 false a p invp = .ok r ∧ r < p ∧
      (a.toNat.gcd p.toNat = 1 → a.toNat * r.toNat ≡ 2 ^ 32 [MOD p.toNat]) ∧
      (a.toNat.gcd p.toNat ≠ 1 → r = 0) ∧ (1 < p.toNat → r = 0 → a.toNat.gcd p.toNat ≠ 1)) ∧
    ∀ n ∈ shiftCounts a p, n < 32 := by
  refine ⟨?_, shiftCounts_lt inverse bound⟩
  obtain ⟨r, run, less, value, zero⟩ := invmodRedc32_value inverse false bound
  refine ⟨r, run, less, value, ?_, fun one => (zero one).mp⟩
  intro common
  have one : 1 < p.toNat := by
    by_contra small
    have below : a.toNat < p.toNat := bound
    exact common (by rw [show p.toNat = 1 by omega, Nat.gcd_one_right])
  exact (zero one).mpr common

theorem invmodRedc32_inverts_seven :
    (∃ r, invmodRedc32 false 3 7 1227133513 = .ok r ∧ r < 7 ∧
      (Nat.gcd 3 7 = 1 → 3 * r.toNat ≡ 2 ^ 32 [MOD 7]) ∧ (Nat.gcd 3 7 ≠ 1 → r = 0) ∧
      (1 < 7 → r = 0 → Nat.gcd 3 7 ≠ 1)) ∧
    ∀ n ∈ shiftCounts 3 7, n < 32 :=
  invmodRedc32_inverts (show (7 : BitVec 32) * 1227133513 = -1 by decide) (show (3 : BitVec 32) < 7 by decide)

end CadoNfs.Sieve
