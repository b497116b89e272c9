import CadoNfs.Sieve.Plattice

/-!
# Enumerating the points of a lattice

`plattice_enumerator` of `sieve/las-plattice.hpp`: the walk of Franke and Kleinjung on the positions
`x = (i + I/2) + (j << logI)`, in 64-bit words.
-/

namespace CadoNfs.Sieve
open Lib

namespace PlatticeInfo

def getI0 (p : PlatticeInfo) : BitVec 32 := -p.mi0

def getBoundStep (p : PlatticeInfo) : BitVec 32 := p.mi0

def getBoundWarp (p : PlatticeInfo) (logI : Nat) : BitVec 32 :=
  if p.i1 >>> logI ≠ 0 then 0 else (1#32 <<< logI) - p.i1

def getIncWarp (p : PlatticeInfo) (logI : Nat) : BitVec 64 :=
  (p.j0.setWidth 64 <<< logI) + p.getI0.signExtend 64

def getIncStep (p : PlatticeInfo) (logI : Nat) : BitVec 64 :=
  if p.i1 >>> logI ≠ 0 then .allOnes 64 -- never added
  else (p.j1.setWidth 64 <<< logI) + p.i1.signExtend 64

end PlatticeInfo

structure PlatticeEnumerator where
  incWarp : BitVec 64
  incStep : BitVec 64
  boundStep : BitVec 32
  boundWarp : BitVec 32
  x : BitVec 64

namespace PlatticeEnumerator

def maskI (logI : Nat) : BitVec 32 := (1#32 <<< logI) - 1#32

def start (basis : PlatticeInfo) (logI : Nat) : PlatticeEnumerator where
  incWarp := basis.getIncWarp logI
  incStep := basis.getIncStep logI
  boundStep := basis.getBoundStep
  boundWarp := basis.getBoundWarp logI
  x := 1#64 <<< (logI - 1)

def next (maskI : BitVec 32) (e : PlatticeEnumerator) : PlatticeEnumerator :=
  let i := (e.x &&& maskI.setWidth 64).setWidth 32
  let x := if e.boundWarp ≤ i then e.x + e.incWarp else e.x
  { e with x := if i < e.boundStep then x + e.incStep else x }

end PlatticeEnumerator

namespace PlatticeInfo
open PlatticeEnumerator
variable {p : PlatticeInfo} {logI : Nat}

def Position (p : PlatticeInfo) (logI : Nat) (x : ℤ) : Prop :=
  ∃ i j : ℤ, (i, j) ∈ p.lattice ∧ -2 ^ (logI - 1) ≤ i ∧ i < 2 ^ (logI - 1) ∧
    x = (i + 2 ^ (logI - 1)) + j * 2 ^ logI

/-! ## The basis and the increments -/

theorem two_pow_le_sign (width : logI < 32) : 2 ^ logI ≤ 2 ^ 31 :=
  Nat.pow_le_pow_right (by norm_num) (by omega)

theorem shift_ne_zero (p : PlatticeInfo) (logI : Nat) : p.i1 >>> logI ≠ 0 ↔ 2 ^ logI ≤ p.i1.toNat := by
  rw [Ne, BitVec.toNat_eq, BitVec.toNat_ushiftRight, Nat.shiftRight_eq_div_pow]
  show ¬ _ / _ = 0 ↔ _
  rw [Nat.div_eq_zero_iff_lt (Nat.two_pow_pos logI), not_lt]

theorem checkPostConditions_exact (width : logI < 32)
    (post : p.checkPostConditions (sieveWidth logI) = true) :
    p.mi0.toNat < 2 ^ logI ∧ 0 < p.j0.toNat ∧ (p.i1.toNat < 2 ^ logI ∨ p.mi0.toNat = 0) ∧
      2 ^ logI ≤ p.i1.toNat + p.mi0.toNat := by
  simp only [checkPostConditions, decide_eq_true_eq, BitVec.lt_def, BitVec.le_def, BitVec.toNat_add,
    toNat_sieveWidth width] at post
  obtain ⟨mi0, j0, i1, wide⟩ := post
  exact ⟨mi0, j0, i1.imp_right fun zero => by rw [zero]; rfl, wide.trans (Nat.mod_le _ _)⟩

def stripBasis (width : logI < 32) (post : p.checkPostConditions (sieveWidth logI) = true) :
    StripBasis (2 ^ logI) where
  a := p.mi0.toNat
  b := p.j0.toNat
  c := p.i1.toNat
  d := p.j1.toNat
  a_nonneg := Int.natCast_nonneg _
  a_lt := by exact_mod_cast (checkPostConditions_exact width post).1
  b_pos := by exact_mod_cast (checkPostConditions_exact width post).2.1
  d_nonneg := Int.natCast_nonneg _
  narrow := by exact_mod_cast (checkPostConditions_exact width post).2.2.1
  wide := by exact_mod_cast (checkPostConditions_exact width post).2.2.2

theorem toNat_row (j : BitVec 32) (width : logI < 32) :
    (j.setWidth 64 <<< logI).toNat = j.toNat * 2 ^ logI := by
  have bound := Nat.mul_le_mul j.isLt.le (two_pow_le_sign width)
  have := j.isLt
  rw [BitVec.toNat_shiftLeft, BitVec.toNat_setWidth, Nat.shiftLeft_eq,
    Nat.mod_eq_of_lt (show j.toNat < 2 ^ 64 by omega), Nat.mod_eq_of_lt (by omega)]

theorem toNat_signExtend_nonneg {x : BitVec 32} (small : x.toNat < 2 ^ 31) :
    (x.signExtend 64).toNat = x.toNat := by
  have positive : x.msb = false := by
    rw [BitVec.msb_eq_decide, decide_eq_false_iff_not]
    omega
  rw [BitVec.toNat_signExtend, positive, BitVec.toNat_setWidth]
  simp only [Bool.false_eq_true, if_false]
  omega

theorem toNat_signExtend_neg {x : BitVec 32} (pos : 0 < x.toNat) (small : x.toNat < 2 ^ 31) :
    ((-x).signExtend 64).toNat = 2 ^ 64 - x.toNat := by
  have value : (-x).toNat = 2 ^ 32 - x.toNat := by
    rw [BitVec.toNat_neg, Nat.mod_eq_of_lt (by omega)]
  have negative : (-x).msb = true := by
    rw [BitVec.msb_eq_decide, decide_eq_true_eq, value]
    omega
  rw [BitVec.toNat_signExtend, negative, BitVec.toNat_setWidth, value]
  simp only [if_true]
  omega

theorem toNat_getIncWarp (width : logI < 32) (j0 : 0 < p.j0.toNat) (mi0 : p.mi0.toNat < 2 ^ logI) :
    (p.getIncWarp logI).toNat = p.j0.toNat * 2 ^ logI - p.mi0.toNat := by
  have small := two_pow_le_sign width
  have row := toNat_row p.j0 width
  have bound := Nat.mul_le_mul p.j0.isLt.le small
  have once := Nat.mul_le_mul_right (2 ^ logI) (show 1 ≤ p.j0.toNat from j0)
  rw [getIncWarp, getI0, BitVec.toNat_add, row]
  rcases Nat.eq_zero_or_pos p.mi0.toNat with zero | pos
  · have vertical : p.mi0 = 0#32 := BitVec.eq_of_toNat_eq zero
    simp only [vertical, BitVec.neg_zero]
    rw [toNat_signExtend_nonneg (by decide)]
    simp only [BitVec.toNat_ofNat, Nat.zero_mod]
    omega
  · rw [toNat_signExtend_neg pos (by omega)]
    omega

theorem toNat_getIncStep (width : logI < 32) (i1 : p.i1.toNat < 2 ^ logI) :
    (p.getIncStep logI).toNat = p.j1.toNat * 2 ^ logI + p.i1.toNat := by
  have small := two_pow_le_sign width
  have bound := Nat.mul_le_mul p.j1.isLt.le small
  rw [getIncStep, if_neg ((shift_ne_zero p logI).not.mpr (by omega)), BitVec.toNat_add,
    toNat_row p.j1 width, toNat_signExtend_nonneg (by omega), Nat.mod_eq_of_lt (by omega)]

theorem getBoundWarp_le (width : logI < 32) (i : BitVec 32) :
    p.getBoundWarp logI ≤ i ↔ 2 ^ logI ≤ p.i1.toNat + i.toNat := by
  unfold getBoundWarp
  by_cases vertical : p.i1 >>> logI ≠ 0
  · rw [if_pos vertical]
    rw [shift_ne_zero] at vertical
    exact iff_of_true (Nat.zero_le _) (by omega)
  · rw [if_neg vertical, BitVec.le_def]
    rw [shift_ne_zero] at vertical
    have I : (1#32 <<< logI).toNat = 2 ^ logI := toNat_sieveWidth width
    rw [BitVec.toNat_sub_of_le (by rw [BitVec.le_def, I]; omega), I]
    omega

theorem toNat_column (width : logI < 32) (x : BitVec 64) :
    ((x &&& (maskI logI).setWidth 64).setWidth 32).toNat = x.toNat % 2 ^ logI := by
  have small := two_pow_le_sign width
  have positive := Nat.two_pow_pos logI
  have I : (1#32 <<< logI).toNat = 2 ^ logI := toNat_sieveWidth width
  have mask : (maskI logI).toNat = 2 ^ logI - 1 := by
    rw [maskI, BitVec.toNat_sub_of_le (by rw [BitVec.le_def, I]; exact positive), I]
    rfl
  have := Nat.mod_lt x.toNat positive
  rw [BitVec.toNat_setWidth, BitVec.toNat_and, BitVec.toNat_setWidth, mask,
    Nat.mod_eq_of_lt (show 2 ^ logI - 1 < 2 ^ 64 by omega), Nat.and_two_pow_sub_one_eq_mod,
    Nat.mod_eq_of_lt (by omega)]

def enumeratorAt (p : PlatticeInfo) (logI : Nat) (x : ℤ) : PlatticeEnumerator :=
  { start p logI with x := .ofInt 64 x }

theorem start_eq (logI : Nat) : start p logI = p.enumeratorAt logI (2 ^ (logI - 1)) := by
  have x : 1#64 <<< (logI - 1) = .ofInt 64 (2 ^ (logI - 1)) := by
    rw [show (2 ^ (logI - 1) : ℤ) = ((2 ^ (logI - 1) : ℕ) : ℤ) by push_cast; rfl, BitVec.ofInt_natCast]
    apply BitVec.eq_of_toNat_eq
    rw [BitVec.toNat_shiftLeft, Nat.shiftLeft_eq, show (1#64).toNat = 1 from rfl, one_mul, BitVec.toNat_ofNat]
  rw [enumeratorAt, ← x]
  rfl

theorem next_at (width : logI < 32) (post : p.checkPostConditions (sieveWidth logI) = true) (x : ℤ) :
    (p.enumeratorAt logI x).next (maskI logI) = p.enumeratorAt logI ((stripBasis width post).next x) := by
  obtain ⟨mi0, j0, i1, wide⟩ := checkPostConditions_exact width post
  have column : (((((BitVec.ofInt 64 x) &&& (maskI logI).setWidth 64).setWidth 32).toNat : ℕ) : ℤ) =
      x % 2 ^ logI := by
    rw [toNat_column width, BitVec.toNat_ofInt]
    push_cast
    rw [Int.toNat_of_nonneg (Int.emod_nonneg _ (by norm_num))]
    exact Int.emod_emod_of_dvd x (by exact_mod_cast pow_dvd_pow 2 (show logI ≤ 64 by omega))
  have warp : p.getIncWarp logI = .ofInt 64 (p.j0.toNat * 2 ^ logI - p.mi0.toNat) := by
    have once := Nat.mul_le_mul_right (2 ^ logI) (show 1 ≤ p.j0.toNat from j0)
    have cast : ((p.j0.toNat * 2 ^ logI - p.mi0.toNat : ℕ) : ℤ) = p.j0.toNat * 2 ^ logI - p.mi0.toNat := by
      rw [Nat.cast_sub (by omega)]
      push_cast
      rfl
    rw [← cast, BitVec.ofInt_natCast, ← toNat_getIncWarp width j0 mi0, BitVec.ofNat_toNat, BitVec.setWidth_eq]
  have warps : p.getBoundWarp logI ≤ ((BitVec.ofInt 64 x &&& (maskI logI).setWidth 64).setWidth 32) ↔
      2 ^ logI - (p.i1.toNat : ℤ) ≤ x % 2 ^ logI := by
    rw [getBoundWarp_le width, ← column, sub_le_iff_le_add']
    exact_mod_cast Iff.rfl
  have steps : ((BitVec.ofInt 64 x &&& (maskI logI).setWidth 64).setWidth 32) < p.getBoundStep ↔
      x % 2 ^ logI < (p.mi0.toNat : ℤ) := by
    rw [BitVec.lt_def, ← column]
    exact_mod_cast Iff.rfl
  have step (used : x % 2 ^ logI < (p.mi0.toNat : ℤ)) :
      p.getIncStep logI = .ofInt 64 (p.j1.toNat * 2 ^ logI + p.i1.toNat) := by
    have narrow : p.i1.toNat < 2 ^ logI := i1.resolve_right (by omega)
    have cast : ((p.j1.toNat * 2 ^ logI + p.i1.toNat : ℕ) : ℤ) = p.j1.toNat * 2 ^ logI + p.i1.toNat := by
      push_cast
      rfl
    rw [← cast, BitVec.ofInt_natCast, ← toNat_getIncStep width narrow, BitVec.ofNat_toNat, BitVec.setWidth_eq]
  have moved : ((p.enumeratorAt logI x).next (maskI logI)).x =
      .ofInt 64 ((stripBasis width post).next x) := by
    simp only [PlatticeEnumerator.next, enumeratorAt, start, warps, steps, warp, StripBasis.next, stripBasis]
    by_cases warped : 2 ^ logI - (p.i1.toNat : ℤ) ≤ x % 2 ^ logI <;>
      by_cases stepped : x % 2 ^ logI < (p.mi0.toNat : ℤ) <;>
      simp only [warped, stepped, if_true, if_false, add_zero]
    · rw [step stepped, ← BitVec.ofInt_add, ← BitVec.ofInt_add]
    · rw [← BitVec.ofInt_add]
    · rw [step stepped, ← BitVec.ofInt_add]
  exact congrArg (fun x => ({ start p logI with x := x } : PlatticeEnumerator)) moved

/-- Both increments, the negative one included, are added modulo `2^64`. -/
theorem next_enumerates (lower : 0 < logI) (width : logI < 32)
    (post : p.checkPostConditions (sieveWidth logI) = true) :
    ∃ position : Nat → ℤ, StrictMono position ∧
      Set.range position = {x | p.Position logI x ∧ 2 ^ (logI - 1) ≤ x} ∧
      ∀ n, (((next (maskI logI))^[n] (start p logI)).x.toNat : ℤ) = position n % 2 ^ 64 := by
  have half : (2 : ℤ) ^ logI = 2 ^ (logI - 1) + 2 ^ (logI - 1) := by
    rw [← two_mul, ← pow_succ', Nat.sub_add_cancel lower]
  have positive : (0 : ℤ) < 2 ^ (logI - 1) := by positivity
  obtain ⟨increasing, range⟩ := (stripBasis width post).enumerates positive.le (by omega)
  refine ⟨_, increasing, range.trans ?_, fun n => ?_⟩
  · ext x
    refine and_congr_left fun _ => ⟨?_, ?_⟩
    · rintro ⟨⟨i, j⟩, member, low, high, rfl⟩
      exact ⟨i, j, member, by simp only at low; omega, by simp only at high; omega, rfl⟩
    · rintro ⟨i, j, member, low, high, rfl⟩
      exact ⟨(i, j), member, by show 0 ≤ i + _; omega, by show i + _ < _; omega, rfl⟩
  · have walk : (next (maskI logI))^[n] (start p logI) =
        p.enumeratorAt logI ((stripBasis width post).next^[n] (2 ^ (logI - 1))) := by
      induction n with
      | zero => exact start_eq logI
      | succ n ih => rw [Function.iterate_succ_apply', Function.iterate_succ_apply', ih, next_at width post]
    rw [walk]
    show ((BitVec.ofInt 64 _).toNat : ℤ) = _
    rw [BitVec.toNat_ofInt, Int.toNat_of_nonneg (Int.emod_nonneg _ (by norm_num))]
    rfl

theorem next_enumerates_small : ∃ position : Nat → ℤ, StrictMono position ∧
    Set.range position = {x | PlatticeInfo.Position ⟨1, 3, 3, 1⟩ 2 x ∧ 2 ^ (2 - 1) ≤ x} ∧
    ∀ n, (((next (maskI 2))^[n] (start ⟨1, 3, 3, 1⟩ 2)).x.toNat : ℤ) = position n % 2 ^ 64 :=
  next_enumerates (by decide) (by decide) (by decide)

-- The third step along a vertical vector of height `2^32 - 1` leaves 64 bits when `logI` is 31.
theorem next_decreases : ¬ ∀ (p : PlatticeInfo) (logI : Nat), 0 < logI → logI < 32 →
    p.checkPostConditions (sieveWidth logI) = true →
    StrictMono fun n => ((next (maskI logI))^[n] (start p logI)).x.toNat := by
  intro always
  have increasing := always ⟨0, .allOnes 32, .twoPow 32 31, 0⟩ 31 (by decide) (by decide) (by decide)
  exact absurd (increasing (show 2 < 3 by decide)) (by decide)

end PlatticeInfo

end CadoNfs.Sieve
