import Mathlib

/-!
# Residues modulo a long

`utils/arith/mod_ul.h` and `mod_ul.c`. The modulus is below 2^63, so that the quotients of `modul_inv` fit a
signed long.
-/

namespace CadoNfs.Utils.ModUl

def addmod (a b m : ℕ) : ℕ := if m - a ≤ b then b - (m - a) else a + b

def setUl (s m : ℕ) : ℕ := s % m

def add (a b m : ℕ) : ℕ := addmod a b m

def addUl (a b m : ℕ) : ℕ := addmod a (b % m) m

def neg (a m : ℕ) : ℕ := if a = 0 then a else m - a

def sub (a b m : ℕ) : ℕ := if b ≤ a then a - b else a + m - b

def setInt64 (s : ℤ) (m : ℕ) : ℕ := if s < 0 then neg (s.natAbs % m) m else s.natAbs % m

def mul (a b m : ℕ) : ℕ := a * b % m

def invLoop (u1 v1 : ℤ) (u2 v2 : ℕ) : ℤ × ℕ :=
  if v2 = 0 then (u1, u2)
  else
    let q := u2 / v2
    let u1' := u1 - q * v1
    let u2' := u2 - q * v2
    if u2' = 0 then (v1, v2)
    else
      let q' := v2 / u2'
      invLoop u1' (v1 - q' * u1') u2' (v2 - q' * u2')
termination_by v2
decreasing_by
  calc v2 - q' * u2' < u2' := by
        rw [← Nat.mod_eq_sub_div_mul]
        exact Nat.mod_lt _ (Nat.pos_of_ne_zero ‹_›)
    _ ≤ v2 := by
        simp only [u2', q, ← Nat.mod_eq_sub_div_mul]
        exact (Nat.mod_lt _ (Nat.pos_of_ne_zero ‹_›)).le

def inv (s t : ℕ) : Option ℕ :=
  if s = 0 then none
  else if s = 1 then some 1
  else
    let v1 : ℤ := -((t / s : ℕ) : ℤ)
    let v2 := t % s
    if v2 = 1 then some (setUl (v1 + t).toNat t)
    else
      let (u1, u2) := invLoop 1 v1 s v2
      if u2 ≠ 1 then none
      else some (setUl (if u1 < 0 then u1 + t else u1).toNat t)

/-! ## Sums and products -/

theorem addmod_eq {a b m : ℕ} (reduced : a < m) (small : b ≤ m) : addmod a b m = (a + b) % m := by
  unfold addmod
  split_ifs with wraps
  · rw [show a + b = b - (m - a) + m by omega, Nat.add_mod_right, Nat.mod_eq_of_lt (by omega)]
  · rw [Nat.mod_eq_of_lt (by omega)]

theorem neg_eq {a m : ℕ} (reduced : a < m) : neg a m = (m - a) % m := by
  unfold neg
  split_ifs with zero
  · rw [zero, Nat.sub_zero, Nat.mod_self]
  · rw [Nat.mod_eq_of_lt (by omega)]

theorem neg_lt {a m : ℕ} (reduced : a < m) : neg a m < m := by
  unfold neg
  split_ifs <;> omega

theorem neg_cast {a m : ℕ} (reduced : a < m) : (neg a m : ZMod m) = -a := by
  unfold neg
  split_ifs with zero
  · rw [zero, Nat.cast_zero, neg_zero]
  · rw [Nat.cast_sub reduced.le, ZMod.natCast_self, zero_sub]

theorem setInt64_cast {m : ℕ} (positive : 0 < m) (s : ℤ) : (setInt64 s m : ZMod m) = s := by
  unfold setInt64
  have reduced := Nat.mod_lt s.natAbs positive
  split_ifs with negative
  · rw [neg_cast reduced, ZMod.natCast_mod, ← Int.cast_natCast, Int.natCast_natAbs, abs_of_neg negative, Int.cast_neg,
      neg_neg]
  · rw [ZMod.natCast_mod, ← Int.cast_natCast, Int.natCast_natAbs, abs_of_nonneg (not_lt.mp negative)]

theorem sub_eq_zero_iff {a b m : ℕ} (reduced : a < m) (reduced' : b < m) : sub a b m = 0 ↔ (a : ZMod m) = b := by
  rw [ZMod.natCast_eq_natCast_iff', Nat.mod_eq_of_lt reduced, Nat.mod_eq_of_lt reduced']
  unfold sub
  split_ifs <;> omega

structure Cofactors (s t : ℕ) (u1 v1 : ℤ) (u2 v2 : ℕ) : Prop where
  left : (s * u1 : ZMod t) = u2
  right : (s * v1 : ZMod t) = v2
  determinant : u1 * v2 - v1 * u2 = t
  nonneg : 0 ≤ u1
  nonpos : v1 ≤ 0
  lt : v2 < u2
  gcd : u2.gcd v2 = s.gcd t

variable {s t : ℕ} {u1 v1 : ℤ} {u2 v2 : ℕ}

theorem sub_mul_div (a b : ℕ) : a - a / b * b = a % b := (Nat.mod_eq_sub_div_mul).symm

theorem Cofactors.start (positive : 0 < s) : Cofactors s t 1 (-((t / s : ℕ) : ℤ)) s (t % s) := by
  have split := Nat.div_add_mod t s
  have lt := Nat.mod_lt t positive
  have gcd : s.gcd (t % s) = s.gcd t := by rw [Nat.gcd_rec s t, Nat.gcd_comm]
  generalize t / s = q at *
  generalize t % s = r at *
  refine ⟨by rw [Int.cast_one, mul_one], ?_, ?_, zero_le_one, by omega, lt, gcd⟩
  · have whole : ((s * q + r : ℕ) : ZMod t) = 0 := by rw [split, ZMod.natCast_self]
    push_cast at whole ⊢
    linear_combination -whole
  · have whole : ((s * q + r : ℕ) : ℤ) = t := congrArg _ split
    push_cast at whole ⊢
    linear_combination whole

theorem Cofactors.half (cofactors : Cofactors s t u1 v1 u2 v2) (positive : 0 < v2) :
    (s * (u1 - (u2 / v2 : ℕ) * v1 : ℤ) : ZMod t) = (u2 % v2 : ℕ) ∧
      (u1 - (u2 / v2 : ℕ) * v1) * v2 - v1 * (u2 % v2 : ℕ) = t ∧ -v1 ≤ u1 - (u2 / v2 : ℕ) * v1 := by
  have split := Nat.div_add_mod u2 v2
  have quotient : 1 ≤ u2 / v2 := (Nat.one_le_div_iff positive).mpr cofactors.lt.le
  have nonneg := cofactors.nonneg
  have nonpos := cofactors.nonpos
  generalize u2 / v2 = q at *
  generalize u2 % v2 = r at *
  refine ⟨?_, ?_, ?_⟩
  · have whole : ((v2 * q + r : ℕ) : ZMod t) = u2 := congrArg _ split
    push_cast at whole ⊢
    linear_combination cofactors.left - (q : ZMod t) * cofactors.right - whole
  · have whole : ((v2 * q + r : ℕ) : ℤ) = u2 := congrArg _ split
    push_cast at whole
    linear_combination cofactors.determinant - v1 * whole
  · have one : (1 : ℤ) ≤ q := by exact_mod_cast quotient
    nlinarith

theorem Cofactors.turn (cofactors : Cofactors s t u1 v1 u2 v2) (positive : 0 < v2) (more : 0 < u2 % v2) :
    Cofactors s t (u1 - (u2 / v2 : ℕ) * v1) (v1 - (v2 / (u2 % v2) : ℕ) * (u1 - (u2 / v2 : ℕ) * v1)) (u2 % v2)
      (v2 % (u2 % v2)) := by
  obtain ⟨left, determinant, grown⟩ := cofactors.half positive
  have nonpos := cofactors.nonpos
  have right := cofactors.right
  have gcd : (u2 % v2).gcd (v2 % (u2 % v2)) = s.gcd t := by
    rw [← cofactors.gcd, Nat.gcd_comm u2, Nat.gcd_rec v2 u2, Nat.gcd_rec (u2 % v2) v2, Nat.gcd_comm]
  have split := Nat.div_add_mod v2 (u2 % v2)
  have lt := Nat.mod_lt v2 more
  generalize u1 - (u2 / v2 : ℕ) * v1 = w at *
  generalize u2 % v2 = r at *
  generalize v2 / r = q at *
  generalize v2 % r = r' at *
  have nonneg : (0 : ℤ) ≤ q := Int.natCast_nonneg _
  refine ⟨left, ?_, ?_, by omega, by nlinarith, lt, gcd⟩
  · have whole : ((r * q + r' : ℕ) : ZMod t) = v2 := congrArg _ split
    push_cast at whole ⊢
    linear_combination right - (q : ZMod t) * left - whole
  · have whole : ((r * q + r' : ℕ) : ℤ) = v2 := congrArg _ split
    push_cast at whole
    linear_combination determinant + w * whole

theorem invLoop_spec (cofactors : Cofactors s t u1 v1 u2 v2) :
    (invLoop u1 v1 u2 v2).2 = s.gcd t ∧ (s * (invLoop u1 v1 u2 v2).1 : ZMod t) = (invLoop u1 v1 u2 v2).2 ∧
      -t ≤ (invLoop u1 v1 u2 v2).1 := by
  fun_induction invLoop u1 v1 u2 v2 with
  | case1 u1 v1 u2 =>
    have nonneg := cofactors.nonneg
    exact ⟨(Nat.gcd_zero_right u2).symm.trans cofactors.gcd, cofactors.left, by omega⟩
  | case2 u1 v1 u2 v2 positive q u2' done =>
    have rest : u2 % v2 = 0 := (sub_mul_div u2 v2).symm.trans done
    obtain ⟨_, determinant, grown⟩ := cofactors.half (Nat.pos_of_ne_zero positive)
    rw [rest, Nat.cast_zero, mul_zero, sub_zero] at determinant
    have one : (1 : ℤ) ≤ v2 := by exact_mod_cast Nat.pos_of_ne_zero positive
    have nonpos := cofactors.nonpos
    refine ⟨?_, cofactors.right, by nlinarith⟩
    rw [← cofactors.gcd, Nat.gcd_comm u2, Nat.gcd_rec v2 u2, rest, Nat.gcd_zero_left]
  | case3 u1 v1 u2 v2 positive q u1' u2' more q' ih =>
    apply ih
    have rest : u2' = u2 % v2 := sub_mul_div u2 v2
    have next := cofactors.turn (Nat.pos_of_ne_zero positive) (by omega)
    rwa [← rest, ← sub_mul_div v2 u2'] at next

theorem setUl_inverse {u : ℤ} (big : 1 < t) (nonneg : 0 ≤ u) (inverse : (s * u : ZMod t) = 1) :
    setUl u.toNat t < t ∧ s * setUl u.toNat t % t = 1 := by
  refine ⟨Nat.mod_lt _ (by omega), ?_⟩
  have equal : ((s * setUl u.toNat t : ℕ) : ZMod t) = (1 : ℕ) := by
    unfold setUl
    rw [Nat.cast_mul, ZMod.natCast_mod, Nat.cast_one, ← inverse]
    congr 1
    rw [← Int.cast_natCast, Int.toNat_of_nonneg nonneg]
  rw [ZMod.natCast_eq_natCast_iff', Nat.mod_eq_of_lt big] at equal
  exact equal

theorem inv_spec (big : 1 < t) :
    (∀ r, inv s t = some r → r < t ∧ s * r % t = 1) ∧ (inv s t = none → s.gcd t ≠ 1) := by
  unfold inv
  by_cases zero : s = 0
  · rw [if_pos zero]
    refine ⟨nofun, fun _ => ?_⟩
    rw [zero, Nat.gcd_zero_left]
    omega
  by_cases unit : s = 1
  · rw [if_neg zero, if_pos unit, unit]
    refine ⟨?_, nofun⟩
    rintro _ ⟨⟩
    exact ⟨big, by rw [Nat.mul_one, Nat.mod_eq_of_lt big]⟩
  rw [if_neg zero, if_neg unit]
  have start := Cofactors.start (t := t) (Nat.pos_of_ne_zero zero)
  by_cases short : t % s = 1
  · rw [if_pos short]
    refine ⟨?_, nofun⟩
    rintro _ ⟨⟩
    apply setUl_inverse big
    · have := Nat.div_le_self t s
      omega
    · have right := start.right
      rw [short, Nat.cast_one] at right
      rw [Int.cast_add, Int.cast_natCast, ZMod.natCast_self, add_zero, right]
  rw [if_neg short]
  obtain ⟨gcd, inverse, bound⟩ := invLoop_spec start
  generalize invLoop 1 (-((t / s : ℕ) : ℤ)) s (t % s) = found at *
  obtain ⟨u1, u2⟩ := found
  dsimp only at *
  by_cases coprime : u2 = 1
  · rw [if_neg (not_not.mpr coprime)]
    refine ⟨?_, nofun⟩
    rintro _ ⟨⟩
    rw [coprime, Nat.cast_one] at inverse
    apply setUl_inverse big
    · split_ifs <;> omega
    · split_ifs
      · rw [Int.cast_add, Int.cast_natCast, ZMod.natCast_self, add_zero, inverse]
      · exact inverse
  · rw [if_pos coprime]
    exact ⟨nofun, fun _ => gcd ▸ coprime⟩

end CadoNfs.Utils.ModUl

/-!
# Inverses modulo a long, in machine words

`modul_inv` with cofactors in a `long`, for every modulus of 64 bits.
-/

namespace CadoNfs.Utils.ModUl

def toLong (x : ℤ) : ℤ := (BitVec.ofInt 64 x).toInt

def toUnsigned (x : ℤ) : ℕ := (x % 2 ^ 64).toNat

def add1 (a m : ℕ) : ℕ := if a + 1 = m then 0 else a + 1

def subUl (a b m : ℕ) : ℕ := sub a (b % m) m

def invLoopLong (u1 v1 : ℤ) (u2 v2 : ℕ) : ℤ × ℕ :=
  if v2 = 0 then (u1, u2)
  else
    let q := u2 / v2
    let u1' := toLong (u1 - toLong q * v1)
    let u2' := u2 - q * v2
    if u2' = 0 then (v1, v2)
    else
      let q' := v2 / u2'
      invLoopLong u1' (toLong (v1 - toLong q' * u1')) u2' (v2 - q' * u2')
termination_by v2
decreasing_by
  calc v2 - q' * u2' < u2' := by
        rw [sub_mul_div]
        exact Nat.mod_lt _ (Nat.pos_of_ne_zero ‹_›)
    _ ≤ v2 := by
        simp only [u2', q, sub_mul_div]
        exact (Nat.mod_lt _ (Nat.pos_of_ne_zero ‹_›)).le

def invLong (s t : ℕ) : ℕ :=
  if s = 0 then 0
  else if s = 1 then 1
  else
    let v1 := toLong (-toLong (t / s : ℕ))
    let v2 := t % s
    if v2 = 1 then setUl (toUnsigned (v1 + toLong t)) t
    else
      let (u1, u2) := invLoopLong 1 v1 s v2
      if u2 ≠ 1 then 0
      else setUl (toUnsigned (if u1 < 0 then u1 + toLong t else u1)) t

/-! ## Sums and products in the class -/

section
variable {a b m : ℕ}

theorem add1_spec (reduced : a < m) : add1 a m < m ∧ (add1 a m : ZMod m) = a + 1 := by
  unfold add1
  split_ifs with wraps
  · refine ⟨by omega, ?_⟩
    rw [Nat.cast_zero, ← ZMod.natCast_self m, ← wraps]
    push_cast
    rfl
  · exact ⟨by omega, by push_cast; rfl⟩

theorem subUl_spec (reduced : a < m) : subUl a b m < m ∧ (subUl a b m : ZMod m) = a - b := by
  have below := Nat.mod_lt b (by omega : 0 < m)
  rw [← ZMod.natCast_mod b m]
  unfold subUl sub
  split_ifs with le
  · exact ⟨by omega, Nat.cast_sub le⟩
  · refine ⟨by omega, ?_⟩
    rw [Nat.cast_sub (by omega), Nat.cast_add, ZMod.natCast_self, add_zero]

theorem add_spec (reduced : a < m) (reduced' : b < m) : add a b m < m ∧ (add a b m : ZMod m) = a + b := by
  rw [add, addmod_eq reduced reduced'.le]
  exact ⟨Nat.mod_lt _ (by omega), by rw [ZMod.natCast_mod, Nat.cast_add]⟩

theorem mul_spec (positive : 0 < m) : mul a b m < m ∧ (mul a b m : ZMod m) = a * b :=
  ⟨Nat.mod_lt _ positive, by rw [mul, ZMod.natCast_mod, Nat.cast_mul]⟩

theorem neg_spec (reduced : a < m) : neg a m < m ∧ (neg a m : ZMod m) = -a := ⟨neg_lt reduced, neg_cast reduced⟩

end

variable {s t : ℕ} {u1 v1 : ℤ} {u2 v2 : ℕ}

theorem toLong_eq (x : ℤ) : toLong x = x.bmod (2 ^ 64) := BitVec.toInt_ofInt x

theorem toLong_modEq (x : ℤ) : toLong x ≡ x [ZMOD 2 ^ 64] := by
  rw [toLong_eq]
  exact Int.bmod_emod

theorem toLong_congr {x y : ℤ} (same : x ≡ y [ZMOD 2 ^ 64]) : toLong x = toLong y := by
  rw [toLong_eq, toLong_eq, ← Int.emod_bmod x, ← Int.emod_bmod y]
  exact congrArg (Int.bmod · _) same

theorem toLong_of_small {x : ℤ} (low : -2 ^ 63 ≤ x) (high : x < 2 ^ 63) : toLong x = x := by
  rw [toLong_eq]
  exact Int.bmod_eq_of_le (by omega) (by omega)

theorem toUnsigned_congr {x y : ℤ} (same : x ≡ y [ZMOD 2 ^ 64]) : toUnsigned x = toUnsigned y :=
  congrArg Int.toNat same

theorem toUnsigned_of_small {x : ℤ} (low : 0 ≤ x) (high : x < 2 ^ 64) : toUnsigned x = x.toNat := by
  rw [toUnsigned, Int.emod_eq_of_lt low high]

theorem toLong_step (q a b : ℤ) : toLong (toLong a - toLong q * toLong b) = toLong (a - q * b) :=
  toLong_congr ((toLong_modEq a).sub ((toLong_modEq q).mul (toLong_modEq b)))

theorem invLoopLong_eq : invLoopLong (toLong u1) (toLong v1) u2 v2 =
    (toLong (invLoop u1 v1 u2 v2).1, (invLoop u1 v1 u2 v2).2) := by
  fun_induction invLoop u1 v1 u2 v2 with
  | case1 u1 v1 u2 => rw [invLoopLong, if_pos rfl]
  | case2 u1 v1 u2 v2 more q u2' done => rw [invLoopLong, if_neg more, if_pos done]
  | case3 u1 v1 u2 v2 more q u1' u2' next q' ih =>
    have first : toLong (toLong u1 - toLong q * toLong v1) = toLong u1' := toLong_step ..
    have second : toLong (toLong v1 - toLong q' * toLong u1') = toLong (v1 - q' * u1') := toLong_step ..
    rw [invLoopLong, if_neg more]
    refine (if_neg next).trans ?_
    rw [← ih, ← second, ← first]

theorem invLoop_small (cofactors : Cofactors s t u1 v1 u2 v2) (small : 2 * u1 ≤ t) :
    -t ≤ 2 * (invLoop u1 v1 u2 v2).1 ∧ 2 * (invLoop u1 v1 u2 v2).1 ≤ t := by
  fun_induction invLoop u1 v1 u2 v2 with
  | case1 u1 v1 u2 =>
    have nonneg := cofactors.nonneg
    omega
  | case2 u1 v1 u2 v2 more q u2' done =>
    have determinant := cofactors.determinant
    have nonneg := cofactors.nonneg
    have nonpos := cofactors.nonpos
    have lt := cofactors.lt
    have large : (2 : ℤ) ≤ u2 := by omega
    have product : 0 ≤ u1 * v2 := by positivity
    exact ⟨by nlinarith, by omega⟩
  | case3 u1 v1 u2 v2 more q u1' u2' next q' ih =>
    have rest : u2' = u2 % v2 := sub_mul_div u2 v2
    have step := cofactors.turn (Nat.pos_of_ne_zero more) (by omega)
    rw [← rest, ← sub_mul_div v2 u2'] at step
    refine ih step ?_
    obtain ⟨-, determinant, -⟩ := cofactors.half (Nat.pos_of_ne_zero more)
    have nonpos := cofactors.nonpos
    have below := Nat.mod_lt u2 (Nat.pos_of_ne_zero more)
    have large : (2 : ℤ) ≤ v2 := by omega
    have nonneg := step.nonneg
    have product : 0 ≤ -v1 * (u2 % v2 : ℕ) := mul_nonneg (by omega) (Int.natCast_nonneg _)
    nlinarith

theorem invLong_eq (lt : s < t) (bits : t < 2 ^ 64) : invLong s t = (inv s t).getD 0 := by
  unfold invLong inv
  by_cases zero : s = 0
  · rw [if_pos zero, if_pos zero]
    rfl
  by_cases unit : s = 1
  · rw [if_neg zero, if_pos unit, if_neg zero, if_pos unit]
    rfl
  rw [if_neg zero, if_neg unit, if_neg zero, if_neg unit]
  have negated : toLong (-toLong (t / s : ℕ)) = toLong (-((t / s : ℕ) : ℤ)) :=
    toLong_congr (toLong_modEq _).neg
  have quotient : t / s ≤ t := Nat.div_le_self t s
  rw [negated]
  by_cases short : t % s = 1
  · simp only [if_pos short, Option.getD_some]
    have nonneg : (0 : ℤ) ≤ (t / s : ℕ) := Int.natCast_nonneg _
    have le : ((t / s : ℕ) : ℤ) ≤ t := by exact_mod_cast quotient
    rw [toUnsigned_congr ((toLong_modEq _).add (toLong_modEq _)), toUnsigned_of_small (by omega) (by omega)]
  simp only [if_neg short]
  have one : toLong 1 = 1 := rfl
  have start := Cofactors.start (t := t) (Nat.pos_of_ne_zero zero)
  obtain ⟨low, high⟩ := invLoop_small start (by omega)
  rw [← one, invLoopLong_eq, one]
  generalize invLoop 1 (-((t / s : ℕ) : ℤ)) s (t % s) = found at *
  obtain ⟨u1, u2⟩ := found
  dsimp only at *
  rw [toLong_of_small (by omega) (by omega)]
  split_ifs with coprime negative
  · rfl
  · rw [toUnsigned_congr ((Int.ModEq.refl _).add (toLong_modEq _)), toUnsigned_of_small (by omega) (by omega)]
    rfl
  · rw [toUnsigned_of_small (by omega) (by omega)]
    rfl

theorem invLong_spec (positive : 0 < s) (lt : s < t) (bits : t < 2 ^ 64) (coprime : s.gcd t = 1) :
    invLong s t < t ∧ (invLong s t * s : ZMod t) = 1 := by
  obtain ⟨found, missing⟩ := inv_spec (s := s) (t := t) (by omega)
  cases inverse : inv s t with
  | none => exact absurd coprime (missing inverse)
  | some r =>
    obtain ⟨reduced, product⟩ := found r inverse
    rw [invLong_eq lt bits, inverse, Option.getD_some]
    refine ⟨reduced, ?_⟩
    have equal : ((s * r : ℕ) : ZMod t) = (1 : ℕ) := by
      rw [ZMod.natCast_eq_natCast_iff', product, Nat.mod_eq_of_lt (by omega)]
    rw [mul_comm]
    exact_mod_cast equal

end CadoNfs.Utils.ModUl
