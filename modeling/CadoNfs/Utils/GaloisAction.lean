import CadoNfs.Lib.ExceptRun
import Mathlib

/-!
# Galois actions

`apply_ab` and `hash_ab` of `src/utils/galois_action.cpp` for the actions of order 2, 3, 4 and 6. A value of type
`int64_t` or `uint64_t` is an integer in the range of the type.
-/

namespace CadoNfs.Utils.Galois

inductive Failure
  | overflow
  | assertion
  -- what the C++ standard leaves open; the compiled code goes on with the wrapped value
  | undefined
  deriving DecidableEq

def word (x : ℤ) : ℤ := x % 2 ^ 64

def toInt64 (x : ℤ) : ℤ := if x < 2 ^ 63 then x else x - 2 ^ 64

def numericCast (x : ℤ) : Except Failure ℤ := if x < 2 ^ 63 then .ok x else .error .overflow

def negInt64 (a : ℤ) : Except Failure ℤ := if a = -2 ^ 63 then .error .undefined else .ok (-a)

-- `ASSERT_ALWAYS` where it tests that nothing has overflowed.
def noOverflow (p : Prop) [Decidable p] : Except Failure Unit := if p then .ok () else .error .overflow

def safeAbs64 (a : ℤ) : ℤ := a.natAbs

/-- The image of `(a, b)`, and what `apply_ab` returns. -/
structure Image where
  a : ℤ
  b : ℤ
  m : ℤ
  deriving DecidableEq

def Image.reduce (i : Image) (d : ℤ) : Image := if i.b % d = 0 then ⟨i.a.tdiv d, i.b / d, i.m * d⟩ else i

def finish (r : ℤ) : ℤ := word (r.sign * (r.natAbs % (2 ^ 64 - 1) : ℕ))

namespace Inv

def applyAb (a b : ℤ) : Except Failure Image :=
  if a < 0 then do
    let sb ← numericCast b
    return ⟨-sb, word (-a), 1⟩
  else do
    let na ← numericCast b
    return ⟨na, a, -1⟩

def hashAb (a b CA CB : ℤ) : ℤ :=
  if safeAbs64 a ≤ b then word (CA * a + CB * b)
  else word (CA * (if 0 ≤ a then b else -b) + CB * safeAbs64 a)

def hashAbMpz (a b CA CB : ℤ) : ℤ :=
  if a.natAbs ≤ b.natAbs then finish (a * CA + b * CB)
  else finish (if a < 0 then -(b * CA + a * CB) else b * CA + a * CB)

end Inv

namespace Neg

def applyAb (a b : ℤ) : Except Failure Image := do
  let na ← negInt64 a
  if 0 < a ∨ 0 < na then return ⟨na, b, -1⟩ else .error .assertion

def hashAb (a b CA CB : ℤ) : ℤ := word (CA * safeAbs64 a + CB * b)

def hashAbMpz (a b CA CB : ℤ) : ℤ := finish ((a * CA).natAbs + b * CB)

end Neg

namespace Autom3_1

def applyAb (a b : ℤ) : Except Failure Image :=
  if a ≤ 0 then do
    let na ← numericCast b
    let nb := word (b - a)
    noOverflow (b ≤ nb ∧ word (-a) ≤ nb)
    return ⟨na, nb, 1⟩
  else if a < b then do
    let na ← numericCast b
    return ⟨na, word (b - a), 1⟩
  else do
    let sb ← numericCast b
    return ⟨-sb, word (a - b), -1⟩

def hashAb (a b CA CB : ℤ) : ℤ :=
  if a ≤ 0 then word (CA * a + CB * b)
  else if a < b then word (CA * (a - b) + CB * a)
  else word (CA * -b + CB * (a - b))

def hashAbMpz (a b CA CB : ℤ) : ℤ :=
  if a ≤ 0 then finish (a * CA + b * CB)
  else
    let r := -(b * CA) + a * CB
    finish (if a < b then r + a * CA else r - b * CB)

end Autom3_1

namespace Autom3_2

def applyAb (a b : ℤ) : Except Failure Image :=
  if 0 ≤ a then do
    let sb ← numericCast b
    let nb := word (a + b)
    noOverflow (b ≤ nb ∧ a ≤ nb)
    return ⟨-sb, nb, -1⟩
  else do
    let sb ← numericCast b
    if word (-a) < b then return ⟨-sb, word (a + b), -1⟩ else return ⟨sb, word (-a - b), 1⟩

def hashAb (a b CA CB : ℤ) : ℤ :=
  if 0 < a then word (CA * a + CB * b)
  else if word (-a) < b then word (CA * (a + b) - CB * a)
  else word (CA * b - CB * (a + b))

def hashAbMpz (a b CA CB : ℤ) : ℤ :=
  if 0 < a then finish (a * CA + b * CB)
  else
    let r := b * CA - a * CB
    finish (if a.natAbs < b.natAbs then r + a * CA else r - b * CB)

end Autom3_2

def skewImage (a b cb : ℤ) : Except Failure Image :=
  if 0 ≤ a then do
    let nb := word (a + cb)
    noOverflow (cb ≤ nb ∧ a ≤ nb)
    let mna := word (b - a)
    if a ≤ b then do
      let mna ← numericCast mna
      return ⟨-mna, nb, -1⟩
    else return ⟨-toInt64 mna, nb, -1⟩
  else do
    if word (-a) ≤ cb then do
      let nb := word (a + cb)
      let mna := word (b - a)
      noOverflow (b ≤ mna ∧ word (-a) ≤ mna)
      let mna ← numericCast mna
      return ⟨-mna, nb, -1⟩
    else do
      let nb := word (-a - cb)
      let na := word (b - a)
      noOverflow (b ≤ na ∧ word (-a) ≤ na)
      let na ← numericCast na
      return ⟨na, nb, 1⟩

namespace Autom4_1

def applyAb (a b : ℤ) : Except Failure Image := do
  let i ← skewImage a b b
  return i.reduce 2

def hashAb (a b CA CB : ℤ) : ℤ :=
  if 0 < a ∧ b < safeAbs64 a then word (CA * a + CB * b)
  else if a < 0 ∧ safeAbs64 a < b then word (CA * b - CB * a)
  else if 0 < a then
    if safeAbs64 a % 2 = b % 2 then word (CA * (word (a + b) / 2) + CB * (word (b - a) / 2))
    else word (CA * (a + b) + CB * (b - a))
  else if safeAbs64 a % 2 = b % 2 then word (CA * (word (b - a) / 2) + CB * (word (-a - b) / 2))
  else word (CA * (b - a) - CB * (a + b))

def hashAbMpz (a b CA CB : ℤ) : ℤ :=
  if 0 < a ∧ b.natAbs < a.natAbs then finish (a * CA + b * CB)
  else if a < 0 ∧ a.natAbs < b.natAbs then finish (b * CA - a * CB)
  else
    let r := if 0 < a then a * CA + b * CA - a * CB + b * CB else b * CA - a * CA - a * CB - b * CB
    finish (if a % 2 = b % 2 then r / 2 else r)

end Autom4_1

namespace Autom6_1

def applyAb (a b : ℤ) : Except Failure Image := do
  let twoB := word (b + b)
  noOverflow (b ≤ twoB)
  let i ← skewImage a b twoB
  return i.reduce 3

def hashAb (a b CA CB : ℤ) : ℤ :=
  if 0 < a ∧ b < safeAbs64 a then word (CA * a + CB * b)
  else if 0 < a then
    if safeAbs64 a % 3 = b % 3 then word (CA * (word (2 * a + b) / 3) + CB * (word (b - a) / 3))
    else word (CA * (2 * a + b) + CB * (b - a))
  else if word (2 * safeAbs64 a) < b then word (CA * (a + b) - CB * a)
  else if safeAbs64 a < b then
    if (3 - safeAbs64 a % 3) % 3 = b % 3 then
      word (CA * (word (2 * b + a) / 3) + CB * (word (2 * safeAbs64 a - b) / 3))
    else word (CA * (2 * b + a) + CB * (2 * safeAbs64 a - b))
  else if safeAbs64 a < word (2 * b) then word (CA * b - CB * (a + b))
  else if (3 - safeAbs64 a % 3) % 3 = b % 3 then
    word (CA * (word (b - a) / 3) + CB * (word (-a - 2 * b) / 3))
  else word (CA * (b - a) - CB * (a + 2 * b))

def hashAbMpz (a b CA CB : ℤ) : ℤ :=
  let s := a + b
  let third (r : ℤ) := if a % 3 = b % 3 then r / 3 else r
  if 0 < a ∧ b.natAbs < a.natAbs then finish (a * CA + b * CB)
  else if 0 < a then finish (third (a * CA * 2 + b * CA - a * CB + b * CB))
  else if a.natAbs < s.natAbs then finish (a * CA + b * CA - a * CB)
  else if a.natAbs < b.natAbs then finish (third (b * CA * 2 + a * CA - a * CB - a * CB - b * CB))
  else if s < 0 ∧ s.natAbs < b.natAbs then finish (b * CA - a * CB - b * CB)
  else finish (third (-(a * CA) + b * CA - a * CB - b * CB - b * CB))

end Autom6_1

inductive Action
  | inv
  | neg
  | autom3_1
  | autom3_2
  | autom4_1
  | autom6_1
  deriving DecidableEq

namespace Action

def order : Action → ℕ
  | inv | neg => 2
  | autom3_1 | autom3_2 => 3
  | autom4_1 => 4
  | autom6_1 => 6

def applyAb : Action → ℤ → ℤ → Except Failure Image
  | inv => Inv.applyAb
  | neg => Neg.applyAb
  | autom3_1 => Autom3_1.applyAb
  | autom3_2 => Autom3_2.applyAb
  | autom4_1 => Autom4_1.applyAb
  | autom6_1 => Autom6_1.applyAb

def hashAb : Action → ℤ → ℤ → ℤ → ℤ → ℤ
  | inv => Inv.hashAb
  | neg => Neg.hashAb
  | autom3_1 => Autom3_1.hashAb
  | autom3_2 => Autom3_2.hashAb
  | autom4_1 => Autom4_1.hashAb
  | autom6_1 => Autom6_1.hashAb

def hashAbMpz : Action → ℤ → ℤ → ℤ → ℤ → ℤ
  | inv => Inv.hashAbMpz
  | neg => Neg.hashAbMpz
  | autom3_1 => Autom3_1.hashAbMpz
  | autom3_2 => Autom3_2.hashAbMpz
  | autom4_1 => Autom4_1.hashAbMpz
  | autom6_1 => Autom6_1.hashAbMpz

end Action

end CadoNfs.Utils.Galois

/-!
# Images by the Galois actions

What `apply_ab` returns when nothing overflows: the image of the pair by the matrix of the action, up to a factor.
-/

namespace CadoNfs.Utils.Galois

open Lib

structure InRange (a b : ℤ) : Prop where
  a_ge : -2 ^ 63 ≤ a
  a_lt : a < 2 ^ 63
  b_nonneg : 0 ≤ b
  b_lt : b < 2 ^ 64

variable {a b x y : ℤ} {i : Image}

theorem numericCast_ok : numericCast x = .ok y ↔ x < 2 ^ 63 ∧ x = y := by
  rw [numericCast]
  split
  · exact ⟨fun same => ⟨‹_›, Except.ok.inj same⟩, fun ⟨_, same⟩ => same ▸ rfl⟩
  · exact ⟨fun same => (by cases same), fun ⟨lt, _⟩ => absurd lt ‹_›⟩

theorem negInt64_ok : negInt64 x = .ok y ↔ x ≠ -2 ^ 63 ∧ -x = y := by
  rw [negInt64]
  split
  · exact ⟨fun same => (by cases same), fun ⟨least, _⟩ => absurd ‹_› least⟩
  · exact ⟨fun same => ⟨‹_›, Except.ok.inj same⟩, fun ⟨_, same⟩ => same ▸ rfl⟩

theorem noOverflow_ok {p : Prop} [Decidable p] {u : Unit} : noOverflow p = .ok u ↔ p := by
  rw [noOverflow]
  split <;> simp [*]

theorem word_of_lt (nonneg : 0 ≤ x) (lt : x < 2 ^ 64) : word x = x := Int.emod_eq_of_lt nonneg lt

theorem word_nonneg (x : ℤ) : 0 ≤ word x := Int.emod_nonneg x (by norm_num)

theorem word_lt (x : ℤ) : word x < 2 ^ 64 := Int.emod_lt_of_pos x (by norm_num)

theorem word_add (x_nonneg : 0 ≤ x) (x_lt : x < 2 ^ 64) (y_nonneg : 0 ≤ y) (y_lt : y < 2 ^ 64) (le : x ≤ word (x + y)) :
    x + y < 2 ^ 64 ∧ word (x + y) = x + y := by
  unfold word at *
  omega

theorem InRange.image (x_gt : -2 ^ 63 < x) (x_lt : x < 2 ^ 63) (y_nonneg : 0 ≤ y) (y_lt : y < 2 ^ 64) : InRange x y :=
  ⟨x_gt.le, x_lt, y_nonneg, y_lt⟩

namespace Inv

theorem applyAb_ok (range : InRange a b) (ok : applyAb a b = .ok i) :
    InRange i.a i.b ∧ (a < 0 ∧ i = ⟨-b, -a, 1⟩ ∨ 0 ≤ a ∧ i = ⟨b, a, -1⟩) := by
  obtain ⟨a_ge, a_lt, b_nonneg, b_lt⟩ := range
  rw [applyAb] at ok
  split at ok
  · rename_i negative
    obtain ⟨sb, cast, ok⟩ := bind_ok.mp ok
    obtain ⟨lt, rfl⟩ := numericCast_ok.mp cast
    rw [word_of_lt (x := -a) (by omega) (by omega)] at ok
    cases ok
    exact ⟨.image (x := -b) (y := -a) (by omega) (by omega) (by omega) (by omega), .inl ⟨negative, rfl⟩⟩
  · rename_i nonneg
    obtain ⟨na, cast, ok⟩ := bind_ok.mp ok
    obtain ⟨lt, rfl⟩ := numericCast_ok.mp cast
    cases ok
    exact ⟨.image (x := b) (y := a) (by omega) lt (by omega) (by omega), .inr ⟨not_lt.mp nonneg, rfl⟩⟩

end Inv

namespace Neg

theorem applyAb_ok (range : InRange a b) (ok : applyAb a b = .ok i) : InRange i.a i.b ∧ a ≠ 0 ∧ i = ⟨-a, b, -1⟩ := by
  obtain ⟨a_ge, a_lt, b_nonneg, b_lt⟩ := range
  obtain ⟨na, neg, ok⟩ := bind_ok.mp ok
  obtain ⟨least, rfl⟩ := negInt64_ok.mp neg
  split at ok
  · cases ok
    exact ⟨.image (x := -a) (by omega) (by omega) b_nonneg b_lt, by omega, rfl⟩
  · cases ok

end Neg

namespace Autom3_1

theorem applyAb_ok (range : InRange a b) (ok : applyAb a b = .ok i) :
    InRange i.a i.b ∧ ((a ≤ 0 ∨ a < b) ∧ i = ⟨b, b - a, 1⟩ ∨ 0 < a ∧ b ≤ a ∧ i = ⟨-b, a - b, -1⟩) := by
  obtain ⟨a_ge, a_lt, b_nonneg, b_lt⟩ := range
  rw [applyAb] at ok
  split at ok
  · rename_i negative
    obtain ⟨na, cast, ok⟩ := bind_ok.mp ok
    obtain ⟨u, fits, ok⟩ := bind_ok.mp ok
    cases ok
    obtain ⟨lt, rfl⟩ := numericCast_ok.mp cast
    obtain ⟨below, nb⟩ := word_add b_nonneg b_lt (y := -a) (by omega) (by omega) (noOverflow_ok.mp fits).1
    refine ⟨.image (x := b) (by omega) lt (word_nonneg _) (word_lt _), .inl ⟨.inl negative, ?_⟩⟩
    exact congrArg (fun y => Image.mk b y 1) nb
  · rename_i positive
    split at ok
    · rename_i less
      obtain ⟨na, cast, ok⟩ := bind_ok.mp ok
      obtain ⟨lt, rfl⟩ := numericCast_ok.mp cast
      cases ok
      refine ⟨.image (x := b) (by omega) lt (word_nonneg _) (word_lt _), .inl ⟨.inr less, ?_⟩⟩
      rw [word_of_lt (by omega) (by omega)]
    · rename_i more
      obtain ⟨sb, cast, ok⟩ := bind_ok.mp ok
      obtain ⟨lt, rfl⟩ := numericCast_ok.mp cast
      cases ok
      refine ⟨.image (x := -b) (by omega) (by omega) (word_nonneg _)
        (word_lt _), .inr ⟨not_le.mp positive, not_lt.mp more, ?_⟩⟩
      rw [word_of_lt (by omega) (by omega)]

end Autom3_1

namespace Autom3_2

theorem applyAb_ok (range : InRange a b) (ok : applyAb a b = .ok i) :
    InRange i.a i.b ∧ ((0 ≤ a ∨ -a < b) ∧ i = ⟨-b, a + b, -1⟩ ∨ a < 0 ∧ b ≤ -a ∧ i = ⟨b, -a - b, 1⟩) := by
  obtain ⟨a_ge, a_lt, b_nonneg, b_lt⟩ := range
  rw [applyAb] at ok
  split at ok
  · rename_i positive
    obtain ⟨sb, cast, ok⟩ := bind_ok.mp ok
    obtain ⟨u, fits, ok⟩ := bind_ok.mp ok
    obtain ⟨lt, rfl⟩ := numericCast_ok.mp cast
    obtain ⟨below, nb⟩ := word_add positive (by omega) b_nonneg b_lt (noOverflow_ok.mp fits).2
    cases ok
    refine ⟨.image (x := -b) (by omega) (by omega) (word_nonneg _) (word_lt _), .inl ⟨.inl positive, ?_⟩⟩
    rw [nb]
  · rename_i negative
    obtain ⟨sb, cast, ok⟩ := bind_ok.mp ok
    obtain ⟨lt, rfl⟩ := numericCast_ok.mp cast
    rw [word_of_lt (x := -a) (by omega) (by omega)] at ok
    split at ok
    · rename_i less
      cases ok
      refine ⟨.image (x := -b) (by omega) (by omega) (word_nonneg _) (word_lt _), .inl ⟨.inr less, ?_⟩⟩
      rw [word_of_lt (by omega) (by omega)]
    · rename_i more
      cases ok
      refine ⟨.image (x := b) (by omega) lt (word_nonneg _) (word_lt _), .inr ⟨not_le.mp negative, not_lt.mp more, ?_⟩⟩
      rw [word_of_lt (by omega) (by omega)]

end Autom3_2

/-! ## Dividing out a common factor -/

inductive Reduced (d x y : ℤ) (i : Image) : Prop
  | kept : i.a = x → i.b = y → y % d ≠ 0 → Reduced d x y i
  | divided : d * i.a = x → d * i.b = y → Reduced d x y i

theorem between_of_mul {d q l u : ℤ} (d_pos : 0 < d) (l_neg : l < 0) (u_pos : 0 < u) (lower : l < d * q)
    (upper : d * q < u) :
    l < q ∧ q < u := by
  constructor
  · by_contra le
    nlinarith
  · by_contra le
    nlinarith

theorem reduced {d m : ℤ} (d_pos : 0 < d) (agree : y % d = 0 → d ∣ x) (x_gt : -2 ^ 63 < x) (x_lt : x < 2 ^ 63)
    (y_nonneg : 0 ≤ y) (y_lt : y < 2 ^ 64) :
    InRange ((⟨x, y, m⟩ : Image).reduce d).a ((⟨x, y, m⟩ : Image).reduce d).b ∧
      Reduced d x y ((⟨x, y, m⟩ : Image).reduce d) := by
  rw [Image.reduce]
  split
  · rename_i divides
    obtain ⟨x', rfl⟩ := agree divides
    obtain ⟨y', rfl⟩ := Int.dvd_of_emod_eq_zero divides
    rw [Int.mul_tdiv_cancel_left x' d_pos.ne', Int.mul_ediv_cancel_left y' d_pos.ne']
    obtain ⟨x'_gt, x'_lt⟩ := between_of_mul d_pos (by norm_num) (by norm_num) x_gt x_lt
    refine ⟨.image x'_gt x'_lt (nonneg_of_mul_nonneg_right y_nonneg d_pos) ?_, .divided rfl rfl⟩
    exact (between_of_mul (l := -1) d_pos (by norm_num) (by norm_num) (by omega) y_lt).2
  · exact ⟨.image x_gt x_lt y_nonneg y_lt, .kept rfl rfl ‹_›⟩

theorem toInt64_word (x_neg : x < 0) (x_ge : -2 ^ 63 ≤ x) : toInt64 (word x) = x := by
  unfold toInt64 word
  split <;> omega

theorem skewImage_ok {cb : ℤ} (range : InRange a b) (le : b ≤ cb) (lt : cb < 2 ^ 64) (ok : skewImage a b cb = .ok i) :
    -2 ^ 63 < a ∧ a + cb < 2 ^ 64 ∧ b - a < 2 ^ 63 ∧ -2 ^ 63 < a - b ∧ a - b < 2 ^ 63 ∧
      ((0 ≤ a ∨ -a ≤ cb) ∧ i = ⟨a - b, a + cb, -1⟩ ∨ a < 0 ∧ cb < -a ∧ i = ⟨b - a, -a - cb, 1⟩) := by
  obtain ⟨a_ge, a_lt, b_nonneg, b_lt⟩ := range
  rw [skewImage] at ok
  split at ok
  · rename_i positive
    obtain ⟨u, fits, ok⟩ := bind_ok.mp ok
    obtain ⟨below, nb⟩ := word_add positive (by omega) (y := cb) (by omega) lt (noOverflow_ok.mp fits).2
    rw [nb] at ok
    split at ok
    · obtain ⟨mna, cast, ok⟩ := bind_ok.mp ok
      cases ok
      obtain ⟨small, rfl⟩ := numericCast_ok.mp cast
      rw [word_of_lt (by omega) (by omega)] at small ⊢
      rw [neg_sub]
      exact ⟨by omega, below, small, by omega, by omega, .inl ⟨.inl positive, rfl⟩⟩
    · cases ok
      rw [toInt64_word (by omega) (by omega), neg_sub]
      exact ⟨by omega, below, by omega, by omega, by omega, .inl ⟨.inl positive, rfl⟩⟩
  · rename_i negative
    rw [word_of_lt (x := -a) (by omega) (by omega)] at ok
    split at ok
    · rename_i less
      obtain ⟨u, fits, ok⟩ := bind_ok.mp ok
      obtain ⟨mna, cast, ok⟩ := bind_ok.mp ok
      obtain ⟨low, high⟩ := noOverflow_ok.mp fits
      obtain ⟨below, difference⟩ := word_add b_nonneg b_lt (y := -a) (by omega) (by omega) low
      replace difference : word (b - a) = b - a := difference
      cases ok
      obtain ⟨small, rfl⟩ := numericCast_ok.mp cast
      rw [difference] at small ⊢
      rw [neg_sub, word_of_lt (x := a + cb) (by omega) (by omega)]
      exact ⟨by omega, by omega, small, by omega, by omega, .inl ⟨.inr less, rfl⟩⟩
    · rename_i more
      obtain ⟨u, fits, ok⟩ := bind_ok.mp ok
      obtain ⟨na, cast, ok⟩ := bind_ok.mp ok
      obtain ⟨low, high⟩ := noOverflow_ok.mp fits
      obtain ⟨below, difference⟩ := word_add b_nonneg b_lt (y := -a) (by omega) (by omega) low
      replace difference : word (b - a) = b - a := difference
      cases ok
      obtain ⟨small, rfl⟩ := numericCast_ok.mp cast
      rw [difference] at small ⊢
      rw [word_of_lt (x := -a - cb) (by omega) (by omega)]
      exact ⟨by omega, by omega, small, by omega, by omega, .inr ⟨by omega, by omega, rfl⟩⟩

namespace Autom4_1

theorem applyAb_ok (range : InRange a b) (ok : applyAb a b = .ok i) :
    InRange i.a i.b ∧ -2 ^ 63 < a ∧ a + b < 2 ^ 64 ∧ b - a < 2 ^ 63 ∧
      ((0 ≤ a ∨ -a ≤ b) ∧ Reduced 2 (a - b) (a + b) i ∨ a < 0 ∧ b < -a ∧ Reduced 2 (b - a) (-a - b) i) := by
  obtain ⟨i', first, ok⟩ := bind_ok.mp ok
  obtain ⟨a_gt, sum, difference, a_b_gt, a_b_lt, image⟩ := skewImage_ok range le_rfl range.b_lt first
  obtain ⟨a_ge, a_lt, b_nonneg, b_lt⟩ := range
  cases ok
  rcases image with ⟨side, rfl⟩ | ⟨negative, more, rfl⟩
  · obtain ⟨range, image⟩ := reduced (m := -1) (d := 2) (by norm_num) (by omega) a_b_gt a_b_lt (by omega) sum
    exact ⟨range, a_gt, sum, difference, .inl ⟨side, image⟩⟩
  · obtain ⟨range, image⟩ := reduced (x := b - a) (y := -a - b) (m := 1) (d := 2) (by norm_num) (by omega) (by omega)
      difference (by omega) (by omega)
    exact ⟨range, a_gt, sum, difference, .inr ⟨negative, more, image⟩⟩

end Autom4_1

namespace Autom6_1

theorem applyAb_ok (range : InRange a b) (ok : applyAb a b = .ok i) :
    InRange i.a i.b ∧ -2 ^ 63 < a ∧ a + 2 * b < 2 ^ 64 ∧ 2 * b < 2 ^ 64 ∧ b - a < 2 ^ 63 ∧
      ((0 ≤ a ∨ -a ≤ 2 * b) ∧ Reduced 3 (a - b) (a + 2 * b) i ∨
        a < 0 ∧ 2 * b < -a ∧ Reduced 3 (b - a) (-a - 2 * b) i) := by
  obtain ⟨u, fits, ok⟩ := bind_ok.mp ok
  obtain ⟨twice, same⟩ := word_add range.b_nonneg range.b_lt range.b_nonneg range.b_lt (noOverflow_ok.mp fits)
  rw [same, ← two_mul] at ok
  obtain ⟨i', first, ok⟩ := bind_ok.mp ok
  have b_nonneg := range.b_nonneg
  obtain ⟨a_gt, sum, difference, a_b_gt, a_b_lt, image⟩ := skewImage_ok range (by omega) (by omega) first
  cases ok
  rcases image with ⟨side, rfl⟩ | ⟨negative, more, rfl⟩
  · obtain ⟨range, image⟩ := reduced (m := -1) (d := 3) (by norm_num) (by omega) a_b_gt a_b_lt (by omega) sum
    exact ⟨range, a_gt, sum, by omega, difference, .inl ⟨side, image⟩⟩
  · obtain ⟨range, image⟩ := reduced (x := b - a) (y := -a - 2 * b) (m := 1) (d := 3) (by norm_num) (by omega)
      (by omega)
      difference (by omega) (by omega)
    exact ⟨range, a_gt, sum, by omega, difference, .inr ⟨negative, more, image⟩⟩

end Autom6_1

def OnlyOverflows {α : Type} (x : Except Failure α) : Prop := ∀ e, x = .error e → e = .overflow

section

variable {α β : Type} {x : Except Failure α} {f : α → Except Failure β} {p : Prop} [Decidable p]

theorem onlyOverflows_pure (v : α) : OnlyOverflows (pure v) := fun _ same => by cases same

theorem onlyOverflows_bind (first : OnlyOverflows x) (rest : ∀ v, x = .ok v → OnlyOverflows (f v)) :
    OnlyOverflows (x >>= f) := by
  cases x with
  | error e => exact fun e same => first e (congrArg _ (Except.error.inj same))
  | ok v => exact rest v rfl

theorem onlyOverflows_ite {y z : Except Failure α} (first : p → OnlyOverflows y) (second : ¬ p → OnlyOverflows z) :
    OnlyOverflows (if p then y else z) := by
  split
  · exact first ‹_›
  · exact second ‹_›

theorem onlyOverflows_numericCast (z : ℤ) : OnlyOverflows (numericCast z) :=
  onlyOverflows_ite (fun _ _ same => by cases same) fun _ _ same => (Except.error.inj same).symm

theorem onlyOverflows_noOverflow : OnlyOverflows (noOverflow p) :=
  onlyOverflows_ite (fun _ _ same => by cases same) fun _ _ same => (Except.error.inj same).symm

end

theorem onlyOverflows_skewImage (a b cb : ℤ) : OnlyOverflows (skewImage a b cb) := by
  refine onlyOverflows_ite (fun _ => ?_) fun _ => ?_
  · refine onlyOverflows_bind onlyOverflows_noOverflow fun _ _ => onlyOverflows_ite
      (fun _ => ?_) fun _ => onlyOverflows_pure _
    exact onlyOverflows_bind (onlyOverflows_numericCast _) fun _ _ => onlyOverflows_pure _
  · refine onlyOverflows_ite (fun _ => ?_) fun _ => ?_
    · exact onlyOverflows_bind onlyOverflows_noOverflow fun _ _ =>
        onlyOverflows_bind (onlyOverflows_numericCast _) fun _ _ => onlyOverflows_pure _
    · exact onlyOverflows_bind onlyOverflows_noOverflow fun _ _ =>
        onlyOverflows_bind (onlyOverflows_numericCast _) fun _ _ => onlyOverflows_pure _

theorem onlyOverflows_applyAb {g : Action} (regular : g = .neg → a ≠ 0 ∧ a ≠ -2 ^ 63) :
    OnlyOverflows (g.applyAb a b) := by
  cases g with
  | inv =>
    refine onlyOverflows_ite (fun _ => ?_) fun _ => ?_
    · exact onlyOverflows_bind (onlyOverflows_numericCast b) fun _ _ => onlyOverflows_pure _
    · exact onlyOverflows_bind (onlyOverflows_numericCast b) fun _ _ => onlyOverflows_pure _
  | neg =>
    obtain ⟨nonzero, least⟩ := regular rfl
    have negated : negInt64 a = .ok (-a) := if_neg least
    refine onlyOverflows_bind (fun e same => by cases negated.symm.trans same) fun na neg => ?_
    obtain ⟨-, rfl⟩ := negInt64_ok.mp neg
    refine onlyOverflows_ite (fun _ => onlyOverflows_pure _) fun zero => absurd ?_ nonzero
    omega
  | autom3_1 =>
    refine onlyOverflows_ite (fun _ => ?_) fun _ => onlyOverflows_ite (fun _ => ?_) fun _ => ?_
    · exact onlyOverflows_bind (onlyOverflows_numericCast b) fun _ _ =>
        onlyOverflows_bind onlyOverflows_noOverflow fun _ _ => onlyOverflows_pure _
    · exact onlyOverflows_bind (onlyOverflows_numericCast b) fun _ _ => onlyOverflows_pure _
    · exact onlyOverflows_bind (onlyOverflows_numericCast b) fun _ _ => onlyOverflows_pure _
  | autom3_2 =>
    refine onlyOverflows_ite (fun _ => ?_) fun _ => ?_
    · exact onlyOverflows_bind (onlyOverflows_numericCast b) fun _ _ =>
        onlyOverflows_bind onlyOverflows_noOverflow fun _ _ => onlyOverflows_pure _
    · exact onlyOverflows_bind (onlyOverflows_numericCast b) fun _ _ =>
        onlyOverflows_ite (fun _ => onlyOverflows_pure _) fun _ => onlyOverflows_pure _
  | autom4_1 => exact onlyOverflows_bind (onlyOverflows_skewImage a b b) fun _ _ => onlyOverflows_pure _
  | autom6_1 =>
    exact onlyOverflows_bind onlyOverflows_noOverflow fun _ _ =>
      onlyOverflows_bind (onlyOverflows_skewImage a b _) fun _ _ => onlyOverflows_pure _

end CadoNfs.Utils.Galois
