import CadoNfs.Utils.ModUl
import CadoNfs.Utils.Renumber

/-!
# Exponents at bad ideals

`renumber_t::indices_from_p_a_b` of `utils/renumber.cpp`, for int64 and for multiprecision (a, b), on the branches of
`utils/badideals.hpp`. A number r < p^k stands for (r : 1) in the projective line modulo p^k, and p^k + u for (1 : u).
-/

namespace CadoNfs.Utils

structure Branch where
  k : ℕ
  r : ℕ
  v : List ℤ

structure Branch.WellFormed (p : ℕ) (J : Branch) : Prop where
  pos : 1 ≤ J.k
  lt : J.r < 2 * p ^ J.k
  dvd : p ^ J.k ≤ J.r → p ∣ J.r - p ^ J.k

/-- The numbers of the branch fit in a `p_r_values_t`, and `p ^ k` in an `int64_t`. -/
structure Branch.Fits (w p : ℕ) (J : Branch) : Prop where
  power : p ^ J.k < 2 ^ w
  encoded : J.r < 2 ^ w
  signed : p ^ J.k ≤ 2 ^ 63

structure BadIdeal where
  nbad : ℕ
  branches : List Branch

inductive BadLookup
  | assertion
  | cannotLookup
  -- the negation of the least `int64_t`
  | undefined
  deriving DecidableEq

namespace BadIdeals
open ModUl

-- Each product is compared with the number before it: "we want to be sure that we don't wrap around !"
def raise (w p : ℕ) : ℕ → ℕ → Except BadLookup ℕ
  | 0, pk => .ok pk
  | n + 1, pk =>
    let pk1 := pk * p % 2 ^ w
    if pk < pk1 then raise w p n pk1 else .error .assertion

def toInt64 (x : ℕ) : ℤ := if x % 2 ^ 64 < 2 ^ 63 then (x % 2 ^ 64 : ℕ) else (x % 2 ^ 64 : ℕ) - 2 ^ 64

def matchesBranch (w p : ℕ) (J : Branch) (a : ℤ) (b : ℕ) : Except BadLookup Bool :=
  if p = 0 then .error .assertion
  else (raise w p (J.k - 1) p).map fun pk =>
    let rk := J.r % 2 ^ w
    let uk := if pk ≤ rk then 1 else rk
    let vk := if pk ≤ rk then rk - pk else 1
    let ma := mul (setInt64 a pk) (setUl vk pk) pk
    let mb := mul (setUl b pk) (setInt64 (toInt64 uk) pk) pk
    sub ma mb pk = 0

def findBranch (w p : ℕ) (a : ℤ) (b : ℕ) : List Branch → Except BadLookup (Option Branch)
  | [] => .ok none
  | J :: branches => (matchesBranch w p J a b).bind fun found =>
    if found then .ok (some J) else findBranch w p a b branches

def exponents (e : ℤ) : List ℤ → Except BadLookup (List ℤ)
  | [] => .ok []
  | v :: vs =>
    if 0 ≤ v then (exponents e vs).map (v :: ·)
    else if -v ≤ e then (exponents e vs).map ((e + v) :: ·)
    else .error .assertion

def findIdeal (x : PRSide) : ℕ → List (PRSide × BadIdeal) → Option (ℕ × BadIdeal)
  | _, [] => none
  | first, (y, I) :: ideals => if x = y then some (first, I) else findIdeal x (first + I.nbad) ideals

def indicesFromPAB (w aboveAdd : ℕ) (ideals : List (PRSide × BadIdeal)) (x : PRSide) (e a : ℤ) (b : ℕ) :
    Except BadLookup (ℕ × List ℤ) :=
  (findIdeal x aboveAdd ideals).elim (.error .cannotLookup) fun (first, I) =>
    (findBranch w x.p a b I.branches).bind fun found =>
      found.elim (.error .cannotLookup) fun J => (exponents e J.v).map fun exps => (first, exps)

def largestPower (w p : ℕ) : List Branch → ℕ × ℕ → Except BadLookup ℕ
  | [], (_, pm) => .ok pm
  | J :: branches, (m, pm) => (raise w p (J.k - m) pm).bind fun pm => largestPower w p branches (max m J.k, pm)

def indicesFromPABMpz (w aboveAdd : ℕ) (ideals : List (PRSide × BadIdeal)) (x : PRSide) (e a b : ℤ) :
    Except BadLookup (ℕ × List ℤ) :=
  if x.p = 0 then .error .assertion
  else (findIdeal x aboveAdd ideals).elim (.error .cannotLookup) fun (_, I) =>
    (largestPower w x.p I.branches (1, x.p)).bind fun pm =>
      let sa := toInt64 (a.natAbs % pm)
      if a < 0 ∧ sa = -2 ^ 63 then .error .undefined
      else indicesFromPAB w aboveAdd ideals x e (if a < 0 then -sa else sa) (b.natAbs % pm)

/-! ## What the branches stand for -/

def point (p : ℕ) (J : Branch) : ℕ × ℕ := if J.r < p ^ J.k then (J.r, 1) else (1, J.r - p ^ J.k)

def InClass (p : ℕ) (J : Branch) (a : ℤ) (b : ℕ) : Prop :=
  (a * (point p J).2 : ZMod (p ^ J.k)) = b * (point p J).1

def Exact (w aboveAdd : ℕ) (ideals : List (PRSide × BadIdeal)) (x : PRSide) : Prop :=
  ∀ (e a : ℤ) (b : ℕ), -2 ^ 63 ≤ a → a < 2 ^ 63 → b < 2 ^ 64 →
    indicesFromPABMpz w aboveAdd ideals x e a b = indicesFromPAB w aboveAdd ideals x e a b ∧
      ∀ first I, findIdeal x aboveAdd ideals = some (first, I) →
        ∃ found, findBranch w x.p a b I.branches = .ok found ∧ ∀ J, found = some J → InClass x.p J a b

variable {w p m : ℕ} {J : Branch}

theorem raise_of_lt (two_le : 2 ≤ p) {s n : ℕ} (lt : p ^ (s + n) < 2 ^ w) :
    raise w p n (p ^ s) = .ok (p ^ (s + n)) := by
  induction n generalizing s with
  | zero => rfl
  | succ n ih =>
    have grows : p ^ s < p ^ (s + 1) := Nat.pow_lt_pow_right (by omega) (Nat.lt_succ_self s)
    have small : p ^ (s + 1) < 2 ^ w := (Nat.pow_le_pow_right (by omega) (by omega)).trans_lt lt
    rw [raise, ← pow_succ, Nat.mod_eq_of_lt small, if_pos grows, ih (by rwa [Nat.add_right_comm, Nat.add_assoc])]
    rw [Nat.add_right_comm, Nat.add_assoc]

theorem raise_eq {n pk r : ℕ} (small : pk < 2 ^ w) (ran : raise w p n pk = .ok r) :
    pk ≤ r ∧ r = pk * p ^ n % 2 ^ w := by
  induction n generalizing pk with
  | zero =>
    cases ran
    rw [pow_zero, mul_one, Nat.mod_eq_of_lt small]
    exact ⟨le_rfl, rfl⟩
  | succ n ih =>
    rw [raise] at ran
    split_ifs at ran with grows
    obtain ⟨le, same⟩ := ih (Nat.mod_lt _ (Nat.two_pow_pos w)) ran
    refine ⟨grows.le.trans le, ?_⟩
    rw [same, Nat.mod_mul_mod, mul_assoc, ← pow_succ']

theorem raise_error {n pk : ℕ} {e : BadLookup} (ran : raise w p n pk = .error e) : e = .assertion := by
  induction n generalizing pk with
  | zero => cases ran
  | succ n ih =>
    rw [raise] at ran
    split_ifs at ran
    · exact ih ran
    · cases ran
      rfl

/-! ## The test of a branch -/

theorem matchesBranch_iff (nonzero : p ≠ 0) {pk : ℕ} (positive : 0 < pk) (raised : raise w p (J.k - 1) p = .ok pk)
    (a : ℤ) (b : ℕ) :
    let rk := J.r % 2 ^ w
    ∃ found, matchesBranch w p J a b = .ok found ∧
      (found = true ↔ (a * (if pk ≤ rk then rk - pk else 1 : ℕ) : ZMod pk) =
        b * toInt64 (if pk ≤ rk then 1 else rk)) := by
  intro rk
  rw [matchesBranch, if_neg nonzero, raised]
  refine ⟨_, rfl, ?_⟩
  have reduced (x y : ℕ) : mul x y pk < pk := Nat.mod_lt _ positive
  rw [decide_eq_true_eq, sub_eq_zero_iff (reduced _ _) (reduced _ _)]
  simp only [ModUl.mul, setUl, ZMod.natCast_mod, Nat.cast_mul, setInt64_cast positive, rk]

theorem toInt64_of_lt {x : ℕ} (small : x < 2 ^ 63) : toInt64 x = x := by
  rw [toInt64, Nat.mod_eq_of_lt (by omega), if_pos small]

theorem raised_power (wellFormed : J.WellFormed p) (two_le : 2 ≤ p) (small : p ^ J.k < 2 ^ w) :
    raise w p (J.k - 1) p = .ok (p ^ J.k) := by
  have pos := wellFormed.pos
  have steps := raise_of_lt two_le (s := 1) (n := J.k - 1) (by rwa [Nat.add_sub_cancel' pos])
  rwa [pow_one, Nat.add_sub_cancel' pos] at steps

theorem matchesBranch_of_fits (wellFormed : J.WellFormed p) (two_le : 2 ≤ p) (fits : J.Fits w p) (a : ℤ) (b : ℕ) :
    ∃ found, matchesBranch w p J a b = .ok found ∧ (found = true ↔ InClass p J a b) := by
  obtain ⟨power, encoded, signed⟩ := fits
  have positive : 0 < p ^ J.k := Nat.pow_pos (by omega)
  obtain ⟨found, ran, test⟩ := matchesBranch_iff (by omega) positive (raised_power wellFormed two_le power) a b
  refine ⟨found, ran, test.trans ?_⟩
  rw [InClass, point, Nat.mod_eq_of_lt encoded]
  by_cases projective : p ^ J.k ≤ J.r
  · rw [if_pos projective, if_pos projective, if_neg (not_lt.mpr projective), toInt64_of_lt (by norm_num)]
    push_cast
    rfl
  · rw [if_neg projective, if_neg projective, if_pos (not_le.mp projective), toInt64_of_lt (by omega)]
    push_cast
    rfl

theorem isUnit_of_not_dvd (prime : p.Prime) {k : ℕ} {z : ℤ} (coprime : ¬ (p : ℤ) ∣ z) : IsUnit (z : ZMod (p ^ k)) := by
  rw [ZMod.coe_int_isUnit_iff_isCoprime, Nat.cast_pow]
  exact ((Nat.prime_iff_prime_int.mp prime).coprime_iff_not_dvd.mpr coprime).pow_left

def UnitMultiple (p : ℕ) (J : Branch) (a : ℤ) (b : ℕ) : Prop :=
  ∃ l : (ZMod (p ^ J.k))ˣ, (a : ZMod (p ^ J.k)) = l * (point p J).1 ∧ (b : ZMod (p ^ J.k)) = l * (point p J).2

theorem inClass_iff_unit (prime : p.Prime) (wellFormed : J.WellFormed p) {a : ℤ} {b : ℕ}
    (primitive : ¬ ((p : ℤ) ∣ a ∧ p ∣ b)) : InClass p J a b ↔ UnitMultiple p J a b := by
  have below : (p : ℤ) ∣ (p ^ J.k : ℕ) := by exact_mod_cast dvd_pow_self p (by have := wellFormed.pos; omega)
  have primitive' : ¬ ((p : ℤ) ∣ a ∧ (p : ℤ) ∣ (b : ℤ)) :=
    fun both => primitive ⟨both.1, Int.natCast_dvd_natCast.mp both.2⟩
  rw [InClass, UnitMultiple, ← Int.cast_natCast b]
  clear primitive
  generalize (b : ℤ) = b at primitive' ⊢
  constructor
  · intro inClass
    rw [point] at inClass ⊢
    split_ifs at inClass ⊢ with affine
    · rw [Nat.cast_one, mul_one, ← Int.cast_natCast, ← Int.cast_mul, ZMod.intCast_eq_intCast_iff] at inClass
      have unit : IsUnit (b : ZMod (p ^ J.k)) := isUnit_of_not_dvd prime fun dvd =>
        primitive' ⟨(inClass.of_dvd below).dvd_iff.mpr (dvd.mul_right _), dvd⟩
      refine ⟨unit.unit, ?_, by rw [Nat.cast_one, mul_one, IsUnit.unit_spec]⟩
      rw [IsUnit.unit_spec, ← Int.cast_natCast, ← Int.cast_mul, ZMod.intCast_eq_intCast_iff]
      exact inClass
    · have multiple : (p : ℤ) ∣ (J.r - p ^ J.k : ℕ) := by exact_mod_cast wellFormed.dvd (not_lt.mp affine)
      rw [Nat.cast_one, mul_one, ← Int.cast_natCast, ← Int.cast_mul, ZMod.intCast_eq_intCast_iff] at inClass
      have unit : IsUnit (a : ZMod (p ^ J.k)) := isUnit_of_not_dvd prime fun dvd =>
        primitive' ⟨dvd, (inClass.of_dvd below).dvd_iff.mp (multiple.mul_left _)⟩
      refine ⟨unit.unit, by rw [Nat.cast_one, mul_one, IsUnit.unit_spec], ?_⟩
      rw [IsUnit.unit_spec, ← Int.cast_natCast, ← Int.cast_mul, ZMod.intCast_eq_intCast_iff]
      exact inClass.symm
  · rintro ⟨l, sameA, sameB⟩
    rw [sameA, sameB]
    ring

theorem inClass_congr {a a' : ℤ} {b b' : ℕ} (sameA : (a : ZMod (p ^ m)) = a') (sameB : (b : ZMod (p ^ m)) = b')
    (le : J.k ≤ m) : InClass p J a b ↔ InClass p J a' b' := by
  have dvd : p ^ J.k ∣ p ^ m := pow_dvd_pow p le
  have sameA' : (a : ZMod (p ^ J.k)) = a' := by
    rw [ZMod.intCast_eq_intCast_iff] at *
    exact sameA.of_dvd (by exact_mod_cast dvd)
  have sameB' : (b : ZMod (p ^ J.k)) = b' := by
    rw [ZMod.natCast_eq_natCast_iff] at *
    exact sameB.of_dvd dvd
  rw [InClass, InClass, sameA', sameB']

section
variable {branches : List Branch} (all : ∀ J ∈ branches, J.WellFormed p ∧ J.Fits w p) (two_le : 2 ≤ p)
include all two_le

theorem findBranch_spec (a : ℤ) (b : ℕ) : ∃ found, findBranch w p a b branches = .ok found ∧
    (∀ J, found = some J → J ∈ branches ∧ InClass p J a b) ∧ (found = none → ∀ J ∈ branches, ¬ InClass p J a b) := by
  induction branches with
  | nil => exact ⟨none, rfl, fun J same => (by cases same), fun _ J member => (by cases member)⟩
  | cons J branches ih =>
    obtain ⟨wellFormed, fits⟩ := all J (.head _)
    obtain ⟨hit, ran, test⟩ := matchesBranch_of_fits wellFormed two_le fits a b
    obtain ⟨found, rest, here, nowhere⟩ := ih fun J member => all J (.tail _ member)
    rw [findBranch, ran]
    cases hit with
    | true =>
      refine ⟨some J, rfl, fun J' same => ?_, fun same => by cases same⟩
      cases same
      exact ⟨List.mem_cons_self, test.mp rfl⟩
    | false =>
      refine ⟨found, rest, fun J' same => ?_, fun same J' member => ?_⟩
      · obtain ⟨member, inClass⟩ := here J' same
        exact ⟨List.mem_cons_of_mem _ member, inClass⟩
      · rcases List.mem_cons.mp member with rfl | later
        · exact fun inClass => Bool.false_ne_true (test.mpr inClass)
        · exact nowhere same J' later

theorem findBranch_congr {a a' : ℤ} {b b' : ℕ} (below : ∀ J ∈ branches, J.k ≤ m) (sameA : (a : ZMod (p ^ m)) = a')
    (sameB : (b : ZMod (p ^ m)) = b') : findBranch w p a b branches = findBranch w p a' b' branches := by
  induction branches with
  | nil => rfl
  | cons J branches ih =>
    obtain ⟨wellFormed, fits⟩ := all J (.head _)
    obtain ⟨hit, ran, test⟩ := matchesBranch_of_fits wellFormed two_le fits a b
    obtain ⟨hit', ran', test'⟩ := matchesBranch_of_fits wellFormed two_le fits a' b'
    have same : hit = hit' := by
      rw [Bool.eq_iff_iff, test, test']
      exact inClass_congr sameA sameB (below J (.head _))
    rw [findBranch, findBranch, ran, ran', same, ih (fun J member => all J (.tail _ member))
      fun J member => below J (.tail _ member)]

theorem largestPower_eq {s : ℕ} (small : p ^ s < 2 ^ w) (signed : p ^ s ≤ 2 ^ 63) : ∃ M, s ≤ M ∧
    (∀ J ∈ branches, J.k ≤ M) ∧ p ^ M ≤ 2 ^ 63 ∧ largestPower w p branches (s, p ^ s) = .ok (p ^ M) := by
  induction branches generalizing s with
  | nil => exact ⟨s, le_rfl, fun J member => (by cases member), signed, rfl⟩
  | cons J branches ih =>
    obtain ⟨-, fits⟩ := all J (.head _)
    have top : s + (J.k - s) = max s J.k := by omega
    have next : p ^ max s J.k < 2 ^ w ∧ p ^ max s J.k ≤ 2 ^ 63 := by
      rcases le_total s J.k with le | le
      · rw [max_eq_right le]
        exact ⟨fits.power, fits.signed⟩
      · rw [max_eq_left le]
        exact ⟨small, signed⟩
    obtain ⟨M, above, rest, bound, ran⟩ := ih (fun J member => all J (.tail _ member)) next.1 next.2
    refine ⟨M, (le_max_left _ _).trans above, ?_, bound, ?_⟩
    · exact List.forall_mem_cons.mpr ⟨(le_max_right _ _).trans above, rest⟩
    · rw [largestPower, raise_of_lt two_le (top ▸ next.1), top]
      exact ran

/-- The search returns a branch that has (a : b) for its point, or there is none. -/
theorem findBranch_unit (prime : p.Prime) {a : ℤ} {b : ℕ} (primitive : ¬ ((p : ℤ) ∣ a ∧ p ∣ b)) :
    ∃ found, findBranch w p a b branches = .ok found ∧
      (∀ J, found = some J → J ∈ branches ∧ UnitMultiple p J a b) ∧
      (found = none → ∀ J ∈ branches, ¬ UnitMultiple p J a b) := by
  obtain ⟨found, ran, here, nowhere⟩ := findBranch_spec all two_le a b
  refine ⟨found, ran, fun J same => ?_, fun same J member => ?_⟩
  · obtain ⟨member, inClass⟩ := here J same
    exact ⟨member, (inClass_iff_unit prime (all J member).1 primitive).mp inClass⟩
  · exact fun multiple => nowhere same J member ((inClass_iff_unit prime (all J member).1 primitive).mpr multiple)

end

theorem findBranch_unit_thirteen : findBranch 32 13 5 3 [⟨2, 0, [2]⟩, ⟨1, 6, [1]⟩] = .ok (some ⟨1, 6, [1]⟩) ∧
    UnitMultiple 13 ⟨1, 6, [1]⟩ 5 3 := by
  have all : ∀ J ∈ [⟨2, 0, [2]⟩, ⟨1, 6, [1]⟩], Branch.WellFormed 13 J ∧ J.Fits 32 13 := by
    intro J member
    rcases List.mem_pair.mp member with rfl | rfl
    · exact ⟨⟨by norm_num, by norm_num, by norm_num⟩, by norm_num, by norm_num, by norm_num⟩
    · exact ⟨⟨by norm_num, by norm_num, by norm_num⟩, by norm_num, by norm_num, by norm_num⟩
  have second : findBranch 32 13 5 3 [⟨2, 0, [2]⟩, ⟨1, 6, [1]⟩] = .ok (some ⟨1, 6, [1]⟩) := by rfl
  obtain ⟨found, ran, here, -⟩ := findBranch_unit all (by norm_num) (by norm_num) (a := 5) (b := 3) (by norm_num)
  exact ⟨second, (here _ (Except.ok.inj (ran.symm.trans second))).2⟩

theorem reduced_eq {M : ℕ} (two_le : 2 ≤ p) (signed : p ^ M ≤ 2 ^ 63) (a : ℤ) :
    ((if a < 0 then -toInt64 (a.natAbs % p ^ M) else toInt64 (a.natAbs % p ^ M) : ℤ) : ZMod (p ^ M)) = a := by
  have positive : 0 < p ^ M := Nat.pow_pos (by omega)
  have small : a.natAbs % p ^ M < 2 ^ 63 := (Nat.mod_lt _ positive).trans_le signed
  have residue : ((a.natAbs % p ^ M : ℕ) : ZMod (p ^ M)) = (|a| : ℤ) := by
    rw [ZMod.natCast_mod, ← Int.cast_natCast, Int.natCast_natAbs]
  rw [toInt64_of_lt small]
  split_ifs with negative
  · rw [Int.cast_neg, Int.cast_natCast, residue, abs_of_neg negative, Int.cast_neg, neg_neg]
  · rw [Int.cast_natCast, residue, abs_of_nonneg (not_lt.mp negative)]

theorem exact_of_fits {aboveAdd first : ℕ} {ideals : List (PRSide × BadIdeal)} {x : PRSide} {I : BadIdeal}
    (two_le : 2 ≤ x.p) (stored : x.p < 2 ^ w) (signed : x.p ≤ 2 ^ 63)
    (there : findIdeal x aboveAdd ideals = some (first, I))
    (all : ∀ J ∈ I.branches, J.WellFormed x.p ∧ J.Fits w x.p) : Exact w aboveAdd ideals x := by
  intro e a b _ _ _
  constructor
  · obtain ⟨M, -, below, bound, ran⟩ := largestPower_eq all two_le (s := 1) (by rwa [pow_one]) (by rwa [pow_one])
    rw [pow_one] at ran
    have residue : ((b % x.p ^ M : ℕ) : ZMod (x.p ^ M)) = b := ZMod.natCast_mod _ _
    have negated : ¬ (a < 0 ∧ toInt64 (a.natAbs % x.p ^ M) = -2 ^ 63) := by
      have positive : 0 < x.p ^ M := Nat.pow_pos (by omega)
      rw [toInt64_of_lt ((Nat.mod_lt _ positive).trans_le bound)]
      exact fun least => absurd (Int.natCast_nonneg _) (by rw [least.2]; norm_num)
    rw [indicesFromPABMpz, if_neg (by omega), there, Option.elim_some]
    dsimp only
    rw [ran, Int.natAbs_natCast]
    change (if a < 0 ∧ toInt64 (a.natAbs % x.p ^ M) = -2 ^ 63 then _ else indicesFromPAB _ _ _ _ _ _ _) = _
    rw [if_neg negated, indicesFromPAB, indicesFromPAB, there, Option.elim_some, Option.elim_some]
    dsimp only
    rw [findBranch_congr all two_le below (reduced_eq two_le bound a) residue]
  · intro first' I' there'
    obtain ⟨rfl, rfl⟩ := Prod.mk.inj (Option.some.inj (there.symm.trans there'))
    obtain ⟨found, ran, here, -⟩ := findBranch_spec all two_le a b
    exact ⟨found, ran, fun J same => (here J same).2⟩

/-! ## Numbers that do not fit -/

theorem exponents_ok (vs : List ℤ) : ∃ bound, ∀ e ≥ bound, ∃ exps, exponents e vs = .ok exps := by
  induction vs with
  | nil => exact ⟨0, fun e _ => ⟨[], rfl⟩⟩
  | cons v vs ih =>
    obtain ⟨bound, rest⟩ := ih
    refine ⟨max bound (-v), fun e above => ?_⟩
    obtain ⟨exps, ran⟩ := rest e ((le_max_left _ _).trans above)
    rw [exponents, ran, if_pos ((le_max_right _ _).trans above)]
    split_ifs
    · exact ⟨v :: exps, rfl⟩
    · exact ⟨(e + v) :: exps, rfl⟩

theorem largestPower_error {branches : List Branch} {m pm : ℕ} {e : BadLookup}
    (ran : largestPower w p branches (m, pm) = .error e) : e = .assertion := by
  induction branches generalizing m pm with
  | nil => cases ran
  | cons J branches ih =>
    rw [largestPower] at ran
    cases raised : raise w p (J.k - m) pm with
    | error e' =>
      rw [raised] at ran
      cases ran
      exact raise_error raised
    | ok pm' =>
      rw [raised] at ran
      exact ih ran

theorem largestPower_ge {branches : List Branch} {m pm q : ℕ} (small : pm < 2 ^ w)
    (ran : largestPower w p branches (m, pm) = .ok q) : pm ≤ q := by
  induction branches generalizing m pm with
  | nil =>
    cases ran
    exact le_rfl
  | cons J branches ih =>
    rw [largestPower] at ran
    cases raised : raise w p (J.k - m) pm with
    | error e =>
      rw [raised] at ran
      cases ran
    | ok pm' =>
      rw [raised] at ran
      obtain ⟨le, same⟩ := raise_eq small raised
      exact le.trans (ih (same ▸ Nat.mod_lt _ (Nat.two_pow_pos w)) ran)

section
variable {aboveAdd first : ℕ} {ideals : List (PRSide × BadIdeal)} {x : PRSide} {I : BadIdeal}
  (two_le : 2 ≤ x.p) (there : findIdeal x aboveAdd ideals = some (first, I)) (exact' : Exact w aboveAdd ideals x)
include two_le there exact'

-- At the least `a` a power above 2^63 does not reduce, and what comes out cannot be negated.
theorem power_of_exact : ∃ pm, largestPower w x.p I.branches (1, x.p) = .ok pm ∧ pm ≤ 2 ^ 63 := by
  have at' (e : ℤ) := exact' e (-2 ^ 63) 0 (by norm_num) (by norm_num) (by norm_num)
  obtain ⟨found, ran, -⟩ := (at' 0).2 first I there
  obtain ⟨e, returns⟩ : ∃ e, indicesFromPAB w aboveAdd ideals x e (-2 ^ 63) 0 ≠ .error .assertion ∧
      indicesFromPAB w aboveAdd ideals x e (-2 ^ 63) 0 ≠ .error .undefined := by
    have searched (e : ℤ) : indicesFromPAB w aboveAdd ideals x e (-2 ^ 63) 0 =
        found.elim (.error .cannotLookup) fun J => (exponents e J.v).map fun exps => (first, exps) := by
      rw [indicesFromPAB, there, Option.elim_some]
      dsimp only
      rw [ran]
      rfl
    cases found with
    | none =>
      exact ⟨0, fun same => (by cases (searched 0).symm.trans same), fun same => (by cases (searched 0).symm.trans same)⟩
    | some J =>
      obtain ⟨bound, enough⟩ := exponents_ok J.v
      obtain ⟨exps, ok⟩ := enough bound le_rfl
      have result := searched bound
      rw [Option.elim_some, ok] at result
      exact ⟨bound, fun same => (by cases result.symm.trans same), fun same => (by cases result.symm.trans same)⟩
  rw [← (at' e).1, indicesFromPABMpz, if_neg (by omega), there, Option.elim_some] at returns
  dsimp only at returns
  cases power : largestPower w x.p I.branches (1, x.p) with
  | error e' =>
    rw [power, largestPower_error power] at returns
    exact absurd rfl returns.1
  | ok pm =>
    refine ⟨pm, rfl, ?_⟩
    by_contra large
    rw [power] at returns
    refine returns.2 (if_pos ⟨by norm_num, ?_⟩)
    rw [show ((-2 ^ 63 : ℤ).natAbs) = 2 ^ 63 by norm_num, Nat.mod_eq_of_lt (not_le.mp large)]
    norm_num [toInt64]

theorem class_of_match {rest : List Branch} (branches : I.branches = J :: rest) {a : ℤ} {b : ℕ} (low : -2 ^ 63 ≤ a)
    (high : a < 2 ^ 63) (small : b < 2 ^ 64) {pk : ℕ} (positive : 0 < pk) (raised : raise w x.p (J.k - 1) x.p = .ok pk)
    (test : (a * (if pk ≤ J.r % 2 ^ w then J.r % 2 ^ w - pk else 1 : ℕ) : ZMod pk) =
      b * toInt64 (if pk ≤ J.r % 2 ^ w then 1 else J.r % 2 ^ w)) : InClass x.p J a b := by
  obtain ⟨hit, ran, same⟩ := matchesBranch_iff (J := J) (by omega) positive raised a b
  obtain ⟨found, searched, inClass⟩ := (exact' 0 a b low high small).2 first I there
  rw [branches, findBranch, ran, same.mpr test] at searched
  cases searched
  exact inClass J rfl

theorem fits_of_exact (width : w ≤ 64) (stored : x.p < 2 ^ w) (wellFormed : J.WellFormed x.p) {rest : List Branch}
    (branches : I.branches = J :: rest) : J.Fits w x.p := by
  have word : 2 ^ w ≤ 2 ^ 64 := Nat.pow_le_pow_right (by norm_num) width
  have pos := wellFormed.pos
  obtain ⟨pm, power, bound⟩ := power_of_exact two_le there exact'
  obtain ⟨pk, raised, signed⟩ : ∃ pk, raise w x.p (J.k - 1) x.p = .ok pk ∧ pk ≤ 2 ^ 63 := by
    rw [branches, largestPower] at power
    cases raised : raise w x.p (J.k - 1) x.p with
    | error e =>
      rw [raised] at power
      cases power
    | ok pk =>
      rw [raised] at power
      have small : pk < 2 ^ w := (raise_eq stored raised).2 ▸ Nat.mod_lt _ (Nat.two_pow_pos w)
      exact ⟨pk, rfl, (largestPower_ge small power).trans bound⟩
  obtain ⟨le, wrapped⟩ := raise_eq stored raised
  rw [← pow_succ', Nat.sub_add_cancel pos] at wrapped
  have positive : 0 < pk := by omega
  have small : pk < 2 ^ w := wrapped ▸ Nat.mod_lt _ (Nat.two_pow_pos w)
  have inClass {a : ℤ} {b : ℕ} (low : -2 ^ 63 ≤ a) (high : a < 2 ^ 63) (less : b < 2 ^ 64) :=
    class_of_match two_le there exact' branches low high less positive raised
  have noWrap : x.p ^ J.k < 2 ^ w := by
    by_contra large
    have nonzero : ((pk : ℕ) : ZMod (x.p ^ J.k)) ≠ 0 := fun zero => by
      have := Nat.le_of_dvd positive ((ZMod.natCast_eq_zero_iff _ _).mp zero)
      omega
    have first := inClass (a := 0) (b := pk) (by norm_num) (by norm_num) (by omega) (by simp)
    rw [InClass, Int.cast_zero, zero_mul] at first
    rw [point] at first
    split_ifs at first with affine
    · by_cases projective : pk ≤ J.r % 2 ^ w
      · have second := inClass (a := 1) (b := (J.r % 2 ^ w - pk) % pk) (by norm_num) (by norm_num)
          ((Nat.mod_lt _ positive).trans (by omega)) (by
            rw [if_pos projective, if_pos projective, toInt64_of_lt (by norm_num)]
            simp)
        rw [InClass, point, if_pos affine] at second
        refine nonzero ?_
        calc ((pk : ℕ) : ZMod (x.p ^ J.k)) = pk * (((1 : ℤ) : ZMod (x.p ^ J.k)) * (1 : ℕ)) := by simp
          _ = ((J.r % 2 ^ w - pk) % pk : ℕ) * (pk * (J.r : ℕ)) := by
            rw [second]
            ring
          _ = 0 := by rw [← first, mul_zero]
      · have second := inClass (a := -pk) (b := 0) (by omega) (by omega) (by norm_num) (by
          rw [if_neg projective]
          simp)
        rw [InClass, point, if_pos affine] at second
        exact nonzero (by simpa using second)
    · exact nonzero (by simpa using first.symm)
  obtain rfl : pk = x.p ^ J.k := by rw [wrapped, Nat.mod_eq_of_lt noWrap]
  refine ⟨noWrap, ?_, signed⟩
  by_contra large
  have lt := wellFormed.lt
  have projective : ¬ J.r < x.p ^ J.k := by omega
  have left : J.r % 2 ^ w = J.r - 2 ^ w := by rw [Nat.mod_eq_sub_mod (not_lt.mp large), Nat.mod_eq_of_lt (by omega)]
  obtain ⟨low, high⟩ : -2 ^ 63 ≤ toInt64 (J.r - 2 ^ w) ∧ toInt64 (J.r - 2 ^ w) < 2 ^ 63 := by
    unfold toInt64
    split_ifs <;> omega
  have taken := inClass (b := 1) low high (by norm_num) (by
    rw [left, if_neg (by omega), if_neg (by omega)]
    simp)
  rw [InClass, point, if_neg projective] at taken
  have dvd : x.p ∣ x.p ^ J.k := dvd_pow_self x.p (by omega)
  have modp := congrArg (ZMod.castHom dvd (ZMod x.p)) taken
  have multiple := (ZMod.natCast_eq_zero_iff _ _).mpr (wellFormed.dvd (not_lt.mp projective))
  have : Fact (1 < x.p) := ⟨by omega⟩
  simp only [map_mul, map_natCast, map_intCast, map_one, multiple, mul_zero, Nat.cast_one, mul_one] at modp
  exact zero_ne_one modp

end

def oneIdeal (p : ℕ) (branches : List Branch) : List (PRSide × BadIdeal) := [(⟨p, 0, 0⟩, ⟨0, branches⟩)]

theorem findIdeal_oneIdeal (p : ℕ) (branches : List Branch) :
    findIdeal ⟨p, 0, 0⟩ 0 (oneIdeal p branches) = some (0, ⟨0, branches⟩) := if_pos rfl

/-- Whatever the order of its branches, a bad ideal is treated exactly if and only if each of them fits. -/
theorem found_exact_iff (width : w ≤ 64) (two_le : 2 ≤ p) (stored : p < 2 ^ w) {branches : List Branch}
    (wellFormed : ∀ J ∈ branches, J.WellFormed p) :
    (∀ aboveAdd ideals x first I, x.p = p → findIdeal x aboveAdd ideals = some (first, I) → I.branches.Perm branches →
      Exact w aboveAdd ideals x) ↔ p ≤ 2 ^ 63 ∧ ∀ J ∈ branches, J.Fits w p := by
  constructor
  · intro always
    have one (order : List Branch) (perm : order.Perm branches) : Exact w 0 (oneIdeal p order) ⟨p, 0, 0⟩ :=
      always 0 _ _ 0 _ rfl (findIdeal_oneIdeal p order) perm
    constructor
    · obtain ⟨pm, power, bound⟩ := power_of_exact two_le (findIdeal_oneIdeal p branches) (one branches (.refl _))
      exact (largestPower_ge stored power).trans bound
    · intro J member
      obtain ⟨before, after, rfl⟩ := List.append_of_mem member
      exact fits_of_exact two_le (findIdeal_oneIdeal p _) (one (J :: (before ++ after)) List.perm_middle.symm) width stored
        (wellFormed J member) rfl
  · rintro ⟨signed, fits⟩ aboveAdd ideals x first I rfl there perm
    refine exact_of_fits two_le stored signed there fun J member => ?_
    exact ⟨wellFormed J (perm.mem_iff.mp member), fits J (perm.mem_iff.mp member)⟩

def twoBranches : List Branch := [⟨2, 5, [1, -1]⟩, ⟨2, 65526, [0, 2]⟩]

theorem found_exact_iff_65521 : Exact 32 3 [(⟨65521, 5, 1⟩, ⟨2, twoBranches⟩)] ⟨65521, 5, 1⟩ := by
  refine (@found_exact_iff 32 65521 (by norm_num) (by norm_num) (by norm_num) twoBranches fun J member => ?_).mpr
    ⟨by norm_num, fun J member => ?_⟩ 3 _ _ 3 _ rfl (if_pos rfl) (.refl _)
  · rcases List.mem_pair.mp member with rfl | rfl <;> exact ⟨by norm_num, by norm_num, by norm_num⟩
  · rcases List.mem_pair.mp member with rfl | rfl <;> exact ⟨by norm_num, by norm_num, by norm_num⟩

theorem not_exact_65537 : ¬ Exact 32 0 [(⟨65537, 0, 0⟩, ⟨2, [⟨2, 0, [1, 1]⟩]⟩)] ⟨65537, 0, 0⟩ := by
  intro exact'
  have found : findBranch 32 65537 131073 1 [⟨2, 0, [1, 1]⟩] = .ok (some ⟨2, 0, [1, 1]⟩) := by
    have hit : matchesBranch 32 65537 ⟨2, 0, [1, 1]⟩ 131073 1 = .ok true := by decide +kernel
    rw [findBranch, hit]
    rfl
  obtain ⟨_, ran, inClass⟩ := (exact' 2 131073 1 (by norm_num) (by norm_num) (by norm_num)).2 0 _ (if_pos rfl)
  replace inClass := inClass _ (Except.ok.inj (ran.symm.trans found))
  have zero : ((131073 : ℕ) : ZMod (65537 ^ 2)) = 0 := by
    simpa [InClass, point] using inClass
  exact absurd ((ZMod.natCast_eq_zero_iff _ _).mp zero) (by norm_num)

end BadIdeals

end CadoNfs.Utils
