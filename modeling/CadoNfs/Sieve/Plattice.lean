import CadoNfs.Lib.PlaneLattice
import CadoNfs.Utils.Gcd

/-!
# Lattices of factor base primes

`plattice_info` of `sieve/las-plattice.hpp`. The vectors are `(-mi0, j0)` and `(i1, j1)`, in unsigned
32-bit integers.
-/

namespace CadoNfs.Sieve
open Lib Utils

structure PlatticeInfo where
  mi0 : BitVec 32
  j0 : BitVec 32
  i1 : BitVec 32
  j1 : BitVec 32
  deriving DecidableEq, Repr

/-- Why a call does not return: a failed `ASSERT`, a division that traps, or a loop that is cut off. -/
inductive Failure
  | assertion
  | divideError
  | outOfFuel
  deriving DecidableEq

instance {α : Type} [DecidableEq α] : DecidableEq (Except Failure α)
  | .ok x, .ok y => decidable_of_iff (x = y) (Iff.of_eq (Except.ok.injEq x y).symm)
  | .error e, .error f => decidable_of_iff (e = f) (Iff.of_eq (Except.error.injEq e f).symm)
  | .ok _, .error _ => .isFalse nofun
  | .error _, .ok _ => .isFalse nofun

-- With `NDEBUG` the macro `ASSERT` does nothing.
def assert (ndebug : Bool) (condition : Prop) [Decidable condition] : Except Failure Unit :=
  if ndebug ∨ condition then .ok () else .error .assertion

@[simp] theorem assert_of_ndebug (condition : Prop) [Decidable condition] :
    assert true condition = .ok () := if_pos (.inl rfl)

theorem assert_of {ndebug : Bool} {condition : Prop} [Decidable condition] (holds : condition) :
    assert ndebug condition = .ok () := if_pos (.inr holds)

theorem of_assert {ndebug : Bool} {α : Type} {condition : Prop} [Decidable condition] 
    {rest : Unit → Except Failure α} {r : α} (run : (assert ndebug condition >>= rest) = .ok r) :
    (ndebug = true ∨ condition) ∧ rest () = .ok r := by
  by_cases holds : ndebug = true ∨ condition
  · rw [assert, if_pos holds] at run
    exact ⟨holds, run⟩
  · rw [assert, if_neg holds] at run
    cases run

def sieveWidth (logI : Nat) : BitVec 32 := 1#32 <<< logI

theorem toNat_sieveWidth {logI : Nat} (bound : logI < 32) : (sieveWidth logI).toNat = 2 ^ logI := by
  have := Nat.pow_lt_pow_right (show 1 < 2 by norm_num) bound
  rw [sieveWidth, BitVec.toNat_shiftLeft, Nat.shiftLeft_eq, show (1#32).toNat = 1 from rfl, one_mul,
    Nat.mod_eq_of_lt this]

namespace PlatticeInfo

def reduceWithVerticalVector (p : PlatticeInfo) (I : BitVec 32) : PlatticeInfo :=
  let a := (I - 1) % p.mi0
  let mi2 := (I - 1) - a - p.i1
  let j2 := p.j1
  let mi2 := if p.mi0 + mi2 < I then mi2 + p.mi0 else mi2
  ⟨mi2, j2, p.mi0, p.j0⟩

def initialBasis (q r : Nat) (proj : Bool) : PlatticeInfo :=
  if !proj then ⟨.ofNat 32 q, 0, .ofNat 32 r, 1⟩
  else
    let (g, t) := xgcdUl r q
    ⟨.ofNat 32 (q / g), 0, .ofNat 32 t, .ofNat 32 g⟩

def needsSpecialTreatment (p : PlatticeInfo) (I : BitVec 32) : Bool :=
  p.i1 = 0 ∨ (1 < p.j1 ∧ p.mi0 < I)

def checkPreConditions (p : PlatticeInfo) (I : BitVec 32) : Bool :=
  p.j0 = 0 ∧ 0 < p.mi0 ∧ 0 < p.j1 ∧ I ≤ p.mi0 * p.j1

def checkPostConditions (p : PlatticeInfo) (I : BitVec 32) : Bool :=
  p.mi0 < I ∧ 0 < p.j0 ∧ (p.i1 < I ∨ p.mi0 = 0) ∧ I ≤ p.i1 + p.mi0

-- `mi0 -= a * i1; j0 += a * j1;`
def addStep (p : PlatticeInfo) (a : BitVec 32) : PlatticeInfo :=
  { p with mi0 := p.mi0 - a * p.i1, j0 := p.j0 + a * p.j1 }

-- `i1 -= a * mi0; j1 += a * j0;`
def addWarp (p : PlatticeInfo) (a : BitVec 32) : PlatticeInfo :=
  { p with i1 := p.i1 - a * p.mi0, j1 := p.j1 + a * p.j0 }

def lattice (p : PlatticeInfo) : AddSubgroup (ℤ × ℤ) :=
  generated (-p.mi0.toNat, p.j0.toNat) (p.i1.toNat, p.j1.toNat)

def det (p : PlatticeInfo) : Nat := p.mi0.toNat * p.j1.toNat + p.j0.toNat * p.i1.toNat

structure SameLattice (p r : PlatticeInfo) : Prop where
  lattice : r.lattice = p.lattice
  det : r.det = p.det

theorem SameLattice.refl (p : PlatticeInfo) : SameLattice p p := ⟨rfl, rfl⟩

theorem SameLattice.trans {p r s : PlatticeInfo} (left : SameLattice p r) (right : SameLattice r s) :
    SameLattice p s :=
  ⟨right.lattice.trans left.lattice, right.det.trans left.det⟩

theorem sameLattice_addStep {p : PlatticeInfo} {a : BitVec 32} (fits : p.det < 2 ^ 32)
    (pos : 0 < p.i1.toNat) (le : a.toNat * p.i1.toNat ≤ p.mi0.toNat) :
    (p.addStep a).mi0.toNat = p.mi0.toNat - a.toNat * p.i1.toNat ∧
      (p.addStep a).j0.toNat = p.j0.toNat + a.toNat * p.j1.toNat ∧ SameLattice p (p.addStep a) := by
  have product : (a * p.i1).toNat = a.toNat * p.i1.toNat := by
    rw [BitVec.toNat_mul, Nat.mod_eq_of_lt (le.trans_lt p.mi0.isLt)]
  have mi0 : (p.addStep a).mi0.toNat = p.mi0.toNat - a.toNat * p.i1.toNat := by
    show (p.mi0 - a * p.i1).toNat = _
    rw [BitVec.toNat_sub_of_le (by rwa [BitVec.le_def, product]), product]
  have exact : (p.mi0.toNat - a.toNat * p.i1.toNat) * p.j1.toNat +
      (p.j0.toNat + a.toNat * p.j1.toNat) * p.i1.toNat = p.det := by
    obtain ⟨rest, split⟩ := Nat.exists_eq_add_of_le le
    rw [det, split, Nat.add_sub_cancel_left]
    ring
  have bound : p.j0.toNat + a.toNat * p.j1.toNat < 2 ^ 32 := by
    have : (p.j0.toNat + a.toNat * p.j1.toNat) * 1 ≤
        (p.j0.toNat + a.toNat * p.j1.toNat) * p.i1.toNat := Nat.mul_le_mul_left _ pos
    omega
  have j0 : (p.addStep a).j0.toNat = p.j0.toNat + a.toNat * p.j1.toNat := by
    show (p.j0 + a * p.j1).toNat = _
    rw [BitVec.toNat_add, BitVec.toNat_mul, Nat.add_mod_mod, Nat.mod_eq_of_lt bound]
  refine ⟨mi0, j0, ?_, ?_⟩
  · have moved : ((-((p.addStep a).mi0.toNat : ℤ), ((p.addStep a).j0.toNat : ℤ)) : ℤ × ℤ) =
        (-(p.mi0.toNat : ℤ), (p.j0.toNat : ℤ)) + (a.toNat : ℤ) • ((p.i1.toNat : ℤ), (p.j1.toNat : ℤ)) := by
      rw [mi0, j0, Nat.cast_sub le]
      simp only [Prod.smul_mk, smul_eq_mul, Prod.mk_add_mk, Prod.mk.injEq]
      push_cast
      exact ⟨by ring, rfl⟩
    rw [lattice, moved]
    exact generated_add _ _ _
  · rw [← exact, det, mi0, j0]
    rfl

def swap (p : PlatticeInfo) : PlatticeInfo := ⟨p.i1, p.j1, p.mi0, p.j0⟩

theorem det_swap (p : PlatticeInfo) : p.swap.det = p.det := by
  simp only [det, swap]
  ring

def mirror : ℤ × ℤ →+ ℤ × ℤ where
  toFun x := (-x.1, x.2)
  map_zero' := rfl
  map_add' x y := by ext <;> simp [add_comm]

theorem lattice_swap (p : PlatticeInfo) : p.swap.lattice = p.lattice.map mirror := by
  rw [lattice, lattice, generated_comm, generated, generated, AddMonoidHom.map_closure, Set.image_pair]
  simp [mirror, swap]

theorem SameLattice.swap {p r : PlatticeInfo} (same : SameLattice p r) : SameLattice p.swap r.swap :=
  ⟨by rw [lattice_swap, lattice_swap, same.lattice], by rw [det_swap, det_swap, same.det]⟩

theorem addWarp_eq (p : PlatticeInfo) (a : BitVec 32) : p.addWarp a = (p.swap.addStep a).swap := rfl

end PlatticeInfo

end CadoNfs.Sieve
