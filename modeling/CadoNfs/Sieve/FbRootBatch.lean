import CadoNfs.Lib.Related
import CadoNfs.Sieve.FbRootQlattice

/-!
# Transforming roots in a batch

`batchinvredc_u32` of `sieve/las-arith.hpp` and `fb_root_in_qlattice_31bits_batch` of
`sieve/las-fbroot-qlattice.hpp`: the denominators of all roots are inverted at the cost of one inversion.
-/

namespace CadoNfs.Sieve
open Lib

def batchinvredcU32 (carrycheck ndebug : Bool) (p invp : BitVec 32) :
    List (BitVec 32) → Except Failure (Option (List (BitVec 32)))
  | [] => return some []
  | a0 :: a => do
    let r0 := if p ≤ a0 then a0 % p else a0
    let r := a.scanl (fun r a => mulmodredcU32 carrycheck r a p invp) r0
    let R ← invmodRedc32 ndebug (r.getLastD r0) p invp
    if R = 0 ∨ R = .allOnes 32 then return none
    let (R, r) := (r.zip a).reverse.foldl
      (fun (R, r) (r', a) =>
        (mulmodredcU32 carrycheck R a p invp, mulmodredcU32 carrycheck R r' p invp :: r)) (R, [])
    return some (R :: r)

def fbRootInQlattice31bitsBatchWith (carrycheck ndebug : Bool) (p : BitVec 32) (rAb : List (BitVec 32))
    (invp : BitVec 32) (basis : QlatticeBasis) : Except Failure (Option (List (BitVec 32))) := do
  assert ndebug (p % 2 = 1)
  let rIj := rAb.map fun r => redc32 carrycheck (basis.a0 - r.setWidth 64 * basis.b0) p invp
  match ← batchinvredcU32 carrycheck ndebug p invp rIj with
  | none => return none
  | some inverses =>
    return some (List.zipWith (fun r inverse =>
      let num := r.setWidth 64 * basis.b1 - basis.a1
      let u := redc32 carrycheck num p invp
      let num := u.setWidth 64 * inverse.setWidth 64
      redcU32 carrycheck num p invp) rAb inverses)

def fbRootInQlattice31bitsBatch (ndebug : Bool) (p : BitVec 32) (rAb : List (BitVec 32)) (invp : BitVec 32)
    (basis : QlatticeBasis) : Except Failure (Option (List (BitVec 32))) :=
  if redcNoCarry p then fbRootInQlattice31bitsBatchWith false ndebug p rAb invp basis
  else fbRootInQlattice31bitsBatchWith true ndebug p rAb invp basis

section
variable {carrycheck : Bool} {p invp : BitVec 32}

/-! ## The simultaneous inversion -/

def InverseOf (p a w : BitVec 32) : Prop :=
  w.toNat < p.toNat ∧ (a.toNat * w.toNat : ZMod p.toNat) = 2 ^ 32

theorem InverseOf.isUnit (modulus : RedcModulus carrycheck p invp) {a w : BitVec 32} (inverse : InverseOf p a w) :
    IsUnit (a.toNat : ZMod p.toNat) := by
  have unit := modulus.isUnit
  rw [← inverse.2, IsUnit.mul_iff] at unit
  exact unit.1

theorem isUnit_mulmodredcU32 (modulus : RedcModulus carrycheck p invp) {r a : BitVec 32}
    (bound : r.toNat < p.toNat) : IsUnit ((mulmodredcU32 carrycheck r a p invp).toNat : ZMod p.toNat) ↔
      IsUnit (r.toNat : ZMod p.toNat) ∧ IsUnit (a.toNat : ZMod p.toNat) := by
  rw [← IsUnit.mul_iff, ← (mulmodredcU32_spec modulus bound).2, IsUnit.mul_iff, and_iff_right modulus.isUnit]

theorem isUnit_foldl (modulus : RedcModulus carrycheck p invp) (a : List (BitVec 32)) {r : BitVec 32}
    (bound : r.toNat < p.toNat) :
    let last := a.foldl (fun r a => mulmodredcU32 carrycheck r a p invp) r
    last.toNat < p.toNat ∧ (IsUnit (last.toNat : ZMod p.toNat) ↔
      IsUnit (r.toNat : ZMod p.toNat) ∧ ∀ x ∈ a, IsUnit (x.toNat : ZMod p.toNat)) := by
  induction a generalizing r with
  | nil => exact ⟨bound, by simp⟩
  | cons x a ih =>
    obtain ⟨less, unit⟩ := ih (mulmodredcU32_spec modulus bound (b := x)).1
    refine ⟨less, unit.trans ?_⟩
    rw [isUnit_mulmodredcU32 modulus bound, List.forall_mem_cons, and_assoc]

theorem InverseOf.unwind (modulus : RedcModulus carrycheck p invp) {R r a : BitVec 32} (bound : r.toNat < p.toNat)
    (inverse : InverseOf p (mulmodredcU32 carrycheck r a p invp) R) :
    InverseOf p r (mulmodredcU32 carrycheck R a p invp) ∧
      InverseOf p a (mulmodredcU32 carrycheck R r p invp) := by
  obtain ⟨less, value⟩ := inverse
  obtain ⟨-, product⟩ := mulmodredcU32_spec modulus bound (b := a)
  obtain ⟨lessA, productA⟩ := mulmodredcU32_spec modulus less (b := a)
  obtain ⟨lessR, productR⟩ := mulmodredcU32_spec modulus less (b := r)
  refine ⟨⟨lessA, ?_⟩, ⟨lessR, ?_⟩⟩
  · apply modulus.isUnit.mul_left_cancel
    rw [mul_left_comm, productA]
    linear_combination 2 ^ 32 * value - (R.toNat : ZMod p.toNat) * product
  · apply modulus.isUnit.mul_left_cancel
    rw [mul_left_comm, productR]
    linear_combination 2 ^ 32 * value - (R.toNat : ZMod p.toNat) * product

theorem unwind_products (modulus : RedcModulus carrycheck p invp) (a : List (BitVec 32)) {r R : BitVec 32}
    (bound : r.toNat < p.toNat)
    (inverse : InverseOf p (a.foldl (fun r a => mulmodredcU32 carrycheck r a p invp) r) R) :
    let result := (((a.scanl (fun r a => mulmodredcU32 carrycheck r a p invp) r).zip a).reverse.foldl
      (fun (R, r) (r', a) =>
        (mulmodredcU32 carrycheck R a p invp, mulmodredcU32 carrycheck R r' p invp :: r)) (R, []) :
      BitVec 32 × List (BitVec 32))
    InverseOf p r result.1 ∧ List.Forall₂ (InverseOf p) a result.2 := by
  rw [List.foldl_reverse]
  induction a generalizing r with
  | nil => exact ⟨inverse, .nil⟩
  | cons x a ih =>
    obtain ⟨first, rest⟩ := ih (mulmodredcU32_spec modulus bound (b := x)).1 inverse
    obtain ⟨before, here⟩ := first.unwind modulus bound
    rw [List.scanl_cons, List.zip_cons_cons, List.foldr_cons]
    exact ⟨before, .cons here rest⟩

theorem batchinvredcU32_spec (modulus : RedcModulus carrycheck p invp) (ndebug : Bool) (one : 1 < p.toNat)
    (a : List (BitVec 32)) :
    (∃ r, batchinvredcU32 carrycheck ndebug p invp a = .ok (some r) ∧ List.Forall₂ (InverseOf p) a r) ∨
      batchinvredcU32 carrycheck ndebug p invp a = .ok none ∧
        ∃ x ∈ a, ¬ IsUnit (x.toNat : ZMod p.toNat) := by
  cases a with
  | nil => exact .inl ⟨[], rfl, .nil⟩
  | cons a0 a =>
    obtain ⟨r0, value, less, same⟩ : ∃ r0, (if p ≤ a0 then a0 % p else a0) = r0 ∧ r0.toNat < p.toNat ∧
        (r0.toNat : ZMod p.toNat) = a0.toNat := by
      refine ⟨_, rfl, ?_⟩
      split
      · rw [BitVec.toNat_umod]
        exact ⟨Nat.mod_lt _ (by omega), ZMod.natCast_mod _ _⟩
      · next small => exact ⟨BitVec.not_le.mp small, rfl⟩
    obtain ⟨lastLess, lastUnit⟩ := isUnit_foldl modulus a less
    obtain ⟨R, run, RLess, unit, inverse⟩ := invmodRedc32_spec modulus ndebug one lastLess
    have last : (a.scanl (fun r a => mulmodredcU32 carrycheck r a p invp) r0).getLastD r0 =
        a.foldl (fun r a => mulmodredcU32 carrycheck r a p invp) r0 := by
      rw [List.getLastD_eq_getLast?, List.getLast?_scanl, Option.getD_some]
    simp only [batchinvredcU32, value, last, run, bind, Except.bind]
    by_cases zero : R = 0
    · refine .inr ⟨by rw [if_pos (.inl zero)]; rfl, ?_⟩
      have none := (lastUnit.not.mp (unit.not.mp (not_not.mpr zero)))
      rw [same, ← List.forall_mem_cons (p := fun x : BitVec 32 => IsUnit (x.toNat : ZMod p.toNat))] at none
      push Not at none
      exact none
    · have proper : ¬ (R = 0 ∨ R = .allOnes 32) := by
        rintro (zero' | rfl)
        · exact zero zero'
        · rw [BitVec.toNat_allOnes] at RLess
          have := p.isLt
          omega
      obtain ⟨first, rest⟩ := unwind_products modulus a less ⟨RLess, inverse zero⟩
      refine .inl ⟨_, by rw [if_neg proper]; rfl, .cons ⟨first.1, ?_⟩ rest⟩
      rw [← same]
      exact first.2

/-! ## The batch and the single transformation -/

variable {basis : QlatticeBasis}

theorem scalar_of_inverse (modulus : RedcModulus carrycheck p invp) (ndebug : Bool) (one : 1 < p.toNat)
    (fits : basis.fits31bits) {r w : BitVec 32} (root : r.toNat < p.toNat)
    (inverse : InverseOf p (redc32 carrycheck (basis.a0 - r.setWidth 64 * basis.b0) p invp) w) :
    fbRootInQlattice31bitsWith carrycheck ndebug p (.affineRoot r) invp basis = .ok (.affineRoot
      (redcU32 carrycheck ((redc32 carrycheck (r.setWidth 64 * basis.b1 - basis.a1) p invp).setWidth 64 *
        w.setWidth 64) p invp)) := by
  obtain ⟨less, num⟩ := redc32_numerator (R := .affineRoot r) modulus fits root
  obtain ⟨-, den⟩ := redc32_denominator (R := .affineRoot r) modulus fits root
  have unit := modulus.isUnit.mul (inverse.isUnit modulus)
  obtain ⟨bound, quotient⟩ := redcU32_quotient modulus less num den inverse.2
  rw [fbRootInQlattice31bitsWith_eq modulus ndebug one fits root,
    exactRoot_affine (den ▸ unit) bound quotient, mul_comm]
  rfl

theorem scalar_of_no_inverse (modulus : RedcModulus carrycheck p invp) (ndebug : Bool) (one : 1 < p.toNat)
    (fits : basis.fits31bits) {r : BitVec 32} (root : r.toNat < p.toNat)
    (none : ¬ IsUnit
      ((redc32 carrycheck (basis.a0 - r.setWidth 64 * basis.b0) p invp).toNat : ZMod p.toNat))
    (s : BitVec 32) :
    fbRootInQlattice31bitsWith carrycheck ndebug p (.affineRoot r) invp basis ≠ .ok (.affineRoot s) := by
  obtain ⟨-, den⟩ := redc32_denominator (R := .affineRoot r) modulus fits root
  have none' : ¬ IsUnit (denominator (.affineRoot r) basis : ZMod p.toNat) := by
    rw [← den, IsUnit.mul_iff, and_iff_right modulus.isUnit]
    exact none
  rw [fbRootInQlattice31bitsWith_eq modulus ndebug one fits root, exactRoot,
    if_neg ((ZMod.coe_int_isUnit_iff_isCoprime _ _).not.mp none')]
  intro affine
  split_ifs at affine
  cases affine

theorem fbRootInQlattice31bitsBatchWith_spec (modulus : RedcModulus carrycheck p invp) (ndebug : Bool)
    (one : 1 < p.toNat) (fits : basis.fits31bits) {rAb : List (BitVec 32)}
    (roots : ∀ r ∈ rAb, r.toNat < p.toNat) :
    (∃ out, fbRootInQlattice31bitsBatchWith carrycheck ndebug p rAb invp basis = .ok (some out) ∧
      List.Forall₂ (fun r s => fbRootInQlattice31bitsWith carrycheck ndebug p (.affineRoot r) invp basis =
        .ok (.affineRoot s)) rAb out) ∨
    fbRootInQlattice31bitsBatchWith carrycheck ndebug p rAb invp basis = .ok none ∧
      ∃ r ∈ rAb, ∀ s, fbRootInQlattice31bitsWith carrycheck ndebug p (.affineRoot r) invp basis ≠
        .ok (.affineRoot s) := by
  have odd : p % 2 = 1 := by
    apply BitVec.eq_of_toNat_eq
    rw [BitVec.toNat_umod]
    exact modulus.odd
  simp only [fbRootInQlattice31bitsBatchWith, assert_of odd, bind, Except.bind]
  rcases batchinvredcU32_spec modulus ndebug one
    (rAb.map fun r => redc32 carrycheck (basis.a0 - r.setWidth 64 * basis.b0) p invp) with
    ⟨inverses, run, inverse⟩ | ⟨run, x, member, none⟩
  · rw [List.forall₂_map_left_iff] at inverse
    refine .inl ⟨_, by rw [run]; rfl, forall₂_zipWith inverse fun r member w => ?_⟩
    exact scalar_of_inverse modulus ndebug one fits (roots r member)
  · obtain ⟨r, among, rfl⟩ := List.mem_map.mp member
    refine .inr ⟨by rw [run]; rfl, r, among, ?_⟩
    exact scalar_of_no_inverse modulus ndebug one fits (roots r among) none

end

/-- The batch succeeds exactly with the roots of the single transformation, and fails at a projective one. -/
theorem fbRootInQlattice31bitsBatch_iff (ndebug : Bool) {p invp : BitVec 32} (one : 1 < p.toNat)
    (inverse : p * invp = -1) {basis : QlatticeBasis} (fits : basis.fits31bits) {rAb : List (BitVec 32)}
    (roots : ∀ r ∈ rAb, r.toNat < p.toNat) :
    (∀ rIj, fbRootInQlattice31bitsBatch ndebug p rAb invp basis = .ok (some rIj) ↔
      List.Forall₂ (fun r s => fbRootInQlattice31bits ndebug p (.affineRoot r) invp basis =
        .ok (.affineRoot s)) rAb rIj) ∧
    ((∃ r ∈ rAb, ∃ s, fbRootInQlattice31bits ndebug p (.affineRoot r) invp basis =
        .ok (.projectiveRoot s)) →
      fbRootInQlattice31bitsBatch ndebug p rAb invp basis = .ok none) := by
  have spec : (∃ out, fbRootInQlattice31bitsBatch ndebug p rAb invp basis = .ok (some out) ∧
      List.Forall₂ (fun r s => fbRootInQlattice31bits ndebug p (.affineRoot r) invp basis =
        .ok (.affineRoot s)) rAb out) ∨
      fbRootInQlattice31bitsBatch ndebug p rAb invp basis = .ok none ∧
        ∃ r ∈ rAb, ∀ s, fbRootInQlattice31bits ndebug p (.affineRoot r) invp basis ≠
          .ok (.affineRoot s) := by
    by_cases small : redcNoCarry p = true
    · simp only [fbRootInQlattice31bitsBatch, fbRootInQlattice31bits, if_pos small]
      exact fbRootInQlattice31bitsBatchWith_spec ⟨inverse, .inr (of_decide_eq_true small)⟩ ndebug one fits roots
    · simp only [fbRootInQlattice31bitsBatch, fbRootInQlattice31bits, if_neg small]
      exact fbRootInQlattice31bitsBatchWith_spec ⟨inverse, .inl rfl⟩ ndebug one fits roots
  rcases spec with ⟨out, run, affine⟩ | ⟨run, r, member, none⟩
  · rw [run]
    refine ⟨fun rIj => ⟨?_, fun affine' => ?_⟩, ?_⟩
    · rintro ⟨⟩
      exact affine
    · have unique : Relator.RightUnique fun r s =>
          fbRootInQlattice31bits ndebug p (.affineRoot r) invp basis = .ok (.affineRoot s) := by
        intro r s s' first second
        rw [first] at second
        cases second
        rfl
      rw [List.right_unique_forall₂' unique affine affine']
    · rintro ⟨r, member, s, projective⟩
      obtain ⟨s', affine'⟩ := exists_of_forall₂ affine member
      rw [affine'] at projective
      cases projective
  · rw [run]
    refine ⟨fun rIj => ⟨(fun same => by cases same), fun affine => ?_⟩, fun _ => rfl⟩
    obtain ⟨s, here⟩ := exists_of_forall₂ affine member
    exact absurd here (none s)

theorem fbRootInQlattice31bitsBatch_iff_nine :
    (∀ rIj, fbRootInQlattice31bitsBatch false 9 [4, 7] 3340530119 ⟨5, 1, -2, 3⟩ = .ok (some rIj) ↔
      List.Forall₂ (fun r s => fbRootInQlattice31bits false 9 (.affineRoot r) 3340530119 ⟨5, 1, -2, 3⟩ =
        .ok (.affineRoot s)) [4, 7] rIj) ∧
    ((∃ r ∈ [4, 7], ∃ s, fbRootInQlattice31bits false 9 (.affineRoot r) 3340530119 ⟨5, 1, -2, 3⟩ =
        .ok (.projectiveRoot s)) →
      fbRootInQlattice31bitsBatch false 9 [4, 7] 3340530119 ⟨5, 1, -2, 3⟩ = .ok none) :=
  fbRootInQlattice31bitsBatch_iff false (by decide) (by decide) (by decide) (by simp)

end CadoNfs.Sieve
