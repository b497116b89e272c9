import Mathlib

/-!
# PRAC bytecode

The interpreter of PRAC bytecode (`bytecode_prac_check_internal` of `sieve/ecm/bytecode.c`, and the same rules
in `ecm.c` and `pp1.c`) over any points that can be doubled and can be added when their difference is known,
and `bytecode_prac_compress`.
-/

namespace CadoNfs.Ecm

abbrev BytecodeElt := UInt8

-- In the patterns below these are 's', 'i', 'f' and 'F'.
abbrev pracSwap : BytecodeElt := 0x73
abbrev pracSubblockInit : BytecodeElt := 0x69
abbrev pracSubblockFinal : BytecodeElt := 0x66
abbrev pracBlockFinal : BytecodeElt := 0x46

structure Differential (α : Type*) where
  DBL : α → α
  dADD : α → α → α → Option α

-- `R[3]` and `R[4]` are written before they are read in each rule.
@[ext] structure Registers (α : Type*) where
  r0 : α
  r1 : α
  r2 : α

variable {α : Type*} (op : Differential α)

def pracStep (R : Registers α) : BytecodeElt → Option (Registers α)
  | 0x73 => some ⟨R.r1, R.r0, R.r2⟩
  | 0x69 => some ⟨op.DBL R.r0, R.r0, R.r0⟩
  | 0x66 => do
    let r0 ← op.dADD R.r0 R.r1 R.r2
    some { R with r0 }
  | 0x46 => do
    let r1 ← op.dADD R.r0 R.r1 R.r2
    some { R with r1 }
  | 1 => do
    let r3 ← op.dADD R.r0 R.r1 R.r2
    let r4 ← op.dADD r3 R.r0 R.r1
    let r1 ← op.dADD R.r1 r3 R.r0
    some ⟨r4, r1, R.r2⟩
  | 2 => do
    let r1 ← op.dADD R.r0 R.r1 R.r2
    some ⟨op.DBL R.r0, r1, R.r2⟩
  | 3 => do
    let r2 ← op.dADD R.r1 R.r0 R.r2
    some ⟨R.r0, r2, R.r1⟩
  | 4 => do
    let r1 ← op.dADD R.r1 R.r0 R.r2
    some ⟨op.DBL R.r0, r1, R.r2⟩
  | 5 => do
    let r2 ← op.dADD R.r2 R.r0 R.r1
    some ⟨op.DBL R.r0, R.r1, r2⟩
  | 6 => do
    let r3 := op.DBL R.r0
    let r4 ← op.dADD R.r0 R.r1 R.r2
    let r0 ← op.dADD r3 R.r0 R.r0
    let r2 ← op.dADD r3 r4 R.r2
    some ⟨r0, r2, R.r1⟩
  | 7 => do
    let r3 ← op.dADD R.r0 R.r1 R.r2
    let r1 ← op.dADD r3 R.r0 R.r1
    let r3 := op.DBL R.r0
    let r0 ← op.dADD R.r0 r3 R.r0
    some ⟨r0, r1, R.r2⟩
  | 8 => do
    let r3 ← op.dADD R.r0 R.r1 R.r2
    let r2 ← op.dADD R.r2 R.r0 R.r1
    let r1 := r3
    let r3 := op.DBL R.r0
    let r0 ← op.dADD R.r0 r3 R.r0
    some ⟨r0, r1, r2⟩
  | 9 => do
    let r2 ← op.dADD R.r2 R.r1 R.r0
    some ⟨R.r0, op.DBL R.r1, r2⟩
  | 10 => do
    let r1 ← op.dADD R.r0 R.r1 R.r2
    some ⟨op.DBL r1, r1, r1⟩
  | 11 => do
    let r2 ← op.dADD R.r1 R.r0 R.r2
    some ⟨r2, R.r0, R.r1⟩
  | 12 => do
    let r3 ← op.dADD R.r1 R.r0 R.r2
    let r2 ← op.dADD R.r0 r3 R.r1
    some ⟨op.DBL r2, r2, r2⟩
  | 13 => do
    let r3 := R.r1
    let r1 ← op.dADD R.r1 R.r0 R.r2
    let r0 ← op.dADD R.r0 r1 r3
    some ⟨r0, r1, R.r0⟩
  | _ => none

def pracInterpret : List BytecodeElt → Registers α → Option (Registers α)
  | [], _ => none
  | b :: bc, R => do
    let R ← pracStep op R b
    if b = pracBlockFinal then some R else pracInterpret bc R

def bytecodePracCheckInternal (bc : List BytecodeElt) (R : Registers α) : Option α :=
  if bc.head? = some pracSubblockInit then (pracInterpret op bc R).map Registers.r1 else none

def bytecodePracCompress : List BytecodeElt → List BytecodeElt
  | 3 :: 0x73 :: 3 :: 0x73 :: bc => 13 :: bytecodePracCompress bc
  | 3 :: 0x66 :: 0x69 :: bc => 12 :: bytecodePracCompress bc
  | 0x66 :: 0x69 :: bc => 10 :: bytecodePracCompress bc
  | 3 :: 0x73 :: bc => 11 :: bytecodePracCompress bc
  | b :: bc => b :: bytecodePracCompress bc
  | [] => []

theorem pracInterpret_compress (bc : List BytecodeElt) (R : Registers α) :
    pracInterpret op (bytecodePracCompress bc) R = pracInterpret op bc R := by
  induction bc using bytecodePracCompress.induct generalizing R with
  | case1 bc ih => simp [bytecodePracCompress, pracInterpret, pracStep, pracBlockFinal, Option.bind_assoc, ih]
  | case2 bc ih => simp [bytecodePracCompress, pracInterpret, pracStep, pracBlockFinal, Option.bind_assoc, ih]
  | case3 bc ih => simp [bytecodePracCompress, pracInterpret, pracStep, pracBlockFinal, Option.bind_assoc, ih]
  | case4 bc other ih =>
    rw [bytecodePracCompress]
    · simp [pracInterpret, pracStep, pracBlockFinal, Option.bind_assoc, ih]
    · exact other
  | case5 b bc _ _ _ _ ih =>
    rw [bytecodePracCompress]
    · simp only [pracInterpret, ih]
    all_goals assumption
  | case6 => rfl

attribute [local simp] pracStep

variable {op}

def Leads (op : Differential α) (bc : List BytecodeElt) (R R' : Registers α) : Prop :=
  ∀ rest, pracInterpret op (bc ++ rest) R = pracInterpret op rest R'

theorem Leads.refl (R : Registers α) : Leads op [] R R := fun _ => rfl

theorem Leads.single {b : BytecodeElt} {R R' : Registers α} (more : b ≠ pracBlockFinal)
    (step : pracStep op R b = some R') : Leads op [b] R R' := by
  intro rest
  rw [List.singleton_append, pracInterpret, step]
  exact if_neg more

theorem Leads.append {bc bc' : List BytecodeElt} {R R' R'' : Registers α} (first : Leads op bc R R')
    (second : Leads op bc' R' R'') : Leads op (bc ++ bc') R R'' := by
  intro rest
  rw [List.append_assoc, first, second]

/-! ## Multiples up to sign -/

/-- A multiple of the starting point stands for itself and its opposite, and two multiples have two
differences. -/
def multiples : Differential ℕ where
  DBL a := 2 * a
  dADD a b c :=
    if c = Nat.dist a b then some (a + b) else if c = a + b then some (Nat.dist a b) else none

def pair (a b : ℕ) : Registers ℕ := ⟨a, b, Nat.dist a b⟩

def Acts (b : BytecodeElt) (α β γ δ : ℕ) : Prop :=
  ∀ x y, 0 < x → 0 < y →
    pracStep multiples (pair x y) b = some (pair (α * x + β * y) (γ * x + δ * y))

theorem dADD_sum {a b c : ℕ} (difference : c = Nat.dist a b) : multiples.dADD a b c = some (a + b) :=
  if_pos difference

theorem dADD_difference {a b : ℕ} (pos : 0 < a) :
    multiples.dADD (Nat.dist a b) a b = some (Nat.dist (2 * a) b) := by
  by_cases le : b ≤ a
  · have sum : Nat.dist a b + a = Nat.dist (2 * a) b := by
      unfold Nat.dist
      omega
    rw [← sum]
    exact dADD_sum (by unfold Nat.dist; omega)
  · obtain ⟨c, rfl⟩ := Nat.exists_eq_add_of_lt (not_le.mp le)
    have first : Nat.dist a (a + c + 1) = c + 1 := by
      rw [Nat.dist_eq_sub_of_le (by omega)]
      omega
    have sum : a + c + 1 = Nat.dist a (a + c + 1) + a := by omega
    have difference : Nat.dist (Nat.dist a (a + c + 1)) a = Nat.dist (2 * a) (a + c + 1) := by
      rw [first, two_mul, Nat.add_assoc a c, Nat.dist_add_add_left, Nat.dist_comm]
    have other : a + c + 1 ≠ Nat.dist (Nat.dist a (a + c + 1)) a := by
      rw [first, Nat.dist]
      omega
    rw [← difference]
    exact (if_neg other).trans (if_pos sum)

theorem some_pair {a b c a' b' : ℕ} (left : a = a') (right : b = b') (difference : c = Nat.dist a' b') :
    some (⟨a, b, c⟩ : Registers ℕ) = some (pair a' b') := by
  rw [left, right, difference]
  rfl

theorem dist_eq {a b c : ℕ} (sum : a = b + c ∨ b = a + c) : c = Nat.dist a b := by
  unfold Nat.dist
  omega

theorem acts_swap : Acts pracSwap 0 1 1 0 := by
  intro x y _ _
  exact some_pair (show y = _ by omega) (show x = _ by omega) (by simp [pair, Nat.dist_comm])

theorem acts_one : Acts 1 2 1 1 2 := by
  intro x y _ _
  have r3 : multiples.dADD x y (Nat.dist x y) = some (x + y) := dADD_sum rfl
  have r4 : multiples.dADD (x + y) x y = some (x + y + x) := dADD_sum (dist_eq (by omega))
  have r1 : multiples.dADD y (x + y) x = some (y + (x + y)) := dADD_sum (dist_eq (by omega))
  simp only [pracStep, pair, r3, r4, r1, Option.bind_eq_bind, Option.bind_some]
  exact some_pair (by omega) (by omega) (by unfold Nat.dist; omega)

theorem acts_two : Acts 2 2 0 1 1 := by
  intro x y _ _
  have r1 : multiples.dADD x y (Nat.dist x y) = some (x + y) := dADD_sum rfl
  simp only [pracStep, pair, r1, Option.bind_eq_bind, Option.bind_some]
  exact some_pair (by simp [multiples]) (by omega) (by unfold Nat.dist; omega)

theorem acts_three : Acts 3 1 0 1 1 := by
  intro x y _ _
  have r2 : multiples.dADD y x (Nat.dist x y) = some (y + x) := dADD_sum (Nat.dist_comm x y)
  simp only [pracStep, pair, r2, Option.bind_eq_bind, Option.bind_some]
  exact some_pair (by omega) (by omega) (by unfold Nat.dist; omega)

theorem acts_four : Acts 4 2 0 1 1 := by
  intro x y _ _
  have r1 : multiples.dADD y x (Nat.dist x y) = some (y + x) := dADD_sum (Nat.dist_comm x y)
  simp only [pracStep, pair, r1, Option.bind_eq_bind, Option.bind_some]
  exact some_pair (by simp [multiples]) (by omega) (by unfold Nat.dist; omega)

theorem acts_five : Acts 5 2 0 0 1 := by
  intro x y xpos _
  have r2 : multiples.dADD (Nat.dist x y) x y = some (Nat.dist (2 * x) y) := dADD_difference xpos
  simp only [pracStep, pair, r2, Option.bind_eq_bind, Option.bind_some]
  exact some_pair (by simp [multiples]) (by omega) (by simp)

theorem acts_six : Acts 6 3 0 3 1 := by
  intro x y _ _
  have r4 : multiples.dADD x y (Nat.dist x y) = some (x + y) := dADD_sum rfl
  have r0 : multiples.dADD (2 * x) x x = some (2 * x + x) := dADD_sum (dist_eq (by omega))
  have r2 : multiples.dADD (2 * x) (x + y) (Nat.dist x y) = some (2 * x + (x + y)) :=
    dADD_sum (by unfold Nat.dist; omega)
  have double : multiples.DBL x = 2 * x := rfl
  simp only [pracStep, pair, double, r4, r0, r2, Option.bind_eq_bind, Option.bind_some]
  exact some_pair (by omega) (by omega) (by unfold Nat.dist; omega)

theorem acts_seven : Acts 7 3 0 2 1 := by
  intro x y _ _
  have r3 : multiples.dADD x y (Nat.dist x y) = some (x + y) := dADD_sum rfl
  have r1 : multiples.dADD (x + y) x y = some (x + y + x) := dADD_sum (dist_eq (by omega))
  have r0 : multiples.dADD x (2 * x) x = some (x + 2 * x) := dADD_sum (dist_eq (by omega))
  have double : multiples.DBL x = 2 * x := rfl
  simp only [pracStep, pair, double, r3, r1, r0, Option.bind_eq_bind, Option.bind_some]
  exact some_pair (by omega) (by omega) (by unfold Nat.dist; omega)

theorem acts_eight : Acts 8 3 0 1 1 := by
  intro x y xpos _
  have r3 : multiples.dADD x y (Nat.dist x y) = some (x + y) := dADD_sum rfl
  have r2 : multiples.dADD (Nat.dist x y) x y = some (Nat.dist (2 * x) y) := dADD_difference xpos
  have r0 : multiples.dADD x (2 * x) x = some (x + 2 * x) := dADD_sum (dist_eq (by omega))
  have double : multiples.DBL x = 2 * x := rfl
  simp only [pracStep, pair, double, r3, r2, r0, Option.bind_eq_bind, Option.bind_some]
  exact some_pair (by omega) (by omega) (by unfold Nat.dist; omega)

theorem acts_nine : Acts 9 1 0 0 2 := by
  intro x y _ ypos
  have r2 : multiples.dADD (Nat.dist x y) y x = some (Nat.dist (2 * y) x) := by
    rw [Nat.dist_comm x y]
    exact dADD_difference ypos
  simp only [pracStep, pair, r2, Option.bind_eq_bind, Option.bind_some]
  exact some_pair (by omega) (by simp [multiples]) (by simp [Nat.dist_comm])

end CadoNfs.Ecm
