import CadoNfs.Ecm.PracBytecode

/-!
# The registers of a PRAC block

`bytecode_prac_check_internal` of `sieve/ecm/bytecode.c` with its temporary registers, and
`bytecode_prac_compress` in the array of the encoder.
-/

namespace CadoNfs.Ecm

structure PracArith (α : Type*) where
  DBL : α → α
  dADD : α → α → α → α

deriving instance DecidableEq for Registers

structure PracPoints (α : Type*) extends Registers α where
  r3 : α
  r4 : α
  deriving DecidableEq

variable {α ρ σ : Type*} (op : PracArith α)

def PracArith.differential : Differential α := ⟨op.DBL, fun a b c => some (op.dADD a b c)⟩

def pointsStep (R : PracPoints α) : BytecodeElt → Option (PracPoints α)
  | 0x73 => some { R with r0 := R.r1, r1 := R.r0 }
  | 0x69 => some { R with r0 := op.DBL R.r0, r1 := R.r0, r2 := R.r0 }
  | 0x66 => some { R with r0 := op.dADD R.r0 R.r1 R.r2 }
  | 0x46 => some { R with r1 := op.dADD R.r0 R.r1 R.r2 }
  | 1 =>
    let r3 := op.dADD R.r0 R.r1 R.r2
    let r4 := op.dADD r3 R.r0 R.r1
    some { R with r0 := r4, r1 := op.dADD R.r1 r3 R.r0, r3, r4 }
  | 2 => some { R with r0 := op.DBL R.r0, r1 := op.dADD R.r0 R.r1 R.r2 }
  | 3 => some { R with r1 := op.dADD R.r1 R.r0 R.r2, r2 := R.r1 }
  | 4 => some { R with r0 := op.DBL R.r0, r1 := op.dADD R.r1 R.r0 R.r2 }
  | 5 => some { R with r0 := op.DBL R.r0, r2 := op.dADD R.r2 R.r0 R.r1 }
  | 6 =>
    let r3 := op.DBL R.r0
    let r4 := op.dADD R.r0 R.r1 R.r2
    some ⟨⟨op.dADD r3 R.r0 R.r0, op.dADD r3 r4 R.r2, R.r1⟩, r3, r4⟩
  | 7 =>
    let r1 := op.dADD (op.dADD R.r0 R.r1 R.r2) R.r0 R.r1
    let r3 := op.DBL R.r0
    some { R with r0 := op.dADD R.r0 r3 R.r0, r1, r3 }
  | 8 =>
    let r1 := op.dADD R.r0 R.r1 R.r2
    let r2 := op.dADD R.r2 R.r0 R.r1
    let r3 := op.DBL R.r0
    some { R with r0 := op.dADD R.r0 r3 R.r0, r1, r2, r3 }
  | 9 => some { R with r1 := op.DBL R.r1, r2 := op.dADD R.r2 R.r1 R.r0 }
  | 10 =>
    let r1 := op.dADD R.r0 R.r1 R.r2
    some { R with r0 := op.DBL r1, r1, r2 := r1 }
  | 11 => some { R with r0 := op.dADD R.r1 R.r0 R.r2, r1 := R.r0, r2 := R.r1 }
  | 12 =>
    let r3 := op.dADD R.r1 R.r0 R.r2
    let r2 := op.dADD R.r0 r3 R.r1
    some { R with r0 := op.DBL r2, r1 := r2, r2, r3 }
  | 13 =>
    let r3 := R.r1
    let r1 := op.dADD R.r1 R.r0 R.r2
    some { R with r0 := op.dADD R.r0 r1 r3, r1, r2 := R.r0, r3 }
  | _ => none

inductive PracEffect (ρ : Type*)
  | finished (R : ρ)
  | error (R : ρ)
  | running (R : ρ)
  deriving DecidableEq

namespace PracEffect

def map (f : ρ → σ) : PracEffect ρ → PracEffect σ
  | finished R => finished (f R)
  | error R => error (f R)
  | running R => running (f R)

end PracEffect

def pracRun (step : ρ → BytecodeElt → Option ρ) : List BytecodeElt → ρ → PracEffect ρ
  | [], R => .running R
  | b :: bc, R => match step R b with
    | none => .error R
    | some R => if b = pracBlockFinal then .finished R else pracRun step bc R

/-- `bytecode_prac_check_internal`: the first byte is tested, but it is not a special case of the loop. -/
def checkPoints (bc : List BytecodeElt) (R : PracPoints α) : PracEffect (PracPoints α) :=
  if bc.head? = some pracSubblockInit then pracRun (pointsStep op) bc R else .error R

/-- Bytes up to `j` are written, bytes from `i` on are still to be read. -/
def compressLoop (len : ℕ) : ℕ → ℕ → ℕ → List BytecodeElt → List BytecodeElt × ℕ
  | 0, _, j, bc => (bc, j)
  | fuel + 1, i, j, bc =>
    if i < len then
      if i + 3 < len ∧ bc.getD i 0 = 3 ∧ bc.getD (i + 1) 0 = pracSwap ∧ bc.getD (i + 2) 0 = 3 ∧
          bc.getD (i + 3) 0 = pracSwap then
        compressLoop len fuel (i + 3 + 1) (j + 1) (bc.set j 13)
      else if i + 2 < len ∧ bc.getD i 0 = 3 ∧ bc.getD (i + 1) 0 = pracSubblockFinal ∧
          bc.getD (i + 2) 0 = pracSubblockInit then
        compressLoop len fuel (i + 2 + 1) (j + 1) (bc.set j 12)
      else if i + 1 < len ∧ bc.getD i 0 = pracSubblockFinal ∧ bc.getD (i + 1) 0 = pracSubblockInit then
        compressLoop len fuel (i + 1 + 1) (j + 1) (bc.set j 10)
      else if i + 1 < len ∧ bc.getD i 0 = 3 ∧ bc.getD (i + 1) 0 = pracSwap then
        compressLoop len fuel (i + 1 + 1) (j + 1) (bc.set j 11)
      else compressLoop len fuel (i + 1) (j + 1) (bc.set j (bc.getD i 0))
    else (bc, j)

def compressArray (bc : List BytecodeElt) : List BytecodeElt :=
  let (bc, j) := compressLoop bc.length bc.length 0 0 bc
  bc.take j

theorem take_set_succ {bc : List BytecodeElt} {j : ℕ} (lt : j < bc.length) (b : BytecodeElt) :
    (bc.set j b).take (j + 1) = bc.take j ++ [b] := by
  rw [List.take_add_one, List.take_set_of_le le_rfl, List.getElem?_set_self lt]
  rfl

theorem drop_succ {bc : List BytecodeElt} {i : ℕ} (lt : i < bc.length) :
    bc.drop i = bc.getD i 0 :: bc.drop (i + 1) := by
  rw [List.drop_eq_getElem_cons lt, List.getD_eq_getElem _ _ lt]

theorem of_drop_eq_cons {bc rest : List BytecodeElt} {i : ℕ} {b : BytecodeElt} (eq : bc.drop i = b :: rest) :
    i < bc.length ∧ bc.getD i 0 = b ∧ bc.drop (i + 1) = rest := by
  have lt : i < bc.length := by
    by_contra above
    rw [List.drop_eq_nil_of_le (not_lt.mp above)] at eq
    cases eq
  rw [drop_succ lt] at eq
  obtain ⟨here, after⟩ := List.cons.inj eq
  exact ⟨lt, here, after⟩

theorem compressLoop_eq {len fuel i j : ℕ} {bc : List BytecodeElt} (length : bc.length = len) (le : j ≤ i)
    (enough : len ≤ i + fuel) :
    (compressLoop len fuel i j bc).1.take (compressLoop len fuel i j bc).2 =
      bc.take j ++ bytecodePracCompress (bc.drop i) := by
  induction fuel generalizing i j bc with
  | zero =>
    rw [List.drop_eq_nil_of_le (by omega), bytecodePracCompress, List.append_nil]
    rfl
  | succ fuel ih =>
    rw [compressLoop]
    by_cases more : i < len
    swap
    · rw [if_neg more, List.drop_eq_nil_of_le (by omega), bytecodePracCompress, List.append_nil]
    rw [if_pos more]
    have written (b : BytecodeElt) {k : ℕ} (after : i < k) :
        (compressLoop len fuel k (j + 1) (bc.set j b)).1.take (compressLoop len fuel k (j + 1) (bc.set j b)).2 =
          bc.take j ++ b :: bytecodePracCompress (bc.drop k) := by
      rw [ih ((List.length_set ..).trans length) (by omega) (by omega), take_set_succ (by omega),
        List.drop_set_of_lt (by omega), List.append_assoc]
      rfl
    have next {k : ℕ} (lt : k < len) : bc.drop k = bc.getD k 0 :: bc.drop (k + 1) := drop_succ (length ▸ lt)
    have swap_of {k : ℕ} {rest : List BytecodeElt} (eq : bc.drop k = 3 :: pracSwap :: rest) :
        k + 1 < len ∧ bc.getD k 0 = 3 ∧ bc.getD (k + 1) 0 = pracSwap ∧ bc.drop (k + 2) = rest := by
      obtain ⟨-, first, eq⟩ := of_drop_eq_cons eq
      obtain ⟨lt, second, eq⟩ := of_drop_eq_cons eq
      exact ⟨length ▸ lt, first, second, eq⟩
    split_ifs with four three two two'
    · obtain ⟨lt, b0, b1, b2, b3⟩ := four
      rw [written 13 (by omega), next more, next (show i + 1 < len by omega), next (show i + 1 + 1 < len by omega),
        next (show i + 1 + 1 + 1 < len by omega), b0, b1, b2, b3, bytecodePracCompress]
    · obtain ⟨lt, b0, b1, b2⟩ := three
      rw [written 12 (by omega), next more, next (show i + 1 < len by omega), next (show i + 1 + 1 < len by omega),
        b0, b1, b2, bytecodePracCompress]
    · obtain ⟨lt, b0, b1⟩ := two
      rw [written 10 (by omega), next more, next (show i + 1 < len by omega), b0, b1, bytecodePracCompress]
    · obtain ⟨lt, b0, b1⟩ := two'
      rw [written 11 (by omega), next more, next (show i + 1 < len by omega), b0, b1, bytecodePracCompress]
      intro rest eq
      obtain ⟨lt', b2, b3, -⟩ := swap_of eq
      exact four ⟨lt', b0, b1, b2, b3⟩
    · rw [written _ (by omega), next more, bytecodePracCompress]
      · intro rest b0 eq
        obtain ⟨-, b1, eq⟩ := of_drop_eq_cons eq
        obtain ⟨lt, b2, b3, -⟩ := swap_of eq
        exact four ⟨lt, b0, b1, b2, b3⟩
      · intro rest b0 eq
        obtain ⟨-, b1, eq⟩ := of_drop_eq_cons eq
        obtain ⟨lt, b2, -⟩ := of_drop_eq_cons eq
        exact three ⟨length ▸ lt, b0, b1, b2⟩
      · intro rest b0 eq
        obtain ⟨lt, b1, -⟩ := of_drop_eq_cons eq
        exact two ⟨length ▸ lt, b0, b1⟩
      · intro rest b0 eq
        obtain ⟨lt, b1, -⟩ := of_drop_eq_cons eq
        exact two' ⟨length ▸ lt, b0, b1⟩

theorem compressArray_eq (bc : List BytecodeElt) : compressArray bc = bytecodePracCompress bc :=
  compressLoop_eq rfl le_rfl (Nat.le_add_left _ _)

variable {op}

theorem pointsStep_registers (R : PracPoints α) (b : BytecodeElt) :
    (pointsStep op R b).map PracPoints.toRegisters = pracStep op.differential R.toRegisters b := by
  unfold pointsStep
  split
  case h_18 =>
    unfold pracStep
    split
    case h_18 => rfl
    all_goals exact absurd rfl ‹_›
  all_goals rfl

theorem pracRun_map {step : ρ → BytecodeElt → Option ρ} {step' : σ → BytecodeElt → Option σ} {f : ρ → σ}
    (same : ∀ R b, (step R b).map f = step' (f R) b) (bc : List BytecodeElt) (R : ρ) :
    (pracRun step bc R).map f = pracRun step' bc (f R) := by
  induction bc generalizing R with
  | nil => rfl
  | cons b bc ih =>
    unfold pracRun
    rw [← same]
    cases step R b with
    | none => rfl
    | some R' =>
      simp only [Option.map_some]
      split_ifs
      · rfl
      · exact ih R'

theorem pracRun_compress (bc : List BytecodeElt) (R : Registers α) :
    pracRun (pracStep op.differential) (bytecodePracCompress bc) R = pracRun (pracStep op.differential) bc R := by
  induction bc using bytecodePracCompress.induct generalizing R with
  | case1 bc ih => exact ih _
  | case2 bc ih => exact ih _
  | case3 bc ih => exact ih _
  | case4 bc other ih =>
    rw [bytecodePracCompress]
    · exact ih _
    · exact other
  | case5 b bc _ _ _ _ ih =>
    rw [bytecodePracCompress]
    · simp only [pracRun, ih]
    all_goals assumption
  | case6 => rfl

theorem starts_compress (bc : List BytecodeElt) :
    (bytecodePracCompress bc).head? = some pracSubblockInit ↔ bc.head? = some pracSubblockInit := by
  have other {b b' : BytecodeElt} {l l' : List BytecodeElt} (ne : b ≠ pracSubblockInit) (ne' : b' ≠ pracSubblockInit) :
      (b :: l).head? = some pracSubblockInit ↔ (b' :: l').head? = some pracSubblockInit :=
    iff_of_false (fun same => ne (Option.some.inj same)) fun same => ne' (Option.some.inj same)
  cases bc using bytecodePracCompress.fun_cases with
  | case1 bc | case2 bc | case3 bc =>
    rw [bytecodePracCompress]
    exact other (by decide) (by decide)
  | case4 bc more =>
    rw [bytecodePracCompress]
    · exact other (by decide) (by decide)
    · exact more
  | case5 b bc =>
    rw [bytecodePracCompress]
    · rfl
    all_goals assumption
  | case6 => rfl

/-- The compressed bytes lead to the same points, whatever the temporary ones are. -/
theorem compressArray_effect (op : PracArith α) (bc : List BytecodeElt) (R : Registers α) (r3 r4 r3' r4' : α) :
    (pracRun (pointsStep op) (compressArray bc) ⟨R, r3, r4⟩).map PracPoints.toRegisters =
        (pracRun (pointsStep op) bc ⟨R, r3', r4'⟩).map PracPoints.toRegisters ∧
      (checkPoints op (compressArray bc) ⟨R, r3, r4⟩).map PracPoints.toRegisters =
        (checkPoints op bc ⟨R, r3', r4'⟩).map PracPoints.toRegisters := by
  have run : (pracRun (pointsStep op) (compressArray bc) ⟨R, r3, r4⟩).map PracPoints.toRegisters =
      (pracRun (pointsStep op) bc ⟨R, r3', r4'⟩).map PracPoints.toRegisters := by
    rw [compressArray_eq, pracRun_map pointsStep_registers, pracRun_map pointsStep_registers, pracRun_compress]
  refine ⟨run, ?_⟩
  unfold checkPoints
  by_cases starts : bc.head? = some pracSubblockInit
  · rw [if_pos starts, if_pos (by rwa [compressArray_eq, starts_compress])]
    exact run
  · rw [if_neg starts, if_neg (by rwa [compressArray_eq, starts_compress])]
    rfl

def integers : PracArith ℤ := ⟨fun a => 2 * a, fun a b _ => a + b⟩

theorem temporaries_differ : ¬ ∀ (bc : List BytecodeElt) (R : PracPoints ℤ),
    pracRun (pointsStep integers) (compressArray bc) R = pracRun (pointsStep integers) bc R := by
  intro same
  have differ := same [pracSubblockInit, 3, pracSwap, 3, pracSwap, pracBlockFinal] ⟨⟨1, 0, 0⟩, 0, 0⟩
  revert differ
  decide

end CadoNfs.Ecm
