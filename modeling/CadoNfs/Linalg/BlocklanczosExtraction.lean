import CadoNfs.Lib.BitRows
import CadoNfs.Lib.RowReduction
import Mathlib.Algebra.CharP.Two

/-!
# The extraction step of block Lanczos

`extraction_step` of `linalg/bwc/blocklanczos_extraction.cpp` reduces a symmetric 64 by 64 bit matrix in a priority
order, without exchanging rows, and reads the inverse of a maximal minor off the rows of the transformation.
-/

namespace CadoNfs.Linalg.BlocklanczosExtraction

open Matrix CadoNfs.Lib.BitRows CadoNfs.Lib.RowReduction

abbrev Words := Fin 64 → BitVec 64

def store {α : Type} (a : Fin 64 → α) (pos : Nat) (value : α) : Fin 64 → α := fun q => if q.val = pos then value else a q

structure Priority where
  order : Fin 64 → Fin 64
  o : Nat
  z : Nat

def priorityStep (S : BitVec 64) (list : Priority) (i : Fin 64) : Priority :=
  if S &&& mask i ≠ 0 then { list with order := store list.order (list.o - 1) i, o := list.o - 1 }
  else { list with order := store list.order list.z i, z := list.z + 1 }

def priorityList (S : BitVec 64) : Fin 64 → Fin 64 :=
  ((List.finRange 64).reverse.foldl (priorityStep S) ⟨fun _ => 0, 64, 0⟩).order

structure Elimination where
  A : Words
  B0 : Words
  T : BitVec 64
  reorder : Fin 64 → Option (Fin 64)

def spread (v : BitVec 64) : BitVec 64 := ~~~ (- (if v = 0 then 1 else 0))

variable (order : Fin 64 → Fin 64)

def findPivot (st : Elimination) (mj : BitVec 64) : Option (Fin 64) :=
  (List.finRange 64).find? fun i => decide (st.T &&& mask (order i) = 0 ∧ st.A (order i) &&& mj ≠ 0)

def addRow (p : Fin 64) (mj : BitVec 64) (st : Elimination) (i : Fin 64) : Elimination :=
  if i = p then st
  else
    let oi := order i
    let op := order p
    let x := spread (st.A oi &&& mj)
    { st with
      B0 := Function.update st.B0 oi (st.B0 oi ^^^ (st.B0 op &&& x))
      A := Function.update st.A oi (st.A oi ^^^ (st.A op &&& x)) }

/-- One turn of the loop on `j`; `none` is a failed `ASSERT_ALWAYS`. -/
def columnStep (st : Elimination) (j : Fin 64) : Option Elimination :=
  let oj := order j
  let mj := mask oj
  match findPivot order st mj with
  | none => some st
  | some p =>
    let op := order p
    let mp := mask op
    if st.T &&& mp ≠ 0 then none
    else some ((List.finRange 64).foldl (addRow order p mj)
      { st with reorder := Function.update st.reorder op (some oj), T := st.T ||| mp })

def writeRow (st : Elimination) (B : Words) (i : Fin 64) : Words :=
  match st.reorder i with
  | some c => Function.update B c (st.B0 i &&& st.T)
  | none => B

def copyOut (st : Elimination) : Words := (List.finRange 64).foldl (writeRow st) fun _ => 0

def extractionStep (A : Words) (S : BitVec 64) : Option (BitVec 64 × Words × Words) := do
  let st ← (List.finRange 64).foldlM (columnStep (priorityList S)) ⟨A, mask, 0, fun _ => none⟩
  return (st.T, copyOut st, st.A)

/-! ### Words as rows over the field of two elements -/

def toMatrix (R : Words) : Matrix (Fin 64) (Fin 64) (ZMod 2) := fun i j => bit ((R i).getLsbD j)

def support (T : BitVec 64) : Finset (Fin 64) := Finset.univ.filter fun i => T.getLsbD i = true

def diagonalOf (T : BitVec 64) : Matrix (Fin 64) (Fin 64) (ZMod 2) := diagonal fun i => bit (T.getLsbD i)

theorem mem_support {T : BitVec 64} {i : Fin 64} : i ∈ support T ↔ T.getLsbD i = true := by
  rw [support, Finset.mem_filter, and_iff_right (Finset.mem_univ i)]

theorem support_or_mask (T : BitVec 64) (i : Fin 64) : support (T ||| mask i) = insert i (support T) := by
  ext k
  rw [Finset.mem_insert, mem_support, mem_support, BitVec.getLsbD_or, getLsbD_mask, Bool.or_eq_true, decide_eq_true_iff,
    or_comm]

theorem spread_and_mask (v : BitVec 64) (i k : Fin 64) : (spread (v &&& mask i)).getLsbD k = v.getLsbD i := by
  cases set : v.getLsbD i with
  | false => simp [spread, and_mask_eq_zero.mpr set]
  | true =>
    have ones : ~~~ (- (0 : BitVec 64)) = BitVec.allOnes 64 := by decide
    rw [spread, if_neg (and_mask_ne_zero.mpr set), ones, BitVec.getLsbD_allOnes]
    exact decide_eq_true k.isLt

theorem toMatrix_mask : toMatrix mask = 1 := by
  ext i k
  rw [toMatrix, getLsbD_mask, one_apply]
  by_cases same : i = k
  · simp [same]
  · simp [same, Ne.symm same]

/-! ### The priority list -/

def Precedes (k i : Fin 64) : Prop := ∃ q p, q < p ∧ order q = k ∧ order p = i

variable {order}

theorem precedes_order (inj : Function.Injective order) {q p : Fin 64} :
    Precedes order (order q) (order p) ↔ q < p := by
  constructor
  · rintro ⟨q', p', less, left, right⟩
    rwa [inj left, inj right] at less
  · exact fun less => ⟨q, p, less, rfl, rfl⟩

theorem precedes_irrefl (inj : Function.Injective order) (i : Fin 64) : ¬ Precedes order i i := by
  rintro ⟨q, p, less, left, right⟩
  rw [inj (left.trans right.symm)] at less
  exact lt_irrefl p less

theorem precedes_trans (inj : Function.Injective order) (i j k : Fin 64) (left : Precedes order i j)
    (right : Precedes order j k) : Precedes order i k := by
  obtain ⟨q, p, less, rfl, rfl⟩ := left
  obtain ⟨p', r, later, same, rfl⟩ := right
  rw [inj same] at later
  exact ⟨q, r, less.trans later, rfl, rfl⟩

theorem store_self {α : Type} (a : Fin 64 → α) (q : Fin 64) (value : α) : store a q value q = value := if_pos rfl

theorem store_of_ne {α : Type} (a : Fin 64 → α) {pos : Nat} {q : Fin 64} (apart : q.val ≠ pos) (value : α) :
    store a pos value q = a q := if_neg apart

theorem store_injOn {α : Type} {a : Fin 64 → α} {P : Fin 64 → Prop} {pos : Nat} {value : α}
    (old : ∀ p q, P p → P q → a p = a q → p = q) (new : ∀ q, P q → a q ≠ value) {p q : Fin 64}
    (left : p.val = pos ∨ P p) (right : q.val = pos ∨ P q) (same : store a pos value p = store a pos value q) :
    p = q := by
  by_cases here_p : p.val = pos <;> by_cases here_q : q.val = pos
  · exact Fin.ext (here_p.trans here_q.symm)
  · rw [← here_p, store_self, store_of_ne _ (here_p ▸ here_q)] at same
    exact (new q (right.resolve_left here_q) same.symm).elim
  · rw [← here_q, store_self, store_of_ne _ (here_q ▸ here_p)] at same
    exact (new p (left.resolve_left here_p) same).elim
  · rw [store_of_ne _ here_p, store_of_ne _ here_q] at same
    exact old p q (left.resolve_left here_p) (right.resolve_left here_q) same

structure Filled (S : BitVec 64) (i : Nat) (list : Priority) : Prop where
  room : list.z + i = list.o
  bound : list.o ≤ 64
  outside : ∀ q : Fin 64, q.val < list.z → i ≤ (list.order q).val ∧ S.getLsbD (list.order q) = false
  inside : ∀ q : Fin 64, list.o ≤ q.val → i ≤ (list.order q).val ∧ S.getLsbD (list.order q) = true
  inj : ∀ p q : Fin 64, (p.val < list.z ∨ list.o ≤ p.val) → (q.val < list.z ∨ list.o ≤ q.val) →
    list.order p = list.order q → p = q

theorem Filled.step {S : BitVec 64} {list : Priority} {i : Fin 64} (filled : Filled S (i.val + 1) list) :
    Filled S i (priorityStep S list i) := by
  have room := filled.room
  have bound := filled.bound
  have above : ∀ q : Fin 64, (q.val < list.z ∨ list.o ≤ q.val) → list.order q ≠ i := by
    intro q old same
    have low : i.val + 1 ≤ (list.order q).val := by
      cases old with
      | inl front => exact (filled.outside q front).1
      | inr back => exact (filled.inside q back).1
    rw [same] at low
    omega
  rw [priorityStep]
  split
  case isTrue set =>
    rw [and_mask_ne_zero] at set
    have here : (⟨list.o - 1, by omega⟩ : Fin 64).val = list.o - 1 := rfl
    refine ⟨by dsimp only; omega, by dsimp only; omega, ?_, ?_, ?_⟩
    all_goals dsimp only
    · intro q front
      rw [store_of_ne _ (by omega)]
      exact ⟨by have := (filled.outside q front).1; omega, (filled.outside q front).2⟩
    · intro q back
      by_cases new : q.val = list.o - 1
      · rw [← new, store_self]
        exact ⟨le_rfl, set⟩
      · rw [store_of_ne _ new]
        have old := filled.inside q (by omega)
        exact ⟨by omega, old.2⟩
    · intro p q old_p old_q same
      exact store_injOn filled.inj above (by omega) (by omega) same
  case isFalse clear =>
    rw [not_not, and_mask_eq_zero] at clear
    refine ⟨by dsimp only; omega, bound, ?_, ?_, ?_⟩
    all_goals dsimp only
    · intro q front
      by_cases new : q.val = list.z
      · rw [← new, store_self]
        exact ⟨le_rfl, clear⟩
      · rw [store_of_ne _ new]
        have old := filled.outside q (by omega)
        exact ⟨by omega, old.2⟩
    · intro q back
      rw [store_of_ne _ (by omega)]
      exact ⟨by have := (filled.inside q back).1; omega, (filled.inside q back).2⟩
    · intro p q old_p old_q same
      exact store_injOn filled.inj above (by omega) (by omega) same

theorem Filled.run {S : BitVec 64} {list : Priority} {is : List (Fin 64)} {i : Nat}
    (counts : is.map Fin.val = (List.range i).reverse) (filled : Filled S i list) :
    Filled S 0 (is.foldl (priorityStep S) list) := by
  induction is generalizing i list with
  | nil =>
    have zero : i = 0 := by simpa using congrArg List.length counts.symm
    rwa [← zero]
  | cons head rest ih =>
    cases i with
    | zero => exact (List.cons_ne_nil _ _ counts).elim
    | succ i =>
      rw [List.range_succ, List.reverse_append, List.reverse_singleton, List.singleton_append, List.map_cons,
        List.cons.injEq] at counts
      rw [← counts.1] at filled
      rw [List.foldl_cons]
      refine ih counts.2 ?_
      rw [← counts.1]
      exact filled.step

theorem priorityList_filled (S : BitVec 64) : ∃ list, list.order = priorityList S ∧ Filled S 0 list := by
  refine ⟨_, rfl, Filled.run (i := 64) ?_ ⟨rfl, le_rfl, ?_, ?_, ?_⟩⟩
  · rw [List.map_reverse, List.map_coe_finRange_eq_range]
  · exact fun q front => (Nat.not_lt_zero _ front).elim
  · exact fun q back => (Nat.not_le_of_lt q.isLt back).elim
  · exact fun p q old _ => (old.elim (Nat.not_lt_zero _) (Nat.not_le_of_lt p.isLt)).elim

theorem priorityList_bijective (S : BitVec 64) : Function.Bijective (priorityList S) := by
  obtain ⟨list, same, filled⟩ := priorityList_filled S
  refine Finite.injective_iff_bijective.mp fun p q equal => ?_
  rw [← same] at equal
  have room := filled.room
  exact filled.inj p q (by omega) (by omega) equal

theorem priorityList_outside_first {S : BitVec 64} {k i : Fin 64} (earlier : Precedes (priorityList S) k i)
    (outside : S.getLsbD i = false) : S.getLsbD k = false := by
  obtain ⟨list, same, filled⟩ := priorityList_filled S
  obtain ⟨q, p, less, rfl, rfl⟩ := earlier
  rw [← same] at outside ⊢
  have room := filled.room
  by_cases front : p.val < list.z
  · exact (filled.outside q (by omega)).2
  · rw [(filled.inside p (by omega)).2] at outside
    exact (Bool.noConfusion outside)

/-! ### One column -/

theorem addRow_foldl (inj : Function.Injective order) (p : Fin 64) (mj : BitVec 64) (is : List (Fin 64))
    (nodup : is.Nodup) (st : Elimination) :
    (is.foldl (addRow order p mj) st).T = st.T ∧ (is.foldl (addRow order p mj) st).reorder = st.reorder ∧
    (∀ r, (is.foldl (addRow order p mj) st).A r =
      if r ∈ is.map order ∧ r ≠ order p then st.A r ^^^ (st.A (order p) &&& spread (st.A r &&& mj)) else st.A r) ∧
    ∀ r, (is.foldl (addRow order p mj) st).B0 r =
      if r ∈ is.map order ∧ r ≠ order p then st.B0 r ^^^ (st.B0 (order p) &&& spread (st.A r &&& mj)) else st.B0 r := by
  induction is generalizing st with
  | nil => simp
  | cons i rest ih =>
    obtain ⟨fresh, nodup⟩ := List.nodup_cons.mp nodup
    obtain ⟨sameT, sameReorder, rowsA, rowsB⟩ := ih nodup (addRow order p mj st i)
    rw [List.foldl_cons, sameT, sameReorder]
    by_cases pivot : i = p
    · have unchanged : addRow order p mj st i = st := if_pos pivot
      have skipped : ∀ r, r ∈ (i :: rest).map order ∧ r ≠ order p ↔ r ∈ rest.map order ∧ r ≠ order p := by
        intro r
        rw [List.map_cons, List.mem_cons, pivot]
        tauto
      rw [unchanged] at rowsA rowsB ⊢
      refine ⟨rfl, rfl, fun r => ?_, fun r => ?_⟩
      · rw [rowsA r]
        simp only [skipped r]
      · rw [rowsB r]
        simp only [skipped r]
    · have apart : order i ≠ order p := fun same => pivot (inj same)
      have absent : order i ∉ rest.map order := by
        rw [List.mem_map]
        rintro ⟨k, member, same⟩
        exact fresh (inj same ▸ member)
      have others : ∀ r, r ≠ order i →
          (r ∈ (i :: rest).map order ∧ r ≠ order p ↔ r ∈ rest.map order ∧ r ≠ order p) := by
        intro r other
        rw [List.map_cons, List.mem_cons, or_iff_right other]
      have here : order i ∈ (i :: rest).map order ∧ order i ≠ order p := ⟨List.mem_cons_self, apart⟩
      rw [addRow, if_neg pivot] at rowsA rowsB ⊢
      dsimp only at rowsA rowsB ⊢
      refine ⟨rfl, rfl, fun r => ?_, fun r => ?_⟩
      · rw [rowsA r, Function.update_of_ne apart.symm]
        by_cases same : r = order i
        · rw [same, if_pos here, if_neg fun found => absent found.1, Function.update_self]
        · rw [Function.update_of_ne same]
          simp only [others r same]
      · rw [rowsB r, Function.update_of_ne apart.symm]
        by_cases same : r = order i
        · rw [same, if_pos here, if_neg fun found => absent found.1, Function.update_self]
        · rw [Function.update_of_ne same, Function.update_of_ne same]
          simp only [others r same]

def multiple (A : Words) (p c i : Fin 64) : ZMod 2 := if i = p then 0 else toMatrix A i c

theorem multiple_self (A : Words) (p c : Fin 64) : multiple A p c p = 0 := if_pos rfl

theorem multiple_of_ne (A : Words) {p i : Fin 64} (apart : i ≠ p) (c : Fin 64) :
    multiple A p c i = - toMatrix A i c := by
  rw [multiple, if_neg apart, CharTwo.neg_eq]

theorem toMatrix_clear (A R : Words) (p c : Fin 64) :
    toMatrix (fun r => if r ≠ p then R r ^^^ (R p &&& spread (A r &&& mask c)) else R r) =
      addPivot (toMatrix R) p (multiple A p c) := by
  ext i k
  rw [addPivot_entry, toMatrix, multiple]
  by_cases same : i = p
  · simp only [same, ne_eq, not_true_eq_false, if_false, if_true]
    rw [zero_mul, add_zero, toMatrix]
  · simp only [same, ne_eq, not_false_eq_true, if_true, if_false]
    rw [BitVec.getLsbD_xor, BitVec.getLsbD_and, spread_and_mask, bit_xor, bit_and, toMatrix, toMatrix, toMatrix, mul_comm]

structure Inv (order : Fin 64 → Fin 64) (A : Words) (done : Set (Fin 64)) (st : Elimination) : Prop where
  reduced : Reduced (Precedes order) (toMatrix A) done (support st.T) (toMatrix st.B0) (toMatrix st.A)
  jordan : Jordan (Precedes order) done st.reorder (toMatrix st.A)
  selected : ∀ i, st.reorder i = none ↔ i ∉ support st.T

theorem findPivot_none {st : Elimination} {c : Fin 64} (surj : Function.Surjective order)
    (none : findPivot order st (mask c) = none) : ∀ i ∉ support st.T, toMatrix st.A i c = 0 := by
  intro i out
  obtain ⟨q, rfl⟩ := surj i
  have failed := List.find?_eq_none.mp none q (List.mem_finRange q)
  rw [decide_eq_true_iff, not_and_not_right, and_mask_eq_zero, and_mask_eq_zero] at failed
  rw [mem_support, Bool.not_eq_true] at out
  rw [toMatrix, failed out, bit_false]

theorem findPivot_some {st : Elimination} {p c : Fin 64} (surj : Function.Surjective order)
    (found : findPivot order st (mask c) = some p) :
    order p ∉ support st.T ∧ toMatrix st.A (order p) c = 1 ∧
    ∀ i ∉ support st.T, i ≠ order p → toMatrix st.A i c ≠ 0 → Precedes order (order p) i := by
  obtain ⟨holds, first⟩ := find_finRange found
  rw [decide_eq_true_iff, and_mask_eq_zero, and_mask_ne_zero] at holds
  rw [mem_support, Bool.not_eq_true, toMatrix, bit_eq_one]
  refine ⟨holds.1, holds.2, fun i out apart nonzero => ?_⟩
  obtain ⟨q, rfl⟩ := surj i
  rw [mem_support, Bool.not_eq_true] at out
  rw [toMatrix, Ne, bit_eq_zero, Bool.not_eq_false] at nonzero
  refine ⟨p, q, lt_of_le_of_ne (first q ?_) fun same => apart (by rw [same]), rfl, rfl⟩
  rw [decide_eq_true_iff, and_mask_eq_zero, and_mask_ne_zero]
  exact ⟨out, nonzero⟩

theorem addRow_matrices (bij : Function.Bijective order) (p c : Fin 64) (st : Elimination) :
    ∃ st', (List.finRange 64).foldl (addRow order p (mask c)) st = st' ∧ st'.T = st.T ∧ st'.reorder = st.reorder ∧
      toMatrix st'.A = addPivot (toMatrix st.A) (order p) (multiple st.A (order p) c) ∧
      toMatrix st'.B0 = addPivot (toMatrix st.B0) (order p) (multiple st.A (order p) c) := by
  obtain ⟨sameT, sameReorder, rowsA, rowsB⟩ :=
    addRow_foldl bij.1 p (mask c) (List.finRange 64) (List.nodup_finRange 64) st
  have all : ∀ r, r ∈ (List.finRange 64).map order := by
    intro r
    obtain ⟨q, rfl⟩ := bij.2 r
    exact List.mem_map_of_mem (List.mem_finRange q)
  simp only [all, true_and] at rowsA rowsB
  refine ⟨_, rfl, sameT, sameReorder, ?_, ?_⟩
  · rw [funext rowsA, toMatrix_clear]
  · rw [funext rowsB, toMatrix_clear]

theorem columnStep_inv (bij : Function.Bijective order) {A : Words} {done : Set (Fin 64)} {st : Elimination}
    (inv : Inv order A done st) {j : Fin 64} (last : ∀ d ∈ done, Precedes order d (order j)) :
    ∃ st', columnStep order st j = some st' ∧ Inv order A (insert (order j) done) st' := by
  rw [columnStep]
  dsimp only
  cases search : findPivot order st (mask (order j)) with
  | none =>
    have zero := findPivot_none bij.2 search
    refine ⟨st, rfl, inv.reduced.skip zero, inv.jordan.skip last fun i free => ?_, inv.selected⟩
    exact zero i ((inv.selected i).mp free)
  | some p =>
    obtain ⟨fresh, one, first⟩ := findPivot_some bij.2 search
    have passes : ¬ st.T &&& mask (order p) ≠ 0 := by
      rwa [and_mask_ne_zero, ← mem_support]
    dsimp only
    rw [if_neg passes]
    obtain ⟨st', returns, sameT, sameReorder, rowsA, rowsB⟩ := addRow_matrices bij p (order j)
      { st with reorder := Function.update st.reorder (order p) (some (order j)), T := st.T ||| mask (order p) }
    refine ⟨st', congrArg some returns, ?_, ?_, ?_⟩
    · rw [sameT, support_or_mask, rowsA, rowsB]
      refine inv.reduced.pivot fresh one (multiple_self _ _ _) (fun i _ apart => multiple_of_ne _ apart _) first ?_
      exact precedes_trans bij.1
    · rw [sameReorder, rowsA]
      exact inv.jordan.pivot ((inv.selected _).mpr fresh) (fun d member => inv.reduced.cleared _ fresh d member) one
        (multiple_self _ _ _) fun i apart => multiple_of_ne _ apart _
    · intro i
      rw [sameT, sameReorder, support_or_mask, Finset.mem_insert, not_or]
      dsimp only
      by_cases same : i = order p
      · rw [same, Function.update_self]
        simp
      · rw [Function.update_of_ne same, inv.selected i, and_iff_right same]

theorem columnStep_run (bij : Function.Bijective order) {A : Words} (js : List (Fin 64)) (sorted : js.Pairwise (· < ·))
    {done : Set (Fin 64)} {st : Elimination} (inv : Inv order A done st)
    (last : ∀ d ∈ done, ∀ j ∈ js, Precedes order d (order j)) :
    ∃ st', js.foldlM (columnStep order) st = some st' ∧ Inv order A (done ∪ {c | c ∈ js.map order}) st' := by
  induction js generalizing done st with
  | nil => exact ⟨st, rfl, by simpa using inv⟩
  | cons j rest ih =>
    obtain ⟨above, sorted⟩ := List.pairwise_cons.mp sorted
    obtain ⟨st₁, step, inv₁⟩ := columnStep_inv bij inv fun d member => last d member j (.head _)
    obtain ⟨st₂, run, inv₂⟩ := ih sorted inv₁ fun d member k later => by
      cases member with
      | inl here =>
        rw [here]
        exact (precedes_order bij.1).mpr (above k later)
      | inr old => exact last d old k (List.mem_cons_of_mem j later)
    refine ⟨st₂, by rw [List.foldlM_cons, step]; exact run, ?_⟩
    have same : insert (order j) done ∪ {c | c ∈ rest.map order} = done ∪ {c | c ∈ (j :: rest).map order} := by
      ext c
      simp only [Set.mem_union, Set.mem_insert_iff, Set.mem_ofPred_eq, List.map_cons, List.mem_cons]
      tauto
    rwa [← same]

theorem Inv.start (A : Words) : Inv order A ∅ ⟨A, mask, 0, fun _ => none⟩ where
  reduced := by
    have empty : support 0 = ∅ := Finset.filter_false_of_mem fun i _ => by simp
    dsimp only
    rw [toMatrix_mask, empty]
    exact Reduced.start
  jordan := Jordan.start _
  selected i := by simp [mem_support]

theorem columns_reduced (bij : Function.Bijective order) (A : Words) :
    ∃ st, (List.finRange 64).foldlM (columnStep order) ⟨A, mask, 0, fun _ => none⟩ = some st ∧
      Inv order A Set.univ st := by
  obtain ⟨st, run, inv⟩ := columnStep_run bij (List.finRange 64) (List.pairwise_lt_finRange 64) (Inv.start A)
    fun d none => none.elim
  refine ⟨st, run, ?_⟩
  have all : ∅ ∪ {c | c ∈ (List.finRange 64).map order} = Set.univ := by
    refine Set.eq_univ_of_forall fun c => Or.inr ?_
    obtain ⟨q, rfl⟩ := bij.2 c
    exact List.mem_map_of_mem (List.mem_finRange q)
  rwa [all] at inv

/-! ### The result -/

theorem writeRow_foldl_of_ne {st : Elimination} {c : Fin 64} (is : List (Fin 64)) (B : Words)
    (apart : ∀ i ∈ is, st.reorder i ≠ some c) : is.foldl (writeRow st) B c = B c := by
  induction is generalizing B with
  | nil => rfl
  | cons i rest ih =>
    rw [List.foldl_cons, ih _ fun k member => apart k (List.mem_cons_of_mem i member), writeRow]
    have other := apart i (.head _)
    cases found : st.reorder i with
    | none => rfl
    | some d =>
      rw [found, Ne, Option.some_inj] at other
      exact Function.update_of_ne (Ne.symm other) _ _

theorem writeRow_foldl {st : Elimination} {c i : Fin 64} (unique : ∀ k, st.reorder k = some c → k = i)
    (found : st.reorder i = some c) (is : List (Fin 64)) (member : i ∈ is) (B : Words) :
    is.foldl (writeRow st) B c = st.B0 i &&& st.T := by
  induction is generalizing B with
  | nil => exact (List.not_mem_nil member).elim
  | cons k rest ih =>
    rw [List.foldl_cons]
    by_cases later : i ∈ rest
    · exact ih later _
    · have here : k = i := ((List.mem_cons.mp member).resolve_right later).symm
      rw [writeRow_foldl_of_ne rest _ fun l inside same => later (unique l same ▸ inside), writeRow, here, found]
      exact Function.update_self _ _ _

variable {A : Words} {st : Elimination} (inv : Inv order A Set.univ st)
include inv

theorem toMatrix_copyOut {t c : Fin 64} (found : st.reorder t = some c) (k : Fin 64) :
    toMatrix (copyOut st) c k = toMatrix st.B0 t k := by
  have row : copyOut st c = st.B0 t &&& st.T :=
    writeRow_foldl (fun u at_u => inv.jordan.unique at_u found) found _ (List.mem_finRange t) _
  have member : t ∈ support st.T := by
    by_contra out
    exact Option.some_ne_none c (found.symm.trans ((inv.selected t).mpr out))
  rw [toMatrix, row, BitVec.getLsbD_and, bit_and]
  by_cases selected : k ∈ support st.T
  · rw [mem_support.mp selected, bit_true, mul_one, toMatrix]
  · have zero := inv.reduced.within t member k selected
    rw [toMatrix] at zero ⊢
    rw [zero, zero_mul]

omit inv in
theorem toMatrix_copyOut_of_ne {c : Fin 64} (apart : ∀ t, st.reorder t ≠ some c) (k : Fin 64) :
    toMatrix (copyOut st) c k = 0 := by
  have row : copyOut st c = 0 := writeRow_foldl_of_ne (List.finRange 64) (fun _ => 0) fun i _ => apart i
  rw [toMatrix, row, bit_eq_zero]
  exact BitVec.getLsbD_zero

theorem pivot_columns (inj : Function.Injective order) (symm : (toMatrix A).IsSymm) (c : Fin 64) :
    (∃ t, st.reorder t = some c) ↔ c ∈ support st.T := by
  have rows := inv.reduced.greedy (precedes_irrefl inj) (precedes_trans inj)
  have columns :=
    inv.jordan.greedy inv.reduced.product inv.reduced.invertible (precedes_irrefl inj) (precedes_trans inj)
  rw [← row_transpose, symm.eq] at columns
  exact Set.ext_iff.mp (columns.unique rows) c

theorem copyOut_mul {t c : Fin 64} (found : st.reorder t = some c) (k : Fin 64) :
    (toMatrix (copyOut st) * toMatrix A) c k = toMatrix st.A t k := by
  rw [inv.reduced.product, mul_apply, mul_apply]
  exact Finset.sum_congr rfl fun l _ => by rw [toMatrix_copyOut inv found]

omit inv in
/-- What the header of `extraction_step` promises, and which rows it selects. -/
structure Extracts (A : Words) (S T : BitVec 64) (B : Words) : Prop where
  rows : diagonalOf T * toMatrix B = toMatrix B
  columns : toMatrix B * diagonalOf T = toMatrix B
  inverts : toMatrix B * toMatrix A * diagonalOf T = diagonalOf T
  rank : (support T).card = (toMatrix A).rank
  first : LexFirst (ZMod 2) (Precedes (priorityList S)) (toMatrix A).row (support T)
  outside : LinearIndepOn (ZMod 2) (toMatrix A).row {i : Fin 64 | S.getLsbD i = false} →
    ∀ i : Fin 64, S.getLsbD i = false → i ∈ support T

theorem rows_copyOut (inj : Function.Injective order) (symm : (toMatrix A).IsSymm) :
    diagonalOf st.T * toMatrix (copyOut st) = toMatrix (copyOut st) := by
  ext c k
  rw [diagonalOf, diagonal_mul]
  by_cases selected : c ∈ support st.T
  · rw [mem_support.mp selected, bit_true, one_mul]
  · have apart : ∀ t, st.reorder t ≠ some c := fun t found => selected ((pivot_columns inv inj symm c).mp ⟨t, found⟩)
    rw [toMatrix_copyOut_of_ne apart, mul_zero]

theorem columns_copyOut : toMatrix (copyOut st) * diagonalOf st.T = toMatrix (copyOut st) := by
  ext c k
  rw [diagonalOf, mul_diagonal]
  by_cases selected : k ∈ support st.T
  · rw [mem_support.mp selected, bit_true, mul_one]
  · rw [mem_support, Bool.not_eq_true] at selected
    have out : k ∉ support st.T := by rw [mem_support, selected]; exact Bool.false_ne_true
    rw [selected, bit_false, mul_zero]
    by_cases pivot : ∃ t, st.reorder t = some c
    · obtain ⟨t, found⟩ := pivot
      have member : t ∈ support st.T := by
        by_contra out
        exact Option.some_ne_none c (found.symm.trans ((inv.selected t).mpr out))
      rw [toMatrix_copyOut inv found, inv.reduced.within t member k out]
    · rw [toMatrix_copyOut_of_ne fun t found => pivot ⟨t, found⟩]

theorem copyOut_inverts (inj : Function.Injective order) (symm : (toMatrix A).IsSymm) :
    toMatrix (copyOut st) * toMatrix A * diagonalOf st.T = diagonalOf st.T := by
  ext c k
  rw [diagonalOf, mul_diagonal, diagonal_apply]
  by_cases row : c ∈ support st.T
  · obtain ⟨t, found⟩ := (pivot_columns inv inj symm c).mpr row
    rw [copyOut_mul inv found]
    by_cases column : k ∈ support st.T
    · obtain ⟨u, located⟩ := (pivot_columns inv inj symm k).mpr column
      rw [(inv.jordan.unit u k located).2 t, mem_support.mp column, mem_support.mp row, bit_true, mul_one]
      refine if_congr ⟨fun same => ?_, fun same => ?_⟩ rfl rfl
      · rw [same, located, Option.some_inj] at found
        exact found.symm
      · exact inv.jordan.unique found (same ▸ located)
    · have apart : c ≠ k := fun same => column (same ▸ row)
      rw [mem_support, Bool.not_eq_true] at column
      rw [column, bit_false, mul_zero, if_neg apart]
  · have apart : ∀ t, st.reorder t ≠ some c := fun t found => row ((pivot_columns inv inj symm c).mp ⟨t, found⟩)
    have zero : (toMatrix (copyOut st) * toMatrix A) c k = 0 := by
      rw [mul_apply]
      exact Finset.sum_eq_zero fun l _ => by rw [toMatrix_copyOut_of_ne apart, zero_mul]
    rw [mem_support, Bool.not_eq_true] at row
    rw [zero, zero_mul, row, bit_false, ite_self]

omit inv in
theorem priorityList_precedes {S : BitVec 64} {i k : Fin 64} (out : S.getLsbD i = false) (inside : S.getLsbD k = true) :
    Precedes (priorityList S) i k := by
  obtain ⟨q, rfl⟩ := (priorityList_bijective S).2 i
  obtain ⟨p, rfl⟩ := (priorityList_bijective S).2 k
  rcases lt_trichotomy q p with less | same | more
  · exact ⟨q, p, less, rfl, rfl⟩
  · rw [← same, out] at inside
    exact Bool.noConfusion inside
  · rw [priorityList_outside_first ⟨p, q, more, rfl, rfl⟩ out] at inside
    exact Bool.noConfusion inside

omit inv in
/-- On a symmetric matrix `extraction_step` inverts a maximal minor, that of the first independent rows of the list. -/
theorem extractionStep_extracts (A : Words) (S : BitVec 64) (symm : (toMatrix A).IsSymm) :
    Function.Bijective (priorityList S) ∧
    (∀ i k : Fin 64, S.getLsbD i = false → S.getLsbD k = true → Precedes (priorityList S) i k) ∧
    ∃ T B A', extractionStep A S = some (T, B, A') ∧ Extracts A S T B := by
  have bij := priorityList_bijective S
  have irrefl := precedes_irrefl bij.1
  refine ⟨bij, fun i k => priorityList_precedes, ?_⟩
  obtain ⟨st, run, inv⟩ := columns_reduced bij A
  refine ⟨st.T, copyOut st, st.A, by rw [extractionStep, run]; rfl, ?_⟩
  refine ⟨rows_copyOut inv bij.1 symm, columns_copyOut inv, copyOut_inverts inv bij.1 symm, inv.reduced.rank_eq.symm,
    inv.reduced.lexFirst irrefl, fun independent i out => ?_⟩
  have greedy := inv.reduced.greedy irrefl (precedes_trans bij.1)
  refine greedy.mem_of_linearIndepOn independent (fun i out k earlier => ?_) out
  exact ⟨priorityList_outside_first earlier out, fun same => irrefl i (same ▸ earlier)⟩

omit inv in
theorem extractionStep_antidiagonal :
    Function.Bijective (priorityList 1) ∧
    (∀ i k : Fin 64, (1 : BitVec 64).getLsbD i = false → (1 : BitVec 64).getLsbD k = true →
      Precedes (priorityList 1) i k) ∧
    ∃ T B A', extractionStep (fun i => mask i.rev) 1 = some (T, B, A') ∧ Extracts (fun i => mask i.rev) 1 T B := by
  refine extractionStep_extracts (fun i => mask i.rev) 1 (IsSymm.ext fun i k => ?_)
  rw [toMatrix, toMatrix, getLsbD_mask, getLsbD_mask]
  have swap : k = i.rev ↔ i = k.rev := by rw [eq_comm, Fin.rev_eq_iff]
  simp only [swap]

end CadoNfs.Linalg.BlocklanczosExtraction
