import CadoNfs.Lib.BitRows
import CadoNfs.Lib.RowReduction
import Mathlib.Algebra.CharP.Two

/-!
# Kernels and spanned bases of small bit matrices

`gaussian_elimination`, `kernel` and `spanned_basis` of `linalg/bblas/bblas_gauss.c`.
-/

namespace CadoNfs.Linalg.BblasGauss

open Matrix CadoNfs.Lib.BitRows CadoNfs.Lib.RowReduction

abbrev Limbs := Nat → BitVec 64

/-- `limbs_per_row` and `limbs_per_col`: a number of limbs that holds `bits` bits. The place `LIMBS_PER_ROW*i` of a row is
an `int` there; here a row is a function of its limbs. -/
structure Stride (bits : Nat) where
  limbs : Nat
  room : bits ≤ limbs * 64

variable {nrows ncols : Nat}

structure Cursor where
  limb : Nat
  mask1 : BitVec 64

def Cursor.next (cur : Cursor) : Cursor :=
  let mask1 := cur.mask1 <<< 1
  if mask1 = 0 then ⟨cur.limb + 1, 1⟩ else ⟨cur.limb, mask1⟩

def xorLimbs (stride : Nat) (dst src : Limbs) : Limbs := fun j => if j < stride then dst j ^^^ src j else dst j

def orMask (cur : Cursor) (row : Limbs) : Limbs := Function.update row cur.limb (row cur.limb ||| cur.mask1)

def simpleAddrows (stride : Nat) (p : Option (Fin nrows → Limbs)) (d s : Fin nrows) : Option (Fin nrows → Limbs) :=
  p.map fun rows => Function.update rows d (xorLimbs stride (rows d) (rows s))

def addRowTo (stride : Nat) (mat : Fin nrows → Limbs) (rows : List (Fin nrows)) (pivot : Fin nrows) (cur : Cursor) :
    Fin nrows → Limbs :=
  let sums := rows.foldl (fun mat row => Function.update mat row (xorLimbs stride (mat row) (mat pivot))) mat
  rows.foldl (fun mat row => Function.update mat row (orMask cur (mat row))) sums

def addRows (stride : Nat) (mat : Fin nrows → Limbs) (row pivot : Fin nrows) (cur : Cursor) : Fin nrows → Limbs :=
  addRowTo stride mat [row] pivot cur

def add2Rows (stride : Nat) (mat : Fin nrows → Limbs) (row row2 pivot : Fin nrows) (cur : Cursor) : Fin nrows → Limbs :=
  addRowTo stride mat [row, row2] pivot cur

def add3Rows (stride : Nat) (mat : Fin nrows → Limbs) (row row2 row3 pivot : Fin nrows) (cur : Cursor) :
    Fin nrows → Limbs :=
  addRowTo stride mat [row, row2, row3] pivot cur

def getPivot (mat : Fin nrows → Limbs) (cur : Cursor) : Option (Fin nrows) :=
  (List.finRange nrows).find? fun i => decide (mat i cur.limb &&& cur.mask1 ≠ 0)

/-- The loop that collects three rows: `i1` and `i2` wait for the third. -/
structure Batch (nrows : Nat) where
  mat : Fin nrows → Limbs
  lmat : Option (Fin nrows → Limbs)
  i1 : Option (Fin nrows)
  i2 : Option (Fin nrows)

section Eliminate
variable (perRow perCol : Nat) (pivot : Fin nrows) (cur : Cursor)

def batchStep (b : Batch nrows) (i : Fin nrows) : Batch nrows :=
  if b.mat i cur.limb &&& cur.mask1 = 0 then b
  else
    match b.i1, b.i2 with
    | some i1, some i2 =>
      { mat := add3Rows perRow b.mat i1 i2 i pivot cur
        lmat := simpleAddrows perCol (simpleAddrows perCol (simpleAddrows perCol b.lmat i pivot) i1 pivot) i2 pivot
        i1 := none
        i2 := none }
    | some _, none => { b with i2 := some i }
    | none, _ => { b with i1 := some i }

def batchRest (b : Batch nrows) : (Fin nrows → Limbs) × Option (Fin nrows → Limbs) :=
  match b.i1, b.i2 with
  | some i1, some i2 =>
    (add2Rows perRow b.mat i1 i2 pivot cur, simpleAddrows perCol (simpleAddrows perCol b.lmat i1 pivot) i2 pivot)
  | some i1, none => (addRows perRow b.mat i1 pivot cur, simpleAddrows perCol b.lmat i1 pivot)
  | none, _ => (b.mat, b.lmat)

def eliminate (mat : Fin nrows → Limbs) (lmat : Option (Fin nrows → Limbs)) :
    (Fin nrows → Limbs) × Option (Fin nrows → Limbs) :=
  batchRest perRow perCol pivot cur
    (((List.finRange nrows).filter fun i => decide (pivot < i)).foldl (batchStep perRow perCol pivot cur)
      ⟨mat, lmat, none, none⟩)

end Eliminate

structure Gauss (nrows : Nat) where
  mat : Fin nrows → Limbs
  lmat : Option (Fin nrows → Limbs)
  setPivot : Nat → Option (Fin nrows)
  setUsed : Fin nrows → Bool
  cur : Cursor

def columnStep (perRow perCol : Nat) (st : Gauss nrows) (col : Nat) : Gauss nrows :=
  match getPivot st.mat st.cur with
  | none => { st with cur := st.cur.next }
  | some pivot =>
    let (mat, lmat) := eliminate perRow perCol pivot st.cur st.mat st.lmat
    { mat := addRows perRow mat pivot pivot st.cur
      lmat := lmat
      setPivot := Function.update st.setPivot col (some pivot)
      setUsed := Function.update st.setUsed pivot true
      cur := st.cur.next }

def gaussianElimination (ncols perRow perCol : Nat) (mat : Fin nrows → Limbs) (lmat : Option (Fin nrows → Limbs)) :
    Gauss nrows :=
  (List.range ncols).foldl (columnStep perRow perCol) ⟨mat, lmat, fun _ => none, fun _ => false, ⟨0, 1⟩⟩

structure Ker (nrows : Nat) where
  perCol : Stride nrows
  vectors : Nat → Limbs

def setBit (v : Limbs) (p : Nat) : Limbs := Function.update v (p / 64) (v (p / 64) ||| 1#64 <<< (p % 64))

def recoverStep (setPivot : Nat → Option (Fin nrows)) (row : Limbs) (s : Limbs × Cursor) (j : Nat) :
    Option (Limbs × Cursor) :=
  if row s.2.limb &&& s.2.mask1 = 0 then some (s.1, s.2.next)
  else (setPivot j).map fun pivot => (setBit s.1 pivot, s.2.next)

def kernelVector (ncols : Nat) (G : Gauss nrows) (perCol : Nat) (vector : Limbs) (i : Fin nrows) : Option Limbs :=
  let cleared : Limbs := fun j => if j < perCol then 0 else vector j
  let own := Function.update cleared (i / 64) (1#64 <<< (i.val % 64))
  ((List.range ncols).foldlM (recoverStep G.setPivot (G.mat i)) (own, ⟨0, 1⟩)).map Prod.fst

def kernelStep (ncols : Nat) (G : Gauss nrows) (ker : Option (Ker nrows)) (s : Nat × List Limbs) (i : Fin nrows) :
    Option (Nat × List Limbs) :=
  if G.setUsed i then some s
  else
    match ker with
    | none => some (s.1 - 1, s.2)
    | some ker =>
      (kernelVector ncols G ker.perCol.limbs (ker.vectors s.2.length) i).map fun v => (s.1 - 1, s.2 ++ [v])

/-- The return value, and the vectors written to `ker`. -/
def kernel (ncols : Nat) (perRow : Stride ncols) (mat : Fin nrows → Limbs) (ker : Option (Ker nrows)) :
    Option (Nat × List Limbs) :=
  let G := gaussianElimination ncols perRow.limbs 0 mat none
  ((List.finRange nrows).foldlM (kernelStep ncols G ker) (nrows, [])).map fun s => (nrows - s.1, s.2)

def identityRows : Fin nrows → Limbs := fun i => Function.update (fun _ => 0) (i / 64) (0 ^^^ 1#64 <<< (i.val % 64))

structure Spanned where
  lmat : Nat → Limbs
  r : Nat
  h : Nat

def copyStep (perCol : Nat) (lmat2 : Fin nrows → Limbs) (setUsed : Fin nrows → Bool) (s : Spanned) (i : Fin nrows) :
    Spanned :=
  let copy := fun k => Function.update s.lmat k fun j => if j < perCol then lmat2 i j else s.lmat k j
  if setUsed i then { s with lmat := copy s.r, r := s.r + 1 } else { s with lmat := copy s.h, h := s.h + 1 }

/-- `spanned_basis` without `elim_table`, which only reads the result: `r`, and what is left in `lmat`. -/
def spannedBasis (ncols : Nat) (perRow : Stride ncols) (perCol : Stride nrows) (lmat : Nat → Limbs)
    (mat : Fin nrows → Limbs) : Option (Nat × (Nat → Limbs)) :=
  let G := gaussianElimination ncols perRow.limbs perCol.limbs mat (some identityRows)
  let rank := (List.finRange nrows).foldl (fun rank i => if G.setUsed i then rank + 1 else rank) 0
  G.lmat.map fun lmat2 =>
    let s := (List.finRange nrows).foldl (copyStep perCol.limbs lmat2 G.setUsed) ⟨lmat, 0, rank⟩
    (s.r, s.lmat)

/-! ### Bits of a row -/

def testBit (row : Limbs) (c : Nat) : Bool := (row (c / 64)).getLsbD (c % 64)

def Cursor.At (cur : Cursor) (col : Nat) : Prop := cur = ⟨col / 64, mask ⟨col % 64, Nat.mod_lt col (by decide)⟩⟩

theorem Cursor.at_zero : Cursor.At ⟨0, 1⟩ 0 := rfl

theorem Cursor.At.next {cur : Cursor} {col : Nat} (here : cur.At col) : cur.next.At (col + 1) := by
  have shifted : mask ⟨col % 64, Nat.mod_lt col (by decide)⟩ <<< 1 = (1 : BitVec 64) <<< (col % 64 + 1) :=
    (BitVec.shiftLeft_add _ _ _).symm
  rw [here, Cursor.next, Cursor.At]
  dsimp only
  rw [shifted]
  by_cases last : col % 64 = 63
  · have zero : (1 : BitVec 64) <<< (col % 64 + 1) = 0 := by rw [last]; decide
    have limb : (col + 1) / 64 = col / 64 + 1 := by omega
    have start : (col + 1) % 64 = 0 := by omega
    rw [if_pos zero]
    simp only [limb, start]
    rfl
  · have limb : (col + 1) / 64 = col / 64 := by omega
    have place : (col + 1) % 64 = col % 64 + 1 := by omega
    have nonzero : (1 : BitVec 64) <<< (col % 64 + 1) ≠ 0 := by
      intro zero
      have bound : col % 64 + 1 < 64 := by omega
      have self := getLsbD_mask (⟨col % 64 + 1, bound⟩ : Fin 64) ⟨col % 64 + 1, bound⟩
      rw [mask] at self
      dsimp only at self
      rw [decide_eq_true rfl] at self
      exact absurd (self.symm.trans (congrArg (fun v => v.getLsbD (col % 64 + 1)) zero)) (by simp)
    rw [if_neg nonzero]
    simp only [limb, place]
    rfl

theorem Cursor.At.read {cur : Cursor} {col : Nat} (here : cur.At col) (row : Limbs) :
    row cur.limb &&& cur.mask1 = 0 ↔ testBit row col = false := by
  rw [here]
  exact and_mask_eq_zero

theorem testBit_xorLimbs {stride c : Nat} (bound : c < stride * 64) (dst src : Limbs) :
    testBit (xorLimbs stride dst src) c = (testBit dst c ^^ testBit src c) := by
  have limb : c / 64 < stride := by omega
  rw [testBit, xorLimbs, if_pos limb, BitVec.getLsbD_xor]
  rfl

theorem testBit_setBit (row : Limbs) (p c : Nat) : testBit (setBit row p) c = (testBit row c || decide (c = p)) := by
  rw [testBit, setBit]
  by_cases limb : c / 64 = p / 64
  · have hit := getLsbD_mask (⟨p % 64, Nat.mod_lt p (by decide)⟩ : Fin 64) ⟨c % 64, Nat.mod_lt c (by decide)⟩
    rw [mask] at hit
    have same : (⟨c % 64, Nat.mod_lt c (by decide)⟩ : Fin 64) = ⟨p % 64, Nat.mod_lt p (by decide)⟩ ↔ c = p := by
      rw [Fin.mk.injEq]
      omega
    rw [limb, Function.update_self, BitVec.getLsbD_or, testBit, limb, ← decide_eq_decide.mpr same]
    exact congrArg _ hit
  · have apart : c ≠ p := fun same => limb (by rw [same])
    rw [Function.update_of_ne limb, decide_eq_false apart, Bool.or_false, testBit]

theorem Cursor.At.orMask {cur : Cursor} {col : Nat} (here : cur.At col) (row : Limbs) : orMask cur row = setBit row col := by
  rw [here]
  rfl

/-! ### Elimination with one pivot row -/

theorem foldl_update_row (g : Limbs → Limbs) (rows : List (Fin nrows)) (nodup : rows.Nodup) (mat : Fin nrows → Limbs)
    (r : Fin nrows) :
    rows.foldl (fun mat row => Function.update mat row (g (mat row))) mat r = if r ∈ rows then g (mat r) else mat r := by
  induction rows generalizing mat with
  | nil => rfl
  | cons row rest ih =>
    obtain ⟨fresh, nodup⟩ := List.nodup_cons.mp nodup
    rw [List.foldl_cons, ih nodup]
    by_cases same : r = row
    · rw [same, if_neg fresh, if_pos (.head _), Function.update_self]
    · rw [Function.update_of_ne same]
      simp only [List.mem_cons, same, false_or]

theorem foldl_update_xor {stride : Nat} {pivot : Fin nrows} (rows : List (Fin nrows)) (other : pivot ∉ rows)
    (mat : Fin nrows → Limbs) :
    rows.foldl (fun mat row => Function.update mat row (xorLimbs stride (mat row) (mat pivot))) mat =
      rows.foldl (fun m row => Function.update m row (xorLimbs stride (m row) (mat pivot))) mat := by
  suffices general : ∀ m : Fin nrows → Limbs, m pivot = mat pivot →
      rows.foldl (fun m row => Function.update m row (xorLimbs stride (m row) (m pivot))) m =
        rows.foldl (fun m row => Function.update m row (xorLimbs stride (m row) (mat pivot))) m from general mat rfl
  induction rows with
  | nil => exact fun _ _ => rfl
  | cons row rest ih =>
    intro m same
    rw [List.mem_cons, not_or] at other
    rw [List.foldl_cons, List.foldl_cons, same]
    refine ih other.2 _ ?_
    rw [Function.update_of_ne other.1, same]

theorem addRowTo_apply {stride : Nat} {mat : Fin nrows → Limbs} {rows : List (Fin nrows)} {pivot : Fin nrows}
    (cur : Cursor) (nodup : rows.Nodup) (other : pivot ∉ rows) (r : Fin nrows) :
    addRowTo stride mat rows pivot cur r =
      if r ∈ rows then orMask cur (xorLimbs stride (mat r) (mat pivot)) else mat r := by
  rw [addRowTo, foldl_update_row (orMask cur) rows nodup, foldl_update_xor rows other,
    foldl_update_row (fun row => xorLimbs stride row (mat pivot)) rows nodup]
  by_cases member : r ∈ rows
  · simp only [member, if_true]
  · simp only [member, if_false]

section Batches
variable (perRow perCol : Nat) (pivot : Fin nrows) (cur : Cursor) (mat : Fin nrows → Limbs)

def addedTo (added : Finset (Fin nrows)) : Fin nrows → Limbs :=
  fun r => if r ∈ added then orMask cur (xorLimbs perRow (mat r) (mat pivot)) else mat r

def addedToLeft (lmat : Fin nrows → Limbs) (added : Finset (Fin nrows)) : Fin nrows → Limbs :=
  fun r => if r ∈ added then xorLimbs perCol (lmat r) (lmat pivot) else lmat r

variable {perRow perCol pivot cur mat} {added : Finset (Fin nrows)} (spared : pivot ∉ added)
include spared

theorem addRowTo_addedTo {rows : List (Fin nrows)} (nodup : rows.Nodup) (other : pivot ∉ rows)
    (fresh : ∀ r ∈ rows, r ∉ added) :
    addRowTo perRow (addedTo perRow pivot cur mat added) rows pivot cur =
      addedTo perRow pivot cur mat (added ∪ rows.toFinset) := by
  funext r
  rw [addRowTo_apply cur nodup other, addedTo, addedTo, addedTo, if_neg spared]
  simp only [Finset.mem_union, List.mem_toFinset]
  by_cases member : r ∈ rows
  · simp only [member, fresh r member, if_true, if_false, or_true]
  · simp only [member, if_false, or_false]

theorem simpleAddrows_addedToLeft {lmat : Option (Fin nrows → Limbs)} {d : Fin nrows} (fresh : d ∉ added) :
    simpleAddrows perCol (lmat.map fun l => addedToLeft perCol pivot l added) d pivot =
      lmat.map fun l => addedToLeft perCol pivot l (insert d added) := by
  cases lmat with
  | none => rfl
  | some l =>
    rw [simpleAddrows, Option.map_map, Option.map_some, Option.map_some]
    congr 1
    funext r
    rw [Function.comp_apply]
    by_cases same : r = d
    · rw [same, Function.update_self]
      simp only [addedToLeft, spared, fresh, Finset.mem_insert_self, if_true, if_false]
    · rw [Function.update_of_ne same]
      simp only [addedToLeft, Finset.mem_insert, same, false_or]

end Batches

structure Collected (perRow perCol : Nat) (pivot : Fin nrows) (cur : Cursor) (mat : Fin nrows → Limbs)
    (lmat : Option (Fin nrows → Limbs)) (ones added : Finset (Fin nrows)) (b : Batch nrows) : Prop where
  rows : b.mat = addedTo perRow pivot cur mat added
  left : b.lmat = lmat.map fun l => addedToLeft perCol pivot l added
  order : b.i1 = none → b.i2 = none
  nodup : (b.i1.toList ++ b.i2.toList).Nodup
  fresh : ∀ r ∈ b.i1.toList ++ b.i2.toList, r ∉ added
  all : ones = added ∪ (b.i1.toList ++ b.i2.toList).toFinset

section Collected
variable {perRow perCol : Nat} {pivot : Fin nrows} {cur : Cursor} {mat : Fin nrows → Limbs}
  {lmat : Option (Fin nrows → Limbs)} {ones added : Finset (Fin nrows)} {b : Batch nrows}

theorem Collected.step (here : Collected perRow perCol pivot cur mat lmat ones added b) {i : Fin nrows} (new : i ∉ ones)
    (apart : i ≠ pivot) (spared : pivot ∉ ones) :
    ∃ added', Collected perRow perCol pivot cur mat lmat
      (if mat i cur.limb &&& cur.mask1 = 0 then ones else insert i ones) added'
      (batchStep perRow perCol pivot cur b i) := by
  have all := here.all
  have fresh := here.fresh
  have nodup := here.nodup
  have outside : i ∉ added := fun member => new (by rw [all]; exact Finset.mem_union_left _ member)
  have original : b.mat i = mat i := by rw [here.rows, addedTo, if_neg outside]
  rw [batchStep, original]
  split
  case isTrue => exact ⟨added, here⟩
  case isFalse =>
    cases first : b.i1 with
    | none =>
      have second := here.order first
      rw [first, second] at all
      refine ⟨added, here.rows, here.left, fun none => (Option.some_ne_none i none).elim, ?_, ?_, ?_⟩
      · simp [second]
      · simpa [second] using outside
      · rw [all]
        ext r
        simp [second]
    | some i1 =>
      cases second : b.i2 with
      | none =>
        rw [first, second] at all fresh nodup
        have differs : i ≠ i1 := fun same => new (by rw [all, same]; simp)
        refine ⟨added, here.rows, here.left, fun none => (Option.some_ne_none i1 none).elim, ?_, ?_, ?_⟩
        · simpa [first] using differs.symm
        · simpa [first, outside] using fresh
        · rw [all]
          ext r
          simp only [Option.toList_some, Option.toList_none, List.append_nil, List.cons_append, List.nil_append,
            List.toFinset_cons, List.toFinset_nil, Finset.mem_insert, Finset.mem_union, Finset.notMem_empty]
          tauto
      | some i2 =>
        rw [first, second] at all fresh nodup
        simp only [Option.toList_some, List.cons_append, List.nil_append] at all fresh nodup
        have members : i1 ∈ ones ∧ i2 ∈ ones := by
          rw [all]
          simp
        have kept : pivot ∉ added := fun member => spared (by rw [all]; exact Finset.mem_union_left _ member)
        have apart1 : i1 ≠ pivot := fun same => spared (same ▸ members.1)
        have apart2 : i2 ≠ pivot := fun same => spared (same ▸ members.2)
        have differs1 : i ≠ i1 := fun same => new (same ▸ members.1)
        have differs2 : i ≠ i2 := fun same => new (same ▸ members.2)
        have differs : i1 ≠ i2 := fun same => by simp [same] at nodup
        have fresh1 := fresh i1 (.head _)
        have fresh2 := fresh i2 (.tail _ (.head _))
        refine ⟨added ∪ [i1, i2, i].toFinset, ?_, ?_, fun _ => rfl, List.nodup_nil, ?_, ?_⟩
        · dsimp only
          rw [here.rows, add3Rows, addRowTo_addedTo kept]
          · simp [differs, differs1.symm, differs2.symm]
          · simp [apart.symm, apart1.symm, apart2.symm]
          · simp [fresh1, fresh2, outside]
        · dsimp only
          rw [here.left, simpleAddrows_addedToLeft kept outside,
            simpleAddrows_addedToLeft (by simp [kept, apart.symm]) (by simp [fresh1, differs1.symm]),
            simpleAddrows_addedToLeft (by simp [kept, apart.symm, apart1.symm])
              (by simp [fresh2, differs2.symm, differs.symm])]
          congr 2
          funext l
          congr 1
          ext r
          simp only [List.toFinset_cons, List.toFinset_nil, Finset.mem_insert, Finset.mem_union, Finset.notMem_empty]
          tauto
        · exact fun r none => (List.not_mem_nil none).elim
        · rw [all]
          ext r
          simp only [Option.toList_none, List.append_nil, List.toFinset_cons, List.toFinset_nil, Finset.mem_insert,
            Finset.mem_union, Finset.notMem_empty]
          tauto

theorem Collected.run (is : List (Fin nrows)) (nodup : is.Nodup) (apart : pivot ∉ is)
    (here : Collected perRow perCol pivot cur mat lmat ones added b) (new : ∀ i ∈ is, i ∉ ones) (spared : pivot ∉ ones) :
    ∃ added', Collected perRow perCol pivot cur mat lmat
      (ones ∪ is.toFinset.filter fun i => mat i cur.limb &&& cur.mask1 ≠ 0) added'
      (is.foldl (batchStep perRow perCol pivot cur) b) := by
  induction is generalizing ones added b with
  | nil => exact ⟨added, by simpa using here⟩
  | cons i rest ih =>
    obtain ⟨fresh, nodup⟩ := List.nodup_cons.mp nodup
    rw [List.mem_cons, not_or] at apart
    obtain ⟨added₁, next⟩ := here.step (new i (.head _)) (Ne.symm apart.1) spared
    have later := fun k member => new k (List.mem_cons_of_mem i member)
    rw [List.foldl_cons, List.toFinset_cons, Finset.filter_insert]
    by_cases zero : mat i cur.limb &&& cur.mask1 = 0
    · rw [if_pos zero] at next
      rw [if_neg (not_not.mpr zero)]
      exact ih nodup apart.2 next later spared
    · rw [if_neg zero] at next
      obtain ⟨added₂, final⟩ := ih nodup apart.2 next
        (fun k member => by
          rw [Finset.mem_insert, not_or]
          exact ⟨fun same => fresh (same ▸ member), later k member⟩)
        (by rw [Finset.mem_insert, not_or]; exact ⟨apart.1, spared⟩)
      refine ⟨added₂, ?_⟩
      rwa [if_pos zero, Finset.union_insert, ← Finset.insert_union]

theorem Collected.rest (here : Collected perRow perCol pivot cur mat lmat ones added b) (spared : pivot ∉ ones) :
    batchRest perRow perCol pivot cur b =
      (addedTo perRow pivot cur mat ones, lmat.map fun l => addedToLeft perCol pivot l ones) := by
  have all := here.all
  have fresh := here.fresh
  have nodup := here.nodup
  have kept : pivot ∉ added := fun member => spared (by rw [all]; exact Finset.mem_union_left _ member)
  rw [batchRest]
  cases first : b.i1 with
  | none =>
    rw [first, here.order first] at all
    rw [here.rows, here.left, all]
    simp
  | some i1 =>
    cases second : b.i2 with
    | none =>
      rw [first, second] at all fresh
      have apart : pivot ≠ i1 := fun same => spared (by rw [all, same]; simp)
      dsimp only
      rw [here.rows, here.left, addRows, addRowTo_addedTo kept (List.nodup_singleton i1) (by simpa using apart)
        (by simpa using fresh), simpleAddrows_addedToLeft kept (by simpa using fresh), all]
      simp [Finset.union_comm added]
    | some i2 =>
      rw [first, second] at all fresh nodup
      simp only [Option.toList_some, List.cons_append, List.nil_append] at all fresh nodup
      have apart1 : pivot ≠ i1 := fun same => spared (by rw [all, same]; simp)
      have apart2 : pivot ≠ i2 := fun same => spared (by rw [all, same]; simp)
      have differs : i1 ≠ i2 := fun same => by simp [same] at nodup
      have fresh1 := fresh i1 (.head _)
      have fresh2 := fresh i2 (.tail _ (.head _))
      dsimp only
      rw [here.rows, here.left, add2Rows, addRowTo_addedTo kept nodup (by simp [apart1, apart2]) fresh,
        simpleAddrows_addedToLeft kept fresh1,
        simpleAddrows_addedToLeft (by simp [kept, apart1]) (by simp [fresh2, differs.symm]), all]
      congr 2
      funext l
      congr 1
      ext r
      simp only [List.toFinset_cons, List.toFinset_nil, Finset.mem_insert, Finset.mem_union, Finset.notMem_empty]
      tauto

end Collected

theorem eliminate_eq (perRow perCol : Nat) (pivot : Fin nrows) (cur : Cursor) (mat : Fin nrows → Limbs)
    (lmat : Option (Fin nrows → Limbs)) :
    ∃ ones : Finset (Fin nrows), (∀ i, i ∈ ones ↔ pivot < i ∧ mat i cur.limb &&& cur.mask1 ≠ 0) ∧
      eliminate perRow perCol pivot cur mat lmat =
        (addedTo perRow pivot cur mat ones, lmat.map fun l => addedToLeft perCol pivot l ones) := by
  have start : Collected perRow perCol pivot cur mat lmat ∅ ∅ ⟨mat, lmat, none, none⟩ := by
    refine ⟨?_, ?_, fun _ => rfl, List.nodup_nil, fun r none => (List.not_mem_nil none).elim, rfl⟩
    · funext r
      simp [addedTo]
    · cases lmat with
      | none => rfl
      | some l => exact congrArg some (funext fun r => by simp [addedToLeft])
  have below : pivot ∉ (List.finRange nrows).filter fun i => decide (pivot < i) := by simp
  obtain ⟨added, final⟩ := start.run _ ((List.nodup_finRange nrows).filter _) below (fun i _ => Finset.notMem_empty i)
    (Finset.notMem_empty pivot)
  refine ⟨_, fun i => ?_, final.rest ?_⟩
  · simp
  · simp

/-! ### The main loop -/

def toMatrix (ncols : Nat) (rows : Fin nrows → Limbs) : Matrix (Fin nrows) (Fin ncols) (ZMod 2) :=
  fun i c => bit (testBit (rows i) c)

theorem toMatrix_identityRows : toMatrix nrows (identityRows : Fin nrows → Limbs) = 1 := by
  ext i k
  have hit := testBit_setBit (fun _ => 0) i k
  have clear : testBit (fun _ => 0) k.val = false := BitVec.getLsbD_zero
  have own : identityRows i = setBit (fun _ => 0) i := by simp [identityRows, setBit]
  rw [clear, Bool.false_or, ← own] at hit
  rw [toMatrix, one_apply]
  refine (congrArg bit hit).trans ?_
  by_cases same : i = k
  · simp [same]
  · have apart : k.val ≠ i.val := fun equal => same (Fin.ext equal.symm)
    simp [same, apart]

/-- What the main loop keeps. `L` and `M` are the combinations and the rows of the reduction: the bits of a row that was
not used are those of `M` from the column `col` on, and before it say which pivot rows it received. -/
structure Inv (A : Matrix (Fin nrows) (Fin ncols) (ZMod 2)) (col : Nat) (T : Finset (Fin nrows))
    (L : Matrix (Fin nrows) (Fin nrows) (ZMod 2)) (M : Matrix (Fin nrows) (Fin ncols) (ZMod 2)) (st : Gauss nrows) :
    Prop where
  reduced : Reduced (· < ·) A {c | c.val < col} T L M
  used : ∀ i, st.setUsed i = true ↔ i ∈ T
  left : ∀ l, st.lmat = some l → toMatrix nrows l = L
  ahead : ∀ i ∉ T, ∀ c : Fin ncols, col ≤ c.val → bit (testBit (st.mat i) c) = M i c
  spent : ∀ t ∈ T, ∀ c : Fin ncols, col ≤ c.val → testBit (st.mat t) c = false
  markers : ∀ i ∉ T, ∀ c < col, bit (testBit (st.mat i) c) = (st.setPivot c).elim 0 (L i)
  future : ∀ c, col ≤ c → st.setPivot c = none
  pivots : ∀ c < col, ∀ p, st.setPivot c = some p → p ∈ T
  column : ∀ p ∈ T, ∃ c < col, st.setPivot c = some p
  cursor : st.cur.At col

section Columns
variable {A : Matrix (Fin nrows) (Fin ncols) (ZMod 2)} {col : Nat} {T : Finset (Fin nrows)}
  {L : Matrix (Fin nrows) (Fin nrows) (ZMod 2)} {M : Matrix (Fin nrows) (Fin ncols) (ZMod 2)} {st : Gauss nrows}
  (inv : Inv A col T L M st)
include inv

theorem Inv.current (bound : col < ncols) (i : Fin nrows) :
    st.mat i st.cur.limb &&& st.cur.mask1 = 0 ↔ i ∈ T ∨ M i ⟨col, bound⟩ = 0 := by
  rw [inv.cursor.read]
  by_cases member : i ∈ T
  · exact iff_of_true (inv.spent i member ⟨col, bound⟩ le_rfl) (Or.inl member)
  · rw [or_iff_right member, ← inv.ahead i member ⟨col, bound⟩ le_rfl, bit_eq_zero]

theorem Inv.getPivot_none (bound : col < ncols) (none : getPivot st.mat st.cur = none) :
    ∀ i ∉ T, M i ⟨col, bound⟩ = 0 := by
  intro i out
  have failed := List.find?_eq_none.mp none i (List.mem_finRange i)
  rw [decide_eq_true_iff, not_not] at failed
  exact ((inv.current bound i).mp failed).resolve_left out

theorem Inv.getPivot_some (bound : col < ncols) {p : Fin nrows} (found : getPivot st.mat st.cur = some p) :
    p ∉ T ∧ M p ⟨col, bound⟩ = 1 ∧ ∀ i ∉ T, i ≠ p → M i ⟨col, bound⟩ ≠ 0 → p < i := by
  obtain ⟨holds, first⟩ := find_finRange found
  rw [decide_eq_true_iff, Ne, inv.current bound p, not_or] at holds
  refine ⟨holds.1, ?_, fun i out apart nonzero => ?_⟩
  · have entry := inv.ahead p holds.1 ⟨col, bound⟩ le_rfl
    have nonzero := holds.2
    rw [← entry] at nonzero ⊢
    cases value : testBit (st.mat p) col with
    | false => exact (nonzero (by rw [value]; rfl)).elim
    | true => rfl
  · refine lt_of_le_of_ne (first i ?_) apart.symm
    rw [decide_eq_true_iff, Ne, inv.current bound i, not_or]
    exact ⟨out, nonzero⟩

omit inv in
theorem insert_column (bound : col < ncols) :
    insert (⟨col, bound⟩ : Fin ncols) {c | c.val < col} = {c | c.val < col + 1} := by
  ext c
  simp only [Set.mem_insert_iff, Fin.ext_iff, Set.mem_ofPred_eq]
  omega

theorem Inv.skip (bound : col < ncols) (none : getPivot st.mat st.cur = none) :
    Inv A (col + 1) T L M { st with cur := st.cur.next } := by
  have zero := inv.getPivot_none bound none
  have reduced := inv.reduced.skip zero
  rw [insert_column bound] at reduced
  refine ⟨reduced, inv.used, inv.left, fun i out c later => inv.ahead i out c (by omega),
    fun t member c later => inv.spent t member c (by omega), fun i out c before => ?_, fun c later => ?_,
    fun c before p found => ?_, fun p member => ?_, inv.cursor.next⟩
  · by_cases here : c = col
    · have entry := inv.ahead i out ⟨col, bound⟩ le_rfl
      rw [zero i out] at entry
      rw [here, inv.future col le_rfl]
      exact entry
    · exact inv.markers i out c (by omega)
  · exact inv.future c (by omega)
  · by_cases here : c = col
    · rw [here, inv.future col le_rfl] at found
      exact (Option.some_ne_none p found.symm).elim
    · exact inv.pivots c (by omega) p found
  · obtain ⟨c, before, found⟩ := inv.column p member
    exact ⟨c, by omega, found⟩

omit inv in
theorem addRows_self (stride : Nat) (mat : Fin nrows → Limbs) (p : Fin nrows) (cur : Cursor) (r : Fin nrows) :
    addRows stride mat p p cur r = if r = p then orMask cur (xorLimbs stride (mat p) (mat p)) else mat r := by
  by_cases same : r = p
  · simp [addRows, addRowTo, same]
  · simp [addRows, addRowTo, same]

def share (ones : Finset (Fin nrows)) (i : Fin nrows) : ZMod 2 := if i ∈ ones then 1 else 0

omit inv in
theorem bit_addedToLeft {perCol : Nat} (fits : nrows ≤ perCol * 64) (pivot : Fin nrows) (l : Fin nrows → Limbs)
    (ones : Finset (Fin nrows)) :
    toMatrix nrows (addedToLeft perCol pivot l ones) = addPivot (toMatrix nrows l) pivot (share ones) := by
  ext i k
  rw [addPivot_entry, toMatrix, addedToLeft, share]
  by_cases member : i ∈ ones
  · rw [if_pos member, if_pos member, testBit_xorLimbs (by omega), bit_xor, one_mul]
    rfl
  · rw [if_neg member, if_neg member, zero_mul, add_zero]
    rfl

section Pivot
variable (bound : col < ncols) {p : Fin nrows} (found : getPivot st.mat st.cur = some p) {ones : Finset (Fin nrows)}
  (mem_ones : ∀ i, i ∈ ones ↔ p < i ∧ st.mat i st.cur.limb &&& st.cur.mask1 ≠ 0)
include bound found mem_ones

theorem Inv.share_eq {i : Fin nrows} (out : i ∉ T) (apart : i ≠ p) : share ones i = M i ⟨col, bound⟩ := by
  have first := (inv.getPivot_some bound found).2.2
  rw [share]
  by_cases held : i ∈ ones
  · have nonzero := ((mem_ones i).mp held).2
    rw [Ne, inv.current bound i, not_or] at nonzero
    have bits := inv.ahead i out ⟨col, bound⟩ le_rfl
    have set := nonzero.2
    rw [if_pos held, ← bits]
    rw [← bits, bit_eq_zero, Bool.not_eq_false] at set
    rw [set, bit_true]
  · rw [if_neg held]
    by_contra nonzero
    refine held ((mem_ones i).mpr ⟨first i out apart (Ne.symm nonzero), ?_⟩)
    rw [Ne, inv.current bound i, not_or]
    exact ⟨out, Ne.symm nonzero⟩

omit bound found in
theorem Inv.pivot_rows (perRow : Nat) (r : Fin nrows) :
    addRows perRow (addedTo perRow p st.cur st.mat ones) p p st.cur r =
      if r = p then setBit (xorLimbs perRow (st.mat p) (st.mat p)) col
      else if r ∈ ones then setBit (xorLimbs perRow (st.mat r) (st.mat p)) col else st.mat r := by
  have self : p ∉ ones := fun held => lt_irrefl p ((mem_ones p).mp held).1
  rw [addRows_self]
  simp only [addedTo, self, if_false, inv.cursor.orMask]

theorem Inv.pivot_markers {perRow : Nat} (room : ncols ≤ perRow * 64) {i : Fin nrows} (out : i ∉ T) (apart : i ≠ p)
    {c : Nat} (before : c < col + 1) :
    bit (testBit (if i ∈ ones then setBit (xorLimbs perRow (st.mat i) (st.mat p)) col else st.mat i) c) =
      (Function.update st.setPivot col (some p) c).elim 0 (addPivot L p (share ones) i) := by
  have fresh := (inv.getPivot_some bound found).1
  by_cases here : c = col
  · have none : L i p = 0 := by
      by_contra nonzero
      exact fresh (inv.reduced.earlier i out p apart.symm nonzero).1
    rw [here, Function.update_self, Option.elim_some, addPivot_entry, none, zero_add, inv.reduced.own p fresh, mul_one,
      share]
    by_cases held : i ∈ ones
    · rw [if_pos held, if_pos held, testBit_setBit, decide_eq_true rfl, Bool.or_true, bit_true]
    · have zero := inv.share_eq bound found mem_ones out apart
      rw [share, if_neg held] at zero
      rw [if_neg held, if_neg held, zero]
      exact inv.ahead i out ⟨col, bound⟩ le_rfl
  · rw [Function.update_of_ne here]
    have mine := inv.markers i out c (by omega)
    have others := inv.markers p fresh c (by omega)
    by_cases held : i ∈ ones
    · rw [if_pos held, testBit_setBit, testBit_xorLimbs (by omega), decide_eq_false here, Bool.or_false, bit_xor, mine,
        others]
      cases st.setPivot c with
      | none => exact add_zero 0
      | some q => rw [Option.elim_some, Option.elim_some, Option.elim_some, addPivot_entry, share, if_pos held, one_mul]
    · rw [if_neg held, mine]
      cases st.setPivot c with
      | none => rfl
      | some q => rw [Option.elim_some, Option.elim_some, addPivot_entry, share, if_neg held, zero_mul, add_zero]

end Pivot

theorem Inv.pivot {perRow perCol : Nat} (room : ncols ≤ perRow * 64) (fits : st.lmat.isSome → nrows ≤ perCol * 64)
    (bound : col < ncols) {p : Fin nrows} (found : getPivot st.mat st.cur = some p) :
    ∃ L' M', Inv A (col + 1) (insert p T) L' M' (columnStep perRow perCol st col) := by
  obtain ⟨fresh, one, first⟩ := inv.getPivot_some bound found
  obtain ⟨ones, mem_ones, eliminated⟩ := eliminate_eq perRow perCol p st.cur st.mat st.lmat
  have outside : ∀ t ∈ T, t ∉ ones :=
    fun t member held => ((mem_ones t).mp held).2 ((inv.current bound t).mpr (Or.inl member))
  have self : p ∉ ones := fun held => lt_irrefl p ((mem_ones p).mp held).1
  have reduced := inv.reduced.pivot fresh one (x := share ones) (if_neg self)
    (fun i out apart => by rw [inv.share_eq bound found mem_ones out apart, CharTwo.neg_eq]) first (fun _ _ _ => lt_trans)
  rw [insert_column bound] at reduced
  have rows := inv.pivot_rows mem_ones perRow
  rw [columnStep, found]
  dsimp only
  rw [eliminated]
  dsimp only
  refine ⟨_, _, reduced, fun i => ?_, fun l found => ?_, fun i out c later => ?_, fun t member c later => ?_,
    fun i out c before => ?_, fun c later => ?_, fun c before q found => ?_, fun q member => ?_, inv.cursor.next⟩
  · rw [Finset.mem_insert, ← inv.used i]
    dsimp only
    by_cases same : i = p
    · simp [same]
    · rw [Function.update_of_ne same, or_iff_right same]
  · dsimp only at found
    obtain ⟨l₀, held, rfl⟩ := Option.map_eq_some_iff.mp found
    rw [bit_addedToLeft (fits (by rw [held]; rfl)), inv.left l₀ held]
  · rw [Finset.mem_insert, not_or] at out
    dsimp only
    rw [rows, if_neg out.1, addPivot_entry, share, ← inv.ahead i out.2 c (by omega), ← inv.ahead p fresh c (by omega)]
    by_cases held : i ∈ ones
    · rw [if_pos held, if_pos held, testBit_setBit, testBit_xorLimbs (by omega), decide_eq_false (by omega), Bool.or_false,
        bit_xor, one_mul]
    · rw [if_neg held, if_neg held, zero_mul, add_zero]
  · dsimp only
    rw [rows]
    by_cases same : t = p
    · rw [if_pos same, testBit_setBit, testBit_xorLimbs (by omega), decide_eq_false (by omega), Bool.or_false,
        Bool.xor_self]
    · have old := Finset.mem_of_mem_insert_of_ne member same
      rw [if_neg same, if_neg (outside t old)]
      exact inv.spent t old c (by omega)
  · rw [Finset.mem_insert, not_or] at out
    dsimp only
    rw [rows, if_neg out.1]
    exact inv.pivot_markers bound found mem_ones room out.2 out.1 before
  · dsimp only
    rw [Function.update_of_ne (by omega)]
    exact inv.future c (by omega)
  · dsimp only at found
    by_cases here : c = col
    · rw [here, Function.update_self, Option.some_inj] at found
      rw [← found]
      exact Finset.mem_insert_self p T
    · rw [Function.update_of_ne here] at found
      exact Finset.mem_insert_of_mem (inv.pivots c (by omega) q found)
  · by_cases same : q = p
    · exact ⟨col, by omega, by rw [same]; exact Function.update_self _ _ _⟩
    · obtain ⟨c, before, found⟩ := inv.column q (Finset.mem_of_mem_insert_of_ne member same)
      refine ⟨c, by omega, ?_⟩
      dsimp only
      rw [Function.update_of_ne (by omega), found]

end Columns

theorem columnStep_lmat_isSome (perRow perCol : Nat) (st : Gauss nrows) (col : Nat) :
    (columnStep perRow perCol st col).lmat.isSome = st.lmat.isSome := by
  rw [columnStep]
  split
  · rfl
  · next pivot _ =>
    obtain ⟨ones, _, eliminated⟩ := eliminate_eq perRow perCol pivot st.cur st.mat st.lmat
    rw [eliminated]
    exact Option.isSome_map

theorem Inv.start (mat : Fin nrows → Limbs) {lmat : Option (Fin nrows → Limbs)}
    (identity : ∀ l, lmat = some l → l = identityRows) :
    Inv (toMatrix ncols mat) 0 ∅ 1 (toMatrix ncols mat) ⟨mat, lmat, fun _ => none, fun _ => false, ⟨0, 1⟩⟩ where
  reduced := by
    have empty : {c : Fin ncols | c.val < 0} = ∅ := Set.eq_empty_of_forall_notMem fun c => Nat.not_lt_zero c.val
    rw [empty]
    exact Reduced.start
  used i := by simp
  left l held := by rw [identity l held, toMatrix_identityRows]
  ahead _ _ _ _ := rfl
  spent _ none := (Finset.notMem_empty _ none).elim
  markers _ _ c none := (Nat.not_lt_zero c none).elim
  future _ _ := rfl
  pivots c none := (Nat.not_lt_zero c none).elim
  column _ none := (Finset.notMem_empty _ none).elim
  cursor := Cursor.at_zero

theorem gaussianElimination_inv {perRow : Nat} (perCol : Nat) (room : ncols ≤ perRow * 64) (mat : Fin nrows → Limbs)
    (lmat : Option (Fin nrows → Limbs)) (identity : ∀ l, lmat = some l → l = identityRows)
    (fits : lmat.isSome → nrows ≤ perCol * 64) :
    (gaussianElimination ncols perRow perCol mat lmat).lmat.isSome = lmat.isSome ∧ ∃ T L M,
      Inv (toMatrix ncols mat) ncols T L M (gaussianElimination ncols perRow perCol mat lmat) := by
  suffices run : ∀ k ≤ ncols, ∀ st,
      st = (List.range k).foldl (columnStep perRow perCol) ⟨mat, lmat, fun _ => none, fun _ => false, ⟨0, 1⟩⟩ →
      st.lmat.isSome = lmat.isSome ∧ ∃ T L M, Inv (toMatrix ncols mat) k T L M st from run ncols le_rfl _ rfl
  intro k
  induction k with
  | zero =>
    rintro _ _ rfl
    exact ⟨rfl, ∅, 1, _, Inv.start mat identity⟩
  | succ k ih =>
    rintro bound _ rfl
    obtain ⟨held, T, L, M, inv⟩ := ih (by omega) _ rfl
    rw [List.range_succ, List.foldl_append, List.foldl_cons, List.foldl_nil]
    refine ⟨(columnStep_lmat_isSome _ _ _ _).trans held, ?_⟩
    cases search : getPivot _ _ with
    | none =>
      refine ⟨T, L, M, ?_⟩
      rw [columnStep, search]
      exact inv.skip bound search
    | some p =>
      obtain ⟨L', M', next⟩ := inv.pivot room (fun some => fits (held ▸ some)) bound search
      exact ⟨_, L', M', next⟩

/-! ### The kernel -/

def vectorOf (nrows : Nat) (v : Limbs) : Fin nrows → ZMod 2 := fun q => bit (testBit v q)

section Kernel
variable {A : Matrix (Fin nrows) (Fin ncols) (ZMod 2)} {T : Finset (Fin nrows)}
  {L : Matrix (Fin nrows) (Fin nrows) (ZMod 2)} {M : Matrix (Fin nrows) (Fin ncols) (ZMod 2)} {G : Gauss nrows}
  (inv : Inv A ncols T L M G)
include inv

theorem Inv.all_columns : Reduced (· < ·) A Set.univ T L M := by
  have all : {c : Fin ncols | c.val < ncols} = Set.univ := Set.eq_univ_of_forall fun c => c.isLt
  rw [← all]
  exact inv.reduced

theorem Inv.recover {i : Fin nrows} (out : i ∉ T) (own : Limbs) (k : Nat) (bound : k ≤ ncols) :
    ∃ v cur, (List.range k).foldlM (recoverStep G.setPivot (G.mat i)) (own, ⟨0, 1⟩) = some (v, cur) ∧ cur.At k ∧
      ∀ q : Fin nrows, testBit v q = true ↔ testBit own q = true ∨
        ∃ c < k, G.setPivot c = some q ∧ testBit (G.mat i) c = true := by
  induction k with
  | zero => exact ⟨own, ⟨0, 1⟩, rfl, Cursor.at_zero, fun q => by simp⟩
  | succ k ih =>
    obtain ⟨v, cur, run, here, bits⟩ := ih (by omega)
    rw [List.range_succ, List.foldlM_append, run]
    cases value : testBit (G.mat i) k with
    | false =>
      refine ⟨v, cur.next, ?_, here.next, fun q => ?_⟩
      · have step : recoverStep G.setPivot (G.mat i) (v, cur) k = some (v, cur.next) :=
          if_pos ((here.read (G.mat i)).mpr value)
        simp [step]
      · rw [bits q]
        refine or_congr_right ⟨?_, ?_⟩
        · rintro ⟨c, before, found⟩
          exact ⟨c, by omega, found⟩
        · rintro ⟨c, before, found, set⟩
          have apart : c ≠ k := fun same => by rw [same, value] at set; exact Bool.noConfusion set
          exact ⟨c, by omega, found, set⟩
    | true =>
      have marker := inv.markers i out k (by omega)
      cases pivot : G.setPivot k with
      | none =>
        rw [value, pivot] at marker
        exact (one_ne_zero marker).elim
      | some p =>
        refine ⟨setBit v p, cur.next, ?_, here.next, fun q => ?_⟩
        · have set : ¬ G.mat i cur.limb &&& cur.mask1 = 0 := by
            rw [here.read, value]
            exact Bool.noConfusion
          have step : recoverStep G.setPivot (G.mat i) (v, cur) k = some (setBit v p, cur.next) := by
            rw [recoverStep, if_neg set, pivot]
            rfl
          simp [step]
        · rw [testBit_setBit, Bool.or_eq_true, bits q, decide_eq_true_iff]
          constructor
          · rintro ((own | ⟨c, before, found⟩) | same)
            · exact Or.inl own
            · exact Or.inr ⟨c, by omega, found⟩
            · exact Or.inr ⟨k, by omega, by rw [pivot, Fin.ext same], value⟩
          · rintro (own | ⟨c, before, found, set⟩)
            · exact Or.inl (Or.inl own)
            · by_cases same : c = k
              · rw [same, pivot, Option.some_inj] at found
                exact Or.inr (by rw [found])
              · exact Or.inl (Or.inr ⟨c, by omega, found, set⟩)

theorem Inv.kernelVector {perCol : Nat} (room : nrows ≤ perCol * 64) (vector : Limbs) {i : Fin nrows} (out : i ∉ T) :
    ∃ v, kernelVector ncols G perCol vector i = some v ∧ vectorOf nrows v = L i := by
  have limb : i.val / 64 < perCol := by omega
  let cleared : Limbs := fun j => if j < perCol then 0 else vector j
  have own : Function.update cleared (i / 64) (1#64 <<< (i.val % 64)) = setBit cleared i := by
    have zero : cleared (i / 64) = 0#64 := if_pos limb
    rw [setBit, zero, BitVec.zero_or]
  obtain ⟨v, cur, run, -, bits⟩ := inv.recover out (setBit cleared i) ncols le_rfl
  refine ⟨v, ?_, funext fun q => ?_⟩
  · change Option.map Prod.fst (List.foldlM _ (Function.update cleared (i / 64) (1#64 <<< (i.val % 64)), _) _) = some v
    rw [own, run]
    rfl
  · have clear : testBit cleared q = false := by
      have zero : cleared (q / 64) = 0#64 := if_pos (by omega)
      rw [testBit, zero]
      exact BitVec.getLsbD_zero
    have value := bits q
    rw [testBit_setBit, clear, Bool.false_or, decide_eq_true_iff] at value
    rw [vectorOf]
    by_cases same : q = i
    · rw [value.mpr (Or.inl (by rw [same])), same, inv.reduced.own i out, bit_true]
    · by_cases zero : L i q = 0
      · have none : testBit v q = false := by
          rw [← Bool.not_eq_true, value, not_or]
          refine ⟨fun equal => same (Fin.ext equal), ?_⟩
          rintro ⟨c, before, found, set⟩
          have marker := inv.markers i out c before
          rw [found, set, Option.elim_some, zero] at marker
          exact one_ne_zero marker
        rw [none, zero, bit_false]
      · obtain ⟨c, before, found⟩ := inv.column q (inv.reduced.earlier i out q same zero).1
        have marker := inv.markers i out c before
        rw [found, Option.elim_some] at marker
        rw [← marker] at zero ⊢
        rw [bit_eq_zero, Bool.not_eq_false] at zero
        rw [zero, value.mpr (Or.inr ⟨c, before, found, zero⟩)]

theorem Inv.kernel_run (ker : Option (Ker nrows)) (is : List (Fin nrows)) (dim : Nat) (vs : List Limbs)
    (enough : is.length ≤ dim) :
    ∃ dim' vs', is.foldlM (kernelStep ncols G ker) (dim, vs) = some (dim', vs') ∧
      dim = dim' + (is.filter fun i => decide (i ∉ T)).length ∧
      (ker.isSome → vs'.map (vectorOf nrows) = vs.map (vectorOf nrows) ++ (is.filter fun i => decide (i ∉ T)).map L.row) := by
  induction is generalizing dim vs with
  | nil => exact ⟨dim, vs, rfl, rfl, fun _ => by simp⟩
  | cons i rest ih =>
    rw [List.length_cons] at enough
    rw [List.foldlM_cons, kernelStep.eq_def]
    dsimp only
    by_cases member : i ∈ T
    · rw [if_pos ((inv.used i).mpr member), List.filter_cons_of_neg (by simpa using member)]
      exact ih dim vs (by omega)
    · rw [if_neg fun used => member ((inv.used i).mp used), List.filter_cons_of_pos (by simpa using member),
        List.length_cons]
      cases ker with
      | none =>
        obtain ⟨dim', vs', run, count, -⟩ := ih (dim - 1) vs (by omega)
        exact ⟨dim', vs', run, by omega, fun none => Bool.noConfusion none⟩
      | some ker =>
        obtain ⟨v, returns, bits⟩ := inv.kernelVector ker.perCol.room (ker.vectors vs.length) member
        obtain ⟨dim', vs', run, count, vectors⟩ := ih (dim - 1) (vs ++ [v]) (by omega)
        refine ⟨dim', vs', ?_, by omega, fun some => ?_⟩
        · dsimp only
          rw [returns]
          exact run
        · rw [vectors some, List.map_append, List.map_singleton, bits, List.map_cons, List.append_assoc,
            List.singleton_append]
          rfl

end Kernel

/-- `kernel` returns `dim` and writes the vectors `vs`, a basis of the left kernel. -/
def KernelBasis (ncols : Nat) (perRow : Stride ncols) (mat : Fin nrows → Limbs) (ker : Option (Ker nrows)) : Prop :=
  ∃ dim vs, kernel ncols perRow mat ker = some (dim, vs) ∧ dim = nrows - (toMatrix ncols mat).rank ∧
    (ker.isSome → vs.length = dim ∧ LinearIndependent (ZMod 2) (fun k : Fin vs.length => vectorOf nrows vs[k]) ∧
      Submodule.span (ZMod 2) (Set.range fun k : Fin vs.length => vectorOf nrows vs[k]) =
        LinearMap.ker (toMatrix ncols mat).vecMulLinear)

theorem length_unused (T : Finset (Fin nrows)) :
    ((List.finRange nrows).filter fun i => decide (i ∉ T)).length = nrows - T.card := by
  have card := Finset.card_compl T
  rw [Fintype.card_fin] at card
  rw [← card, ← List.toFinset_card_of_nodup ((List.nodup_finRange nrows).filter _)]
  congr 1
  ext i
  simp

theorem listed_basis {L : Matrix (Fin nrows) (Fin nrows) (ZMod 2)} (unit : IsUnit L) {is : List (Fin nrows)}
    (nodup : is.Nodup) {vs : List Limbs} (listed : vs.map (vectorOf nrows) = is.map L.row) :
    LinearIndependent (ZMod 2) (fun k : Fin vs.length => vectorOf nrows vs[k]) ∧
    Set.range (fun k : Fin vs.length => vectorOf nrows vs[k]) = L.row '' {i | i ∈ is} := by
  have same : vs.length = is.length := by simpa using congrArg List.length listed
  have entry : ∀ k : Fin vs.length, vectorOf nrows vs[k] = L.row is[k] := by
    intro k
    have bound : k.val < (vs.map (vectorOf nrows)).length := by
      rw [List.length_map]
      exact k.isLt
    simpa using List.getElem_of_eq listed bound
  constructor
  · rw [funext entry]
    refine (linearIndependent_rows_iff_isUnit.mpr unit).comp (fun k : Fin vs.length => is[k]) fun k l equal => ?_
    exact Fin.ext ((List.Nodup.getElem_inj_iff nodup).mp equal)
  · rw [funext entry]
    ext v
    constructor
    · rintro ⟨k, rfl⟩
      exact ⟨is[k], List.getElem_mem _, rfl⟩
    · rintro ⟨i, member, rfl⟩
      obtain ⟨k, bound, rfl⟩ := List.getElem_of_mem member
      exact ⟨⟨k, by omega⟩, rfl⟩

theorem kernel_basis (perRow : Stride ncols) (mat : Fin nrows → Limbs) (ker : Option (Ker nrows)) :
    KernelBasis ncols perRow mat ker := by
  obtain ⟨-, T, L, M, inv⟩ := gaussianElimination_inv 0 perRow.room mat none
    (fun l none => (Option.some_ne_none l none.symm).elim) (fun none => Bool.noConfusion none)
  have red := inv.all_columns
  obtain ⟨rest, vs, run, count, vectors⟩ := inv.kernel_run ker (List.finRange nrows) nrows [] (by simp)
  rw [length_unused] at count
  have small : T.card ≤ nrows := by simpa using T.card_le_univ
  refine ⟨nrows - rest, vs, by rw [kernel, run]; rfl, by rw [red.rank_eq]; omega, fun some => ?_⟩
  have listed := vectors some
  rw [List.map_nil, List.nil_append] at listed
  obtain ⟨independent, range⟩ := listed_basis inv.reduced.invertible ((List.nodup_finRange nrows).filter _) listed
  refine ⟨?_, independent, ?_⟩
  · have length := congrArg List.length listed
    rw [List.length_map, List.length_map, length_unused] at length
    omega
  · rw [range, ← red.span_kernel]
    congr 2
    ext i
    simp

/-! ### The spanned basis -/

theorem foldl_count (test : Fin nrows → Bool) (is : List (Fin nrows)) (rank : Nat) :
    is.foldl (fun rank i => if test i then rank + 1 else rank) rank = rank + (is.filter test).length := by
  induction is generalizing rank with
  | nil => rfl
  | cons i rest ih =>
    rw [List.foldl_cons, ih]
    cases holds : test i with
    | false => rw [if_neg Bool.false_ne_true, List.filter_cons_of_neg (by rw [holds]; exact Bool.false_ne_true)]
    | true =>
      rw [if_pos rfl, List.filter_cons_of_pos holds, List.length_cons]
      omega

section Copy
variable {perCol : Nat} (room : nrows ≤ perCol * 64) (lmat2 : Fin nrows → Limbs) (setUsed : Fin nrows → Bool)

include room in
theorem vectorOf_copy (row old : Limbs) :
    vectorOf nrows (fun j => if j < perCol then row j else old j) = vectorOf nrows row := by
  funext q
  have limb : q.val / 64 < perCol := by omega
  rw [vectorOf, vectorOf, testBit, testBit, if_pos limb]

include room in
theorem copy_run (is : List (Fin nrows)) (s : Spanned) (apart : s.r + (is.filter setUsed).length ≤ s.h) :
    ∃ s', is.foldl (copyStep perCol lmat2 setUsed) s = s' ∧ s'.r = s.r + (is.filter setUsed).length ∧
      (∀ j i, (is.filter setUsed)[j]? = some i → vectorOf nrows (s'.lmat (s.r + j)) = vectorOf nrows (lmat2 i)) ∧
      (∀ j i, (is.filter fun i => !setUsed i)[j]? = some i →
        vectorOf nrows (s'.lmat (s.h + j)) = vectorOf nrows (lmat2 i)) ∧
      ∀ k < s.h, (k < s.r ∨ s.r + (is.filter setUsed).length ≤ k) → s'.lmat k = s.lmat k := by
  induction is generalizing s with
  | nil => exact ⟨s, rfl, rfl, fun j i none => by simp at none, fun j i none => by simp at none, fun _ _ _ => rfl⟩
  | cons i rest ih =>
    rw [List.foldl_cons, copyStep]
    dsimp only
    cases used : setUsed i with
    | true =>
      rw [List.filter_cons_of_pos used, List.length_cons] at apart ⊢
      rw [if_pos rfl, List.filter_cons_of_neg (by rw [used]; exact Bool.false_ne_true)]
      obtain ⟨s', run, r, first, second, frame⟩ := ih { s with
        lmat := Function.update s.lmat s.r fun j => if j < perCol then lmat2 i j else s.lmat s.r j
        r := s.r + 1 } (by dsimp only; omega)
      dsimp only at r first second frame
      refine ⟨s', run, by omega, fun j i' found => ?_, second, fun k below out => ?_⟩
      · cases j with
        | zero =>
          rw [List.getElem?_cons_zero, Option.some_inj] at found
          rw [Nat.add_zero, frame s.r (by omega) (by omega), Function.update_self, vectorOf_copy room, found]
        | succ j =>
          rw [List.getElem?_cons_succ] at found
          rw [← first j i' found, Nat.add_right_comm, Nat.add_assoc]
      · rw [frame k below (by omega), Function.update_of_ne (by omega)]
    | false =>
      rw [List.filter_cons_of_neg (by rw [used]; exact Bool.false_ne_true)] at apart ⊢
      rw [if_neg Bool.false_ne_true, List.filter_cons_of_pos (by rw [used]; rfl)]
      obtain ⟨s', run, r, first, second, frame⟩ := ih { s with
        lmat := Function.update s.lmat s.h fun j => if j < perCol then lmat2 i j else s.lmat s.h j
        h := s.h + 1 } (by dsimp only; omega)
      dsimp only at r first second frame
      refine ⟨s', run, r, first, fun j i' found => ?_, fun k below out => ?_⟩
      · cases j with
        | zero =>
          rw [List.getElem?_cons_zero, Option.some_inj] at found
          rw [Nat.add_zero, frame s.h (by omega) (by omega), Function.update_self, vectorOf_copy room, found]
        | succ j =>
          rw [List.getElem?_cons_succ] at found
          rw [← second j i' found, Nat.add_right_comm, Nat.add_assoc]
      · rw [frame k (by omega) (by omega), Function.update_of_ne (by omega)]

end Copy

/-- `spanned_basis` returns the rank `r` and an invertible matrix that brings `r` independent rows to the top and zeros
below. -/
def SpannedBasis (ncols : Nat) (perRow : Stride ncols) (perCol : Stride nrows) (lmat : Nat → Limbs)
    (mat : Fin nrows → Limbs) : Prop :=
  ∃ r lmat', spannedBasis ncols perRow perCol lmat mat = some (r, lmat') ∧ r = (toMatrix ncols mat).rank ∧
    IsUnit (toMatrix nrows fun i : Fin nrows => lmat' i) ∧
    LinearIndepOn (ZMod 2) (toMatrix nrows (fun i : Fin nrows => lmat' i) * toMatrix ncols mat).row {i | i.val < r} ∧
    ∀ i, r ≤ i.val → (toMatrix nrows (fun i : Fin nrows => lmat' i) * toMatrix ncols mat).row i = 0

theorem reordered {A : Matrix (Fin nrows) (Fin ncols) (ZMod 2)} {T : Finset (Fin nrows)}
    {L N : Matrix (Fin nrows) (Fin nrows) (ZMod 2)} {M : Matrix (Fin nrows) (Fin ncols) (ZMod 2)}
    (red : Reduced (· < ·) A Set.univ T L M) {e : Fin nrows → Fin nrows} (inj : Function.Injective e)
    (rows : ∀ k, N k = L (e k)) (selected : ∀ k, e k ∈ T ↔ k.val < T.card) :
    IsUnit N ∧ LinearIndepOn (ZMod 2) (N * A).row {i | i.val < T.card} ∧ ∀ i, T.card ≤ i.val → (N * A).row i = 0 := by
  have product : ∀ k, (N * A).row k = M.row (e k) := by
    intro k
    rw [red.product]
    ext c
    rw [row_apply, row_apply, mul_apply, mul_apply, rows k]
  refine ⟨?_, ?_, fun i out => ?_⟩
  · rw [← linearIndependent_rows_iff_isUnit, show N.row = L.row ∘ e from funext rows]
    exact (linearIndependent_rows_iff_isUnit.mpr red.invertible).comp e inj
  · rw [funext product]
    exact red.reduced_independent.comp (fun k : {i : Fin nrows | i.val < T.card} => ⟨e k, (selected k).mpr k.2⟩)
      fun k l same => Subtype.ext (inj (congrArg Subtype.val same))
  · rw [product]
    exact red.row_eq_zero fun member => absurd ((selected i).mp member) (by omega)

def usedFirst (setUsed : Fin nrows → Bool) : List (Fin nrows) :=
  (List.finRange nrows).filter setUsed ++ (List.finRange nrows).filter fun i => !setUsed i

theorem usedFirst_perm (setUsed : Fin nrows → Bool) : (usedFirst setUsed).Perm (List.finRange nrows) :=
  List.filter_append_perm setUsed (List.finRange nrows)

theorem length_usedFirst (setUsed : Fin nrows → Bool) : (usedFirst setUsed).length = nrows :=
  (usedFirst_perm setUsed).length_eq.trans List.length_finRange

def usedAt (setUsed : Fin nrows → Bool) (k : Fin nrows) : Fin nrows :=
  (usedFirst setUsed).get (k.cast (length_usedFirst setUsed).symm)

theorem usedAt_injective (setUsed : Fin nrows → Bool) : Function.Injective (usedAt setUsed) := by
  have nodup : (usedFirst setUsed).Nodup := (usedFirst_perm setUsed).nodup_iff.mpr (List.nodup_finRange nrows)
  exact nodup.injective_get.comp (Fin.cast_injective _)

theorem usedAt_front {setUsed : Fin nrows → Bool} {k : Fin nrows}
    (front : k.val < ((List.finRange nrows).filter setUsed).length) :
    ((List.finRange nrows).filter setUsed)[k.val]? = some (usedAt setUsed k) := by
  rw [List.getElem?_eq_getElem front, Option.some_inj, usedAt, List.get_eq_getElem]
  exact (List.getElem_append_left front).symm

theorem usedAt_back {setUsed : Fin nrows → Bool} {k : Fin nrows}
    (back : ((List.finRange nrows).filter setUsed).length ≤ k.val) :
    ((List.finRange nrows).filter fun i => !setUsed i)[k.val - ((List.finRange nrows).filter setUsed).length]? =
      some (usedAt setUsed k) := by
  have length := length_usedFirst setUsed
  rw [usedFirst, List.length_append] at length
  have bound : k.val - ((List.finRange nrows).filter setUsed).length <
      ((List.finRange nrows).filter fun i => !setUsed i).length := by omega
  rw [List.getElem?_eq_getElem bound, Option.some_inj, usedAt, List.get_eq_getElem]
  exact (List.getElem_append_right back).symm

theorem usedAt_used (setUsed : Fin nrows → Bool) (k : Fin nrows) :
    setUsed (usedAt setUsed k) = true ↔ k.val < ((List.finRange nrows).filter setUsed).length := by
  by_cases front : k.val < ((List.finRange nrows).filter setUsed).length
  · have member := List.mem_of_getElem? (usedAt_front front)
    exact iff_of_true (List.mem_filter.mp member).2 front
  · have member := List.mem_of_getElem? (usedAt_back (not_lt.mp front))
    have unused := (List.mem_filter.mp member).2
    rw [Bool.not_eq_true'] at unused
    exact iff_of_false (by rw [unused]; exact Bool.false_ne_true) front

theorem spanned_basis (perRow : Stride ncols) (perCol : Stride nrows) (lmat : Nat → Limbs) (mat : Fin nrows → Limbs) :
    SpannedBasis ncols perRow perCol lmat mat := by
  obtain ⟨held, T, L, M, inv⟩ := gaussianElimination_inv perCol.limbs perRow.room mat (some identityRows)
    (fun l same => (Option.some_inj.mp same).symm) (fun _ => perCol.room)
  rw [SpannedBasis, spannedBasis]
  generalize gaussianElimination ncols perRow.limbs perCol.limbs mat (some identityRows) = G at held inv ⊢
  have red := inv.all_columns
  obtain ⟨lmat2, left⟩ := Option.isSome_iff_exists.mp (held.trans rfl)
  have rows := inv.left lmat2 left
  have card : ((List.finRange nrows).filter G.setUsed).length = T.card := by
    rw [← List.toFinset_card_of_nodup ((List.nodup_finRange nrows).filter _)]
    congr 1
    ext i
    rw [List.mem_toFinset, List.mem_filter, inv.used i, and_iff_right (List.mem_finRange i)]
  obtain ⟨s', run, r, first, second, -⟩ := copy_run perCol.room lmat2 G.setUsed (List.finRange nrows)
    ⟨lmat, 0, ((List.finRange nrows).filter G.setUsed).length⟩ (Nat.zero_add _).le
  simp only [Nat.zero_add] at r first
  have copied : ∀ k : Fin nrows, vectorOf nrows (s'.lmat k) = vectorOf nrows (lmat2 (usedAt G.setUsed k)) := by
    intro k
    by_cases front : k.val < ((List.finRange nrows).filter G.setUsed).length
    · exact first k _ (usedAt_front front)
    · have back := second _ _ (usedAt_back (not_lt.mp front))
      rwa [Nat.add_sub_cancel' (not_lt.mp front)] at back
  have selected : ∀ k, usedAt G.setUsed k ∈ T ↔ k.val < T.card := by
    intro k
    rw [← inv.used, usedAt_used, card]
  obtain ⟨unit, independent, zero⟩ := reordered red (N := toMatrix nrows fun i : Fin nrows => s'.lmat i)
    (usedAt_injective G.setUsed) (fun k => (copied k).trans (congrFun rows _)) selected
  refine ⟨T.card, s'.lmat, ?_, red.rank_eq.symm, unit, independent, zero⟩
  rw [left, foldl_count, Nat.zero_add, Option.map_some]
  dsimp only
  rw [run, r, card]

/-- `kernel` and `spanned_basis` on a matrix of any size, whatever the padding of its rows and the output arrays hold. -/
theorem kernel_and_spannedBasis (ncols : Nat) (perRow : Stride ncols) (mat : Fin nrows → Limbs) :
    (∀ ker : Option (Ker nrows), KernelBasis ncols perRow mat ker) ∧
      ∀ (perCol : Stride nrows) (lmat : Nat → Limbs), SpannedBasis ncols perRow perCol lmat mat :=
  ⟨kernel_basis perRow mat, fun perCol lmat => spanned_basis perRow perCol lmat mat⟩

-- The rows 110, 011 and 101 with ones in the padding; the vector of the kernel is 111.
example : (kernel 3 ⟨1, by decide⟩ (fun (i : Fin 3) _ => ![0xa3, 0x56, 0x0d] i) (some ⟨⟨1, by decide⟩, fun _ _ => 0xff⟩)).map
    (fun s => (s.1, s.2.map fun v => v 0)) = some (1, [7]) := by decide +kernel

end CadoNfs.Linalg.BblasGauss
