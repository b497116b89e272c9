import CadoNfs.Linalg.Balancing
import CadoNfs.Lib.Buckets

/-!
# Balancing a matrix

`mf_bal` of `linalg/bwc/mf_bal.cpp` with the dispatch of `shuffle_rtable` through the heap of `linalg/rowset_heap.cpp`.
-/

namespace CadoNfs.Linalg.MfBal

open Utils

/-- What ends a run; `unfinished` is a search for an invertible residue that goes on. -/
inductive MfBalError
  | oddCoeffs
  | inconsistent
  | assertion
  | undefined
  | unfinished
  deriving DecidableEq, Repr

structure Bucket where
  s : ℕ
  room : ℕ
  deriving DecidableEq, Repr

def heapCompare (a b : Bucket) : Bool :=
  if b.room = 0 then false else if a.room = 0 then true else decide (b.s < a.s)

/-- The heap of the standard library: at each turn a bucket on top, of which no other one is better. Buckets
keep their places here, and the choice among equals is free. -/
structure HeapLibrary where
  top : ℕ → List Bucket → ℕ
  top_lt : ∀ turn heap, heap ≠ [] → top turn heap < heap.length
  top_best : ∀ turn heap best, heap[top turn heap]? = some best → ∀ b ∈ heap, heapCompare best b = false

def revcmp2u32 (a b : Word × Word) : ℤ :=
  if a.1 > b.1 then -1 else if b.1 > a.1 then 1 else if a.2 > b.2 then -1 else if b.2 > a.2 then 1 else 0

structure Filling where
  heap : List Bucket
  slices : List (List Word)

def putItem (lib : HeapLibrary) (turn : ℕ) (item : Word × Word) (st : Filling) : Except MfBalError Filling :=
  let j := lib.top turn st.heap
  match st.heap[j]?, st.slices[j]? with
  | some b, some r =>
    if b.room = 0 then .error .assertion
    else .ok ⟨st.heap.set j ⟨b.s + item.1.toNat, b.room - 1⟩, st.slices.set j (r ++ [item.2])⟩
  | _, _ => .error .undefined

def fillSlices (lib : HeapLibrary) : ℕ → List (Word × Word) → Filling → Except MfBalError Filling
  | _, [], st => .ok st
  | turn, item :: items, st => (putItem lib turn item st).bind (fillSlices lib (turn + 1) items)

def shuffleRtable (lib : HeapLibrary) (rt : List (Word × Word)) (ns : ℕ) : Except MfBalError (List (List Word)) :=
  let items := rt.mergeSort fun a b => revcmp2u32 a b ≤ 0
  if rt.length % ns ≠ 0 then .error .assertion
  else
    (fillSlices lib 0 items ⟨List.replicate ns ⟨0, rt.length / ns⟩, List.replicate ns []⟩).bind fun st =>
      if st.heap.all (·.room = 0) then .ok st.slices else .error .assertion

inductive Reorder
  | auto
  | none
  | rows
  | columns
  | both
  deriving DecidableEq, Repr

inductive Side
  | row
  | column
  deriving DecidableEq, Repr

def Reorder.weighs : Reorder → Side → Bool
  | .auto, _ => true
  | .none, _ => false
  | .rows, side => side = .row
  | .columns, side => side = .column
  | .both, _ => true

def Reorder.permutes (larger : Bool) : Reorder → Side → Bool
  | .auto, side => side = if larger then .column else .row
  | reorder, side => reorder.weighs side

structure MfBalArgs where
  nh : ℕ
  nv : ℕ
  withcoeffs : Bool := false
  rectangular : Bool := false
  skipDecorrelatingPermutation : Bool := false
  reorder : Reorder := .auto

namespace MfBalArgs
variable (mba : MfBalArgs)

def sideBlock (matsize : Word) : Word := alignChunk (iceildiv matsize (BitVec.ofNat 32 (mba.nh * mba.nv)))

def block (nrows ncols matsize : Word) : Word :=
  if mba.rectangular then mba.sideBlock matsize else wordMax (mba.sideBlock nrows) (mba.sideBlock ncols)

def padding (nrows ncols matsize : Word) : Word :=
  BitVec.ofNat 32 (mba.nv * mba.nh) * mba.block nrows ncols matsize - matsize

def padded (nrows ncols matsize : Word) : Word := matsize + mba.padding nrows ncols matsize

def gridsize : Side → ℕ
  | .row => mba.nh
  | .column => mba.nv

end MfBalArgs

/-! ## The decorrelating shuffle -/

def invertibleFrom (m : ℕ) : ℕ → ℕ → Option (ℕ × ℕ)
  | 0, _ => none
  | fuel + 1, a =>
    match ModUl.inv a m with
    | some ai => some (a, ai)
    | none => invertibleFrom m fuel (ModUl.addUl a 1 m)

def decorrelate (fuel : ℕ) (mba : MfBalArgs) (nrows ncols : Word) :
    Except MfBalError ((Word × Word) × (Word × Word)) :=
  if mba.skipDecorrelatingPermutation then .ok ((1, 0), (1, 0))
  else
    let m := min nrows.toNat ncols.toNat
    if m = 0 then .error .undefined
    else
      let b := ModUl.setUl 42 m
      match invertibleFrom m fuel (ModUl.setUl ncols.toNat.sqrt m) with
      | none => .error .unfinished
      | some (a, ai) =>
        let bi := ModUl.neg (ModUl.mul ai b m) m
        .ok ((BitVec.ofNat 32 a, BitVec.ofNat 32 b), (BitVec.ofNat 32 ai, BitVec.ofNat 32 bi))

/-- The number of coefficients, from the size of the matrix file in bytes; 0 when there is no file. -/
def readMfileHeader (mba : MfBalArgs) (nrows : Word) : Option ℕ → Except MfBalError (BitVec 64)
  | none => .ok 0
  | some size =>
    let ncoeffs := BitVec.ofNat 64 (size / 4) - nrows.setWidth 64
    if mba.withcoeffs then if ncoeffs &&& 1 ≠ 0 then .error .oddCoeffs else .ok (ncoeffs / 2) else .ok ncoeffs

def rankedWeights (bal : BalancingHeader) (matsize n : Word) (file : List Word) : List (Word × Word) :=
  (List.range n.toNat).map fun r =>
    let rx := if r < matsize.toNat then balancingPreUnshuffle bal r else r
    ((file.take matsize.toNat).getD rx 0, BitVec.ofNat 32 r)

def countCoeffs (ncoeffs : BitVec 64) (entries : List (Word × Word)) : Except MfBalError (BitVec 64) :=
  let totalweight := BitVec.ofNat 64 (entries.map fun e => e.1.toNat).sum
  if ncoeffs ≠ 0 then if totalweight ≠ ncoeffs then .error .inconsistent else .ok ncoeffs else .ok totalweight

structure Weighed where
  ncoeffs : BitVec 64
  nzero : Word
  entries : List (Word × Word)

def weighSide (bal : BalancingHeader) (weighs : Bool) (matsize n : Word) (file : List Word) (ncoeffs : BitVec 64) :
    Except MfBalError Weighed :=
  if n < matsize then .error .undefined
  else
    let nzero := BitVec.ofNat 32 ((file.take matsize.toNat).count 0)
    if weighs then
      if ∀ r < matsize.toNat, balancingPreShuffle bal (balancingPreUnshuffle bal r) = r ∧
          balancingPreUnshuffle bal r < matsize.toNat then
        let entries := rankedWeights bal matsize n file
        (countCoeffs ncoeffs entries).map fun ncoeffs => ⟨ncoeffs, nzero, entries⟩
      else .error .assertion
    else .ok ⟨ncoeffs, nzero, []⟩

def permuteSide (lib : HeapLibrary) (permutes : Bool) (entries : List (Word × Word)) (ns : ℕ) :
    Except MfBalError (List Word) :=
  if permutes then (shuffleRtable lib entries ns).map List.flatten
  else .ok (entries.flatMap fun e => [e.1, e.2])

def flagsOf (rows columns rectangular : Bool) : Word :=
  (if rows then flagRowperm else 0) ||| (if columns then flagColperm else 0) ||| (if rectangular then 0 else flagReplicate)

def initialBalancing (mba : MfBalArgs) (nrows ncols : Word) (shuf : (Word × Word) × (Word × Word)) : Balancing :=
  { balancingInit with
    nh := BitVec.ofNat 32 mba.nh, nv := BitVec.ofNat 32 mba.nv, nrows := nrows, ncols := ncols,
    pshuf := shuf.1, pshufInv := shuf.2 }

def filledBalancing (bal : Balancing) (flags : Word) (rows columns : Weighed) (rowperm colperm : List Word) :
    Balancing :=
  { bal with
    ncoeffs := columns.ncoeffs, nzrows := rows.nzero, nzcols := columns.nzero, flags := flags,
    rowperm := rowperm, colperm := colperm }

def mfBal (lib : Side → HeapLibrary) (larger : Bool) (fuel : ℕ) (mba : MfBalArgs) (mfile : Option ℕ)
    (rwfile cwfile : List Word) : Except MfBalError Balancing := do
  let nrows := BitVec.ofNat 32 rwfile.length
  let ncols := BitVec.ofNat 32 cwfile.length
  let ncoeffs ← readMfileHeader mba nrows mfile
  let bal ← (decorrelate fuel mba nrows ncols).map (initialBalancing mba nrows ncols)
  let rows ← weighSide bal.toBalancingHeader (mba.reorder.weighs .row) nrows
    (mba.padded nrows ncols nrows) rwfile ncoeffs
  let columns ← weighSide bal.toBalancingHeader (mba.reorder.weighs .column) ncols (mba.padded nrows ncols ncols) cwfile
    rows.ncoeffs
  let rowperm ← permuteSide (lib .row) (mba.reorder.permutes larger .row) rows.entries (mba.gridsize .row)
  let colperm ← permuteSide (lib .column) (mba.reorder.permutes larger .column) columns.entries (mba.gridsize .column)
  let flags := flagsOf (mba.reorder.permutes larger .row) (mba.reorder.permutes larger .column) mba.rectangular
  match balancingFinalize (filledBalancing bal flags rows columns rowperm colperm) with
  | some bal => .ok bal
  | none => .error .assertion

end CadoNfs.Linalg.MfBal

/-!
# Equal slices

As long as items are left some bucket has room, so the one on top has; all of them are full in the end.
-/

namespace CadoNfs.Linalg.MfBal
open Lib

theorem length_flatten_const {α : Type} {L : List (List α)} {k : ℕ} (same : ∀ l ∈ L, l.length = k) :
    L.flatten.length = L.length * k := by
  induction L with
  | nil => exact (Nat.zero_mul k).symm
  | cons l L ih =>
    rw [List.flatten_cons, List.length_append, ih fun l later => same l (.tail _ later),
      same l (.head _), List.length_cons, Nat.succ_mul, Nat.add_comm]

theorem length_eq_of_full {α : Type} {L : List (List α)} {k : ℕ} (bounded : ∀ l ∈ L, l.length ≤ k)
    (full : L.flatten.length = L.length * k) : ∀ l ∈ L, l.length = k := by
  induction L with
  | nil => exact nofun
  | cons l L ih =>
    have few : L.flatten.length ≤ L.length * k := by
      rw [List.length_flatten, ← List.length_map List.length, ← smul_eq_mul]
      refine List.sum_le_card_nsmul _ k fun n member => ?_
      obtain ⟨l', inside, rfl⟩ := List.mem_map.mp member
      exact bounded l' (.tail _ inside)
    have here := bounded l (.head _)
    rw [List.flatten_cons, List.length_append, List.length_cons, Nat.succ_mul] at full
    intro x member
    rcases List.mem_cons.mp member with rfl | later
    · omega
    · exact ih (fun x later => bounded x (.tail _ later)) (by omega) x later

structure Filled (ns size : ℕ) (done : List Word) (st : Filling) : Prop where
  heap : st.heap.length = ns
  slices : st.slices.length = ns
  room : ∀ (j : ℕ) (b : Bucket) (r : List Word), st.heap[j]? = some b → st.slices[j]? = some r →
    b.room + r.length = size
  held : st.slices.flatten.Perm done

variable {ns size : ℕ} {done : List Word} {st : Filling}

theorem Filled.room_of_mem (filled : Filled ns size done st) {r : List Word} (member : r ∈ st.slices) :
    ∃ b ∈ st.heap, b.room + r.length = size := by
  obtain ⟨j, inside, rfl⟩ := List.getElem_of_mem member
  have there : j < st.heap.length := by
    rw [filled.heap, ← filled.slices]
    exact inside
  exact ⟨_, List.getElem_mem there,
    filled.room j _ _ (List.getElem?_eq_getElem there) (List.getElem?_eq_getElem inside)⟩

theorem Filled.bounded (filled : Filled ns size done st) : ∀ r ∈ st.slices, r.length ≤ size := by
  intro r member
  obtain ⟨b, -, room⟩ := filled.room_of_mem member
  omega

theorem Filled.full_of_top {best : Bucket} (filled : Filled ns size done st) (none : best.room = 0)
    (top : ∀ b ∈ st.heap, heapCompare best b = false) : done.length = ns * size := by
  have all : ∀ r ∈ st.slices, r.length = size := by
    intro r member
    obtain ⟨b, inside, room⟩ := filled.room_of_mem member
    have worse := top b inside
    unfold heapCompare at worse
    rw [if_pos none] at worse
    split_ifs at worse with empty
    omega
  rw [← filled.held.length_eq, length_flatten_const all, filled.slices]

theorem Filled.putItem (filled : Filled ns size done st) (lib : HeapLibrary) (turn : ℕ) (item : Word × Word)
    (more : done.length < ns * size) :
    ∃ st', putItem lib turn item st = .ok st' ∧ Filled ns size (item.2 :: done) st' := by
  have positive : 0 < ns := by
    rcases Nat.eq_zero_or_pos ns with rfl | positive
    · rw [Nat.zero_mul] at more
      cases more
    · exact positive
  have there : lib.top turn st.heap < st.heap.length := by
    apply lib.top_lt
    intro empty
    have heap := filled.heap
    rw [empty] at heap
    exact absurd heap positive.ne
  have there' : lib.top turn st.heap < st.slices.length := by
    rw [filled.slices, ← filled.heap]
    exact there
  have bucket := List.getElem?_eq_getElem there
  have slice := List.getElem?_eq_getElem there'
  have room := filled.room _ _ _ bucket slice
  have some : st.heap[lib.top turn st.heap].room ≠ 0 := by
    intro none
    have full := filled.full_of_top none (lib.top_best turn st.heap _ bucket)
    omega
  generalize found : lib.top turn st.heap = j at *
  refine ⟨⟨st.heap.set j ⟨st.heap[j].s + item.1.toNat, st.heap[j].room - 1⟩,
    st.slices.set j (st.slices[j] ++ [item.2])⟩,
    ?_, ?_⟩
  · unfold MfBal.putItem
    simp only [found, bucket, slice, if_neg some]
  · refine ⟨List.length_set.trans filled.heap, List.length_set.trans filled.slices, ?_, ?_⟩
    · intro k b r hasBucket hasSlice
      simp only [List.getElem?_set] at hasBucket hasSlice
      by_cases here : j = k
      · rw [if_pos here, if_pos there] at hasBucket
        rw [if_pos here, if_pos there'] at hasSlice
        cases hasBucket
        cases hasSlice
        rw [List.length_append, List.length_singleton]
        dsimp only
        omega
      · rw [if_neg here] at hasBucket hasSlice
        exact filled.room k b r hasBucket hasSlice
    · calc (st.slices.set j (st.slices[j] ++ [item.2])).flatten
        _ |>.Perm (st.slices[j] ++ [item.2] ++ (st.slices.eraseIdx j).flatten) := flatten_set_perm there' _
        _ |>.Perm (item.2 :: (st.slices[j] ++ (st.slices.eraseIdx j).flatten)) := by
          rw [List.append_assoc, List.singleton_append]
          exact List.perm_middle
        _ |>.Perm (item.2 :: st.slices.flatten) := (flatten_perm slice).symm.cons _
        _ |>.Perm (item.2 :: done) := filled.held.cons _

theorem Filled.fillSlices (filled : Filled ns size done st) (lib : HeapLibrary) (turn : ℕ) (items : List (Word × Word))
    (fits : done.length + items.length ≤ ns * size) :
    ∃ st', fillSlices lib turn items st = .ok st' ∧ Filled ns size (items.map Prod.snd ++ done) st' := by
  induction items generalizing turn done st with
  | nil => exact ⟨st, rfl, filled⟩
  | cons item items ih =>
    rw [List.length_cons] at fits
    obtain ⟨next, put, filled'⟩ := filled.putItem lib turn item (by omega)
    obtain ⟨last, ran, full⟩ := ih filled' (turn + 1) (by rw [List.length_cons]; omega)
    refine ⟨last, ?_, ⟨full.heap, full.slices, full.room, full.held.trans List.perm_middle⟩⟩
    rw [MfBal.fillSlices, put]
    exact ran

theorem shuffleRtable_spec (lib : HeapLibrary) {rt : List (Word × Word)} (even : rt.length % ns = 0) :
    ∃ slices, shuffleRtable lib rt ns = .ok slices ∧ slices.length = ns ∧
      (∀ r ∈ slices, r.length = rt.length / ns) ∧ slices.flatten.Perm (rt.map Prod.snd) := by
  have total : ns * (rt.length / ns) = rt.length := Nat.mul_div_cancel' (Nat.dvd_of_mod_eq_zero even)
  have sorted := List.mergeSort_perm rt fun a b => revcmp2u32 a b ≤ 0
  have start : Filled ns (rt.length / ns) []
      ⟨List.replicate ns ⟨0, rt.length / ns⟩, List.replicate ns []⟩ := by
    refine ⟨List.length_replicate, List.length_replicate, ?_, ?_⟩
    · intro j b r hasBucket hasSlice
      rw [List.getElem?_replicate] at hasBucket hasSlice
      split_ifs at hasBucket with inside
      rw [if_pos inside] at hasSlice
      cases hasBucket
      cases hasSlice
      rfl
    · rw [List.flatten_replicate_nil]
  obtain ⟨st, ran, filled⟩ := start.fillSlices lib 0 (rt.mergeSort fun a b => revcmp2u32 a b ≤ 0)
    (by rw [sorted.length_eq, total, List.length_nil, Nat.zero_add])
  rw [List.append_nil] at filled
  have count : st.slices.flatten.length = rt.length := by
    rw [filled.held.length_eq, List.length_map, sorted.length_eq]
  have full := length_eq_of_full filled.bounded (by rw [count, filled.slices, total])
  have empty : st.heap.all (·.room = 0) := by
    rw [List.all_eq_true]
    intro b member
    obtain ⟨j, inside, rfl⟩ := List.getElem_of_mem member
    have there : j < st.slices.length := by
      rw [filled.slices, ← filled.heap]
      exact inside
    have room := filled.room j _ _ (List.getElem?_eq_getElem inside) (List.getElem?_eq_getElem there)
    have length := full _ (List.getElem_mem there)
    rw [decide_eq_true_iff]
    omega
  refine ⟨st.slices, ?_, filled.slices, full, filled.held.trans (sorted.map _)⟩
  unfold shuffleRtable
  rw [if_neg (not_not.mpr even), ran]
  exact if_pos empty

end CadoNfs.Linalg.MfBal
