import CadoNfs.Filter.MergeLoop

/-!
# The transposed matrix of a pass

`compute_R` of `filter/merge.cpp`.
-/

namespace CadoNfs.Filter.Transpose
open Lib Typerow

def toIndexT (n : Nat) : Nat := n % 2 ^ 32

variable {α : Type}

def light (wt : Nat → Nat) (cwmax j : Nat) : Bool := 0 < wt j ∧ wt j ≤ cwmax

abbrev Counter := Nat × Nat

def Counter.add (c : Counter) (w : Nat) : Counter := (toIndexT (c.1 + w), toIndexT (c.2 + 1))

def countChunk (wt : Nat → Nat) (cwmax : Nat) (cols : List Nat) : Counter :=
  cols.foldl (fun c j => if light wt cwmax j then c.add (wt j) else c) (0, 0)

def prefixSums : Counter → List Counter → List Counter × Counter
  | sum, [] => ([], sum)
  | sum, c :: counters =>
    let (sums, total) := prefixSums (toIndexT (sum.1 + c.1), toIndexT (sum.2 + c.2)) counters
    (sum :: sums, total)

structure Entry where
  col : Nat
  id : Nat
  last : Nat

def entries (wt : Nat → Nat) (cwmax : Nat) : Counter → List Nat → List Entry
  | _, [] => []
  | c, j :: cols =>
    if light wt cwmax j then ⟨j, c.2, (c.add (wt j)).1⟩ :: entries wt cwmax (c.add (wt j)) cols
    else entries wt cwmax c cols

structure Arrays where
  Rq : Nat → Nat
  Rqinv : Nat → Nat
  Rp : Nat → Nat

def Arrays.write (a : Arrays) (e : Entry) : Arrays where
  Rq := Function.update a.Rq e.col e.id
  Rqinv := Function.update a.Rqinv e.id e.col
  Rp := Function.update a.Rp e.id e.last

def allEntries (wt : Nat → Nat) (cwmax : Nat) (chunks : List (List Nat)) : List Entry :=
  (List.zipWith (entries wt cwmax) (prefixSums (0, 0) (chunks.map (countChunk wt cwmax))).1 chunks).flatten

def totals (wt : Nat → Nat) (cwmax : Nat) (chunks : List (List Nat)) : Counter :=
  (prefixSums (0, 0) (chunks.map (countChunk wt cwmax))).2

def fill (a : Arrays) (total : Counter) (writes : List Entry) : Arrays :=
  writes.foldl Arrays.write { a with Rp := Function.update a.Rp total.2 total.1 }

structure Dispatch where
  Rp : Nat → Nat
  Ri : Nat → Nat

/-- `ptr = --Rp[col]; Ri[ptr] = row`; nothing is written outside of `Ri`. -/
def dispatchCell (Rq : Nat → Nat) (size : Nat) (d : Dispatch) (cell : Nat × Nat) : Option Dispatch :=
  let (row, j) := cell
  let col := Rq j
  let ptr := toIndexT (d.Rp col + (2 ^ 32 - 1))
  if ptr < size then some ⟨Function.update d.Rp col ptr, Function.update d.Ri ptr row⟩ else none

structure Transposed where
  Rn : Nat
  Rqinv : Nat → Nat
  Rp : Nat → Nat
  Ri : Nat → Nat

def computeR (mat : FilterMatrix α) (cwmax : Nat) (chunks : List (List Nat)) (a : Arrays) (Ri : Nat → Nat)
    (writes : List Entry) (cells : List (Nat × Nat)) : Option Transposed :=
  let total := totals mat.wt cwmax chunks
  let a := fill a total writes
  let size := a.Rp total.2
  (cells.foldlM (dispatchCell a.Rq size) ⟨a.Rp, Ri⟩).map fun d => ⟨total.2, a.Rqinv, d.Rp, d.Ri⟩

variable [Typerow α]

def cellsOf (mat : FilterMatrix α) (j0 cwmax : Nat) : List (Nat × Nat) :=
  (List.range mat.nrows).flatMap fun i =>
    ((mat.rows i).elim [] (visitedCells mat.wt j0 cwmax)).map fun j => (i, j)

structure Schedule (mat : FilterMatrix α) (j0 cwmax : Nat) (chunks : List (List Nat)) (writes : List Entry)
    (cells : List (Nat × Nat)) : Prop where
  columns : chunks.flatten.Perm (List.range' j0 (mat.ncols - j0))
  writes : writes.Perm (allEntries mat.wt cwmax chunks)
  cells : cells.Perm (cellsOf mat j0 cwmax)

def Transposed.rowsOf (r : Transposed) (id : Nat) : List Nat :=
  (List.range' (r.Rp id) (r.Rp (id + 1) - r.Rp id)).map r.Ri

def Transposed.Lists (r : Transposed) (mat : FilterMatrix α) (j0 cwmax : Nat) : Prop :=
  ∀ j, j0 ≤ j → j < mat.ncols → 0 < mat.wt j → mat.wt j ≤ cwmax →
    (∃! id, id < r.Rn ∧ r.Rqinv id = j) ∧
    ∀ id < r.Rn, r.Rqinv id = j → (r.rowsOf id).Perm ((List.range mat.nrows).filter fun i => Contains mat.rows i j)

def lightCells (mat : FilterMatrix α) (j0 cwmax : Nat) : Nat :=
  (((List.range' j0 (mat.ncols - j0)).filter (light mat.wt cwmax)).map mat.wt).sum

theorem toIndexT_add (a b : Nat) : toIndexT (toIndexT a + b) = toIndexT (a + b) := by
  unfold toIndexT
  omega

section
variable (wt : Nat → Nat) (cwmax : Nat)

def advance (c : Counter) (cols : List Nat) : Counter :=
  cols.foldl (fun c j => if light wt cwmax j then c.add (wt j) else c) c

def starts (L : List Nat) (k : Nat) : Nat := ((L.take k).map wt).sum

theorem advance_eq (a b : Nat) (cols : List Nat) : advance wt cwmax (toIndexT a, toIndexT b) cols =
    (toIndexT (a + ((cols.filter (light wt cwmax)).map wt).sum),
      toIndexT (b + (cols.filter (light wt cwmax)).length)) := by
  induction cols generalizing a b with
  | nil => rfl
  | cons j cols ih =>
    unfold advance at ih ⊢
    rw [List.foldl_cons, List.filter_cons]
    by_cases isLight : light wt cwmax j
    · have step : Counter.add (toIndexT a, toIndexT b) (wt j) = (toIndexT (a + wt j), toIndexT (b + 1)) := by
        unfold Counter.add
        rw [toIndexT_add, toIndexT_add]
      rw [if_pos isLight, if_pos isLight, step, ih, List.map_cons, List.sum_cons, List.length_cons, Nat.add_assoc,
        Nat.add_assoc, Nat.add_comm 1]
    · rw [if_neg isLight, if_neg isLight, ih]

theorem entries_append (c : Counter) (xs ys : List Nat) :
    entries wt cwmax c (xs ++ ys) = entries wt cwmax c xs ++ entries wt cwmax (advance wt cwmax c xs) ys := by
  induction xs generalizing c with
  | nil => rfl
  | cons j xs ih =>
    unfold advance at ih ⊢
    rw [List.cons_append, entries, entries, List.foldl_cons]
    by_cases isLight : light wt cwmax j
    · rw [if_pos isLight, if_pos isLight, if_pos isLight, ih, List.cons_append]
    · rw [if_neg isLight, if_neg isLight, if_neg isLight, ih]

theorem chunks_eq (a b : Nat) (chunks : List (List Nat)) :
    (List.zipWith (entries wt cwmax) (prefixSums (toIndexT a, toIndexT b) (chunks.map (countChunk wt cwmax))).1
        chunks).flatten = entries wt cwmax (toIndexT a, toIndexT b) chunks.flatten ∧
      (prefixSums (toIndexT a, toIndexT b) (chunks.map (countChunk wt cwmax))).2 =
        advance wt cwmax (toIndexT a, toIndexT b) chunks.flatten := by
  induction chunks generalizing a b with
  | nil => exact ⟨rfl, rfl⟩
  | cons chunk chunks ih =>
    have count : countChunk wt cwmax chunk = _ := advance_eq wt cwmax 0 0 chunk
    have step : (toIndexT (toIndexT a + (countChunk wt cwmax chunk).1),
        toIndexT (toIndexT b + (countChunk wt cwmax chunk).2)) =
          advance wt cwmax (toIndexT a, toIndexT b) chunk := by
      rw [count, advance_eq, toIndexT_add, toIndexT_add, Nat.zero_add, Nat.zero_add, Nat.add_comm a, Nat.add_comm b,
        toIndexT_add, toIndexT_add, Nat.add_comm _ a, Nat.add_comm _ b]
    rw [List.map_cons, prefixSums]
    simp only [step, advance_eq wt cwmax a b chunk, List.zipWith_cons_cons, List.flatten_cons]
    obtain ⟨rest, total⟩ := ih (a + ((chunk.filter (light wt cwmax)).map wt).sum)
      (b + (chunk.filter (light wt cwmax)).length)
    rw [rest, total, entries_append, advance_eq wt cwmax a b chunk]
    refine ⟨rfl, ?_⟩
    rw [← advance_eq]
    exact (List.foldl_append ..).symm

theorem entries_filter (c : Counter) (cols : List Nat) :
    entries wt cwmax c cols = entries wt cwmax c (cols.filter (light wt cwmax)) := by
  induction cols generalizing c with
  | nil => rfl
  | cons j cols ih =>
    rw [entries, List.filter_cons]
    by_cases isLight : light wt cwmax j
    · rw [if_pos isLight, if_pos isLight, entries, if_pos isLight, ih]
    · rw [if_neg isLight, if_neg isLight, ih]

theorem entries_light (a b : Nat) {L : List Nat} (all : ∀ j ∈ L, light wt cwmax j) :
    entries wt cwmax (toIndexT a, toIndexT b) L = (List.range L.length).map fun k =>
      ⟨L.getD k 0, toIndexT (b + k), toIndexT (a + starts wt L (k + 1))⟩ := by
  induction L generalizing a b with
  | nil => rfl
  | cons j L ih =>
    have step : Counter.add (toIndexT a, toIndexT b) (wt j) = (toIndexT (a + wt j), toIndexT (b + 1)) := by
      unfold Counter.add
      rw [toIndexT_add, toIndexT_add]
    rw [entries, if_pos (all j (by simp)), step, ih _ _ fun i later => all i (by simp [later]), List.length_cons,
      List.range_succ_eq_map, List.map_cons, List.map_map]
    congr 1
    apply List.map_congr_left
    intro k _
    simp only [Function.comp_apply, List.getD_cons_succ, starts, List.take_succ_cons, List.map_cons, List.sum_cons]
    rw [Nat.add_assoc b, Nat.add_comm 1, Nat.add_assoc a]

end

theorem foldl_update_other {ε : Type} (key val : ε → Nat) (es : List ε) (f : Nat → Nat) {i : Nat}
    (other : ∀ e ∈ es, key e ≠ i) : es.foldl (fun f e => Function.update f (key e) (val e)) f i = f i := by
  induction es generalizing f with
  | nil => rfl
  | cons e es ih =>
    rw [List.foldl_cons, ih _ fun e later => other e (by simp [later]),
      Function.update_of_ne (other e (by simp)).symm]

theorem foldl_update_mem {ε : Type} (key val : ε → Nat) {es : List ε} (apart : (es.map key).Nodup) (f : Nat → Nat)
    {e : ε} (member : e ∈ es) : es.foldl (fun f e => Function.update f (key e) (val e)) f (key e) = val e := by
  induction es generalizing f with
  | nil => cases member
  | cons e' es ih =>
    rw [List.map_cons, List.nodup_cons] at apart
    rw [List.foldl_cons]
    rcases List.mem_cons.mp member with rfl | later
    · rw [foldl_update_other, Function.update_self]
      intro e'' later same
      exact apart.1 (same ▸ List.mem_map_of_mem later)
    · exact ih apart.2 _ later

theorem foldl_write (writes : List Entry) (a : Arrays) : writes.foldl Arrays.write a =
    ⟨writes.foldl (fun f e => Function.update f e.col e.id) a.Rq,
      writes.foldl (fun f e => Function.update f e.id e.col) a.Rqinv,
      writes.foldl (fun f e => Function.update f e.id e.last) a.Rp⟩ := by
  induction writes generalizing a with
  | nil => rfl
  | cons e writes ih => rw [List.foldl_cons, ih]; rfl

structure Filled (wt : Nat → Nat) (L : List Nat) (a : Arrays) : Prop where
  Rq : ∀ k (h : k < L.length), a.Rq L[k] = k
  Rqinv : ∀ k (h : k < L.length), a.Rqinv k = L[k]
  Rp : ∀ k < L.length, a.Rp k = toIndexT (starts wt L (k + 1))
  last : a.Rp L.length = toIndexT (starts wt L L.length)

theorem fill_filled {wt : Nat → Nat} {cwmax : Nat} {L : List Nat} (nodup : L.Nodup) (few : L.length < 2 ^ 32)
    (all : ∀ j ∈ L, light wt cwmax j) (a : Arrays) {writes : List Entry}
    (perm : writes.Perm (entries wt cwmax (0, 0) L)) :
    Filled wt L (fill a (toIndexT (starts wt L L.length), L.length) writes) := by
  have list : entries wt cwmax (0, 0) L = (List.range L.length).map fun k =>
      ⟨L.getD k 0, k, toIndexT (starts wt L (k + 1))⟩ := by
    change entries wt cwmax (toIndexT 0, toIndexT 0) L = _
    rw [entries_light wt cwmax 0 0 all]
    apply List.map_congr_left
    intro k inside
    have id : toIndexT (0 + k) = k := by
      have := List.mem_range.mp inside
      unfold toIndexT
      omega
    rw [id, Nat.zero_add]
  rw [list] at perm
  have entry (k : Nat) (h : k < L.length) : (⟨L[k], k, toIndexT (starts wt L (k + 1))⟩ : Entry) ∈ writes := by
    rw [perm.mem_iff, List.mem_map]
    exact ⟨k, List.mem_range.mpr h, by rw [List.getD_eq_getElem _ _ h]⟩
  have cols : (writes.map Entry.col).Nodup := by
    have same : (List.range L.length).map (fun k => L.getD k 0) = L := by
      apply List.ext_getElem (by simp)
      intro k _ h
      simp [List.getElem?_eq_getElem h]
    rw [(perm.map _).nodup_iff, List.map_map]
    exact (congrArg List.Nodup same).mpr nodup
  have ids : (writes.map Entry.id).Nodup := by
    rw [(perm.map _).nodup_iff, List.map_map]
    exact (congrArg List.Nodup (List.map_id (List.range L.length))).mpr List.nodup_range
  have bound (e : Entry) (inside : e ∈ writes) : e.id < L.length := by
    rw [perm.mem_iff, List.mem_map] at inside
    obtain ⟨k, inside, rfl⟩ := inside
    exact List.mem_range.mp inside
  unfold fill
  rw [foldl_write]
  refine ⟨fun k h => ?_, fun k h => ?_, fun k h => ?_, ?_⟩
  · exact foldl_update_mem Entry.col Entry.id cols _ (entry k h)
  · exact foldl_update_mem Entry.id Entry.col ids _ (entry k h)
  · exact foldl_update_mem Entry.id Entry.last ids _ (entry k h)
  · exact (foldl_update_other Entry.id Entry.last writes _ fun e inside => (bound e inside).ne).trans
      (Function.update_self ..)

/-! ## Dispatching the cells -/

theorem starts_succ (wt : Nat → Nat) {L : List Nat} {k : Nat} (h : k < L.length) :
    starts wt L (k + 1) = starts wt L k + wt L[k] := by
  unfold starts
  rw [List.take_succ_eq_append_getElem h, List.map_append, List.sum_append]
  simp

theorem starts_mono (wt : Nat → Nat) (L : List Nat) {k l : Nat} (le : k ≤ l) : starts wt L k ≤ starts wt L l := by
  unfold starts
  exact ((List.take_sublist_take_left le).map wt).sum_le_sum fun _ _ => Nat.zero_le _

def columnCount (j : Nat) (cells : List (Nat × Nat)) : Nat := cells.countP fun c => c.2 = j

structure Dispatched (wt : Nat → Nat) (L : List Nat) (size : Nat) (done : List (Nat × Nat)) (d : Dispatch) : Prop where
  Rp : ∀ k (h : k < L.length), d.Rp k = toIndexT (starts wt L (k + 1) - columnCount L[k] done)
  inside : ∀ k (h : k < L.length), ∀ m, 0 < m → m ≤ columnCount L[k] done →
    toIndexT (starts wt L (k + 1) - m) < size
  last : d.Rp L.length = toIndexT (starts wt L L.length)
  rows : starts wt L L.length < 2 ^ 32 → ∀ k (h : k < L.length),
    (List.range' (starts wt L (k + 1) - columnCount L[k] done) (columnCount L[k] done)).map d.Ri =
      ((done.filter fun c => c.2 = L[k]).map Prod.fst).reverse

theorem Dispatched.pointer {wt : Nat → Nat} {L : List Nat} {size : Nat} {done : List (Nat × Nat)} {d : Dispatch}
    (dispatched : Dispatched wt L size done d) {k : Nat} (h : k < L.length) (fits : columnCount L[k] done < wt L[k]) :
    toIndexT (d.Rp k + (2 ^ 32 - 1)) = toIndexT (starts wt L (k + 1) - (columnCount L[k] done + 1)) := by
  have next := starts_succ wt h
  have one : starts wt L (k + 1) - columnCount L[k] done + (2 ^ 32 - 1) =
      starts wt L (k + 1) - (columnCount L[k] done + 1) + 2 ^ 32 := by omega
  rw [dispatched.Rp k h, toIndexT_add, one]
  exact Nat.add_mod_right _ _

theorem Dispatched.step {wt : Nat → Nat} {L : List Nat} {size : Nat} {done : List (Nat × Nat)} {d : Dispatch}
    {Rq : Nat → Nat} (nodup : L.Nodup) (ids : ∀ k (h : k < L.length), Rq L[k] = k)
      (dispatched : Dispatched wt L size done d)
    {k i : Nat} (h : k < L.length) (fits : columnCount L[k] done < wt L[k])
    (fit : ∀ k (h : k < L.length), columnCount L[k] done ≤ wt L[k])
    (room : toIndexT (starts wt L (k + 1) - (columnCount L[k] done + 1)) < size) :
    ∃ d', dispatchCell Rq size d (i, L[k]) = some d' ∧ Dispatched wt L size (done ++ [(i, L[k])]) d' := by
  have ptr := dispatched.pointer h fits
  have counted (k' : Nat) (h' : k' < L.length) : columnCount L[k'] (done ++ [(i, L[k])]) =
      columnCount L[k'] done + if k' = k then 1 else 0 := by
    unfold columnCount
    rw [List.countP_append, List.countP_singleton]
    by_cases same : k' = k
    · subst same
      simp
    · simp [same, nodup.getElem_inj_iff, Ne.symm same]
  refine ⟨⟨Function.update d.Rp k (toIndexT (starts wt L (k + 1) - (columnCount L[k] done + 1))),
    Function.update d.Ri (toIndexT (starts wt L (k + 1) - (columnCount L[k] done + 1))) i⟩, ?_, ?_, ?_, ?_, ?_⟩
  · simp only [dispatchCell, ids k h, ptr, if_pos room]
  · intro k' h'
    rw [counted]
    by_cases same : k' = k
    · subst same
      simp
    · rw [if_neg same]
      exact (Function.update_of_ne same _ _).trans (dispatched.Rp k' h')
  · intro k' h' m positive le
    rw [counted] at le
    by_cases same : k' = k
    · subst same
      rw [if_pos rfl] at le
      rcases Nat.lt_or_eq_of_le le with less | rfl
      · exact dispatched.inside k' h' m positive (by omega)
      · exact room
    · rw [if_neg same] at le
      exact dispatched.inside k' h' m positive le
  · exact (Function.update_of_ne h.ne' _ _).trans dispatched.last
  · intro small k' h'
    have old := dispatched.rows small k' h'
    have width := starts_succ wt h
    have width' := starts_succ wt h'
    have total := starts_mono wt L (k := k + 1) (l := L.length) h
    have bound := fit k' h'
    have place : toIndexT (starts wt L (k + 1) - (columnCount L[k] done + 1)) =
        starts wt L (k + 1) - (columnCount L[k] done + 1) := by
      unfold toIndexT
      omega
    rw [counted, List.filter_append, List.map_append, List.reverse_append, ← old, place]
    have kept : (List.range' (starts wt L (k' + 1) - columnCount L[k'] done) (columnCount L[k'] done)).map
        (Function.update d.Ri (starts wt L (k + 1) - (columnCount L[k] done + 1)) i) =
        (List.range' (starts wt L (k' + 1) - columnCount L[k'] done) (columnCount L[k'] done)).map d.Ri := by
      apply List.map_congr_left
      intro p inside
      apply Function.update_of_ne
      rw [List.mem_range'_1] at inside
      by_cases same : k' = k
      · subst same
        omega
      · rcases Nat.lt_or_gt_of_ne same with before | after
        · have := starts_mono wt L (k := k' + 1) (l := k) before
          omega
        · have := starts_mono wt L (k := k + 1) (l := k') after
          omega
    change List.map (Function.update d.Ri (starts wt L (k + 1) - (columnCount L[k] done + 1)) i) _ = _
    by_cases same : k' = k
    · subst same
      have first : starts wt L (k' + 1) - (columnCount L[k'] done + 1) + 1 =
          starts wt L (k' + 1) - columnCount L[k'] done := by omega
      rw [if_pos rfl, List.range'_succ, first, List.map_cons, Function.update_self, kept]
      simp
    · simp only [if_neg same, Nat.add_zero]
      rw [kept]
      simp [nodup.getElem_inj_iff, Ne.symm same]

theorem columnCount_cons_le {j i : Nat} {done todo : List (Nat × Nat)} :
    columnCount j done + 1 ≤ columnCount j (done ++ (i, j) :: todo) := by
  unfold columnCount
  rw [List.countP_append, List.countP_cons_of_pos (by simp)]
  omega

theorem columnCount_le {j : Nat} {done todo : List (Nat × Nat)} :
    columnCount j done ≤ columnCount j (done ++ todo) := by
  unfold columnCount
  rw [List.countP_append]
  omega

theorem dispatch_run {wt : Nat → Nat} {L : List Nat} {size : Nat} {Rq : Nat → Nat} (nodup : L.Nodup)
    (ids : ∀ k (h : k < L.length), Rq L[k] = k) {done todo : List (Nat × Nat)} {d : Dispatch}
    (dispatched : Dispatched wt L size done d) (cols : ∀ c ∈ todo, c.2 ∈ L)
    (fits : ∀ k (h : k < L.length), columnCount L[k] (done ++ todo) ≤ wt L[k]) :
    (∀ d', todo.foldlM (dispatchCell Rq size) d = some d' → Dispatched wt L size (done ++ todo) d') ∧
      (size = starts wt L L.length → size < 2 ^ 32 → ∃ d', todo.foldlM (dispatchCell Rq size) d = some d') := by
  induction todo generalizing done d with
  | nil =>
    rw [List.append_nil]
    refine ⟨fun d' run => ?_, fun _ _ => ⟨d, rfl⟩⟩
    cases run
    exact dispatched
  | cons c todo ih =>
    obtain ⟨i, j⟩ := c
    obtain ⟨k, h, rfl⟩ := List.getElem_of_mem (cols (i, j) (by simp))
    have fit (k' : Nat) (h' : k' < L.length) := columnCount_le.trans (fits k' h')
    have here := columnCount_cons_le.trans (fits k h)
    have step := dispatched.step nodup ids h (i := i) here fit
    have split : done ++ (i, L[k]) :: todo = (done ++ [(i, L[k])]) ++ todo := by simp
    have later (d' : Dispatch) (next : Dispatched wt L size (done ++ [(i, L[k])]) d') :=
      ih next (fun c inside => cols c (by simp [inside])) (split ▸ fits)
    rw [split]
    constructor
    · intro d' run
      rw [List.foldlM_cons, Option.bind_eq_bind, Option.bind_eq_some_iff] at run
      obtain ⟨d₁, first, rest⟩ := run
      by_cases room : toIndexT (starts wt L (k + 1) - (columnCount L[k] done + 1)) < size
      · obtain ⟨d₂, second, next⟩ := step room
        rw [first] at second
        cases second
        exact (later d₁ next).1 d' rest
      · simp only [dispatchCell, ids k h, dispatched.pointer h here, if_neg room] at first
        cases first
    · intro exact small
      have room : toIndexT (starts wt L (k + 1) - (columnCount L[k] done + 1)) < size := by
        have := starts_succ wt h
        have := starts_mono wt L (k := k + 1) (l := L.length) h
        unfold toIndexT
        omega
      obtain ⟨d₁, first, next⟩ := step room
      obtain ⟨d', rest⟩ := (later d₁ next).2 exact small
      refine ⟨d', ?_⟩
      rw [List.foldlM_cons, first]
      exact rest

theorem exists_starts {wt : Nat → Nat} {L : List Nat} {p : Nat} {n : Nat} (le : n ≤ L.length)
    (below : p < starts wt L n) :
    ∃ k, ∃ _ : k < L.length, starts wt L k ≤ p ∧ p < starts wt L (k + 1) := by
  induction n with
  | zero => simp [starts] at below
  | succ n ih =>
    by_cases earlier : p < starts wt L n
    · exact ih (by omega) earlier
    · exact ⟨n, le, by omega, below⟩

section
variable {mat : FilterMatrix α} {j0 cwmax : Nat} {chunks : List (List Nat)} {writes : List Entry}
  {cells : List (Nat × Nat)}

def ExactWeights (mat : FilterMatrix α) (cwmax : Nat) : Prop :=
  ∀ j, mat.wt j ≤ cwmax ∨ weight mat.nrows mat.rows j ≤ cwmax → mat.wt j = weight mat.nrows mat.rows j

theorem mem_visitedCells {row : List α} (sorted : RowSorted row) {wt : Nat → Nat} {j : Nat} :
    j ∈ visitedCells wt j0 cwmax row ↔ j ∈ columns row ∧ j0 ≤ j ∧ wt j ≤ cwmax := by
  have columnsSorted : (columns row).Pairwise (· < ·) := List.pairwise_map.mpr sorted
  rw [visitedCells, List.mem_filter, mem_takeWhile_reverse columnsSorted, decide_eq_true_eq, and_assoc]

theorem visitedCells_nodup {row : List α} (sorted : RowSorted row) (wt : Nat → Nat) :
    (visitedCells wt j0 cwmax row).Nodup :=
  ((List.nodup_reverse.mpr sorted.columns_nodup).sublist (List.takeWhile_sublist _)).filter _

theorem cellsOf_column (sorted : SortedRows mat.rows) {j : Nat} (low : j0 ≤ j) (isLight : mat.wt j ≤ cwmax) :
    ((cellsOf mat j0 cwmax).filter fun c => c.2 = j).map Prod.fst =
      (List.range mat.nrows).filter fun i => Contains mat.rows i j := by
  have one (i : Nat) : ((((mat.rows i).elim [] (visitedCells mat.wt j0 cwmax)).map fun j => (i, j)).filter
      fun c => c.2 = j).map Prod.fst = if Contains mat.rows i j then [i] else [] := by
    cases live : mat.rows i with
    | none =>
      have absent : ¬ Contains mat.rows i j := by
        rintro ⟨row, live', _⟩
        rw [live] at live'
        cases live'
      rw [if_neg absent]
      rfl
    | some row =>
      have rowSorted := sorted i row live
      have contains : Contains mat.rows i j ↔ j ∈ visitedCells mat.wt j0 cwmax row := by
        rw [mem_visitedCells rowSorted]
        simp [Contains, live, low, isLight]
      have picked : ((visitedCells mat.wt j0 cwmax row).map fun j => (i, j)).filter (fun c => c.2 = j) =
          ((visitedCells mat.wt j0 cwmax row).filter (· = j)).map fun j => (i, j) := List.filter_map ..
      rw [Option.elim_some, picked, List.filter_eq]
      by_cases inside : j ∈ visitedCells mat.wt j0 cwmax row
      · rw [List.count_eq_one_of_mem (visitedCells_nodup rowSorted _) inside, if_pos (contains.mpr inside)]
        rfl
      · rw [List.count_eq_zero_of_not_mem inside, if_neg fun h => inside (contains.mp h)]
        rfl
  unfold cellsOf
  rw [List.filter_flatMap, List.map_flatMap]
  simp only [one]
  induction List.range mat.nrows with
  | nil => rfl
  | cons i is ih =>
    rw [List.flatMap_cons, ih, List.filter_cons]
    by_cases contains : Contains mat.rows i j
    · simp [contains]
    · simp [contains]

theorem columnCount_cellsOf (sorted : SortedRows mat.rows) {j : Nat} (low : j0 ≤ j) (isLight : mat.wt j ≤ cwmax) :
    columnCount j (cellsOf mat j0 cwmax) = weight mat.nrows mat.rows j := by
  unfold columnCount weight
  rw [List.countP_eq_length_filter, ← List.length_map (f := Prod.fst), cellsOf_column sorted low isLight]
  rfl

theorem cellsOf_light (sorted : SortedRows mat.rows) (inside : ∀ i j, Contains mat.rows i j → j < mat.ncols)
    (exact : ExactWeights mat cwmax) {c : Nat × Nat} (member : c ∈ cellsOf mat j0 cwmax) :
    c.2 ∈ (List.range' j0 (mat.ncols - j0)).filter (light mat.wt cwmax) := by
  unfold cellsOf at member
  obtain ⟨i, row', member⟩ := List.mem_flatMap.mp member
  cases live : mat.rows i with
  | none => simp [live] at member
  | some row =>
    rw [live, Option.elim_some, List.mem_map] at member
    obtain ⟨j, visited, rfl⟩ := member
    obtain ⟨cell, low, isLight⟩ := (mem_visitedCells (sorted i row live)).mp visited
    have contains : Contains mat.rows i j := ⟨row, live, cell⟩
    have bound := inside i j contains
    have positive : 0 < weight mat.nrows mat.rows j :=
      Finset.card_pos.mpr ⟨i, Finset.mem_filter.mpr ⟨Finset.mem_range.mpr (List.mem_range.mp row'), contains⟩⟩
    rw [← exact j (.inl isLight)] at positive
    rw [List.mem_filter, List.mem_range'_1]
    exact ⟨⟨low, by omega⟩, by simp [light, positive, isLight]⟩

structure Prepared (mat : FilterMatrix α) (j0 cwmax : Nat) (cells : List (Nat × Nat)) (L : List Nat) (b : Arrays) :
    Prop where
  perm : L.Perm ((List.range' j0 (mat.ncols - j0)).filter (light mat.wt cwmax))
  nodup : L.Nodup
  filled : Filled mat.wt L b
  total : starts mat.wt L L.length = lightCells mat j0 cwmax
  count : ∀ j ∈ L, columnCount j cells = mat.wt j
  column : ∀ c ∈ cells, c.2 ∈ L

omit [Typerow α] in
theorem Prepared.run {L : List Nat} {b : Arrays} (prepared : Prepared mat j0 cwmax cells L b) (size : Nat)
    (Ri : Nat → Nat) :
    (∀ d, cells.foldlM (dispatchCell b.Rq size) ⟨b.Rp, Ri⟩ = some d → Dispatched mat.wt L size cells d) ∧
      (size = starts mat.wt L L.length → size < 2 ^ 32 →
        ∃ d, cells.foldlM (dispatchCell b.Rq size) ⟨b.Rp, Ri⟩ = some d) := by
  have start : Dispatched mat.wt L size [] ⟨b.Rp, Ri⟩ := by
    refine ⟨prepared.filled.Rp, fun k h m positive le => ?_, prepared.filled.last, fun _ k h => rfl⟩
    exact absurd le positive.not_ge
  exact dispatch_run prepared.nodup prepared.filled.Rq start prepared.column
    fun k h => (prepared.count L[k] (List.getElem_mem h)).le

section
variable (sorted : SortedRows mat.rows) (inside : ∀ i j, Contains mat.rows i j → j < mat.ncols)
  (exact : ExactWeights mat cwmax) (small : mat.ncols < 2 ^ 32) (schedule : Schedule mat j0 cwmax chunks writes cells)
  (a : Arrays) (Ri : Nat → Nat)
include sorted inside exact small schedule

theorem computeR_prepared : ∃ L b, Prepared mat j0 cwmax cells L b ∧
    computeR mat cwmax chunks a Ri writes cells =
      (cells.foldlM (dispatchCell b.Rq (toIndexT (starts mat.wt L L.length))) ⟨b.Rp, Ri⟩).map fun d =>
        ⟨L.length, b.Rqinv, d.Rp, d.Ri⟩ := by
  obtain ⟨columns, written, dispatch⟩ := schedule
  let L := chunks.flatten.filter (light mat.wt cwmax)
  have perm : L.Perm ((List.range' j0 (mat.ncols - j0)).filter (light mat.wt cwmax)) := columns.filter _
  have range : (List.range' j0 (mat.ncols - j0)).Nodup := List.nodup_range'
  have nodup : L.Nodup := perm.nodup_iff.mpr (range.filter _)
  have few : L.length < 2 ^ 32 := by
    have length := (perm.length_eq.trans_le (List.length_filter_le ..)).trans_eq List.length_range'
    omega
  have all : ∀ j ∈ L, light mat.wt cwmax j := fun j member => (List.mem_filter.mp member).2
  have counters : totals mat.wt cwmax chunks = (toIndexT (starts mat.wt L L.length), L.length) := by
    have counters := (chunks_eq mat.wt cwmax 0 0 chunks).2
    rw [advance_eq] at counters
    refine counters.trans (Prod.ext ?_ ?_)
    · change toIndexT (0 + (L.map mat.wt).sum) = toIndexT ((L.take L.length).map mat.wt).sum
      rw [List.take_length, Nat.zero_add]
    · change toIndexT (0 + L.length) = L.length
      rw [Nat.zero_add]
      exact Nat.mod_eq_of_lt few
  have filled : Filled mat.wt L (fill a (toIndexT (starts mat.wt L L.length), L.length) writes) := by
    apply fill_filled nodup few all
    have entries := (chunks_eq mat.wt cwmax 0 0 chunks).1
    rw [entries_filter] at entries
    exact written.trans (List.Perm.of_eq entries)
  refine ⟨L, _, ⟨perm, nodup, filled, ?_, fun j member => ?_, fun c member => ?_⟩, ?_⟩
  · unfold starts lightCells
    rw [List.take_length]
    exact (perm.map _).sum_eq
  · have here := perm.mem_iff.mp member
    rw [List.mem_filter, List.mem_range'_1] at here
    have isLight : mat.wt j ≤ cwmax := (of_decide_eq_true here.2).2
    rw [exact j (.inl isLight), ← columnCount_cellsOf sorted here.1.1 isLight]
    exact dispatch.countP_eq _
  · exact perm.mem_iff.mpr (cellsOf_light sorted inside exact (dispatch.mem_iff.mp member))
  · unfold computeR
    simp only [counters, filled.last]

theorem computeR_fits {r : Transposed} (ran : computeR mat cwmax chunks a Ri writes cells = some r) :
    lightCells mat j0 cwmax < 2 ^ 32 := by
  obtain ⟨L, b, prepared, computed⟩ := computeR_prepared sorted inside exact small schedule a Ri
  have run := prepared.run (toIndexT (starts mat.wt L L.length)) Ri
  rw [computed] at ran
  obtain ⟨d, ran, _⟩ := Option.map_eq_some_iff.mp ran
  have dispatched := run.1 d ran
  rw [← prepared.total]
  by_contra big
  have overflows : toIndexT (starts mat.wt L L.length) < starts mat.wt L L.length := by
    unfold toIndexT
    omega
  obtain ⟨k, h, low, high⟩ := exists_starts le_rfl overflows
  have width := starts_succ mat.wt h
  have count := prepared.count L[k] (List.getElem_mem h)
  have outside := dispatched.inside k h (starts mat.wt L (k + 1) - toIndexT (starts mat.wt L L.length))
    (by omega) (by omega)
  unfold toIndexT at outside high low
  omega

theorem computeR_lists (fits : lightCells mat j0 cwmax < 2 ^ 32) :
    ∃ r, computeR mat cwmax chunks a Ri writes cells = some r ∧ r.Lists mat j0 cwmax := by
  obtain ⟨L, b, prepared, computed⟩ := computeR_prepared sorted inside exact small schedule a Ri
  have run := prepared.run (toIndexT (starts mat.wt L L.length)) Ri
  rw [← prepared.total] at fits
  have whole : toIndexT (starts mat.wt L L.length) = starts mat.wt L L.length := Nat.mod_eq_of_lt fits
  obtain ⟨d, ran⟩ := run.2 whole (by rw [whole]; exact fits)
  have dispatched := run.1 d ran
  rw [computed]
  refine ⟨_, Option.map_eq_some_iff.mpr ⟨d, ran, rfl⟩, fun j low high positive isLight => ?_⟩
  have member : j ∈ L := by
    rw [prepared.perm.mem_iff, List.mem_filter, List.mem_range'_1]
    exact ⟨⟨low, by omega⟩, by simp [light, positive, isLight]⟩
  obtain ⟨k, h, rfl⟩ := List.getElem_of_mem member
  have unique (id : Nat) (h' : id < L.length) (same : b.Rqinv id = L[k]) : id = k := by
    rw [prepared.filled.Rqinv id h'] at same
    exact prepared.nodup.getElem_inj_iff.mp same
  refine ⟨⟨k, ⟨h, prepared.filled.Rqinv k h⟩, fun id ⟨h', same⟩ => unique id h' same⟩, fun id h' same => ?_⟩
  obtain rfl := unique id h' same
  have pointer (k : Nat) (h : k < L.length) : d.Rp k = starts mat.wt L k := by
    have width := starts_succ mat.wt h
    have below := starts_mono mat.wt L (k := k) (l := L.length) h.le
    rw [dispatched.Rp k h, prepared.count L[k] (List.getElem_mem h)]
    unfold toIndexT
    omega
  have next : d.Rp (id + 1) = starts mat.wt L (id + 1) := by
    rcases Nat.lt_or_eq_of_le h' with less | last
    · exact pointer _ less
    · rw [show id + 1 = L.length from last, dispatched.last, whole]
  have width := starts_succ mat.wt h'
  have rows := dispatched.rows fits id h'
  rw [prepared.count L[id] (List.getElem_mem h'), width, Nat.add_sub_cancel] at rows
  unfold Transposed.rowsOf
  change ((List.range' (d.Rp id) (d.Rp (id + 1) - d.Rp id)).map d.Ri).Perm _
  rw [pointer id h', next, width, Nat.add_sub_cancel_left, rows, ← cellsOf_column sorted low isLight]
  exact (List.reverse_perm _).trans ((schedule.cells.filter _).map _)

theorem computeR_lists_iff : (∃ r, computeR mat cwmax chunks a Ri writes cells = some r ∧ r.Lists mat j0 cwmax) ↔
    lightCells mat j0 cwmax < 2 ^ 32 := by
  constructor
  · rintro ⟨r, ran, _⟩
    exact computeR_fits sorted inside exact small schedule a Ri ran
  · exact computeR_lists sorted inside exact small schedule a Ri

end

end

def pairMatrix : FilterMatrix Nat :=
  ⟨2, 3, 3, rowTable [[0, 1], [0, 2]], weight 2 (rowTable [[0, 1], [0, 2]]), none⟩

theorem computeR_lists_iff_pair : ∃ r, computeR pairMatrix 2 [[0, 1], [2]] ⟨fun _ => 0, fun _ => 0, fun _ => 0⟩
  (fun _ => 0)
    (allEntries pairMatrix.wt 2 [[0, 1], [2]]) (cellsOf pairMatrix 0 2) = some r ∧ r.Lists pairMatrix 0 2 :=
  have columns : ∀ i j, Contains (rowTable [[0, 1], [0, 2]]) i j → j < 3 := rowTable_columns (by decide)
  (computeR_lists_iff (rowTable_sorted (by decide)) columns (fun _ _ => rfl) (by decide)
    ⟨List.Perm.refl _, List.Perm.refl _, List.Perm.refl _⟩ _ _).mpr (by decide)

def wideRows : Rows Nat := fun i => if i < 2 ^ 15 then some (List.range' (i / 2 * 2 ^ 17) (2 ^ 17)) else none

def wideMatrix : FilterMatrix Nat :=
  ⟨2 ^ 15, 2 ^ 31, 2 ^ 31, wideRows, fun j => if j < 2 ^ 31 then 2 else 0, none⟩

theorem wideRows_some {i : Nat} (inside : i < 2 ^ 15) :
    wideRows i = some (List.range' (i / 2 * 2 ^ 17) (2 ^ 17)) := if_pos inside

theorem wideRows_contains_iff {i j : Nat} : Contains wideRows i j ↔ i < 2 ^ 15 ∧ i / 2 = j / 2 ^ 17 := by
  have block : j ∈ columns (List.range' (i / 2 * 2 ^ 17) (2 ^ 17)) ↔ i / 2 = j / 2 ^ 17 := by
    rw [columns_nat, List.mem_range'_1]
    omega
  unfold Contains
  rw [← block]
  constructor
  · rintro ⟨row, live, member⟩
    unfold wideRows at live
    split_ifs at live with inside
    rw [← Option.some.inj live] at member
    exact ⟨inside, member⟩
  · rintro ⟨inside, member⟩
    exact ⟨_, wideRows_some inside, member⟩

theorem rowSorted_range' (start n : Nat) : RowSorted (List.range' start n) := List.pairwise_lt_range'

theorem wide_weight (j : Nat) : weight (2 ^ 15) wideRows j = if j < 2 ^ 31 then 2 else 0 := by
  unfold weight
  simp only [wideRows_contains_iff]
  split_ifs with inside
  · have rows : ((Finset.range (2 ^ 15)).filter fun i => i < 2 ^ 15 ∧ i / 2 = j / 2 ^ 17) =
        {2 * (j / 2 ^ 17), 2 * (j / 2 ^ 17) + 1} := by
      ext i
      simp only [Finset.mem_filter, Finset.mem_range, Finset.mem_insert, Finset.mem_singleton]
      omega
    rw [rows]
    exact Finset.card_pair (by omega)
  · rw [Finset.card_eq_zero, Finset.filter_eq_empty_iff]
    intro i _
    omega

omit [Typerow α] in
theorem lightCells_const {mat : FilterMatrix α} {cwmax w : Nat} (all : ∀ j < mat.ncols, mat.wt j = w)
    (positive : 0 < w) (isLight : w ≤ cwmax) : lightCells mat 0 cwmax = mat.ncols * w := by
  have member {j : Nat} (inside : j ∈ List.range' 0 (mat.ncols - 0)) : mat.wt j = w := by
    rw [List.mem_range'_1] at inside
    exact all j (by omega)
  have kept : (List.range' 0 (mat.ncols - 0)).filter (light mat.wt cwmax) = List.range' 0 (mat.ncols - 0) :=
    List.filter_eq_self.mpr fun j inside => by simp [light, member inside, positive, isLight]
  unfold lightCells
  rw [kept, List.map_congr_left fun j inside => member inside, List.map_const', List.sum_replicate,
    List.length_range', smul_eq_mul, Nat.sub_zero]

theorem computeR_wide_none (a : Arrays) (Ri : Nat → Nat) (chunks : List (List Nat)) (writes : List Entry)
    (cells : List (Nat × Nat)) (schedule : Schedule wideMatrix 0 2 chunks writes cells) :
    computeR wideMatrix 2 chunks a Ri writes cells = none := by
  have sorted : SortedRows wideMatrix.rows := by
    intro i row live
    change wideRows i = some row at live
    unfold wideRows at live
    split_ifs at live with inside
    rw [← Option.some.inj live]
    exact rowSorted_range' _ _
  have inside : ∀ i j, Contains wideMatrix.rows i j → j < wideMatrix.ncols := by
    intro i j contains
    have := wideRows_contains_iff.mp contains
    change j < 2 ^ 31
    omega
  have exact : ExactWeights wideMatrix 2 := fun j _ => (wide_weight j).symm
  have total : lightCells wideMatrix 0 2 = 2 ^ 32 :=
    (lightCells_const (w := 2) (fun j below => if_pos below) (by omega) le_rfl).trans (by norm_num [wideMatrix])
  cases ran : computeR wideMatrix 2 chunks a Ri writes cells with
  | none => rfl
  | some r =>
    have fits := computeR_fits sorted inside exact (by norm_num [wideMatrix]) schedule a Ri ran
    omega

theorem schedule_inOrder (mat : FilterMatrix α) (j0 cwmax : Nat) :
    Schedule mat j0 cwmax [List.range' j0 (mat.ncols - j0)]
      (allEntries mat.wt cwmax [List.range' j0 (mat.ncols - j0)]) (cellsOf mat j0 cwmax) :=
  ⟨List.Perm.of_eq (List.flatten_singleton ..), List.Perm.refl _, List.Perm.refl _⟩

theorem computeR_wide_not_lists : ¬ ∃ r,
    computeR wideMatrix 2 [List.range' 0 (wideMatrix.ncols - 0)] ⟨fun _ => 0, fun _ => 0, fun _ => 0⟩ (fun _ => 0)
      (allEntries wideMatrix.wt 2 [List.range' 0 (wideMatrix.ncols - 0)]) (cellsOf wideMatrix 0 2) = some r ∧
      r.Lists wideMatrix 0 2 := by
  rintro ⟨r, ran, _⟩
  rw [computeR_wide_none _ _ _ _ _ (schedule_inOrder wideMatrix 0 2)] at ran
  cases ran

end CadoNfs.Filter.Transpose
