import CadoNfs.Lib.Run

/-!
# The removal of singletons

`new_row` of `filter/purge_matrix.hpp`, and the passes of `filter/purge_matrix.cpp` in which several threads delete the
rows with a column of weight 1.
-/

namespace CadoNfs.Filter.Purge
open Finset Function Relation

/-- Beyond the sizes there are no rows, and no weights. No column is `END_OF_ROW`. -/
structure PurgeMatrix where
  nrows : ℕ
  rows : ℕ → Option (List ℕ)
  ncols : ℕ
  columnWeights : ℕ → ℕ
  remainingRows : ℕ
  remainingColumns : ℕ

def overweight : ℕ := 255

namespace PurgeMatrix

variable (M : PurgeMatrix)

def row (i : ℕ) : List ℕ := (M.rows i).getD []

def active : Finset ℕ := (range M.nrows).filter fun i => (M.rows i).isSome

def columns : Finset ℕ := (range M.ncols).filter fun c => M.columnWeights c ≠ 0

def empty : PurgeMatrix := ⟨0, fun _ => none, 0, fun _ => 0, 0, 0⟩

def addPrime (h : ℕ) : PurgeMatrix :=
  let w := M.columnWeights h
  { M with
    ncols := max M.ncols (h + 1)
    columnWeights := update M.columnWeights h (if w < overweight then w + 1 else w)
    remainingColumns := if w = 0 then M.remainingColumns + 1 else M.remainingColumns }

def newRow (i col0 col1 : ℕ) (primes : List ℕ) : PurgeMatrix :=
  { primes.foldl addPrime M with
    nrows := max M.nrows (i + 1)
    rows := update M.rows i (some (primes.filter fun h => col0 ≤ h ∧ h < col1))
    remainingRows := M.remainingRows + 1 }

def decrease (c : ℕ) : PurgeMatrix :=
  { M with columnWeights := update M.columnWeights c (M.columnWeights c - 1) }

def dropRow (i killed : ℕ) : PurgeMatrix :=
  { M with
    rows := update M.rows i none
    remainingRows := M.remainingRows - 1
    remainingColumns := M.remainingColumns - killed }

inductive Built (col0 col1 : ℕ) : PurgeMatrix → Prop
  | empty : Built col0 col1 empty
  | newRow {M : PurgeMatrix} {i : ℕ} (built : Built col0 col1 M) (free : M.rows i = none) (primes : List ℕ) :
    Built col0 col1 (M.newRow i col0 col1 primes)

structure Exact (light : ℕ → Prop) : Prop where
  remainingRows : M.remainingRows = #M.active
  remainingColumns : M.remainingColumns = #M.columns
  weights : ∀ i ∈ M.active, ∀ c ∈ M.row i, light c → M.columnWeights c = ∑ j ∈ M.active, (M.row j).count c

def SingletonFree (S : Finset ℕ) : Prop :=
  S ⊆ M.active ∧ ∀ i ∈ S, ∀ c ∈ M.row i, M.columnWeights c < overweight → ∑ j ∈ S, (M.row j).count c ≠ 1

/-! ## The matrix as it is built -/

structure Counted (w : ℕ → ℕ) : Prop where
  weights : ∀ c, M.columnWeights c = min overweight (w c)
  size : ∀ c, M.ncols ≤ c → M.columnWeights c = 0
  columns : M.remainingColumns = #M.columns

variable {M} {w : ℕ → ℕ} {col0 col1 i : ℕ} {primes : List ℕ}

theorem sum_change {A : Finset ℕ} {f g : ℕ → ℕ} (same : ∀ j, j ≠ i → g j = f j) (member : i ∈ A) :
    ∑ j ∈ A, g j + f i = ∑ j ∈ A, f j + g i := by
  have rest : ∑ j ∈ A.erase i, g j = ∑ j ∈ A.erase i, f j :=
    sum_congr rfl fun j other => same j (ne_of_mem_erase other)
  rw [← add_sum_erase A f member, ← add_sum_erase A g member, rest]
  omega

theorem card_columns_change {N : PurgeMatrix} {c : ℕ} (same : ∀ d, d ≠ c → N.columnWeights d = M.columnWeights d)
    (lt : c < N.ncols) (all : #M.columns = ∑ d ∈ range N.ncols, if M.columnWeights d ≠ 0 then 1 else 0) :
    #N.columns + (if M.columnWeights c ≠ 0 then 1 else 0) = #M.columns + (if N.columnWeights c ≠ 0 then 1 else 0) := by
  rw [all, columns, card_filter]
  exact sum_change (f := fun d => if M.columnWeights d ≠ 0 then 1 else 0)
    (g := fun d => if N.columnWeights d ≠ 0 then 1 else 0) (fun d ne => by rw [same d ne]) (mem_range.mpr lt)

theorem Counted.addPrime (counted : M.Counted w) (h : ℕ) :
    (M.addPrime h).Counted fun c => w c + [h].count c := by
  have size (c : ℕ) (le : (M.addPrime h).ncols ≤ c) : (M.addPrime h).columnWeights c = 0 := by
    have other : c ≠ h := ((Nat.lt_succ_self h).trans_le ((le_max_right ..).trans le)).ne'
    exact (update_of_ne other ..).trans (counted.size c ((le_max_left ..).trans le))
  refine ⟨fun c => ?_, size, ?_⟩
  · by_cases same : c = h
    · subst same
      have one : [c].count c = 1 := List.count_singleton_self
      simp only [PurgeMatrix.addPrime, update_self, counted.weights, one]
      split_ifs <;> omega
    · have none : [h].count c = 0 := List.count_eq_zero.mpr (by simpa using same)
      rw [none, Nat.add_zero, ← counted.weights]
      exact update_of_ne same ..
  · have all : #M.columns = ∑ c ∈ range (M.addPrime h).ncols, if M.columnWeights c ≠ 0 then 1 else 0 := by
      rw [PurgeMatrix.columns, card_filter]
      refine sum_subset (range_subset_range.mpr (le_max_left ..)) fun c _ beyond => if_neg (not_not.mpr ?_)
      exact counted.size c (not_lt.mp fun lt => beyond (mem_range.mpr lt))
    have change := card_columns_change (N := M.addPrime h) (fun c ne => update_of_ne ne ..)
      ((Nat.lt_succ_self h).trans_le (le_max_right ..)) all
    have weight : (M.addPrime h).columnWeights h ≠ 0 := by
      simp only [PurgeMatrix.addPrime, update_self]
      split_ifs with light
      · exact Nat.succ_ne_zero _
      · exact fun zero => light (zero ▸ by decide)
    have remaining := counted.columns
    rw [if_pos weight] at change
    change (if M.columnWeights h = 0 then M.remainingColumns + 1 else M.remainingColumns) = _
    split_ifs at change ⊢ <;> omega

theorem Counted.newRow (counted : M.Counted w) (primes : List ℕ) :
    (M.newRow i col0 col1 primes).Counted fun c => w c + primes.count c := by
  suffices all : (primes.foldl PurgeMatrix.addPrime M).Counted fun c => w c + primes.count c from ⟨all.1, all.2, all.3⟩
  induction primes generalizing M w with
  | nil => exact counted
  | cons h primes ih =>
    have rest := ih (counted.addPrime h)
    simp only [Nat.add_assoc, ← List.count_append, List.singleton_append] at rest
    exact rest

/-- What the calls of `new_row` leave: the columns of the range are counted by the rows. -/
structure Whole (col0 col1 : ℕ) (M : PurgeMatrix) : Prop where
  counted : ∃ w, M.Counted w ∧ ∀ c, col0 ≤ c → c < col1 → w c = ∑ j ∈ M.active, (M.row j).count c
  inside : ∀ i, ∀ c ∈ M.row i, col0 ≤ c ∧ c < col1
  size : ∀ i, M.nrows ≤ i → M.rows i = none
  remainingRows : M.remainingRows = #M.active

theorem mem_active (size : ∀ i, M.nrows ≤ i → M.rows i = none) : i ∈ M.active ↔ M.rows i ≠ none := by
  rw [active, mem_filter, mem_range, ← Option.isSome_iff_ne_none, and_iff_right_iff_imp]
  exact fun some => not_le.mp fun le => by simp [size i le] at some

theorem columnWeights_decrease {c : ℕ} : (M.decrease c).columnWeights c = M.columnWeights c - 1 := update_self ..

theorem columnWeights_decrease_of_ne {c d : ℕ} (ne : d ≠ c) : (M.decrease c).columnWeights d = M.columnWeights d :=
  update_of_ne ne ..

theorem columnWeights_decrease_le {c d : ℕ} : (M.decrease c).columnWeights d ≤ M.columnWeights d := by
  by_cases same : d = c
  · rw [same, columnWeights_decrease]
    exact Nat.sub_le ..
  · exact (columnWeights_decrease_of_ne same).le

theorem card_columns_decrease {c : ℕ} (lt : c < M.ncols) (positive : M.columnWeights c ≠ 0) :
    #(M.decrease c).columns + (if M.columnWeights c = 1 then 1 else 0) = #M.columns := by
  have change := card_columns_change (N := M.decrease c) (fun d ne => columnWeights_decrease_of_ne ne) lt (card_filter ..)
  rw [columnWeights_decrease] at change
  split_ifs at change ⊢ <;> omega

theorem Whole.newRow (whole : Whole col0 col1 M) (free : M.rows i = none) (primes : List ℕ) :
    Whole col0 col1 (M.newRow i col0 col1 primes) := by
  obtain ⟨⟨w, counted, sums⟩, inside, size, remainingRows⟩ := whole
  have size' (j : ℕ) (le : (M.newRow i col0 col1 primes).nrows ≤ j) : (M.newRow i col0 col1 primes).rows j = none := by
    have other : j ≠ i := ((Nat.lt_succ_self i).trans_le ((le_max_right ..).trans le)).ne'
    exact (update_of_ne other ..).trans (size j ((le_max_left ..).trans le))
  have new : (M.newRow i col0 col1 primes).row i = primes.filter fun h => col0 ≤ h ∧ h < col1 := by
    simp [row, PurgeMatrix.newRow]
  have old {j : ℕ} (other : j ≠ i) : (M.newRow i col0 col1 primes).row j = M.row j := by
    simp [row, PurgeMatrix.newRow, other]
  have absent : i ∉ M.active := fun member => (mem_active size).mp member free
  have more : (M.newRow i col0 col1 primes).active = insert i M.active := by
    ext j
    rw [mem_insert, mem_active size', mem_active size]
    by_cases same : j = i
    · simp [PurgeMatrix.newRow, same]
    · simp [PurgeMatrix.newRow, same]
  refine ⟨⟨_, counted.newRow primes, fun c low high => ?_⟩, fun j c member => ?_, size', ?_⟩
  · rw [more, sum_insert absent, new, List.count_filter (by simp [low, high]), Nat.add_comm, sums c low high]
    exact congrArg _ (sum_congr rfl fun j member => by rw [old fun same => absent (same ▸ member)])
  · by_cases same : j = i
    · rw [same, new] at member
      exact of_decide_eq_true (List.mem_filter.mp member).2
    · exact inside j c (old same ▸ member)
  · rw [more, card_insert_of_notMem absent, ← remainingRows]
    rfl

theorem one_le_sum_count {A : Finset ℕ} (member : i ∈ A) {c : ℕ} (inRow : c ∈ M.row i) :
    1 ≤ ∑ j ∈ A, (M.row j).count c :=
  (List.one_le_count_iff.mpr inRow).trans
    (single_le_sum (f := fun j => (M.row j).count c) (fun _ _ => Nat.zero_le _) member)

theorem Whole.lt_ncols (whole : Whole col0 col1 M) {c : ℕ} (inRow : c ∈ M.row i) : c < M.ncols := by
  obtain ⟨⟨w, counted, sums⟩, inside, size, -⟩ := whole
  obtain ⟨low, high⟩ := inside i c inRow
  have member : i ∈ M.active := (mem_active size).mpr fun none => by
    rw [row, none] at inRow
    exact List.not_mem_nil inRow
  have counts : 1 ≤ w c := by
    rw [sums c low high]
    exact one_le_sum_count member inRow
  by_contra beyond
  have zero : min overweight (w c) = 0 := counted.weights c ▸ counted.size c (not_lt.mp beyond)
  exact absurd zero (lt_min (by decide) counts).ne'

theorem Built.whole (built : Built col0 col1 M) : Whole col0 col1 M := by
  induction built with
  | empty =>
    refine ⟨⟨fun _ => 0, ⟨fun _ => rfl, fun _ _ => rfl, rfl⟩, fun _ _ _ => rfl⟩, ?_, fun _ _ => rfl, rfl⟩
    exact fun _ _ member => absurd member List.not_mem_nil
  | newRow built free primes ih => exact ih.newRow free primes

end PurgeMatrix

/-! ## The passes -/

/-- Where a thread is in its turn for a row. The loop of `delete_row` first loads a weight and then decreases it. -/
inductive Visit
  | waiting
  | test (q : List ℕ)
  | delete (p : List ℕ) (killed : ℕ)
  | decrease (c : ℕ) (p : List ℕ) (killed : ℕ)
  | done
  deriving DecidableEq

def Visit.killed : Visit → ℕ
  | delete _ killed => killed
  | decrease _ _ killed => killed
  | _ => 0

def Visit.deletes : Visit → Bool
  | delete .. => true
  | decrease .. => true
  | _ => false

def Visit.left (row : List ℕ) : Visit → List ℕ
  | delete p _ => p
  | decrease c p _ => c :: p
  | _ => row

def Visit.work (length : ℕ) : Visit → ℕ
  | waiting => 3 * length + 3
  | test q => 2 * length + 2 + q.length
  | delete p _ => 2 * p.length + 1
  | decrease _ p _ => 2 * p.length + 2
  | done => 0

def Visit.Knows (M now : PurgeMatrix) (quiet : Prop) (i : ℕ) : Visit → Prop
  | waiting => True
  | test q => i ∈ now.active ∧ ∃ p, now.row i = p ++ q ∧ (quiet → ∀ c ∈ p, now.columnWeights c ≠ 1)
  | delete p _ => i ∈ now.active ∧ p ⊆ M.row i
  | decrease c p _ => i ∈ now.active ∧ c :: p ⊆ M.row i ∧ M.columnWeights c < overweight
  | done => quiet → ∀ c ∈ now.row i, now.columnWeights c ≠ 1

theorem Visit.left_eq {v : Visit} (keeps : v.deletes = false) (row : List ℕ) : v.left row = row ∧ v.killed = 0 := by
  cases v with
  | delete p killed => exact Bool.noConfusion keeps
  | decrease c p killed => exact Bool.noConfusion keeps
  | _ => exact ⟨rfl, rfl⟩

structure State where
  M : PurgeMatrix
  visit : ℕ → Visit
  rowsBefore : ℕ
  excess : ℤ

namespace State
open PurgeMatrix

def start (M : PurgeMatrix) : State :=
  ⟨M, fun _ => .waiting, M.remainingRows, M.remainingRows - M.remainingColumns⟩

variable (s : State)

def after (now : PurgeMatrix) (i : ℕ) (v : Visit) : State := { s with M := now, visit := update s.visit i v }

def turn (i : ℕ) : State :=
  match s.visit i with
  | .waiting => s.after s.M i (if (s.M.rows i).isSome then .test (s.M.row i) else .done)
  | .test [] => s.after s.M i .done
  | .test (c :: q) => s.after s.M i (if s.M.columnWeights c = 1 then .delete (s.M.row i) 0 else .test q)
  | .delete (c :: p) killed =>
    s.after s.M i (if s.M.columnWeights c < overweight then .decrease c p killed else .delete p killed)
  | .decrease c p killed =>
    s.after (s.M.decrease c) i (.delete p (if s.M.columnWeights c = 1 then killed + 1 else killed))
  | .delete [] killed => s.after (s.M.dropRow i killed) i .done
  | .done => s

def PassEnded : Prop := ∀ i < s.M.nrows, s.visit i = .done

/-- A thread takes its rows in order. Here any row may be next, so that the rows may be divided in any way. -/
inductive Step (s : State) : State → Prop
  | turn (i : ℕ) (lt : i < s.M.nrows) (goes : s.visit i ≠ .done) : Step s (s.turn i)
  | again (ended : s.PassEnded) (deleted : s.M.remainingRows ≠ s.rowsBefore) : Step s (start s.M)

def left (i : ℕ) : List ℕ := (s.visit i).left (s.M.row i)

def Quiet : Prop := s.M.remainingRows = s.rowsBefore ∧ ∀ i, (s.visit i).deletes = false

/-! ## What holds throughout -/

structure Fits (M now : PurgeMatrix) (quiet : Prop) (i : ℕ) (v : Visit) : Prop where
  rows : now.rows i = none ∨ now.rows i = M.rows i
  kept : ∀ S, M.SingletonFree S → i ∈ S → i ∈ now.active ∧ v.deletes = false
  knows : v.Knows M now quiet i

structure Inv (M : PurgeMatrix) (s : State) : Prop where
  nrows : s.M.nrows = M.nrows
  ncols : s.M.ncols = M.ncols
  fits : ∀ i, Fits M s.M s.Quiet i (s.visit i)
  weights : ∀ i ∈ M.active, ∀ c ∈ M.row i, s.M.columnWeights c =
    if M.columnWeights c < overweight then ∑ j ∈ M.active, (s.left j).count c else overweight
  remainingRows : s.M.remainingRows = #s.M.active
  remainingColumns : s.M.remainingColumns = #s.M.columns + ∑ j ∈ M.active, (s.visit j).killed
  le_weights : ∀ c, s.M.columnWeights c ≤ M.columnWeights c
  le_rows : s.M.remainingRows ≤ s.rowsBefore
  excess : s.Quiet → s.excess = s.M.remainingRows - s.M.remainingColumns

variable {M now now' : PurgeMatrix} {s : State} {quiet quiet' : Prop} {i : ℕ} {v : Visit}

theorem row_congr (same : now'.rows i = now.rows i) : now'.row i = now.row i := congrArg (·.getD []) same

theorem Fits.later (fits : Fits M now quiet i v) (earlier : quiet' → quiet) : Fits M now quiet' i v := by
  obtain ⟨rows, kept, knows⟩ := fits
  refine ⟨rows, kept, ?_⟩
  cases v with
  | test q => exact ⟨knows.1, knows.2.imp fun p split => ⟨split.1, fun now => split.2 (earlier now)⟩⟩
  | done => exact fun now => knows (earlier now)
  | _ => exact knows

theorem Fits.loud (fits : Fits M now quiet i v) (same : now'.rows i = now.rows i) (nrows : now'.nrows = now.nrows)
    (loud : ¬ quiet') : Fits M now' quiet' i v := by
  obtain ⟨rows, kept, knows⟩ := fits
  have active : i ∈ now.active → i ∈ now'.active := by
    simp only [PurgeMatrix.active, mem_filter, same, nrows]
    exact id
  refine ⟨same ▸ rows, fun S free member => ⟨active (kept S free member).1, (kept S free member).2⟩, ?_⟩
  cases v with
  | waiting => trivial
  | test q =>
    exact ⟨active knows.1, knows.2.imp fun p split => ⟨(row_congr same).trans split.1, fun now => absurd now loud⟩⟩
  | delete p killed => exact ⟨active knows.1, knows.2⟩
  | decrease c p killed => exact ⟨active knows.1, knows.2⟩
  | done => exact fun now => absurd now loud

@[simp] theorem after_visit : (s.after now i v).visit i = v := update_self ..

theorem after_visit_of_ne {j : ℕ} (ne : j ≠ i) : (s.after now i v).visit j = s.visit j := update_of_ne ne ..

theorem Fits.mem_active (fits : Fits M s.M quiet i v) (nrows : s.M.nrows = M.nrows) (member : i ∈ s.M.active) :
    i ∈ M.active ∧ s.M.row i = M.row i := by
  simp only [PurgeMatrix.active, PurgeMatrix.row, mem_filter, mem_range] at member ⊢
  rcases fits.rows with none | same
  · rw [none] at member
    cases member.2
  · exact ⟨⟨nrows ▸ member.1, same ▸ member.2⟩, congrArg (·.getD []) same⟩

/-- A row of a set without singletons passes the test of its thread, whatever the other threads have done. -/
theorem Inv.weight_ne_one (inv : Inv M s) {S : Finset ℕ} (free : M.SingletonFree S) (member : i ∈ S) {c : ℕ}
    (inRow : c ∈ M.row i) : s.M.columnWeights c ≠ 1 := by
  rw [inv.weights i (free.1 member) c inRow]
  split_ifs with light
  · have same (j : ℕ) (last : j ∈ S) : s.left j = M.row j := by
      obtain ⟨active, keeps⟩ := (inv.fits j).kept S free last
      exact (Visit.left_eq keeps _).1.trans ((inv.fits j).mem_active inv.nrows active).2
    have le : ∑ j ∈ S, (M.row j).count c ≤ ∑ j ∈ M.active, (s.left j).count c :=
      (sum_congr rfl fun j last => by rw [same j last]).trans_le (sum_le_sum_of_subset free.1)
    have own := one_le_sum_count member inRow
    have not_one := free.2 i member c inRow light
    omega
  · decide

theorem Inv.moved (inv : Inv M s) {u : Visit} (visit : s.visit i = u) (fits : Fits M s.M s.Quiet i v)
    (count : ∀ c, M.columnWeights c < overweight → (v.left (s.M.row i)).count c = (u.left (s.M.row i)).count c)
    (killed : v.killed = u.killed) (quiet : v.deletes = false → u.deletes = false) :
    Inv M (s.after s.M i v) := by
  have own : (s.after s.M i v).visit i = v := after_visit
  have earlier (now : (s.after s.M i v).Quiet) : s.Quiet := by
    refine ⟨now.1, fun j => ?_⟩
    by_cases same : j = i
    · rw [same, visit]
      exact quiet (own ▸ now.2 i)
    · exact (congrArg _ (after_visit_of_ne same)).symm.trans (now.2 j)
  have all : ∀ j, Fits M s.M (s.after s.M i v).Quiet j ((s.after s.M i v).visit j) :=
    (forall_update_iff s.visit fun j => Fits M s.M (s.after s.M i v).Quiet j).mpr
      ⟨fits.later earlier, fun j _ => (inv.fits j).later earlier⟩
  refine ⟨inv.nrows, inv.ncols, all, fun j member c inside => ?_, inv.remainingRows, ?_, inv.le_weights, inv.le_rows,
    fun now => inv.excess (earlier now)⟩
  · refine (inv.weights j member c inside).trans (ite_congr rfl (fun light => sum_congr rfl fun k _ => ?_) fun _ => rfl)
    by_cases same : k = i
    · rw [same, State.left, State.left, own, visit]
      exact (count c light).symm
    · rw [State.left, State.left, after_visit_of_ne same]
      rfl
  · refine inv.remainingColumns.trans (congrArg _ (sum_congr rfl fun j _ => ?_))
    by_cases same : j = i
    · rw [same, own, visit, killed]
    · rw [after_visit_of_ne same]

theorem sum_left_after (member : i ∈ M.active) (same : ∀ j, j ≠ i → now.rows j = s.M.rows j) (c : ℕ) :
    ∑ j ∈ M.active, ((s.after now i v).left j).count c + (s.left i).count c =
      ∑ j ∈ M.active, (s.left j).count c + (v.left (now.row i)).count c := by
  have change := sum_change (f := fun j => (s.left j).count c) (g := fun j => ((s.after now i v).left j).count c)
    (fun j ne => congrArg (List.count c) (by rw [State.left, State.left, after_visit_of_ne ne, ← row_congr (same j ne)]; rfl))
    member
  exact change.trans (by rw [State.left, after_visit]; rfl)

theorem sum_killed_after (now : PurgeMatrix) (v : Visit) (member : i ∈ M.active) :
    ∑ j ∈ M.active, ((s.after now i v).visit j).killed + (s.visit i).killed =
      ∑ j ∈ M.active, (s.visit j).killed + v.killed := by
  have change := sum_change (f := fun j => (s.visit j).killed) (g := fun j => ((s.after now i v).visit j).killed)
    (fun j ne => by rw [after_visit_of_ne ne]) member
  exact change.trans (by rw [after_visit])

theorem Inv.fits_after (inv : Inv M s) (own : ∀ quiet, ¬ quiet → Fits M now quiet i v)
    (same : ∀ j, j ≠ i → now.rows j = s.M.rows j) (nrows : now.nrows = s.M.nrows)
    (loud : ¬ (s.after now i v).Quiet) (j : ℕ) :
    Fits M now (s.after now i v).Quiet j ((s.after now i v).visit j) := by
  by_cases here : j = i
  · rw [here, after_visit]
    exact own _ loud
  · rw [after_visit_of_ne here]
    exact (inv.fits j).loud (same j here) nrows loud

theorem Inv.decrease (inv : Inv M s) (inside : ∀ c ∈ M.row i, c < M.ncols) {c : ℕ} {p : List ℕ} {killed : ℕ}
    (visit : s.visit i = .decrease c p killed) :
    Inv M (s.after (s.M.decrease c) i (.delete p (if s.M.columnWeights c = 1 then killed + 1 else killed))) := by
  have fits := inv.fits i
  rw [visit] at fits
  obtain ⟨present, subset, light⟩ := fits.knows
  have member := (fits.mem_active inv.nrows present).1
  have column : c ∈ M.row i := subset (.head _)
  have left : s.left i = c :: p := by rw [State.left, visit]; rfl
  let v := Visit.delete p (if s.M.columnWeights c = 1 then killed + 1 else killed)
  change Inv M (s.after (s.M.decrease c) i v)
  have loud : ¬ (s.after (s.M.decrease c) i v).Quiet :=
    fun quiet => Bool.noConfusion ((congrArg Visit.deletes after_visit).symm.trans (quiet.2 i))
  have own (quiet : Prop) (_ : ¬ quiet) : Fits M (s.M.decrease c) quiet i v :=
    ⟨fits.rows, fits.kept, present, fun d last => subset (List.mem_cons_of_mem c last)⟩
  have sums (d : ℕ) : ∑ j ∈ M.active, ((s.after (s.M.decrease c) i v).left j).count d + (c :: p).count d =
      ∑ j ∈ M.active, (s.left j).count d + p.count d := left ▸ sum_left_after member (fun _ _ => rfl) d
  have before := inv.weights i member c column
  rw [if_pos light] at before
  have atC := sums c
  rw [List.count_cons_self, ← before] at atC
  refine ⟨inv.nrows, inv.ncols, inv.fits_after own (fun _ _ => rfl) rfl loud, fun j inside' d inRow => ?_,
    inv.remainingRows, ?_, fun d => columnWeights_decrease_le.trans (inv.le_weights d), inv.le_rows,
    fun quiet => absurd quiet loud⟩
  · by_cases here : d = c
    · rw [here, if_pos light]
      exact columnWeights_decrease.trans (by omega)
    · have all := sums d
      rw [List.count_cons_of_ne (Ne.symm here)] at all
      exact Nat.add_right_cancel all ▸ (columnWeights_decrease_of_ne here).trans (inv.weights j inside' d inRow)
  · have columns := s.M.card_columns_decrease (inv.ncols ▸ inside c column) (c := c) (by omega)
    have counted : ∑ j ∈ M.active, ((s.after (s.M.decrease c) i v).visit j).killed + killed =
        ∑ j ∈ M.active, (s.visit j).killed + (if s.M.columnWeights c = 1 then killed + 1 else killed) := by
      have change := sum_killed_after (s := s) (s.M.decrease c) v member
      rwa [visit] at change
    refine inv.remainingColumns.trans ?_
    change _ = #(s.M.decrease c).columns + _
    split_ifs at columns counted <;> omega

theorem Inv.dropRow (inv : Inv M s) {killed : ℕ} (visit : s.visit i = .delete [] killed) :
    Inv M (s.after (s.M.dropRow i killed) i .done) := by
  have fits := inv.fits i
  rw [visit] at fits
  have present := fits.knows.1
  have member := (fits.mem_active inv.nrows present).1
  have left : s.left i = [] := by rw [State.left, visit]; rfl
  have none : (s.M.dropRow i killed).rows i = none := update_self ..
  have same (j : ℕ) (ne : j ≠ i) : (s.M.dropRow i killed).rows j = s.M.rows j := update_of_ne ne ..
  have row : (s.M.dropRow i killed).row i = [] := congrArg (·.getD []) none
  have less : (s.M.dropRow i killed).active = s.M.active.erase i := by
    ext j
    by_cases here : j = i
    · simp [PurgeMatrix.active, here, none]
    · simp only [PurgeMatrix.active, mem_erase, mem_filter, same j here, ne_eq, here, not_false_eq_true, true_and]
      rfl
  have rows : s.M.remainingRows - 1 + 1 = s.M.remainingRows :=
    Nat.sub_add_cancel (inv.remainingRows ▸ card_pos.mpr ⟨i, present⟩)
  have loud : ¬ (s.after (s.M.dropRow i killed) i .done).Quiet := fun quiet => by
    have stays : s.M.remainingRows - 1 = s.rowsBefore := quiet.1
    have := inv.le_rows
    omega
  have own (quiet : Prop) (loud : ¬ quiet) : Fits M (s.M.dropRow i killed) quiet i .done :=
    ⟨.inl none, fun S free last => Bool.noConfusion (fits.kept S free last).2, fun now => absurd now loud⟩
  refine ⟨inv.nrows, inv.ncols, inv.fits_after own same rfl loud, fun j inside c inRow => ?_, ?_, ?_, inv.le_weights,
    (Nat.sub_le ..).trans inv.le_rows, fun quiet => absurd quiet loud⟩
  · have sum := sum_left_after (s := s) (v := .done) member same c
    rw [left, row] at sum
    exact (Nat.add_right_cancel sum).symm ▸ inv.weights j inside c inRow
  · rw [show (s.after (s.M.dropRow i killed) i .done).M.active = s.M.active.erase i from less, card_erase_of_mem present,
      ← inv.remainingRows]
    rfl
  · have counted : ∑ j ∈ M.active, ((s.after (s.M.dropRow i killed) i .done).visit j).killed + killed =
        ∑ j ∈ M.active, (s.visit j).killed := by
      have change := sum_killed_after (s := s) (s.M.dropRow i killed) .done member
      rwa [visit] at change
    have remaining := inv.remainingColumns
    change s.M.remainingColumns - killed = #s.M.columns + _
    omega

theorem Inv.test (inv : Inv M s) {c : ℕ} {q : List ℕ} (visit : s.visit i = .test (c :: q)) :
    Inv M (s.after s.M i (if s.M.columnWeights c = 1 then .delete (s.M.row i) 0 else .test q)) := by
  have fits := inv.fits i
  rw [visit] at fits
  obtain ⟨present, p, split, tested⟩ := fits.knows
  have row := (fits.mem_active inv.nrows present).2
  have inRow : c ∈ M.row i := row ▸ split ▸ List.mem_append_right p (.head _)
  split_ifs with one
  · refine inv.moved visit ⟨fits.rows, fun S free member => ?_, present, row ▸ List.Subset.refl _⟩
      (fun _ _ => rfl) rfl fun _ => rfl
    exact absurd one (inv.weight_ne_one free member inRow)
  · refine inv.moved visit ⟨fits.rows, fits.kept, present, p ++ [c], ?_, fun quiet d member => ?_⟩
      (fun _ _ => rfl) rfl fun _ => rfl
    · rw [split, List.append_assoc, List.singleton_append]
    · rcases List.mem_append.mp member with earlier | last
      · exact tested quiet d earlier
      · exact List.mem_singleton.mp last ▸ one

theorem Inv.load (inv : Inv M s) {c killed : ℕ} {p : List ℕ} (visit : s.visit i = .delete (c :: p) killed) :
    Inv M (s.after s.M i (if s.M.columnWeights c < overweight then .decrease c p killed else .delete p killed)) := by
  have fits := inv.fits i
  rw [visit] at fits
  obtain ⟨present, subset⟩ := fits.knows
  have now := inv.weights i (fits.mem_active inv.nrows present).1 c (subset (.head _))
  split_ifs with light
  · refine inv.moved visit ⟨fits.rows, fits.kept, present, subset, ?_⟩ (fun _ _ => rfl) rfl fun eq => Bool.noConfusion eq
    by_contra heavy
    rw [if_neg heavy] at now
    exact light.ne now
  · have rest : p ⊆ M.row i := fun d last => subset (List.mem_cons_of_mem c last)
    refine inv.moved visit ⟨fits.rows, fits.kept, present, rest⟩ (fun d small => ?_) rfl fun eq => Bool.noConfusion eq
    -- The column is saturated, so it is none of those whose weights are counted.
    refine (List.count_cons_of_ne fun same => ?_).symm
    exact light ((inv.le_weights c).trans_lt (same ▸ small))

theorem Inv.turn (inv : Inv M s) (inside : ∀ i, ∀ c ∈ M.row i, c < M.ncols) (lt : i < s.M.nrows) :
    Inv M (s.turn i) := by
  have fits := inv.fits i
  rw [State.turn]
  cases visit : s.visit i with
  | waiting =>
    rw [visit] at fits
    by_cases some : (s.M.rows i).isSome
    · simp only [some, if_true]
      refine inv.moved visit ⟨fits.rows, fits.kept, ?_, [], rfl, ?_⟩ (fun _ _ => rfl) rfl fun _ => rfl
      · exact mem_filter.mpr ⟨mem_range.mpr lt, some⟩
      · exact fun _ _ member => absurd member List.not_mem_nil
    · simp only [some]
      have row : s.M.row i = [] := congrArg (·.getD []) (Option.not_isSome_iff_eq_none.mp some)
      refine inv.moved visit ⟨fits.rows, fits.kept, fun _ c member => ?_⟩ (fun _ _ => rfl) rfl fun _ => rfl
      exact absurd (row ▸ member) List.not_mem_nil
  | test q =>
    cases q with
    | nil =>
      rw [visit] at fits
      obtain ⟨-, p, split, tested⟩ := fits.knows
      refine inv.moved visit ⟨fits.rows, fits.kept, fun quiet c member => ?_⟩ (fun _ _ => rfl) rfl fun _ => rfl
      exact tested quiet c (List.append_nil p ▸ split ▸ member)
    | cons c q => exact inv.test visit
  | delete p killed =>
    cases p with
    | nil => exact inv.dropRow visit
    | cons c p => exact inv.load visit
  | decrease c p killed => exact inv.decrease (inside i) visit
  | done => exact inv

theorem Inv.not_deletes (inv : Inv M s) (ended : s.PassEnded) (i : ℕ) : (s.visit i).deletes = false := by
  by_contra deletes
  have knows := (inv.fits i).knows
  have present : i ∈ s.M.active := by
    cases visit : s.visit i with
    | delete p killed => exact (visit ▸ knows).1
    | decrease c p killed => exact (visit ▸ knows).1
    | _ => exact absurd (congrArg Visit.deletes visit) deletes
  exact deletes (congrArg Visit.deletes (ended i (mem_range.mp (mem_filter.mp present).1)))

theorem Inv.sum_killed (inv : Inv M s) (ended : s.PassEnded) : ∑ j ∈ M.active, (s.visit j).killed = 0 :=
  sum_eq_zero fun j _ => (Visit.left_eq (inv.not_deletes ended j) []).2

theorem Inv.sum_left (inv : Inv M s) (ended : s.PassEnded) (c : ℕ) :
    ∑ j ∈ M.active, (s.left j).count c = ∑ j ∈ s.M.active, (s.M.row j).count c := by
  calc ∑ j ∈ M.active, (s.left j).count c
      = ∑ j ∈ M.active, (s.M.row j).count c := sum_congr rfl fun j _ => by
        rw [State.left, (Visit.left_eq (inv.not_deletes ended j) _).1]
    _ = ∑ j ∈ s.M.active, (s.M.row j).count c := by
        refine (sum_subset (fun j member => ((inv.fits j).mem_active inv.nrows member).1) fun j member gone => ?_).symm
        have lt : j ∈ range s.M.nrows := inv.nrows ▸ (mem_filter.mp member).1
        have none : s.M.rows j = none := Option.not_isSome_iff_eq_none.mp fun some => gone (mem_filter.mpr ⟨lt, some⟩)
        rw [PurgeMatrix.row, none]
        rfl

theorem Inv.again (inv : Inv M s) (ended : s.PassEnded) : Inv M (start s.M) := by
  have fits (i : ℕ) (quiet : Prop) : Fits M s.M quiet i .waiting :=
    ⟨(inv.fits i).rows, fun S free member => ⟨((inv.fits i).kept S free member).1, rfl⟩, trivial⟩
  refine ⟨inv.nrows, inv.ncols, fun i => fits i _, fun j member c inRow => ?_, inv.remainingRows, ?_, inv.le_weights, le_rfl,
    fun _ => rfl⟩
  · refine (inv.weights j member c inRow).trans (ite_congr rfl (fun _ => sum_congr rfl fun k _ => ?_) fun _ => rfl)
    rw [State.left, (Visit.left_eq (inv.not_deletes ended k) _).1]
    rfl
  · refine inv.remainingColumns.trans ?_
    rw [inv.sum_killed ended]
    exact congrArg _ sum_const_zero.symm

theorem Inv.start (whole : Whole col0 col1 M) : Inv M (start M) := by
  obtain ⟨⟨w, counted, sums⟩, inside, -, remainingRows⟩ := whole
  have fits (i : ℕ) (quiet : Prop) : Fits M M quiet i .waiting :=
    ⟨.inr rfl, fun S free member => ⟨free.1 member, rfl⟩, trivial⟩
  refine ⟨rfl, rfl, fun i => fits i _, fun j member c inRow => ?_, remainingRows, ?_, fun _ => le_rfl, le_rfl, fun _ => rfl⟩
  · obtain ⟨low, high⟩ := inside j c inRow
    have weight := counted.weights c
    rw [sums c low high] at weight
    change M.columnWeights c = if M.columnWeights c < overweight then ∑ j ∈ M.active, (M.row j).count c else overweight
    split_ifs <;> omega
  · have none : ∑ j ∈ M.active, ((State.start M).visit j).killed = 0 := sum_eq_zero fun _ _ => rfl
    rw [none]
    exact counted.columns

theorem Inv.step (inv : Inv M s) (inside : ∀ i, ∀ c ∈ M.row i, c < M.ncols) {t : State} (step : Step s t) : Inv M t := by
  cases step with
  | turn i lt goes => exact inv.turn inside lt
  | again ended deleted => exact inv.again ended

theorem Inv.weight_eq (inv : Inv M s) (ended : s.PassEnded) (member : i ∈ s.M.active) {c : ℕ} (inRow : c ∈ s.M.row i)
    (light : M.columnWeights c < overweight) : s.M.columnWeights c = ∑ j ∈ s.M.active, (s.M.row j).count c := by
  obtain ⟨active, row⟩ := (inv.fits i).mem_active inv.nrows member
  rw [← inv.sum_left ended, inv.weights i active c (row ▸ inRow), if_pos light]

theorem Inv.exact (inv : Inv M s) (ended : s.PassEnded) : s.M.Exact fun c => M.columnWeights c < overweight := by
  refine ⟨inv.remainingRows, ?_, fun i member c inRow light => inv.weight_eq ended member inRow light⟩
  exact inv.remainingColumns.trans (by rw [inv.sum_killed ended, Nat.add_zero])

theorem Inv.greatest (inv : Inv M s) (ended : s.PassEnded) (same : s.M.remainingRows = s.rowsBefore) :
    IsGreatest {S | M.SingletonFree S} s.M.active := by
  have active (i : ℕ) (member : i ∈ s.M.active) := (inv.fits i).mem_active inv.nrows member
  refine ⟨⟨fun i member => (active i member).1, fun i member c inRow light => ?_⟩, fun S free i member =>
    ((inv.fits i).kept S free member).1⟩
  have here : c ∈ s.M.row i := (active i member).2.symm ▸ inRow
  have knows := (inv.fits i).knows
  rw [ended i (mem_range.mp (mem_filter.mp member).1)] at knows
  rw [sum_congr rfl fun j last => by rw [← (active j last).2], ← inv.weight_eq ended member here light]
  exact knows ⟨same, inv.not_deletes ended⟩ c here

/-! ## The end of the passes -/

theorem turn_eq (goes : s.visit i ≠ .done) : ∃ now v, s.turn i = s.after now i v ∧ (∀ j, j ≠ i → now.rows j = s.M.rows j) ∧
    now.nrows = s.M.nrows ∧ v.work (now.row i).length < (s.visit i).work (s.M.row i).length := by
  rw [State.turn]
  cases visit : s.visit i with
  | waiting =>
    refine ⟨_, _, rfl, fun _ _ => rfl, rfl, ?_⟩
    split_ifs <;> simp only [Visit.work] <;> omega
  | test q =>
    cases q with
    | nil => exact ⟨_, _, rfl, fun _ _ => rfl, rfl, Nat.succ_pos _⟩
    | cons c q =>
      refine ⟨_, _, rfl, fun _ _ => rfl, rfl, ?_⟩
      split_ifs <;> simp only [Visit.work, List.length_cons] <;> omega
  | delete p killed =>
    cases p with
    | nil => exact ⟨_, _, rfl, fun _ ne => update_of_ne ne .., rfl, Nat.succ_pos _⟩
    | cons c p =>
      refine ⟨_, _, rfl, fun _ _ => rfl, rfl, ?_⟩
      split_ifs <;> simp only [Visit.work, List.length_cons] <;> omega
  | decrease c p killed => exact ⟨_, _, rfl, fun _ _ => rfl, rfl, Nat.lt_succ_self _⟩
  | done => exact absurd visit goes

def work (s : State) : ℕ := ∑ i ∈ range s.M.nrows, (s.visit i).work (s.M.row i).length

theorem work_turn (lt : i < s.M.nrows) (goes : s.visit i ≠ .done) :
    (s.turn i).work < s.work ∧ (s.turn i).rowsBefore = s.rowsBefore := by
  obtain ⟨now, v, turn, same, nrows, less⟩ := turn_eq goes
  rw [turn]
  have change := sum_change (f := fun j => (s.visit j).work (s.M.row j).length)
    (g := fun j => ((s.after now i v).visit j).work (now.row j).length)
    (fun j ne => by rw [after_visit_of_ne ne, row_congr (same j ne)]) (mem_range.mpr lt)
  rw [after_visit] at change
  have later : (s.after now i v).work =
      ∑ j ∈ range s.M.nrows, ((s.after now i v).visit j).work (now.row j).length := by
    rw [State.work, ← nrows]
    rfl
  refine ⟨?_, rfl⟩
  rw [later, State.work]
  omega

theorem Inv.acc (inv : Inv M s) (inside : ∀ i, ∀ c ∈ M.row i, c < M.ncols) : Acc (fun later now => Step now later) s := by
  induction order : toLex (s.rowsBefore, s.work) using WellFoundedLT.induction generalizing s with
  | ind order ih =>
    refine ⟨_, fun t step => ih _ ?_ (inv.step inside step) rfl⟩
    rw [← order, Prod.Lex.toLex_lt_toLex]
    cases step with
    | turn i lt goes => exact .inr ⟨(work_turn lt goes).2, (work_turn lt goes).1⟩
    | again ended deleted => exact .inl (lt_of_le_of_ne inv.le_rows deleted)

end State

/-- The threads may take their turns in any order: the counters are exact between the passes, and the passes end, with the
same rows. -/
theorem singletonRemoval_ends {M : PurgeMatrix} {col0 col1 : ℕ} (built : PurgeMatrix.Built col0 col1 M) :
    Acc (fun later now => State.Step now later) (State.start M) ∧
    ∀ s, ReflTransGen State.Step (State.start M) s →
      (s.PassEnded → s.M.Exact fun c => M.columnWeights c < overweight) ∧
      ((∀ t, ¬ State.Step s t) → s.PassEnded ∧ IsGreatest {S | M.SingletonFree S} s.M.active ∧
        s.excess = s.M.remainingRows - s.M.remainingColumns) := by
  have whole := built.whole
  have inside (i : ℕ) (c : ℕ) (inRow : c ∈ M.row i) : c < M.ncols := whole.lt_ncols inRow
  have start := State.Inv.start whole
  refine ⟨start.acc inside, fun s run => ?_⟩
  have inv : State.Inv M s := Lib.invariant_of_run (State.Inv M) (fun _ _ inv step => inv.step inside step) start run
  refine ⟨inv.exact, fun last => ?_⟩
  have ended : s.PassEnded := fun i lt => by
    by_contra goes
    exact last _ (.turn i lt goes)
  have same : s.M.remainingRows = s.rowsBefore := by
    by_contra deleted
    exact last _ (.again ended deleted)
  exact ⟨ended, inv.greatest ended same, inv.excess ⟨same, inv.not_deletes ended⟩⟩

def fourRows : PurgeMatrix :=
  (((PurgeMatrix.empty.newRow 0 0 10 [1, 2]).newRow 1 0 10 [2, 3]).newRow 2 0 10 [1, 3]).newRow 3 0 10 [3, 4]

theorem singletonRemoval_ends_fourRows : ∃ s, ReflTransGen State.Step (State.start fourRows) s ∧
    IsGreatest {S | fourRows.SingletonFree S} s.M.active := by
  have built : PurgeMatrix.Built 0 10 fourRows := .newRow (.newRow (.newRow (.newRow .empty rfl _) rfl _) rfl _) rfl _
  obtain ⟨stops, ends⟩ := singletonRemoval_ends built
  obtain ⟨s, run, last⟩ := Lib.exists_last_of_acc stops
  exact ⟨s, run, ((ends s run).2 last).2.1⟩

end CadoNfs.Filter.Purge
