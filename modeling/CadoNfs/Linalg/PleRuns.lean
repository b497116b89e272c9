import CadoNfs.Linalg.PleFindPivot

/-!
# The calls of `find_pivot` in a PLE decomposition

The constructor of `PLE` sorts the rows by weight but leaves as many rows as it can in their own places of the list.
-/

namespace CadoNfs.Linalg.PleFindPivot

open CadoNfs.Lib Function

/-- The rows that `find_pivot` returns are of type `int`. -/
structure View where
  nrows : ℕ
  bound : nrows ≤ 2 ^ 31

def prioCmp (v : ℕ → ℕ) (useRowIndex : Bool) (a b : ℕ) : Bool :=
  let r : ℤ := (if v b < v a then 1 else 0) - (if v a < v b then 1 else 0)
  if r ≠ 0 ∨ useRowIndex = false then r < 0 else a < b

def sortRows (v : ℕ → ℕ) (rows : List ℕ) : List ℕ := rows.mergeSort fun a b => !prioCmp v true b a

structure Placing where
  prioToData : ℕ → ℕ
  sortAgain : List ℕ

def placeStep (weights : ℕ → ℕ) (s : Placing) (ii : ℕ) : Placing :=
  if weights (s.prioToData ii) = weights ii then { s with prioToData := update s.prioToData ii ii }
  else { sortAgain := s.sortAgain ++ [ii], prioToData := update s.prioToData ii uintMax }

structure Filling where
  prioToData : ℕ → ℕ
  dataToPrio : ℕ → ℕ
  it : List ℕ

/-- `none` is a read behind the end of `sort_again`. -/
def fillStep (s : Filling) (ii : ℕ) : Option Filling :=
  if s.prioToData ii = uintMax then
    match s.it with
    | [] => none
    | z :: it => some { prioToData := update s.prioToData ii z, dataToPrio := update s.dataToPrio z ii, it := it }
  else some { s with dataToPrio := update s.dataToPrio (s.prioToData ii) ii }

def isSorted (weights prio : ℕ → ℕ) (n : ℕ) : Bool :=
  (List.range (n - 1)).all fun p => !prioCmp weights false (prio (p + 1)) (prio p)

/-- The constructor `PLE(b, d)`; `none` is a failed `ASSERT_ALWAYS`. -/
def ofWeights (b : View) (d : List ℕ) : Option Ple :=
  if d.length ≠ b.nrows then none
  else
    let weights := fun r => d.getD r 0
    let sorted := sortRows weights (List.range d.length)
    let placed := (List.range d.length).foldl (placeStep weights) ⟨fun ii => sorted.getD ii 0, []⟩
    let filled := (List.range d.length).foldlM fillStep
      ⟨placed.prioToData, fun _ => uintMax, sortRows weights placed.sortAgain⟩
    filled.bind fun filled =>
      if isSorted weights filled.prioToData d.length then
        some ⟨b.nrows, weights, filled.prioToData, filled.dataToPrio⟩
      else none

structure Run where
  ple : Ple
  ii : ℕ
  rows : ℕ → ℕ

def pivotStep (s : Run) (column : ℕ → Bool) : Run :=
  if s.ple.nrows ≤ s.ii then s
  else
    match findPivot s.ple column s.ii with
    | (none, ple) => { s with ple := ple }
    | (some piv, ple) => { ple := ple, ii := s.ii + 1, rows := fun r => s.rows (Equiv.swap s.ii piv r) }

/-! ### The comparison -/

theorem prioCmp_true {v : ℕ → ℕ} {a b : ℕ} : prioCmp v true a b = true ↔ v a < v b ∨ v a = v b ∧ a < b := by
  rw [prioCmp]
  rcases lt_trichotomy (v a) (v b) with less | same | more
  · simp [less, less.not_gt]
  · simp [same]
  · simp [more, more.not_gt, more.ne']

theorem prioCmp_false {v : ℕ → ℕ} {a b : ℕ} : prioCmp v false a b = true ↔ v a < v b := by
  rw [prioCmp]
  rcases lt_trichotomy (v a) (v b) with less | same | more
  · simp [less, less.not_gt]
  · simp [same]
  · simp [more, more.not_gt]

theorem sortRows_perm (v : ℕ → ℕ) (rows : List ℕ) : (sortRows v rows).Perm rows := List.mergeSort_perm _ _

theorem sortRows_sorted (v : ℕ → ℕ) (rows : List ℕ) : ((sortRows v rows).map v).Pairwise (· ≤ ·) := by
  rw [List.pairwise_map]
  refine List.Pairwise.imp (fun {a b} ordered => ?_) (List.pairwise_mergeSort ?_ ?_ rows)
  · rw [Bool.not_eq_true', ← Bool.not_eq_true, prioCmp_true] at ordered
    omega
  · intro a b c left right
    rw [Bool.not_eq_true', ← Bool.not_eq_true, prioCmp_true] at left right ⊢
    omega
  · intro a b
    rw [Bool.or_eq_true, Bool.not_eq_true', Bool.not_eq_true', ← Bool.not_eq_true, ← Bool.not_eq_true, prioCmp_true,
      prioCmp_true]
    omega

/-! ### The constructor -/

theorem placeStep_foldl (weights S : ℕ → ℕ) (is : List ℕ) (nodup : is.Nodup) (s : Placing)
    (same : ∀ ii ∈ is, s.prioToData ii = S ii) :
    (∀ ii ∈ is, (is.foldl (placeStep weights) s).prioToData ii = if weights (S ii) = weights ii then ii else uintMax) ∧
    (∀ ii ∉ is, (is.foldl (placeStep weights) s).prioToData ii = s.prioToData ii) ∧
    (is.foldl (placeStep weights) s).sortAgain =
      s.sortAgain ++ is.filter fun ii => decide (weights (S ii) ≠ weights ii) := by
  induction is generalizing s with
  | nil => exact ⟨fun ii none => (List.not_mem_nil none).elim, fun _ _ => rfl, (List.append_nil _).symm⟩
  | cons i rest ih =>
    obtain ⟨fresh, nodup⟩ := List.nodup_cons.mp nodup
    have here := same i (.head _)
    have step : (placeStep weights s i).prioToData =
        update s.prioToData i (if weights (S i) = weights i then i else uintMax) := by
      rw [placeStep, here]
      split_ifs <;> rfl
    have kept : ∀ ii, ii ≠ i → (placeStep weights s i).prioToData ii = s.prioToData ii := fun ii other => by
      rw [step, update_of_ne other]
    obtain ⟨inside, outside, again⟩ := ih nodup (placeStep weights s i) fun ii member => by
      rw [kept ii fun equal => fresh (equal ▸ member)]
      exact same ii (List.mem_cons_of_mem i member)
    rw [List.foldl_cons]
    refine ⟨fun ii member => ?_, fun ii out => ?_, ?_⟩
    · cases List.mem_cons.mp member with
      | inl equal => rw [equal, outside i fresh, step, update_self]
      | inr later => exact inside ii later
    · rw [List.mem_cons, not_or] at out
      rw [outside ii out.2, kept ii out.1]
    · rw [again, placeStep, here]
      by_cases equal : weights (S i) = weights i
      · rw [if_pos equal, List.filter_cons_of_neg (by simpa using equal)]
      · rw [if_neg equal, List.filter_cons_of_pos (by simpa using equal), List.append_assoc, List.singleton_append]

theorem fillStep_foldlM (is : List ℕ) (nodup : is.Nodup) (s : Filling)
    (enough : (is.filter fun ii => decide (s.prioToData ii = uintMax)).length ≤ s.it.length) :
    ∃ s', is.foldlM fillStep s = some s' ∧
      (is.filter fun ii => decide (s.prioToData ii = uintMax)).map s'.prioToData =
        s.it.take (is.filter fun ii => decide (s.prioToData ii = uintMax)).length ∧
      (∀ ii, (ii ∈ is → s.prioToData ii ≠ uintMax) → s'.prioToData ii = s.prioToData ii) ∧
      s'.dataToPrio = is.foldl (fun places ii => update places (s'.prioToData ii) ii) s.dataToPrio := by
  induction is generalizing s with
  | nil => exact ⟨s, rfl, rfl, fun _ _ => rfl, rfl⟩
  | cons i rest ih =>
    obtain ⟨fresh, nodup⟩ := List.nodup_cons.mp nodup
    rw [List.foldlM_cons, fillStep.eq_def]
    by_cases hole : s.prioToData i = uintMax
    · rw [List.filter_cons_of_pos (by simpa using hole), List.length_cons] at enough ⊢
      cases left : s.it with
      | nil =>
        rw [left, List.length_nil] at enough
        omega
      | cons z it =>
        rw [left, List.length_cons] at enough
        have unchanged : ∀ ii ∈ rest, update s.prioToData i z ii = s.prioToData ii := fun ii member =>
          update_of_ne (fun equal : ii = i => fresh (equal ▸ member)) _ _
        have filters : (rest.filter fun ii => decide (update s.prioToData i z ii = uintMax)) =
            rest.filter fun ii => decide (s.prioToData ii = uintMax) :=
          List.filter_congr fun ii member => by rw [unchanged ii member]
        obtain ⟨s', run, taken, kept, places⟩ := ih nodup
          { prioToData := update s.prioToData i z, dataToPrio := update s.dataToPrio z i, it := it }
          (by dsimp only; rw [filters]; omega)
        rw [filters] at taken
        have own : s'.prioToData i = z := (kept i fun member => (fresh member).elim).trans (update_self _ _ _)
        refine ⟨s', by rw [if_pos hole]; exact run, ?_, fun ii settled => ?_, ?_⟩
        · rw [List.map_cons, own, taken, List.take_succ_cons]
        · have other : ii ≠ i := fun equal => settled (equal ▸ List.mem_cons_self) (equal ▸ hole)
          refine (kept ii fun member => ?_).trans (update_of_ne other _ _)
          dsimp only
          rw [update_of_ne other]
          exact settled (List.mem_cons_of_mem i member)
        · rw [places, List.foldl_cons, own]
    · rw [List.filter_cons_of_neg (by simpa using hole)] at enough ⊢
      obtain ⟨s', run, taken, kept, places⟩ := ih nodup
        { s with dataToPrio := update s.dataToPrio (s.prioToData i) i } enough
      refine ⟨s', by rw [if_neg hole]; exact run, taken, fun ii settled => ?_, ?_⟩
      · exact kept ii fun member => settled (List.mem_cons_of_mem i member)
      · rw [places, List.foldl_cons, kept i fun _ => hole]

theorem foldl_places (f places : ℕ → ℕ) (is : List ℕ) (nodup : (is.map f).Nodup) (ii : ℕ) (member : ii ∈ is) :
    is.foldl (fun places ii => update places (f ii) ii) places (f ii) = ii := by
  have outside : ∀ (l : List ℕ) (places : ℕ → ℕ) (r : ℕ), r ∉ l.map f →
      l.foldl (fun places ii => update places (f ii) ii) places r = places r := by
    intro l
    induction l with
    | nil => exact fun _ _ _ => rfl
    | cons k rest ih =>
      intro places r out
      rw [List.map_cons, List.mem_cons, not_or] at out
      rw [List.foldl_cons, ih _ r out.2, update_of_ne out.1]
  induction is generalizing places with
  | nil => exact (List.not_mem_nil member).elim
  | cons k rest ih =>
    rw [List.map_cons, List.nodup_cons] at nodup
    rw [List.foldl_cons]
    by_cases later : ii ∈ rest
    · exact ih _ nodup.2 later
    · obtain rfl := (List.mem_cons.mp member).resolve_right later
      rw [outside rest _ _ nodup.1, update_self]

section Lists
variable {n : ℕ} {weights S F : ℕ → ℕ}

theorem map_getD_range (l : List ℕ) : (List.range l.length).map (fun i => l.getD i 0) = l := by
  refine List.ext_getElem (by simp) fun i bound bound' => ?_
  rw [List.getElem_map, List.getElem_range, List.getD_eq_getElem?_getD, List.getElem?_eq_getElem bound', Option.getD_some]

theorem again_weights (perm : ((List.range n).map S).Perm (List.range n))
    (sorted : ((List.range n).map fun p => weights (S p)).Pairwise (· ≤ ·)) :
    (sortRows weights ((List.range n).filter fun ii => decide (weights (S ii) ≠ weights ii))).map weights =
      ((List.range n).filter fun ii => decide (weights (S ii) ≠ weights ii)).map fun ii => weights (S ii) := by
  set again := (List.range n).filter fun ii => decide (weights (S ii) ≠ weights ii) with again_eq
  set settled := (List.range n).filter fun ii => !decide (weights (S ii) ≠ weights ii) with settled_eq
  have split : (again ++ settled).Perm (List.range n) := List.filter_append_perm _ _
  have same : settled.map weights = settled.map fun ii => weights (S ii) := by
    refine List.map_congr_left fun ii member => ?_
    have equal := (List.mem_filter.mp member).2
    simp only [ne_eq, decide_not, Bool.not_not, decide_eq_true_eq] at equal
    exact equal.symm
  have both : (again.map weights).Perm (again.map fun ii => weights (S ii)) := by
    have left := (split.map weights)
    have right := split.map fun ii => weights (S ii)
    rw [List.map_append] at left right
    rw [same] at left
    have moved := perm.map weights
    rw [List.map_map] at moved
    exact (List.perm_append_right_iff _).mp ((left.trans moved.symm).trans right.symm)
  refine List.Perm.eq_of_pairwise' (sortRows_sorted weights again) ?_
    (((sortRows_perm weights again).map weights).trans both)
  exact sorted.sublist (List.filter_sublist.map _)

variable (again : ((List.range n).filter fun ii => decide (weights (S ii) ≠ weights ii)).map F =
    sortRows weights ((List.range n).filter fun ii => decide (weights (S ii) ≠ weights ii)))
  (settled : ∀ ii < n, weights (S ii) = weights ii → F ii = ii)
include again settled

theorem filled_perm : ((List.range n).map F).Perm (List.range n) := by
  have split : ((List.range n).filter (fun ii => decide (weights (S ii) ≠ weights ii)) ++
      (List.range n).filter fun ii => !decide (weights (S ii) ≠ weights ii)).Perm (List.range n) :=
    List.filter_append_perm _ _
  have own : ((List.range n).filter fun ii => !decide (weights (S ii) ≠ weights ii)).map F =
      (List.range n).filter fun ii => !decide (weights (S ii) ≠ weights ii) := by
    refine (List.map_congr_left fun ii member => ?_).trans (List.map_id _)
    obtain ⟨bound, equal⟩ := List.mem_filter.mp member
    simp only [ne_eq, decide_not, Bool.not_not, decide_eq_true_eq] at equal
    exact settled ii (List.mem_range.mp bound) equal
  have moved := split.map F
  rw [List.map_append, again, own] at moved
  exact (moved.symm.trans ((sortRows_perm weights _).append_right _)).trans split

theorem filled_weights (perm : ((List.range n).map S).Perm (List.range n))
    (sorted : ((List.range n).map fun p => weights (S p)).Pairwise (· ≤ ·)) (ii : ℕ) (bound : ii < n) :
    weights (F ii) = weights (S ii) := by
  by_cases equal : weights (S ii) = weights ii
  · rw [settled ii bound equal, equal]
  · have lists := again_weights perm sorted
    rw [← again, List.map_map] at lists
    exact List.map_inj_left.mp lists ii (List.mem_filter.mpr ⟨List.mem_range.mpr bound, by simpa using equal⟩)

end Lists

theorem ofWeights_ready (b : View) (d : List ℕ) (size : d.length = b.nrows) :
    ∃ ple, ofWeights b d = some ple ∧ ple.nrows = b.nrows ∧ (∀ r, ple.weights r = d.getD r 0) ∧ Ready ple 0 := by
  set weights : ℕ → ℕ := fun r => d.getD r 0 with weights_eq
  set sorted := sortRows weights (List.range d.length) with sorted_eq
  set S : ℕ → ℕ := fun ii => sorted.getD ii 0 with S_eq
  have nodup := List.nodup_range (n := d.length)
  have length : sorted.length = d.length := (sortRows_perm weights _).length_eq.trans List.length_range
  have listed : (List.range d.length).map S = sorted := by
    rw [← length]
    exact map_getD_range sorted
  have perm : ((List.range d.length).map S).Perm (List.range d.length) := by
    rw [listed]
    exact sortRows_perm weights _
  have ordered : ((List.range d.length).map fun p => weights (S p)).Pairwise (· ≤ ·) := by
    have moved := sortRows_sorted weights (List.range d.length)
    rwa [← sorted_eq, ← listed, List.map_map] at moved
  obtain ⟨inside, -, again⟩ := placeStep_foldl weights S (List.range d.length) nodup ⟨S, []⟩ fun _ _ => rfl
  set placed := (List.range d.length).foldl (placeStep weights) ⟨S, []⟩ with placed_eq
  rw [List.nil_append] at again
  have holes : ((List.range d.length).filter fun ii => decide (placed.prioToData ii = uintMax)) =
      (List.range d.length).filter fun ii => decide (weights (S ii) ≠ weights ii) := by
    refine List.filter_congr fun ii member => ?_
    have bound := List.mem_range.mp member
    have limit : b.nrows ≤ uintMax := b.bound.trans (by decide)
    rw [inside ii member, decide_eq_decide]
    split
    case isTrue equal => exact iff_of_false (by omega) (not_not.mpr equal)
    case isFalse other => exact iff_of_true rfl other
  have count : ((List.range d.length).filter fun ii => decide (placed.prioToData ii = uintMax)).length =
      (sortRows weights placed.sortAgain).length := by
    rw [holes, (sortRows_perm weights _).length_eq, again]
  obtain ⟨filled, run, taken, kept, places⟩ := fillStep_foldlM (List.range d.length) nodup
    ⟨placed.prioToData, fun _ => uintMax, sortRows weights placed.sortAgain⟩ count.le
  rw [count, List.take_length, holes, again] at taken
  have settled : ∀ ii < d.length, weights (S ii) = weights ii → filled.prioToData ii = ii := by
    intro ii bound equal
    have member := List.mem_range.mpr bound
    have limit : b.nrows ≤ uintMax := b.bound.trans (by decide)
    have own : placed.prioToData ii = ii := by rw [inside ii member, if_pos equal]
    exact (kept ii fun _ => by dsimp only; rw [own]; omega).trans own
  have final := filled_perm taken settled
  have heavy := filled_weights taken settled perm ordered
  have inverse : Inverse 0 d.length filled.prioToData filled.dataToPrio := by
    have back : ∀ p < d.length, filled.dataToPrio (filled.prioToData p) = p := fun p bound => by
      rw [places]
      exact foldl_places _ _ _ (final.nodup_iff.mpr nodup) p (List.mem_range.mpr bound)
    refine ⟨fun p _ bound => ⟨Nat.zero_le _, ?_, back p bound⟩, fun r _ bound => ?_⟩
    · exact List.mem_range.mp (final.subset (List.mem_map_of_mem (List.mem_range.mpr bound)))
    · obtain ⟨p, member, rfl⟩ := List.mem_map.mp (final.symm.subset (List.mem_range.mpr bound))
      rw [back p (List.mem_range.mp member)]
      exact ⟨Nat.zero_le _, List.mem_range.mp member, rfl⟩
  have increasing : SortedOn 0 d.length (weights ∘ filled.prioToData) := by
    intro p q _ le bound
    rw [Function.comp_apply, Function.comp_apply, heavy p (by omega), heavy q bound]
    rcases le.eq_or_lt with rfl | less
    · exact le_rfl
    · have entries := List.pairwise_iff_getElem.mp ordered p q (by simp; omega) (by simp; omega) less
      simpa using entries
  have passes : isSorted weights filled.prioToData d.length = true := by
    refine List.all_eq_true.mpr fun p member => ?_
    have bound := List.mem_range.mp member
    rw [Bool.not_eq_true', ← Bool.not_eq_true, prioCmp_false, not_lt]
    exact increasing p (p + 1) (Nat.zero_le p) (Nat.le_succ p) (by omega)
  refine ⟨⟨b.nrows, weights, filled.prioToData, filled.dataToPrio⟩, ?_, rfl, fun _ => rfl, ?_, ?_⟩
  · rw [ofWeights, if_neg (not_not.mpr size)]
    dsimp only
    rw [← weights_eq, ← sorted_eq, ← S_eq, ← placed_eq, run, Option.bind_some, if_pos passes]
  · dsimp only
    rw [← size]
    exact inverse
  · dsimp only
    rw [← size]
    exact increasing

/-! ### Runs -/

structure RunInv (nrows : ℕ) (d : ℕ → ℕ) (s : Run) : Prop where
  nrows : s.ple.nrows = nrows
  weights : ∀ r, s.ple.weights r = d (s.rows r)
  ready : Ready s.ple s.ii

theorem RunInv.step {nrows : ℕ} {d : ℕ → ℕ} {s : Run} (inv : RunInv nrows d s) (column : ℕ → Bool) :
    RunInv nrows d (pivotStep s column) := by
  rw [pivotStep]
  by_cases ended : s.ple.nrows ≤ s.ii
  · rwa [if_pos ended]
  · rw [if_neg ended]
    have spec := findPivot_spec inv.ready (not_le.mp ended) column
    cases call : findPivot s.ple column s.ii with
    | mk result ple' =>
      rw [call] at spec
      cases result with
      | none =>
        dsimp only at spec ⊢
        rw [spec.1]
        exact inv
      | some z => exact ⟨spec.nrows.trans inv.nrows, fun r => (spec.weights r).trans (inv.weights _), spec.ready⟩

theorem RunInv.run {nrows : ℕ} {d : ℕ → ℕ} {s : Run} (inv : RunInv nrows d s) (columns : List (ℕ → Bool)) :
    RunInv nrows d (columns.foldl pivotStep s) := by
  induction columns generalizing s with
  | nil => exact inv
  | cons column rest ih => exact ih (inv.step column)

/-- Between any two calls the weights are those of the rows where they stand now, the places and the rows from the current
one on are inverse to each other and sorted by weight, and the next call takes the lightest row with a one. -/
def PivotRuns (nrows : ℕ) (d : ℕ → ℕ) (ple : Ple) : Prop :=
  ∀ columns : List (ℕ → Bool), ∀ s, columns.foldl pivotStep ⟨ple, 0, id⟩ = s →
    (∀ r, s.ple.weights r = d (s.rows r)) ∧ s.ple.nrows = nrows ∧ Ready s.ple s.ii ∧
    ∀ column : ℕ → Bool, s.ii < nrows →
      match findPivot s.ple column s.ii with
      | (none, ple') => ple' = s.ple ∧ ∀ r, s.ii ≤ r → r < nrows → column r = false
      | (some z, ple') => Chooses s.ple column s.ii z ple'

theorem pivotRuns {nrows : ℕ} {d : ℕ → ℕ} {ple : Ple} (size : ple.nrows = nrows) (weights : ∀ r, ple.weights r = d r)
    (ready : Ready ple 0) : PivotRuns nrows d ple := by
  rintro columns s rfl
  have inv := (RunInv.mk (s := ⟨ple, 0, id⟩) size weights ready).run columns
  refine ⟨inv.weights, inv.nrows, inv.ready, fun column bound => ?_⟩
  rw [← inv.nrows] at bound ⊢
  exact findPivot_spec inv.ready bound column

/-- The constructor returns for every weight vector of the right size, and all calls choose well. -/
theorem findPivot_runs (b : View) (d : List ℕ) (size : d.length = b.nrows) :
    ∃ ple, ofWeights b d = some ple ∧ PivotRuns b.nrows (fun r => d.getD r 0) ple := by
  obtain ⟨ple, returns, nrows, weights, ready⟩ := ofWeights_ready b d size
  exact ⟨ple, returns, pivotRuns nrows weights ready⟩

theorem findPivot_runs_eight :
    ∃ ple, ofWeights ⟨8, by decide⟩ [3, 1, 2, 1, 0, 5, 1, 2] = some ple ∧
      PivotRuns 8 (fun r => [3, 1, 2, 1, 0, 5, 1, 2].getD r 0) ple :=
  findPivot_runs ⟨8, by decide⟩ [3, 1, 2, 1, 0, 5, 1, 2] rfl

end CadoNfs.Linalg.PleFindPivot
