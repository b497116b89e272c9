import CadoNfs.Filter.AddRowDl
import CadoNfs.Filter.Replay

/-!
# Replaying an addition in a discrete logarithm build

`addRowsUpdateIndex` of `filter/sparse.c` multiplies both rows in place, adds them, divides the
second one back and combines the relation-sets, all in 32 bits.
-/

namespace CadoNfs.Filter
open Lib Typerow SparseEntry

structure Multirel where
  indRow : Nat
  e : Exponent
  deriving DecidableEq

instance : SparseEntry Multirel where
  key := Multirel.indRow
  coeff := Multirel.e
  entry := Multirel.mk
  key_entry _ _ := rfl
  coeff_entry _ _ := rfl

namespace ForDl

-- The last cell of column `j`, found by going through all of them.
def exponent (j : Nat) (row : List IdealMerge) : Exponent :=
  row.foldl (fun e x => if x.id = j then x.e else e) 0

def scale (m : Exponent) (row : List IdealMerge) : List IdealMerge :=
  row.map fun x => { x with e := x.e * m }

def unscale (m : Exponent) (row : List IdealMerge) : Option (List IdealMerge) :=
  row.mapM fun x => (divide x.e m).map fun e => { x with e := e }

def addCells (r1 r2 : List IdealMerge) : List IdealMerge :=
  (align IdealMerge.id IdealMerge.id r1 r2).filterMap fun step =>
    match step with
    | .left x => some x
    | .right y => some y
    | .both x y => if x.e + y.e = 0 then none else some ⟨x.id, x.e + y.e⟩

def addRels (c : Multipliers) (s1 s2 : List Multirel) : List Multirel :=
  (align Multirel.indRow Multirel.indRow s1 s2).filterMap fun step =>
    match step with
    | .left r => some ⟨r.indRow, c.e2 * r.e⟩
    | .right r => some ⟨r.indRow, c.e1 * r.e⟩
    | .both r q =>
        if c.e2 * r.e + c.e1 * q.e = 0 then none else some ⟨r.indRow, c.e2 * r.e + c.e1 * q.e⟩

def addRowsUpdateIndex (s : ReplayState IdealMerge Multirel) (i1 i2 : Nat) (j : Index) :
    Option (ReplayState IdealMerge Multirel) := do
  let r1 ← s.rows i1
  let r2 ← s.rows i2
  let c ← multipliers (exponent j.toNat r1) (exponent j.toNat r2)
  let scaled := scale c.e1 r2
  let sum := addCells (scale c.e2 r1) scaled
  let restored ← unscale c.e1 scaled
  return {
    rows := Function.update (Function.update s.rows i2 (some restored)) i1 (some sum)
    indexData := s.indexData.map fun index =>
      Function.update index i1 (addRels c (index i1) (index i2)) }

end ForDl

theorem exponent_eq (j : Nat) (row : List IdealMerge) : ForDl.exponent j row = lastExponent j row := by
  unfold ForDl.exponent lastExponent
  induction row using List.reverseRecOn with
  | nil => rfl
  | append_singleton row x ih =>
    rw [List.foldl_concat, List.reverse_concat, List.find?_cons]
    by_cases here : x.id = j
    · simp [here]
    · rw [if_neg here, ih, decide_eq_false here]

theorem addRels_eq (c : Multipliers) (s1 s2 : List Multirel) :
    ForDl.addRels c s1 s2 = combine c.e1 c.e2 s1 s2 := by
  refine List.filterMap_congr fun step _ => ?_
  cases step <;> rfl

theorem addCells_eq (c : Multipliers) (r1 r2 : List IdealMerge) :
    ForDl.addCells (ForDl.scale c.e2 r1) (ForDl.scale c.e1 r2) = combine c.e1 c.e2 r1 r2 := by
  have aligned : align IdealMerge.id IdealMerge.id (ForDl.scale c.e2 r1) (ForDl.scale c.e1 r2) =
      (align key key r1 r2).map (Aligned.map (fun x => { x with e := x.e * c.e2 })
        fun x => { x with e := x.e * c.e1 }) := align_map (fun _ => rfl) (fun _ => rfl) r1 r2
  rw [ForDl.addCells, aligned, List.filterMap_map]
  refine List.filterMap_congr fun step _ => ?_
  cases step with
  | left x | right x =>
    simp only [Function.comp_apply, Aligned.map, combineStep, mul_comm x.e]
    rfl
  | both x y =>
    simp only [Function.comp_apply, Aligned.map, combineStep, mul_comm x.e, mul_comm y.e]
    rfl

theorem unscale_iff {m : Exponent} (nonzero : m ≠ 0) (row : List IdealMerge) :
    ForDl.unscale m (ForDl.scale m row) = some row ↔ ∀ x ∈ row, FitsInt32 (m.toInt * x.e.toInt) := by
  induction row with
  | nil => simp [ForDl.unscale, ForDl.scale]
  | cons x row ih =>
    have split : ForDl.unscale m (ForDl.scale m (x :: row)) = some (x :: row) ↔
        divide (x.e * m) m = some x.e ∧ ForDl.unscale m (ForDl.scale m row) = some row := by
      simp only [ForDl.unscale, ForDl.scale, List.map_cons, List.mapM_cons, Option.bind_eq_bind,
        Option.bind_eq_some_iff, Option.map_eq_some_iff, Option.pure_def, Option.some.injEq,
        List.cons.injEq]
      constructor
      · rintro ⟨_, ⟨e, quotient, rfl⟩, rest, run, same, rfl⟩
        exact ⟨by rw [quotient, ← same], run⟩
      · rintro ⟨quotient, run⟩
        exact ⟨x, ⟨x.e, quotient, rfl⟩, row, run, rfl, rfl⟩
    rw [split, divide_mul_iff nonzero, ih, List.forall_mem_cons]

/-! ## What an addition repeats -/

def targetFactor (j : Nat) (r1 r2 : List IdealMerge) : Int :=
  (lastExponent j r2).toInt / Int.gcd (lastExponent j r1).toInt (lastExponent j r2).toInt

def sourceFactor (j : Nat) (r1 r2 : List IdealMerge) : Int :=
  -((lastExponent j r1).toInt / Int.gcd (lastExponent j r1).toInt (lastExponent j r2).toInt)

theorem exists_mem_of_lastExponent {j : Nat} {row : List IdealMerge} (nonzero : lastExponent j row ≠ 0) :
    ∃ x ∈ row, x.id = j ∧ x.e = lastExponent j row := by
  unfold lastExponent at nonzero ⊢
  cases found : row.reverse.find? fun x => x.id = j with
  | none => simp [found] at nonzero
  | some x =>
    have here := List.find?_some found
    exact ⟨x, List.mem_reverse.mp (List.mem_of_find?_eq_some found), of_decide_eq_true here, rfl⟩

theorem pivotMultipliers_toInt {j : Nat} {r1 r2 : List IdealMerge} {c : Multipliers}
    (sorted1 : RowSorted r1) (sorted2 : RowSorted r2) (pivot : pivotMultipliers j r1 r2 = some c)
    (fits : ∀ step ∈ align key key r1 r2, FitsInt32 (exactValue c.e1.toInt c.e2.toInt step)) :
    multipliers (lastExponent j r1) (lastExponent j r2) = some c ∧
      c.e1.toInt = sourceFactor j r1 r2 ∧ c.e2.toInt = targetFactor j r1 r2 ∧ c.e1 ≠ 0 := by
  unfold pivotMultipliers at pivot
  split_ifs at pivot with zero
  obtain ⟨nonzero1, nonzero2⟩ := not_or.mp zero
  obtain ⟨x, hx, hxj, valuex⟩ := exists_mem_of_lastExponent nonzero1
  obtain ⟨y, hy, hyj, valuey⟩ := exists_mem_of_lastExponent nonzero2
  have shared : .both x y ∈ align key key r1 r2 :=
    (both_mem_align sorted1 sorted2).mpr ⟨hx, hy, hxj.trans hyj.symm⟩
  rw [← valuex] at nonzero1
  rw [← valuey] at nonzero2
  have proper := (exactValue_pivot nonzero1 nonzero2 (valuex ▸ valuey ▸ pivot) (fits _ shared)).1
  obtain ⟨value1, value2⟩ := multipliers_toInt nonzero1 nonzero2 (valuex ▸ valuey ▸ pivot) proper
  refine ⟨pivot, by rw [value1, sourceFactor, valuex, valuey],
    by rw [value2, targetFactor, valuex, valuey], fun zero => nonzero1 ?_⟩
  have zero' : (0 : Exponent).toInt = 0 := rfl
  rw [zero, zero', zero_eq_neg] at value1
  apply BitVec.eq_of_toInt_eq
  rw [Int.eq_zero_of_ediv_eq_zero (Int.gcd_dvd_left ..) value1, zero']

def Recorded (original : Nat → List IdealMerge) (s : ReplayState IdealMerge Multirel) : Prop :=
  ∀ index ∈ s.indexData, ∀ i row, s.rows i = some row → ∀ col,
    coefficient row col = total (fun k => coefficient (original k) col) (index i)

structure Repeats (s s' : ReplayState IdealMerge Multirel) (i1 i2 : Nat) (sum : List IdealMerge)
    (target source : Int) : Prop where
  sum : s'.rows i1 = some sum
  others : ∀ i, i ≠ i1 → s'.rows i = s.rows i
  combination : ∀ index ∈ s.indexData, ∃ index' ∈ s'.indexData,
    (∀ k, coefficient (index' i1) k =
      target * coefficient (index i1) k + source * coefficient (index i2) k) ∧
    ∀ i, i ≠ i1 → index' i = index i
  recorded : ∀ original, Recorded original s → Recorded original s'

theorem addRowsUpdateIndex_eq {s : ReplayState IdealMerge Multirel} {i1 i2 : Nat} {j : Index}
    {r1 r2 : List IdealMerge} {c : Multipliers} (live1 : s.rows i1 = some r1)
    (live2 : s.rows i2 = some r2)
    (run : multipliers (lastExponent j.toNat r1) (lastExponent j.toNat r2) = some c) :
    ForDl.addRowsUpdateIndex s i1 i2 j =
      (ForDl.unscale c.e1 (ForDl.scale c.e1 r2)).map fun restored =>
        { rows := Function.update (Function.update s.rows i2 (some restored)) i1
            (some (combine c.e1 c.e2 r1 r2))
          indexData := s.indexData.map fun index =>
            Function.update index i1 (combine c.e1 c.e2 (index i1) (index i2)) } := by
  simp only [ForDl.addRowsUpdateIndex, live1, live2, exponent_eq, run, Option.bind_eq_bind,
    Option.bind_some, addCells_eq, addRels_eq]
  cases ForDl.unscale c.e1 (ForDl.scale c.e1 r2) <;> rfl

/-- `replay` repeats an addition that `merge` accepts if and only if the multiple of each exponent of
row `i2` and each combination of multiplicities fit in 32 bits. -/
theorem addRowsUpdateIndex_iff {s : ReplayState IdealMerge Multirel} {i1 i2 : Nat} {j : Index}
    {r1 r2 sum : List IdealMerge} {ops : List WtOp} (distinct : i1 ≠ i2)
    (live1 : s.rows i1 = some r1) (live2 : s.rows i2 = some r2) (sorted1 : RowSorted r1)
    (sorted2 : RowSorted r2)
    (sets : ∀ index ∈ s.indexData, ∀ i, (index i).Pairwise (·.indRow < ·.indRow))
    (accepted : addRow j.toNat r1 r2 = some (sum, ops)) :
    (∃ s', ForDl.addRowsUpdateIndex s i1 i2 j = some s' ∧
      Repeats s s' i1 i2 sum (targetFactor j.toNat r1 r2) (sourceFactor j.toNat r1 r2)) ↔
    (∀ y ∈ r2, FitsInt32 (sourceFactor j.toNat r1 r2 * y.e.toInt)) ∧
      ∀ index ∈ s.indexData, ∀ k, FitsInt32 (targetFactor j.toNat r1 r2 * coefficient (index i1) k +
        sourceFactor j.toNat r1 r2 * coefficient (index i2) k) := by
  obtain ⟨c, pivot, fits, rfl⟩ := addRow_dl accepted
  obtain ⟨run, source, target, nonzero⟩ := pivotMultipliers_toInt sorted1 sorted2 pivot fits
  rw [addRowsUpdateIndex_eq live1 live2 run, ← source, ← target]
  constructor
  · rintro ⟨s', added, repeats⟩
    obtain ⟨restored, back, rfl⟩ := Option.map_eq_some_iff.mp added
    constructor
    · have same := repeats.others i2 distinct.symm
      simp only [Function.update_of_ne distinct.symm, Function.update_self, live2,
        Option.some.injEq] at same
      exact (unscale_iff nonzero r2).mp (same ▸ back)
    · intro index known
      obtain ⟨index', known', exact, _⟩ := repeats.combination index known
      obtain rfl : Function.update index i1 (combine c.e1 c.e2 (index i1) (index i2)) = index' := by
        rw [Option.mem_def] at known known'
        rw [known] at known'
        exact Option.some.inj known'
      rw [Function.update_self] at exact
      exact (coefficient_combine_iff (sets index known i1) (sets index known i2) _ _).mp exact
  · rintro ⟨restores, combines⟩
    refine ⟨_, by rw [(unscale_iff nonzero r2).mpr restores, Option.map_some], ?_⟩
    have exactSets (index) (known : index ∈ s.indexData) (f : Nat → Int) :
        total f (combine c.e1 c.e2 (index i1) (index i2)) =
          c.e2.toInt * total f (index i1) + c.e1.toInt * total f (index i2) := by
      refine total_combine (fun step member => ?_) f
      rw [exactValue_eq (sets index known i1) (sets index known i2) _ _ member]
      exact combines index known _
    refine ⟨Function.update_self .., fun i other => ?_, fun index known => ?_, ?_⟩
    · by_cases same : i = i2
      · subst same
        simp only [Function.update_of_ne other, Function.update_self, live2]
      · simp only [Function.update_of_ne other, Function.update_of_ne same]
    · refine ⟨_, Option.mem_map_of_mem _ known, fun k => ?_, fun i other =>
        Function.update_of_ne other _ _⟩
      rw [Function.update_self]
      exact exactSets index known _
    · intro original recorded index' known' i row live col
      obtain ⟨index, known, rfl⟩ := Option.mem_map.mp known'
      by_cases here : i = i1
      · subst here
        simp only [Function.update_self, Option.some.injEq] at live ⊢
        rw [← live, exactSets index known, ← recorded index known i r1 live1 col,
          ← recorded index known i2 r2 live2 col]
        exact total_combine fits _
      · simp only [Function.update_of_ne here] at live ⊢
        by_cases same : i = i2
        · subst same
          rw [Function.update_self] at live
          exact recorded index known i row (live2.trans live) col
        · rw [Function.update_of_ne same] at live
          exact recorded index known i row live col

theorem addRowsUpdateIndex_iff_pair :
    let s : ReplayState IdealMerge Multirel :=
      ⟨rowTable [[⟨0, 4⟩, ⟨5, 2⟩], [⟨0, 3⟩, ⟨5, 1⟩]], some fun i => [⟨i, 1⟩]⟩
    ∃ s', ForDl.addRowsUpdateIndex s 0 1 5 = some s' ∧ Repeats s s' 0 1 [⟨0, -2⟩] 1 (-2) := by
  intro s
  let r1 : List IdealMerge := [⟨0, 4⟩, ⟨5, 2⟩]
  let r2 : List IdealMerge := [⟨0, 3⟩, ⟨5, 1⟩]
  have sets : ∀ index ∈ s.indexData, ∀ i, (index i).Pairwise (·.indRow < ·.indRow) := by
    rintro index ⟨⟩ i
    exact List.pairwise_singleton _ _
  have accepted : addRow (5 : Index).toNat r1 r2 = some ([⟨0, -2⟩], [.decrease 5]) := by decide
  have fits : (∀ y ∈ r2, FitsInt32 (-2 * y.e.toInt)) ∧ ∀ index ∈ s.indexData, ∀ k,
        FitsInt32 (1 * coefficient (index 0) k + -2 * coefficient (index 1) k) := by
    refine ⟨by decide, ?_⟩
    rintro index ⟨⟩ k
    simp only [coefficient, total, SparseEntry.coeff, SparseEntry.key, List.map_cons, List.map_nil,
      List.sum_cons, List.sum_nil]
    split_ifs <;> decide
  have distinct : 0 ≠ 1 := by decide
  have sorted1 : RowSorted r1 := by decide
  have sorted2 : RowSorted r2 := by decide
  have source : sourceFactor (5 : Index).toNat r1 r2 = -2 := by decide
  have target : targetFactor (5 : Index).toNat r1 r2 = 1 := by decide
  have iff := addRowsUpdateIndex_iff distinct rfl rfl sorted1 sorted2 sets accepted
  rw [source, target] at iff
  exact iff.mpr fits

-- The exponent `2^30 + 1` of row 1 is multiplied by `-2`, and `-(2^30 - 1)` comes back.
theorem addRowsUpdateIndex_not_restored : ¬ ∀ (s : ReplayState IdealMerge Multirel) (i1 i2 : Nat)
    (j : Index) (r1 r2 sum : List IdealMerge) (ops : List WtOp), i1 ≠ i2 → s.rows i1 = some r1 →
    s.rows i2 = some r2 → RowSorted r1 → RowSorted r2 →
    (∀ index ∈ s.indexData, ∀ i, (index i).Pairwise (·.indRow < ·.indRow)) →
    addRow j.toNat r1 r2 = some (sum, ops) →
    ∃ s', ForDl.addRowsUpdateIndex s i1 i2 j = some s' ∧
      Repeats s s' i1 i2 sum (targetFactor j.toNat r1 r2) (sourceFactor j.toNat r1 r2) := by
  intro always
  let r1 : List IdealMerge := [⟨0, 2 ^ 30⟩, ⟨5, 2⟩]
  let r2 : List IdealMerge := [⟨0, 2 ^ 30 + 1⟩, ⟨5, 1⟩]
  let s : ReplayState IdealMerge Multirel := ⟨rowTable [r1, r2], none⟩
  obtain ⟨s', run, repeats⟩ := always s 0 1 5 r1 r2 [⟨0, -(2 ^ 30 + 2)⟩] [.decrease 5]
    (by decide) rfl rfl (by decide) (by decide) (by simp [s]) (by decide)
  have value : (ForDl.addRowsUpdateIndex s 0 1 5).map (fun s => s.rows 1) =
      some (some [⟨0, -(2 ^ 30 - 1)⟩, ⟨5, 1⟩]) := by decide
  rw [run, Option.map_some, repeats.others 1 (by decide)] at value
  exact absurd value (by decide)

end CadoNfs.Filter
