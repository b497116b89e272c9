import CadoNfs.Lib.InverseArrays
import Mathlib

/-!
# The choice of pivots in the PLE decomposition

`PLE::find_pivot` of `linalg/bblas/bblas_level4_ple_internal_inl.hpp` takes the lightest row with a one in the column.
-/

namespace CadoNfs.Linalg.PleFindPivot

open CadoNfs.Lib Function

def uintMax : ℕ := 2 ^ 32 - 1

structure Ple where
  nrows : ℕ
  weights : ℕ → ℕ
  prioToData : ℕ → ℕ
  dataToPrio : ℕ → ℕ

def scan (ple : Ple) (column : ℕ → Bool) : List ℕ → ℕ → List ℕ → Option (ℕ × List ℕ)
  | [], _, _ => none
  | ii :: rest, w, steps =>
    let zii := ple.prioToData ii
    if column zii then some (ii, steps)
    else if ple.weights zii ≠ w then scan ple column rest (ple.weights zii) (steps ++ [ii])
    else scan ple column rest w steps

structure Shift where
  prioToData : ℕ → ℕ
  dataToPrio : ℕ → ℕ
  posHole : ℕ

def shiftStep (s : Shift) (ii2 : ℕ) : Shift where
  dataToPrio := update s.dataToPrio (s.prioToData ii2) s.posHole
  prioToData := update s.prioToData s.posHole (s.prioToData ii2)
  posHole := ii2

/-- `find_pivot` at the row `ii0`: `column` says which rows have a one in the column. `none` is `-1`. -/
def findPivot (ple : Ple) (column : ℕ → Bool) (ii0 : ℕ) : Option ℕ × Ple :=
  match scan ple column (List.range' ii0 (ple.nrows - ii0)) (ple.weights (ple.prioToData ii0)) [] with
  | none => (none, ple)
  | some (ii, steps) =>
    let ii1 := ple.dataToPrio ii0
    let zii := ple.prioToData ii
    let prioToData := update (update ple.prioToData ii ii0) ii1 zii
    let dataToPrio := update (update ple.dataToPrio ii0 ii) zii ii1
    let weights := update (update ple.weights ii0 (ple.weights zii)) zii (ple.weights ii0)
    let zii0 := prioToData ii0
    let prioToData := update (update prioToData ii0 ii0) ii uintMax
    let dataToPrio := update (update dataToPrio ii0 ii0) zii0 uintMax
    let s := steps.reverse.foldl shiftStep ⟨prioToData, dataToPrio, ii⟩
    (some zii, { ple with
      weights := weights
      prioToData := update s.prioToData s.posHole zii0
      dataToPrio := update s.dataToPrio zii0 s.posHole })

structure Ready (ple : Ple) (ii0 : ℕ) : Prop where
  inverse : Inverse ii0 ple.nrows ple.prioToData ple.dataToPrio
  sorted : SortedOn ii0 ple.nrows (ple.weights ∘ ple.prioToData)

section Scan
variable (ple : Ple) (column : ℕ → Bool) {ii0 : ℕ}

theorem scan_spec (k ii w : ℕ) (steps : List ℕ) (fits : ii + k = ple.nrows) (low : ii0 ≤ ii)
    (first : ii = ii0 → w = ple.weights (ple.prioToData ii0))
    (groups : Groups (ple.weights ∘ ple.prioToData) (ple.weights (ple.prioToData ii0)) ii0 ii steps.reverse)
    (last : w = lastGroup (ple.weights ∘ ple.prioToData) (ple.weights (ple.prioToData ii0)) steps.reverse)
    (clear : ∀ p, ii0 ≤ p → p < ii → column (ple.prioToData p) = false) :
    match scan ple column (List.range' ii k) w steps with
    | none => ∀ p, ii0 ≤ p → p < ple.nrows → column (ple.prioToData p) = false
    | some (i, starts) => ii0 ≤ i ∧ i < ple.nrows ∧ column (ple.prioToData i) = true ∧
        (∀ p, ii0 ≤ p → p < i → column (ple.prioToData p) = false) ∧
        Groups (ple.weights ∘ ple.prioToData) (ple.weights (ple.prioToData ii0)) ii0 i starts.reverse := by
  induction k generalizing ii w steps with
  | zero =>
    intro p above below
    exact clear p above (by omega)
  | succ k ih =>
    rw [List.range'_succ, scan]
    cases hit : column (ple.prioToData ii) with
    | true => exact ⟨low, by omega, hit, clear, groups⟩
    | false =>
      rw [if_neg Bool.false_ne_true]
      have clear' : ∀ p, ii0 ≤ p → p < ii + 1 → column (ple.prioToData p) = false := by
        intro p above below
        by_cases here : p = ii
        · rw [here, hit]
        · exact clear p above (by omega)
      by_cases same : ple.weights (ple.prioToData ii) = w
      · rw [if_neg (not_not.mpr same)]
        exact ih (ii + 1) w steps (by omega) (by omega) (by omega) (groups.extend (same.trans last)) last clear'
      · rw [if_pos same]
        have later : ii0 < ii := by
          refine lt_of_le_of_ne low fun equal => same ?_
          rw [first equal.symm, equal]
        refine ih (ii + 1) _ (steps ++ [ii]) (by omega) (by omega) (by omega) ?_ ?_ clear'
        · rw [List.reverse_append, List.reverse_singleton, List.singleton_append]
          exact groups.push later
        · rw [List.reverse_append, List.reverse_singleton, List.singleton_append]
          rfl

end Scan

theorem shift_run {lo n out : ℕ} (weights : ℕ → ℕ) (starts : List ℕ) (s : Shift)
    (hollow : Hollow (lo + 1) n s.prioToData s.dataToPrio s.posHole out)
    (sorted : SortedBut (lo + 1) n (weights ∘ s.prioToData) s.posHole (weights out))
    (groups : Groups (weights ∘ s.prioToData) (weights out) lo s.posHole starts) :
    ∃ s', starts.foldl shiftStep s = s' ∧
      Inverse (lo + 1) n (update s'.prioToData s'.posHole out) (update s'.dataToPrio out s'.posHole) ∧
      SortedOn (lo + 1) n (weights ∘ update s'.prioToData s'.posHole out) := by
  induction starts generalizing s with
  | nil =>
    refine ⟨s, rfl, hollow.fill, ?_⟩
    rw [comp_update]
    exact sorted.fill fun p low high => groups p low high
  | cons start rest ih =>
    obtain ⟨low, high, group, groups⟩ := groups
    have bound := hollow.hole_mem.2
    refine ih (shiftStep s start) (hollow.move low (by omega) (by omega)) ?_ ?_
    · rw [shiftStep, comp_update]
      exact sorted.move low high bound group
    · rw [shiftStep, comp_update]
      exact groups.congr fun p _ below => update_of_ne (by omega) _ _

section Swap
variable {ple : Ple} {ii0 ii : ℕ} (ready : Ready ple ii0) (low : ii0 ≤ ii) (high : ii < ple.nrows)
include ready low high

theorem Ready.swapped_prio {p : ℕ} (above : ii0 ≤ p) (below : p < ple.nrows) :
    update (update ple.prioToData ii ii0) (ple.dataToPrio ii0) (ple.prioToData ii) p =
      Equiv.swap ii0 (ple.prioToData ii) (ple.prioToData p) := by
  obtain ⟨-, -, first⟩ := ready.inverse.bwd ii0 le_rfl (by omega)
  obtain ⟨-, -, back⟩ := ready.inverse.fwd p above below
  obtain ⟨-, -, back'⟩ := ready.inverse.fwd ii low high
  by_cases here : p = ple.dataToPrio ii0
  · rw [here, update_self, first, Equiv.swap_apply_left]
  · rw [update_of_ne here]
    by_cases here' : p = ii
    · rw [here', update_self, Equiv.swap_apply_right]
    · have apart : ple.prioToData p ≠ ii0 := fun same => here (by rw [← back, same])
      have apart' : ple.prioToData p ≠ ple.prioToData ii := fun same => here' (by rw [← back, same, back'])
      rw [update_of_ne here', Equiv.swap_apply_of_ne_of_ne apart apart']

theorem Ready.swapped_data (r : ℕ) :
    update (update ple.dataToPrio ii0 ii) (ple.prioToData ii) (ple.dataToPrio ii0) r =
      ple.dataToPrio (Equiv.swap ii0 (ple.prioToData ii) r) := by
  obtain ⟨-, -, back⟩ := ready.inverse.fwd ii low high
  by_cases here : r = ple.prioToData ii
  · rw [here, update_self, Equiv.swap_apply_right]
  · rw [update_of_ne here]
    by_cases here' : r = ii0
    · rw [here', update_self, Equiv.swap_apply_left, back]
    · rw [update_of_ne here', Equiv.swap_apply_of_ne_of_ne here' here]

omit ready low high in
theorem swapped_weights (weights : ℕ → ℕ) (a b r : ℕ) :
    update (update weights a (weights b)) b (weights a) r = weights (Equiv.swap a b r) := by
  by_cases here : r = b
  · rw [here, update_self, Equiv.swap_apply_right]
  · rw [update_of_ne here]
    by_cases here' : r = a
    · rw [here', update_self, Equiv.swap_apply_left]
    · rw [update_of_ne here', Equiv.swap_apply_of_ne_of_ne here' here]

theorem Ready.swapped : Inverse ii0 ple.nrows
    (update (update ple.prioToData ii ii0) (ple.dataToPrio ii0) (ple.prioToData ii))
    (update (update ple.dataToPrio ii0 ii) (ple.prioToData ii) (ple.dataToPrio ii0)) := by
  obtain ⟨above, below, -⟩ := ready.inverse.fwd ii low high
  refine (ready.inverse.swap ⟨le_rfl, by omega⟩ ⟨above, below⟩).congr (fun p above below => ?_) fun r _ _ => ?_
  · exact ready.swapped_prio low high above below
  · exact ready.swapped_data low high r

end Swap

theorem settled {n ii0 ii : ℕ} {prio data weights : ℕ → ℕ} (starts : List ℕ) (inverse : Inverse ii0 n prio data)
    (sorted : SortedOn ii0 n (weights ∘ prio)) (low : ii0 ≤ ii) (high : ii < n) (pivot : prio ii = ii0)
    (groups : Groups (weights ∘ prio) (weights (prio ii0)) ii0 ii starts) {s : Shift}
    (run : starts.foldl shiftStep
      ⟨update (update prio ii0 ii0) ii uintMax, update (update data ii0 ii0) (prio ii0) uintMax, ii⟩ = s) :
    Inverse (ii0 + 1) n (update s.prioToData s.posHole (prio ii0)) (update s.dataToPrio (prio ii0) s.posHole) ∧
      SortedOn (ii0 + 1) n (weights ∘ update s.prioToData s.posHole (prio ii0)) := by
  by_cases same : ii = ii0
  · subst same
    rw [groups.eq_nil] at run
    subst run
    dsimp only [List.foldl_nil]
    rw [pivot]
    constructor
    · refine (inverse.tail high pivot).congr (fun p above _ => ?_) fun r above _ => ?_
      · simp only [update_of_ne (show p ≠ ii by omega)]
      · simp only [update_of_ne (show r ≠ ii by omega)]
    · intro p q above le below
      simp only [comp_apply, update_of_ne (show p ≠ ii by omega), update_of_ne (show q ≠ ii by omega)]
      exact sorted p q (by omega) le below
  · have later : ii0 < ii := lt_of_le_of_ne low (Ne.symm same)
    have kept : ∀ p, ii0 + 1 ≤ p → p ≠ ii → update (update prio ii0 ii0) ii uintMax p = prio p :=
      fun p above other => by rw [update_of_ne other, update_of_ne (by omega)]
    have hollow : Hollow (ii0 + 1) n (update (update prio ii0 ii0) ii uintMax)
        (update (update data ii0 ii0) (prio ii0) uintMax) ii (prio ii0) :=
      (inverse.hollow later high pivot).congr (fun p above _ other => kept p above other)
        (fun r above _ other => by rw [update_of_ne other, update_of_ne (by omega)])
    have sorted' : SortedBut (ii0 + 1) n (weights ∘ update (update prio ii0 ii0) ii uintMax) ii (weights (prio ii0)) := by
      refine ⟨fun p q above le below other_p other_q => ?_, fun p above below other => ?_⟩
      · rw [comp_apply, comp_apply, kept p above other_p, kept q (by omega) other_q]
        exact sorted p q (by omega) le below
      · rw [comp_apply, kept p above other]
        exact sorted ii0 p le_rfl (by omega) below
    have groups' : Groups (weights ∘ update (update prio ii0 ii0) ii uintMax) (weights (prio ii0)) ii0 ii starts := by
      refine groups.congr fun p above below => ?_
      rw [comp_apply, kept p above (by omega)]
      rfl
    obtain ⟨s', run', inverse', sorted''⟩ := shift_run weights starts
      ⟨update (update prio ii0 ii0) ii uintMax, update (update data ii0 ii0) (prio ii0) uintMax, ii⟩ hollow sorted' groups'
    rw [← run, run']
    exact ⟨inverse', sorted''⟩

structure Chooses (ple : Ple) (column : ℕ → Bool) (ii0 z : ℕ) (ple' : Ple) : Prop where
  bound : ii0 ≤ z ∧ z < ple.nrows
  one : column z = true
  lightest : ∀ r, ii0 ≤ r → r < ple.nrows → column r = true → ple.weights z ≤ ple.weights r
  nrows : ple'.nrows = ple.nrows
  weights : ∀ r, ple'.weights r = ple.weights (Equiv.swap ii0 z r)
  ready : Ready ple' (ii0 + 1)

theorem findPivot_spec {ple : Ple} {ii0 : ℕ} (ready : Ready ple ii0) (bound : ii0 < ple.nrows) (column : ℕ → Bool) :
    match findPivot ple column ii0 with
    | (none, ple') => ple' = ple ∧ ∀ r, ii0 ≤ r → r < ple.nrows → column r = false
    | (some z, ple') => Chooses ple column ii0 z ple' := by
  have spec := scan_spec ple column (ple.nrows - ii0) ii0 (ple.weights (ple.prioToData ii0)) []
    (by omega) le_rfl (fun _ => rfl) (fun p above below => by omega) rfl (fun p above below => by omega)
  rw [findPivot]
  cases found : scan ple column (List.range' ii0 (ple.nrows - ii0)) (ple.weights (ple.prioToData ii0)) [] with
  | none =>
    rw [found] at spec
    refine ⟨rfl, fun r above below => ?_⟩
    obtain ⟨above', below', back⟩ := ready.inverse.bwd r above below
    have clear := spec _ above' below'
    rwa [back] at clear
  | some result =>
    obtain ⟨ii, starts⟩ := result
    rw [found] at spec
    obtain ⟨low, high, one, clear, groups⟩ := spec
    obtain ⟨above, below, -⟩ := ready.inverse.fwd ii low high
    dsimp only
    refine ⟨⟨above, below⟩, one, fun r above below hit => ?_, rfl, fun r => swapped_weights _ _ _ r, ?_⟩
    · obtain ⟨above', below', back⟩ := ready.inverse.bwd r above below
      rw [← back]
      refine ready.sorted ii _ low ?_ below'
      by_contra early
      have no := clear _ above' (not_le.mp early)
      rw [back, hit] at no
      exact Bool.noConfusion no
    · have moved : ∀ p, ii0 ≤ p → p < ple.nrows →
          (update (update ple.weights ii0 (ple.weights (ple.prioToData ii))) (ple.prioToData ii) (ple.weights ii0) ∘
            update (update ple.prioToData ii ii0) (ple.dataToPrio ii0) (ple.prioToData ii)) p =
          (ple.weights ∘ ple.prioToData) p := by
        intro p above below
        rw [comp_apply, comp_apply, swapped_weights, ready.swapped_prio low high above below, Equiv.swap_apply_self]
      have pivot := ready.swapped_prio low high low high
      rw [Equiv.swap_apply_right] at pivot
      have first := moved ii0 le_rfl bound
      obtain ⟨inverse, sorted⟩ := settled starts.reverse (ready.swapped low high)
        (fun p q above le below => by
          rw [moved p above (by omega), moved q (by omega) below]
          exact ready.sorted p q above le below)
        low high pivot
        (by
          rw [comp_apply, comp_apply] at first
          rw [first]
          exact groups.congr fun p above below => moved p above.le (by omega))
        rfl
      exact ⟨inverse, sorted⟩

end CadoNfs.Linalg.PleFindPivot
