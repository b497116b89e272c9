import CadoNfs.Filter.PassOutcome

/-!
# Column weights during a pass

`increase_weight` and `decrease_weight` of `filter/merge.cpp` test a column weight for saturation and update it in two
separate steps.
-/

namespace CadoNfs.Filter
open Lib Typerow

variable {α : Type} {n : Nat}

namespace Pc

def transit? : Pc α → Option (Transit α)
  | exec _ cur _ => cur
  | _ => none

-- The saturation test of a decrement of column `j` has succeeded.
def decreasing (j : Nat) : Pc α → Bool
  | exec _ (some ⟨_, _, .decrease k :: _, true⟩) _ => k = j
  | _ => false

end Pc

def pendingDecreases (s : ApplyState α n) (j : Nat) : Nat :=
  ∑ t, ((s.pc t).decreasing j).toNat

def Pc.keepsWeights (wt pending : Nat → Nat) : Pc α → Bool
  | exec _ (some ⟨_, _, op :: _, false⟩) _ =>
      wt op.column ≤ mergeLevelMax || mergeLevelMax + pending op.column < wt op.column
  | exec _ (some ⟨_, _, .increase j :: _, true⟩) _ => wt j != 255
  | _ => true

/-- No update is lost in this step: one that is skipped is skipped on a weight above the reach of
the decrements under way, and no counter overflows. -/
def keepsWeights (s : ApplyState α n) : Act n → Bool
  | .run t => (s.pc t).keepsWeights s.wt (pendingDecreases s)
  | _ => true

def WtOp.apply (columns : Finset Nat) : WtOp → Finset Nat
  | increase j => insert j columns
  | decrease j => columns.erase j

theorem Leads.cons {before after : Finset Nat} {op : WtOp} {ops : List WtOp}
    (leads : Leads before (op :: ops) after) : Leads (op.apply before) ops after := by
  cases op with
  | increase j | decrease j => exact leads.2

-- The number of rows that show column `j`.
def shown (nrows : Nat) (V : Nat → Finset Nat) (j : Nat) : Nat :=
  ((Finset.range nrows).filter fun i => j ∈ V i).card

theorem shown_update_of_iff {nrows i j : Nat} {V : Nat → Finset Nat} {new : Finset Nat}
    (same : j ∈ new ↔ j ∈ V i) : shown nrows (Function.update V i new) j = shown nrows V j := by
  apply congrArg Finset.card
  apply Finset.filter_congr
  intro k _
  by_cases eq : k = i
  · subst eq
    simpa using same
  · simp [eq]

theorem shown_update_insert {nrows i j : Nat} {V : Nat → Finset Nat} (bound : i < nrows)
    (fresh : j ∉ V i) : shown nrows (Function.update V i (insert j (V i))) j = shown nrows V j + 1 := by
  have grown : ((Finset.range nrows).filter fun k => j ∈ Function.update V i (insert j (V i)) k) =
      insert i ((Finset.range nrows).filter fun k => j ∈ V k) := by
    ext k
    by_cases eq : k = i
    · subst eq
      simp [bound]
    · simp [eq]
  unfold shown
  rw [grown, Finset.card_insert_of_notMem (by simp [fresh])]

theorem shown_update_erase {nrows i j : Nat} {V : Nat → Finset Nat} (bound : i < nrows)
    (member : j ∈ V i) : shown nrows (Function.update V i ((V i).erase j)) j + 1 = shown nrows V j := by
  have back : Function.update (Function.update V i ((V i).erase j)) i
      (insert j (Function.update V i ((V i).erase j) i)) = V := by
    rw [Function.update_idem, Function.update_self, Finset.insert_erase member]
    simp
  rw [← shown_update_insert bound (by simp), back]

section
variable [Typerow α]

def rowSet (row : Option (List α)) : Finset Nat := (row.elim [] columns).toFinset

theorem mem_rowSet_iff {rows : Rows α} {i j : Nat} : j ∈ rowSet (rows i) ↔ Contains rows i j := by
  unfold rowSet Contains
  cases rows i <;> simp

theorem mem_rowSet {row : Option (List α)} {j : Nat} :
    j ∈ rowSet row ↔ ∃ r, row = some r ∧ j ∈ columns r := by
  unfold rowSet
  cases row <;> simp

instance (rows : Rows α) (i j : Nat) : Decidable (Contains rows i j) :=
  decidable_of_iff _ mem_rowSet_iff

def weight (nrows : Nat) (rows : Rows α) (j : Nat) : Nat :=
  ((Finset.range nrows).filter fun i => Contains rows i j).card

theorem shown_rowSet (nrows : Nat) (rows : Rows α) (j : Nat) :
    shown nrows (fun i => rowSet (rows i)) j = weight nrows rows j := by
  simp only [shown, weight, mem_rowSet_iff]

/-! ## What the counters have seen of the rows -/

structure Moving (nrows : Nat) (V : Nat → Finset Nat) (w : Transit α) : Prop where
  bound : w.row < nrows
  leads : Leads (V w.row) w.ops (rowSet w.result)
  gains : ∀ j, .increase j ∈ w.ops → j ∈ rowSet w.result
  sorted : ∀ row, w.result = some row → RowSorted row

structure Visible (nrows : Nat) (rows : Rows α) (V : Nat → Finset Nat) (s : ApplyState α n) :
    Prop where
  sorted : SortedRows s.rows
  bounded : ∀ i, nrows ≤ i → s.rows i = none
  still : ∀ i, (∀ t, ∀ w ∈ (s.pc t).transit?, w.row ≠ i) → V i = rowSet (s.rows i)
  moving : ∀ t, ∀ w ∈ (s.pc t).transit?, Moving nrows V w
  inherits : ∀ i, ∀ j ∈ V i, Inherits rows s.started i j

theorem Visible.init {nrows : Nat} {rows : Rows α} (sorted : SortedRows rows)
    (bounded : ∀ i, nrows ≤ i → rows i = none) (wt : Nat → Nat) (L : List Candidate) :
    Visible nrows rows (fun i => rowSet (rows i)) (ApplyState.init n rows wt L) where
  sorted := sorted
  bounded := bounded
  still _ _ := rfl
  moving := by simp [ApplyState.init, Pc.transit?]
  inherits _ _ member := .inl (mem_rowSet_iff.mp member)

theorem Visible.same {nrows : Nat} {rows : Rows α} {V : Nat → Finset Nat} {s s' : ApplyState α n}
    (inv : Visible nrows rows V s) (now : s'.rows = s.rows)
    (transit : ∀ t, (s'.pc t).transit? = (s.pc t).transit?)
    (started : ∀ m ∈ s.started, m ∈ s'.started) : Visible nrows rows V s' where
  sorted := now ▸ inv.sorted
  bounded := now ▸ inv.bounded
  still i free := now ▸ inv.still i fun t w member => free t w (transit t ▸ member)
  moving t w member := inv.moving t w (transit t ▸ member)
  inherits i j member := by
    rcases inv.inherits i j member with own | ⟨m, hm, inside, source⟩
    · exact .inl own
    · exact .inr ⟨m, started m hm, inside, source⟩

theorem begin_moving {nrows : Nat} {V : Nat → Finset Nat} {j : Nat} {rows : Rows α}
    {instr : RowInstr} {w : Transit α} (sorted : SortedRows rows)
    (bounded : ∀ i, nrows ≤ i → rows i = none) (start : instr.begin j rows = some w)
    (seen : V w.row = rowSet (rows w.row)) : Moving nrows V w := by
  have live {i : Nat} {row : List α} (value : rows i = some row) : i < nrows := by
    by_contra outside
    rw [bounded i (not_lt.mp outside)] at value
    cases value
  cases instr with
  | add t s =>
    obtain ⟨r1, hr1, start⟩ := Option.bind_eq_some_iff.mp start
    obtain ⟨r2, hr2, start⟩ := Option.bind_eq_some_iff.mp start
    obtain ⟨⟨sum, ops⟩, added, rfl⟩ := Option.map_eq_some_iff.mp start
    have leads := addRow_leads (sorted t r1 hr1) (sorted s r2 hr2) added
    refine ⟨live hr1, ?_, fun k member => ?_, ?_⟩
    · simpa [seen, hr1, rowSet] using leads
    · simpa [rowSet] using addRow_increase added member
    · rintro row ⟨⟩
      exact addRow_sorted (sorted t r1 hr1) (sorted s r2 hr2) added
  | report ops => cases start
  | remove i =>
    obtain ⟨row, value, rfl⟩ := Option.map_eq_some_iff.mp start
    refine ⟨live value, ?_, by simp [removeRow], by simp⟩
    simpa [seen, value, rowSet] using removeRow_leads (sorted i row value)

-- The rows of a merge are rewritten by its own thread only.
theorem PassInv.other_row {rows : Rows α} {L : List Candidate} {s : ApplyState α n}
    (inv : PassInv rows L s) {t u : Fin n} {c : Candidate} (entered : (t, c) ∈ s.started) {i : Nat}
    (inside : i ∈ c.ind) (ne : u ≠ t) {w : Transit α} (member : w ∈ (s.pc u).transit?) :
    w.row ≠ i := by
  cases at_ : s.pc u with
  | idle | early c' k | reserve c' k => simp [at_, Pc.transit?] at member
  | exec c' cur todo =>
    have entered' := inv.reserved.entered u c' cur todo at_
    obtain ⟨within, writes, expected⟩ := inv.outcome.running inv.reserved at_
    rintro rfl
    exact inv.reserved.disjoint entered' entered (fun same => ne (congrArg Prod.fst same))
      (writes w (by simpa [at_, Pc.transit?] using member)) inside

theorem Visible.begin {nrows : Nat} {rows : Rows α} {V : Nat → Finset Nat} {s : ApplyState α n}
    (inv : Visible nrows rows V s) {t : Fin n} {c : Candidate} {instr : RowInstr}
    {todo : List RowInstr} {w : Transit α} (idle : (s.pc t).transit? = none)
    (start : instr.begin c.pivot s.rows = some w)
    (free : ∀ u, ∀ w' ∈ (s.pc u).transit?, w'.row ≠ w.row) :
    Visible nrows rows V (s.setPc t (.exec c (some w) todo)) where
  sorted := inv.sorted
  bounded := inv.bounded
  still i untouched := by
    apply inv.still i
    intro u w' member
    by_cases same : u = t
    · simp [same, idle] at member
    · exact untouched u w' (by simpa [same] using member)
  moving u w' member := by
    by_cases same : u = t
    · subst same
      obtain rfl : w = w' := by simpa [Pc.transit?] using member
      exact begin_moving inv.sorted inv.bounded start (inv.still _ free)
    · exact inv.moving u w' (by simpa [same] using member)
  inherits := inv.inherits

theorem Visible.rewrite {nrows : Nat} {rows : Rows α} {V : Nat → Finset Nat} {s s' : ApplyState α n}
    (inv : Visible nrows rows V s) {t : Fin n} {c : Candidate} {todo : List RowInstr}
    {w w' : Transit α} {new : Finset Nat} (before : w ∈ (s.pc t).transit?)
    (pcs : s'.pc = Function.update s.pc t (.exec c (some w') todo)) (now : s'.rows = s.rows)
    (started : s'.started = s.started) (row : w'.row = w.row)
    (others : ∀ u, u ≠ t → ∀ x ∈ (s.pc u).transit?, x.row ≠ w.row)
    (moving : Moving nrows (Function.update V w.row new) w')
    (inherits : ∀ j ∈ new, Inherits rows s.started w.row j) :
    Visible nrows rows (Function.update V w.row new) s' where
  sorted := now ▸ inv.sorted
  bounded := now ▸ inv.bounded
  still i untouched := by
    have ne : i ≠ w.row := fun eq =>
      untouched t w' (by simp [pcs, Pc.transit?]) (row.trans eq.symm)
    rw [Function.update_of_ne ne, now]
    apply inv.still i
    intro u x member
    by_cases same : u = t
    · subst same
      obtain rfl := Option.mem_unique before member
      exact ne.symm
    · exact untouched u x (by simpa [pcs, same] using member)
  moving u x member := by
    by_cases same : u = t
    · subst same
      obtain rfl : w' = x := by simpa [pcs, Pc.transit?] using member
      exact moving
    · have old := by simpa [pcs, same] using member
      obtain ⟨bound, leads, gains, sorted⟩ := inv.moving u x old
      exact ⟨bound, by rwa [Function.update_of_ne (others u same x old)], gains, sorted⟩
  inherits i j member := by
    rw [started]
    by_cases same : i = w.row
    · subst same
      exact inherits j (by simpa using member)
    · exact inv.inherits i j (by simpa [same] using member)

theorem Visible.advance {nrows : Nat} {rows : Rows α} {L : List Candidate} {V : Nat → Finset Nat}
    {s s' : ApplyState α n} (visible : Visible nrows rows V s) (inv : PassInv rows L s) {t : Fin n}
    {c : Candidate} {todo : List RowInstr} {row : Nat} {result : Option (List α)} {op : WtOp}
    {ops : List WtOp} {tested : Bool} (entered : (t, c) ∈ s.started) (inside : row ∈ c.ind)
    (current : (⟨row, result, op :: ops, tested⟩ : Transit α) ∈ (s.pc t).transit?)
    (now : s'.rows = s.rows) (started : s'.started = s.started)
    (pcs : s'.pc = Function.update s.pc t (.exec c (some ⟨row, result, ops, false⟩) todo))
    (at_ : s.pc t = .exec c (some ⟨row, result, op :: ops, tested⟩) todo) :
    Visible nrows rows (Function.update V row (op.apply (V row))) s' := by
  obtain ⟨bound, leads, gains, sorted⟩ := visible.moving t _ current
  refine visible.rewrite current pcs now started rfl
    (fun u ne x member => inv.other_row entered inside ne member) ?_ fun j member => ?_
  · exact ⟨bound, by simpa using leads.cons, fun j hj => gains j (.tail _ hj), sorted⟩
  · cases op with
    | decrease k => exact visible.inherits row j (Finset.mem_of_mem_erase member)
    | increase k =>
      rcases Finset.mem_insert.mp member with rfl | old
      · obtain ⟨r, hr, gain⟩ := mem_rowSet.mp (gains j (by simp))
        exact .inr ⟨_, entered, inside, inv.confined.building t c _ todo at_ r hr j gain⟩
      · exact visible.inherits row j old

theorem Visible.store {nrows : Nat} {rows : Rows α} {V : Nat → Finset Nat} {s : ApplyState α n}
    (inv : Visible nrows rows V s) {t : Fin n} {c : Candidate} {todo : List RowInstr} {i : Nat}
    {result : Option (List α)} {tested : Bool}
    (at_ : s.pc t = .exec c (some ⟨i, result, [], tested⟩) todo)
    (others : ∀ u, u ≠ t → ∀ x ∈ (s.pc u).transit?, x.row ≠ i) :
    Visible nrows rows V
      ({ s with rows := Function.update s.rows i result }.setPc t (.exec c none todo)) := by
  obtain ⟨bound, leads, gains, sorted⟩ := inv.moving t _ (by simp [at_, Pc.transit?]; rfl)
  refine ⟨inv.sorted.update sorted, fun k outside => ?_, fun k untouched => ?_, ?_, inv.inherits⟩
  · have ne : k ≠ i := fun eq => by
      simp only at bound
      omega
    simpa [ne] using inv.bounded k outside
  · by_cases same : k = i
    · subst same
      simpa [Leads] using leads
    · simp only [ApplyState.setPc_rows, Function.update_of_ne same]
      apply inv.still k
      intro u x member
      by_cases own : u = t
      · subst own
        obtain rfl : _ = x := by simpa [at_, Pc.transit?] using member
        exact fun eq => same eq.symm
      · exact untouched u x (by simpa [own] using member)
  · intro u x member
    by_cases own : u = t
    · subst own
      simp [Pc.transit?] at member
    · exact inv.moving u x (by simpa [own] using member)

/-! ## A weight is exact or stays saturated -/

open Classical in
noncomputable def inheritors (nrows : Nat) (rows : Rows α) (started : List (Fin n × Candidate))
    (j : Nat) : Nat :=
  ((Finset.range nrows).filter fun i => Inherits rows started i j).card

theorem inheritors_mono {nrows : Nat} {rows : Rows α} {started started' : List (Fin n × Candidate)}
    (more : ∀ m ∈ started, m ∈ started') (j : Nat) :
    inheritors nrows rows started j ≤ inheritors nrows rows started' j := by
  classical
  apply Finset.card_le_card
  intro i member
  rw [Finset.mem_filter] at member ⊢
  refine ⟨member.1, ?_⟩
  rcases member.2 with own | ⟨m, hm, inside, source⟩
  · exact .inl own
  · exact .inr ⟨m, more m hm, inside, source⟩

theorem Visible.shown_le {nrows : Nat} {rows : Rows α} {V : Nat → Finset Nat} {s : ApplyState α n}
    (inv : Visible nrows rows V s) (j : Nat) : shown nrows V j ≤ inheritors nrows rows s.started j := by
  classical
  apply Finset.card_le_card
  intro i member
  rw [Finset.mem_filter] at member ⊢
  exact ⟨member.1, inv.inherits i j member.2⟩

/-- A weight that is not exact is out of reach of the decrements under way, and its column has been
in too many rows. -/
structure Weighed (nrows : Nat) (rows : Rows α) (wt : Nat → Nat) (V : Nat → Finset Nat)
    (s : ApplyState α n) : Prop where
  accurate : ∀ j, s.wt j = shown nrows V j ∨ mergeLevelMax + pendingDecreases s j < s.wt j ∧
    (mergeLevelMax < wt j ∨ mergeLevelMax < inheritors nrows rows s.started j)
  small : ∀ j, s.wt j ≤ 255

variable {nrows : Nat} {rows : Rows α} {wt : Nat → Nat} {V : Nat → Finset Nat}
  {s s' : ApplyState α n}

theorem Weighed.keep (inv : Weighed nrows rows wt V s) (now : s'.wt = s.wt)
    (pending : ∀ j, pendingDecreases s' j ≤ pendingDecreases s j)
    (started : ∀ m ∈ s.started, m ∈ s'.started) : Weighed nrows rows wt V s' := by
  refine ⟨fun j => ?_, now ▸ inv.small⟩
  rw [now]
  rcases inv.accurate j with exact | ⟨saturated, many⟩
  · exact .inl exact
  · have fewer := pending j
    exact .inr ⟨by omega, many.imp_right fun lt => lt.trans_le (inheritors_mono started j)⟩

omit [Typerow α] in
theorem pendingDecreases_update (s s' : ApplyState α n) (t : Fin n) (pc : Pc α)
    (pcs : s'.pc = Function.update s.pc t pc)
    (j : Nat) : pendingDecreases s' j + ((s.pc t).decreasing j).toNat =
      pendingDecreases s j + (pc.decreasing j).toNat := by
  unfold pendingDecreases
  rw [pcs]
  exact sum_pc_update (fun pc => (pc.decreasing j).toNat) s.pc t pc

omit [Typerow α] in
theorem pendingDecreases_le {t : Fin n} {pc : Pc α} (pcs : s'.pc = Function.update s.pc t pc)
    (none : ∀ j, pc.decreasing j = false) (j : Nat) :
    pendingDecreases s' j ≤ pendingDecreases s j := by
  have change := pendingDecreases_update s s' t pc pcs j
  rw [none j, Bool.toNat_false] at change
  omega

theorem Weighed.test (inv : Weighed nrows rows wt V s) {t : Fin n} {c : Candidate} {row : Nat}
    {result : Option (List α)} {op : WtOp} {ops : List WtOp} {todo : List RowInstr}
    (low : s.wt op.column ≤ mergeLevelMax) :
    Weighed nrows rows wt V
      (s.setPc t (.exec c (some ⟨row, result, op :: ops, true⟩) todo)) := by
  refine ⟨fun j => ?_, inv.small⟩
  rcases inv.accurate j with exact | ⟨saturated, many⟩
  · exact .inl exact
  · have ne : op.column ≠ j := by
      rintro rfl
      omega
    have change := pendingDecreases_update s
      (s.setPc t (.exec c (some ⟨row, result, op :: ops, true⟩) todo)) t _ rfl j
    have other : (Pc.exec c (some ⟨row, result, op :: ops, true⟩) todo).decreasing j = false := by
      cases op with
      | increase j' => rfl
      | decrease j' => exact decide_eq_false ne
    rw [other, Bool.toNat_false] at change
    refine .inr ⟨?_, many⟩
    simp only [ApplyState.setPc_wt]
    omega

theorem shown_apply (op : WtOp) {i j : Nat} (ne : j ≠ op.column) :
    shown nrows (Function.update V i (op.apply (V i))) j = shown nrows V j := by
  apply shown_update_of_iff
  cases op <;> simp_all [WtOp.apply, WtOp.column]

theorem Weighed.skip (inv : Weighed nrows rows wt V s) (visible : Visible nrows rows V s)
    {t : Fin n} {c : Candidate} {row : Nat} {result : Option (List α)} {op : WtOp}
    {ops : List WtOp} {todo : List RowInstr}
    (at_ : s.pc t = .exec c (some ⟨row, result, op :: ops, false⟩) todo)
    (reach : mergeLevelMax + pendingDecreases s op.column < s.wt op.column) :
    Weighed nrows rows wt (Function.update V row (op.apply (V row)))
      (s.setPc t (.exec c (some ⟨row, result, ops, false⟩) todo)) := by
  have fewer (j : Nat) : pendingDecreases (s.setPc t
      (.exec c (some ⟨row, result, ops, false⟩) todo)) j ≤ pendingDecreases s j :=
    pendingDecreases_le rfl (by cases ops <;> simp [Pc.decreasing]) j
  refine ⟨fun j => ?_, inv.small⟩
  by_cases same : j = op.column
  · subst same
    right
    have pending := fewer op.column
    refine ⟨by simp only [ApplyState.setPc_wt]; omega, ?_⟩
    rcases inv.accurate op.column with exact | ⟨_, many⟩
    · have bound := visible.shown_le op.column
      simp only [ApplyState.setPc_started]
      omega
    · exact many
  · rw [shown_apply op same]
    rcases inv.accurate j with exact | ⟨saturated, many⟩
    · exact .inl exact
    · have pending := fewer j
      exact .inr ⟨by simp only [ApplyState.setPc_wt]; omega, many⟩

theorem Weighed.update (inv : Weighed nrows rows wt V s) {t : Fin n} {c : Candidate} {row : Nat}
    {result : Option (List α)} {op : WtOp} {ops : List WtOp} {todo : List RowInstr}
    (at_ : s.pc t = .exec c (some ⟨row, result, op :: ops, true⟩) todo) (bound : row < nrows)
    (leads : Leads (V row) (op :: ops) (rowSet result))
    (room : ∀ j, op = .increase j → s.wt j ≠ 255) :
    Weighed nrows rows wt (Function.update V row (op.apply (V row)))
      ({ s with wt := op.update s.wt }.setPc t (.exec c (some ⟨row, result, ops, false⟩) todo)) := by
  have change (j : Nat) := pendingDecreases_update s
    ({ s with wt := op.update s.wt }.setPc t (.exec c (some ⟨row, result, ops, false⟩) todo))
    t _ rfl j
  have after (j : Nat) : (Pc.exec c (some ⟨row, result, ops, false⟩) todo).decreasing j = false := by
    cases ops <;> simp [Pc.decreasing]
  have small := inv.small op.column
  refine ⟨fun j => ?_, fun j => ?_⟩
  · have pending := change j
    rw [after j, Bool.toNat_false, at_] at pending
    generalize pendingDecreases (ApplyState.setPc _ t _) j = p at pending ⊢
    by_cases same : j = op.column
    · subst same
      cases op with
      | increase j =>
        have space := room j rfl
        simp only [Pc.decreasing, Bool.toNat_false, WtOp.column] at pending small ⊢
        simp only [ApplyState.setPc_wt, WtOp.update, Function.update_self, ApplyState.setPc_started,
          WtOp.apply, shown_update_insert bound leads.1]
        rcases inv.accurate j with exact | ⟨saturated, many⟩
        · left
          omega
        · exact .inr ⟨by omega, many⟩
      | decrease j =>
        have member := shown_update_erase bound leads.1
        simp only [Pc.decreasing, decide_true, Bool.toNat_true, WtOp.column] at pending small ⊢
        simp only [ApplyState.setPc_wt, WtOp.update, Function.update_self, ApplyState.setPc_started,
          WtOp.apply]
        rcases inv.accurate j with exact | ⟨saturated, many⟩
        · left
          omega
        · exact .inr ⟨by omega, many⟩
    · have wt_same : op.update s.wt j = s.wt j := by
        cases op <;> exact Function.update_of_ne same _ _
      simp only [ApplyState.setPc_wt, wt_same, shown_apply op same, ApplyState.setPc_started]
      rcases inv.accurate j with exact | ⟨saturated, many⟩
      · exact .inl exact
      · exact .inr ⟨by omega, many⟩
  · simp only [ApplyState.setPc_wt]
    by_cases same : j = op.column
    · subst same
      cases op with
      | increase j | decrease j =>
        simp only [WtOp.update, WtOp.column, Function.update_self]
        omega
    · have wt_same : op.update s.wt j = s.wt j := by
        cases op <;> exact Function.update_of_ne same _ _
      rw [wt_same]
      exact inv.small j

/-! ## Every step, every run -/

def Counted (nrows : Nat) (rows : Rows α) (wt : Nat → Nat) (s : ApplyState α n) : Prop :=
  ∃ V, Visible nrows rows V s ∧ Weighed nrows rows wt V s

theorem Counted.keep (inv : Counted nrows rows wt s) {t : Fin n} {pc : Pc α}
    (now : s'.rows = s.rows) (weights : s'.wt = s.wt) (pcs : s'.pc = Function.update s.pc t pc)
    (transit : pc.transit? = (s.pc t).transit?) (none : ∀ j, pc.decreasing j = false)
    (started : ∀ m ∈ s.started, m ∈ s'.started) : Counted nrows rows wt s' := by
  obtain ⟨V, visible, weighed⟩ := inv
  refine ⟨V, visible.same now (fun u => ?_) started,
    weighed.keep weights (pendingDecreases_le pcs none) started⟩
  by_cases same : u = t
  · subst same
    simp [pcs, transit]
  · simp [pcs, same]

variable {L : List Candidate}

theorem Quiet.counted (inv : PassInv rows L s) (counted : Counted nrows rows wt s) {t : Fin n}
    {pc : Pc α} (change : Quiet s (s.pc t) pc)
    (keeps : (s.pc t).keepsWeights s.wt (pendingDecreases s)) :
    Counted nrows rows wt (s.setPc t pc) := by
  cases at_ : s.pc t with
  | idle | early c k | reserve c k =>
    rw [at_] at change
    refine counted.keep rfl rfl rfl ?_ ?_ fun _ => id <;>
      cases change <;> simp [at_, Pc.transit?, Pc.decreasing]
  | exec c cur todo =>
    obtain ⟨V, visible, weighed⟩ := counted
    have entered := inv.reserved.entered t c cur todo at_
    obtain ⟨within, writes, expected⟩ := inv.outcome.running inv.reserved at_
    rw [at_] at change keeps
    cases change with
    | @begin _ instr todo w start =>
      have inside : w.row ∈ c.ind := within instr (by simp) _ (begin_exec start).2.1
      refine ⟨V, visible.begin (by simp [at_, Pc.transit?]) start fun u x member => ?_,
        weighed.keep rfl (pendingDecreases_le rfl fun j => ?_) fun _ => id⟩
      · by_cases same : u = t
        · simp [same, at_, Pc.transit?] at member
        · exact inv.other_row entered inside same member
      · obtain ⟨row, result, ops, tested⟩ := w
        have fresh : tested = false := (begin_exec start).2.2.1
        cases ops <;> simp [Pc.decreasing, fresh]
    | @test _ row result op ops todo low =>
      have current : (⟨row, result, op :: ops, false⟩ : Transit α) ∈ (s.pc t).transit? := by
        simp [at_, Pc.transit?]
      obtain ⟨bound, leads, gains, sorted⟩ := visible.moving t _ current
      refine ⟨V, ?_, weighed.test low⟩
      rw [← Function.update_eq_self row V]
      refine visible.rewrite current rfl rfl rfl rfl
        (fun u ne x member => inv.other_row entered (writes _ rfl) ne member) ?_
        (visible.inherits row)
      exact ⟨bound, by simpa using leads, gains, sorted⟩
    | @skip _ row result op ops todo saturated =>
      have current : (⟨row, result, op :: ops, false⟩ : Transit α) ∈ (s.pc t).transit? := by
        simp [at_, Pc.transit?]
      have reach : mergeLevelMax + pendingDecreases s op.column < s.wt op.column := by
        simpa [Pc.keepsWeights, not_le.mpr saturated] using keeps
      exact ⟨_, visible.advance inv entered (writes _ rfl) current rfl rfl rfl at_,
        weighed.skip visible at_ reach⟩

variable [NeZero n] {label : Nat → Option Index}

theorem Counted.move {a : Act n} (counted : Counted nrows rows wt s) (inv : PassInv rows L s)
    (keeps : keepsWeights s a) (move : Move label L s a s') : Counted nrows rows wt s' := by
  cases move with
  | take parallel idle next =>
    exact counted.keep rfl rfl rfl (by simp [idle, Pc.transit?]) (fun _ => rfl) fun _ => id
  | quiet change => exact change.counted inv counted keeps
  | reserve at_ next free =>
    exact counted.keep rfl rfl rfl (by simp [at_, Pc.transit?]) (fun _ => rfl) fun _ => id
  | enter at_ all =>
    exact counted.keep rfl rfl rfl (by simp [at_, Pc.transit?]) (fun _ => rfl)
      fun _ => List.mem_cons_of_mem _
  | report at_ =>
    exact counted.keep rfl rfl rfl (by simp [at_, Pc.transit?]) (fun _ => rfl) fun _ => id
  | @update t c row result op ops todo at_ =>
    obtain ⟨V, visible, weighed⟩ := counted
    have entered := inv.reserved.entered t c _ todo at_
    obtain ⟨within, writes, expected⟩ := inv.outcome.running inv.reserved at_
    have current : (⟨row, result, op :: ops, true⟩ : Transit α) ∈ (s.pc t).transit? := by
      simp [at_, Pc.transit?]
    refine ⟨_, visible.advance inv entered (writes _ rfl) current rfl rfl rfl at_,
      weighed.update at_ (visible.moving t _ current).bound (visible.moving t _ current).leads ?_⟩
    rintro j rfl
    simpa [keepsWeights, at_, Pc.keepsWeights] using keeps
  | @store t c row result tested todo at_ =>
    obtain ⟨V, visible, weighed⟩ := counted
    have entered := inv.reserved.entered t c _ todo at_
    obtain ⟨within, writes, expected⟩ := inv.outcome.running inv.reserved at_
    exact ⟨V, visible.store at_ fun u ne x member => inv.other_row entered (writes _ rfl) ne member,
      weighed.keep rfl (pendingDecreases_le rfl fun _ => rfl) fun _ => id⟩
  | finish at_ =>
    exact counted.keep rfl rfl rfl (by simp [at_, Pc.transit?]) (fun _ => rfl) fun _ => id
  | join parallel empty idle enough =>
    obtain ⟨V, visible, weighed⟩ := counted
    exact ⟨V, visible.same rfl (fun _ => rfl) fun _ => id, weighed.keep rfl (fun _ => le_rfl) fun _ => id⟩
  | fallback parallel empty idle zero first =>
    exact counted.keep rfl rfl rfl (by simp [Pc.isIdle_iff.mp (idle 0), Pc.transit?]) (fun _ => rfl)
      fun _ => List.mem_cons_of_mem _

omit [NeZero n] in
theorem Counted.init (sorted : SortedRows rows) (bounded : ∀ i, nrows ≤ i → rows i = none)
    (exact : ∀ j, wt j ≤ mergeLevelMax → wt j = weight nrows rows j) (small : ∀ j, wt j ≤ 255) :
    Counted nrows rows wt (ApplyState.init n rows wt L) := by
  refine ⟨_, .init sorted bounded wt L, fun j => ?_, small⟩
  rcases le_or_gt (wt j) mergeLevelMax with low | high
  · exact .inl ((exact j low).trans (shown_rowSet nrows rows j).symm)
  · have none : pendingDecreases (ApplyState.init n rows wt L) j = 0 := by
      simp [pendingDecreases, ApplyState.init, Pc.decreasing]
    exact .inr ⟨none ▸ high, .inl high⟩

theorem Reach.counted (sorted : SortedRows rows) (bounded : ∀ i, nrows ≤ i → rows i = none)
    (exact : ∀ j, wt j ≤ mergeLevelMax → wt j = weight nrows rows j) (small : ∀ j, wt j ≤ 255)
    (reach : Reach label L keepsWeights (.init n rows wt L) s) : Counted nrows rows wt s := by
  induction reach with
  | start => exact .init sorted bounded exact small
  | step before keeps run ih => exact ih.move before.passInv keeps (step_move run)

omit [NeZero n] in
theorem Counted.finished (counted : Counted nrows rows wt s) (done : s.finished) (j : Nat) :
    s.wt j = weight nrows s.rows j ∨
      mergeLevelMax < s.wt j ∧
        (mergeLevelMax < wt j ∨ mergeLevelMax < inheritors nrows rows s.started j) := by
  obtain ⟨V, visible, weighed⟩ := counted
  have stored : V = fun i => rowSet (s.rows i) := by
    funext i
    apply visible.still
    intro t w member
    simp [Pc.isIdle_iff.mp (done.2 t), Pc.transit?] at member
  rcases weighed.accurate j with exact | ⟨saturated, many⟩
  · exact .inl (exact.trans (stored ▸ shown_rowSet nrows s.rows j))
  · exact .inr ⟨by omega, many⟩

theorem weights_exact (sorted : SortedRows rows) (bounded : ∀ i, nrows ≤ i → rows i = none)
    (exact : ∀ j, wt j ≤ mergeLevelMax → wt j = weight nrows rows j) (small : ∀ j, wt j ≤ 255)
    (reach : Reach label L keepsWeights (.init n rows wt L) s) (done : s.finished) (j : Nat)
    (low : s.wt j ≤ mergeLevelMax) : s.wt j = weight nrows s.rows j :=
  ((reach.counted sorted bounded exact small).finished done j).resolve_right
    fun ⟨high, _⟩ => absurd low (not_le.mpr high)

/-! ## Merges executed one after the other -/

omit [Typerow α] [NeZero n] in
/-- A thread in the middle of a merge runs alone. -/
def oneAtATime (s : ApplyState α n) : Act n → Bool
  | .run t => (s.pc t).running == 0 || decide (∀ u, u ≠ t → (s.pc u).running = 0)
  | _ => true

def TestedLow (s : ApplyState α n) : Prop :=
  ∀ t c row result op ops todo, s.pc t = .exec c (some ⟨row, result, op :: ops, true⟩) todo →
    s.wt op.column ≤ mergeLevelMax

omit [Typerow α] [NeZero n] in
theorem TestedLow.keep (inv : TestedLow s) {t : Fin n} {pc : Pc α} (weights : s'.wt = s.wt)
    (pcs : s'.pc = Function.update s.pc t pc)
    (own : ∀ c row result op ops todo, pc = .exec c (some ⟨row, result, op :: ops, true⟩) todo →
      s.wt op.column ≤ mergeLevelMax) : TestedLow s' := by
  intro u c row result op ops todo at_
  rw [pcs] at at_
  rw [weights]
  by_cases same : u = t
  · subst same
    exact own c row result op ops todo (by simpa using at_)
  · exact inv u c row result op ops todo (by simpa [same] using at_)

omit [Typerow α] [NeZero n] in
theorem oneAtATime_alone {t : Fin n} (one : oneAtATime s (.run t)) {c : Candidate}
    {cur : Option (Transit α)} {todo : List RowInstr} (at_ : s.pc t = .exec c cur todo) {u : Fin n}
    (ne : u ≠ t) : (s.pc u).running = 0 := by
  have running : (s.pc t).running ≠ 0 := by simp [at_, Pc.running]
  simp only [oneAtATime, Bool.or_eq_true, beq_iff_eq, running, false_or, decide_eq_true_eq] at one
  exact one u ne

theorem TestedLow.move {a : Act n} (inv : TestedLow s) (one : oneAtATime s a)
    (move : Move label L s a s') : TestedLow s' := by
  cases move with
  | @quiet t pc change =>
    refine inv.keep rfl rfl fun c row result op ops todo eq => ?_
    generalize s.pc t = before at change
    subst eq
    cases change with
    | begin start => exact absurd (begin_exec start).2.2.1 (by simp)
    | test low => exact low
  | @update t c row result op ops todo at_ =>
    intro u c' row' result' op' ops' todo' at'
    by_cases same : u = t
    · subst same
      simp at at'
    · have stopped := oneAtATime_alone one at_ same
      have running : s.pc u = .exec c' (some ⟨row', result', op' :: ops', true⟩) todo' := by
        simpa [same] using at'
      simp [running, Pc.running] at stopped
  | take parallel idle next => exact inv.keep rfl rfl (by simp)
  | reserve at_ next free => exact inv.keep rfl rfl (by simp)
  | enter at_ all => exact inv.keep rfl rfl (by simp)
  | report at_ => exact inv.keep rfl rfl (by simp)
  | store at_ => exact inv.keep rfl rfl (by simp)
  | finish at_ => exact inv.keep rfl rfl (by simp)
  | join parallel empty idle enough => exact inv
  | @fallback c rest parallel empty idle zero first =>
    have joined : TestedLow { s with serial := true } := inv
    exact joined.keep rfl rfl (by simp)

omit [Typerow α] [NeZero n] in
theorem TestedLow.keepsWeights (inv : TestedLow s) {a : Act n} (one : oneAtATime s a) :
    keepsWeights s a := by
  cases a with
  | take t it => rfl
  | join => rfl
  | run t =>
    rw [Filter.keepsWeights]
    cases at_ : s.pc t with
    | exec c cur todo =>
      match cur with
      | some ⟨row, result, op :: ops, false⟩ =>
        have none : pendingDecreases s op.column = 0 := by
          apply Finset.sum_eq_zero
          intro u _
          by_cases same : u = t
          · subst same
            simp [at_, Pc.decreasing]
          · have stopped := oneAtATime_alone one at_ same
            cases at' : s.pc u with
            | exec c' cur' todo' => simp [at', Pc.running] at stopped
            | idle | early c' k | reserve c' k => rfl
        simp [Pc.keepsWeights, none, le_or_gt]
      | some ⟨row, result, .increase j :: ops, true⟩ =>
        have low := inv t c row result _ ops todo at_
        simp only [WtOp.column, mergeLevelMax] at low
        simp only [Pc.keepsWeights, bne_iff_ne]
        omega
      | some ⟨row, result, .decrease j :: ops, true⟩ => rfl
      | some ⟨row, result, [], tested⟩ => rfl
      | none => rfl
    | idle | early c k | reserve c k => rfl

theorem Reach.of_oneAtATime (reach : Reach label L oneAtATime (.init n rows wt L) s) :
    Reach label L keepsWeights (.init n rows wt L) s ∧ TestedLow s := by
  induction reach with
  | start => exact ⟨.start, by simp [TestedLow, ApplyState.init]⟩
  | step before one run ih =>
    exact ⟨ih.1.step (ih.2.keepsWeights one) run, ih.2.move one (step_move run)⟩

end

theorem weight_le [Typerow α] (nrows : Nat) (rows : Rows α) (j : Nat) : weight nrows rows j ≤ nrows :=
  (Finset.card_filter_le _ _).trans_eq (Finset.card_range nrows)

theorem weights_exact_pair :
    let rows : Rows Nat := rowTable [[0, 1], [0, 2]]
    let L : List Candidate := [⟨0, [0, 1], by simp⟩]
    let acts : List (Act 1) := .take 0 0 :: List.replicate 20 (.run 0) ++ [.join]
    ∃ s, (ApplyState.init 1 rows (weight 2 rows) L).steps (fun _ => none) L keepsWeights acts =
      some s ∧ s.wt 1 = weight 2 s.rows 1 := by
  intro rows L acts
  have ends : ((ApplyState.init 1 rows (weight 2 rows) L).steps (fun _ => none) L keepsWeights
      acts).any fun s => decide (s.finished ∧ s.wt 1 ≤ mergeLevelMax) := by decide +kernel
  obtain ⟨s, run, final⟩ := (Option.any_eq_true _ _).mp ends
  obtain ⟨done, low⟩ := of_decide_eq_true final
  refine ⟨s, run, weights_exact (rowTable_sorted ?_) (fun _ => rowTable_bounded) (fun _ _ => rfl)
    (fun j => (weight_le 2 rows j).trans (by norm_num)) (.steps .start run) done 1 low⟩
  simp [RowSorted, rowCell]

-- Column 0 is in 32 rows. Thread 0 tests its decrement, thread 1 takes the weight to 33, thread 2
-- skips its increment and thread 0 brings the weight back to 32.
theorem weights_lost : ¬ ∀ (n nrows : Nat) [NeZero n] (rows : Rows Nat) (L : List Candidate)
    (s : ApplyState Nat n), SortedRows rows → (∀ i, nrows ≤ i → rows i = none) → nrows ≤ 255 →
    (∀ c ∈ L, Exact rows c) →
    Reach (fun _ => none) L (fun _ _ => true) (.init n rows (weight nrows rows) L) s → s.finished →
    ∀ j, s.wt j ≤ mergeLevelMax → s.wt j = weight nrows s.rows j := by
  intro always
  let table : List (List Nat) := [[0, 1], [0, 1], [0, 2], [2], [0, 3], [3]] ++ List.replicate 28 [0]
  let L : List Candidate := [⟨1, [0, 1], by simp⟩, ⟨2, [2, 3], by simp⟩, ⟨3, [4, 5], by simp⟩]
  let start (t : Fin 3) : List (Act 3) := .take t 0 :: List.replicate 7 (.run t)
  let race : List (Act 3) := [.run 0, .run 1, .run 1, .run 2, .run 0]
  let rest (t : Fin 3) : List (Act 3) := List.replicate 11 (.run t)
  let acts := start 0 ++ start 1 ++ start 2 ++ race ++ rest 0 ++ rest 1 ++ rest 2 ++ [Act.join]
  have ends : ((ApplyState.init 3 (rowTable table) (weight 34 (rowTable table)) L).steps
      (fun _ => none) L (fun _ _ => true) acts).any
      fun s => decide (s.finished ∧ s.wt 0 = 29 ∧ weight 34 s.rows 0 = 30) := by decide +kernel
  obtain ⟨s, run, final⟩ := (Option.any_eq_true _ _).mp ends
  obtain ⟨done, counter, real⟩ := of_decide_eq_true final
  have bounded (i : Nat) (high : 34 ≤ i) : rowTable table i = none :=
    rowTable_bounded (show table.length ≤ i from high)
  have exact : ∀ c ∈ L, Exact (rowTable table) c := by
    intro c member
    have inside : ∀ c ∈ L, c.ind.Nodup ∧ ∀ i < 34, i ∈ c.ind ↔ Contains (rowTable table) i c.pivot := by
      decide +kernel
    refine ⟨(inside c member).1, fun i => ?_⟩
    rcases lt_or_ge i 34 with low | high
    · exact (inside c member).2 i low
    · have bounds : ∀ c ∈ L, ∀ i ∈ c.ind, i < 34 := by decide
      have outside := bounded i high
      constructor
      · intro hi
        exact absurd (bounds c member i hi) (not_lt.mpr high)
      · rintro ⟨row, live, _⟩
        simp [outside] at live
  have same := always 3 34 (rowTable table) L s (rowTable_sorted (by decide +kernel))
    bounded (by norm_num) exact (.steps .start run) done 0
    (by rw [counter]; decide)
  omega

end CadoNfs.Filter
