import CadoNfs.Filter.ApplyMerges

/-!
# What a pass computes

Whatever the interleaving, each merge of a pass has the effect it would have if it were executed
alone on the rows the pass started from, and the buffer of a thread holds the history lines of its
merges one after the other.
-/

namespace CadoNfs.Filter
open Lib Typerow

variable {α : Type} {n : Nat}

def withCurrent (rows : Rows α) : Option (Transit α) → Rows α
  | none => rows
  | some cur => Function.update rows cur.row cur.result

theorem withCurrent_agree {ind : List Nat} {rows rows' : Rows α} (agree : AgreeOn ind rows rows')
    (cur : Option (Transit α)) : AgreeOn ind (withCurrent rows cur) (withCurrent rows' cur) := by
  cases cur with
  | none => exact agree
  | some cur => exact agree.update cur.row cur.result

theorem rel_agree_trans {ind : List Nat} {x y z : Option (Rows α)}
    (first : Option.Rel (AgreeOn ind) x y) (second : Option.Rel (AgreeOn ind) y z) :
    Option.Rel (AgreeOn ind) x z := by
  cases first with
  | none => exact second
  | some agree =>
    cases second with
    | some agree' => exact .some (agree.trans agree')

def reportedOps : List RowInstr → List RowOp
  | [] => []
  | .report ops :: todo => ops ++ reportedOps todo
  | _ :: todo => reportedOps todo

variable [Typerow α]

theorem begin_exec {j : Nat} {rows : Rows α} {instr : RowInstr} {cur : Transit α}
    (start : instr.begin j rows = some cur) :
    instr.exec j rows = some (Function.update rows cur.row cur.result) ∧ cur.row ∈ instr.touched ∧
      cur.tested = false ∧ ∀ ops, instr ≠ .report ops := by
  cases instr with
  | add t s =>
    obtain ⟨r1, hr1, start⟩ := Option.bind_eq_some_iff.mp start
    obtain ⟨r2, hr2, start⟩ := Option.bind_eq_some_iff.mp start
    obtain ⟨result, added, rfl⟩ := Option.map_eq_some_iff.mp start
    simp [RowInstr.exec, hr1, hr2, added, RowInstr.touched]
  | report ops => cases start
  | remove i =>
    obtain ⟨row, live, rfl⟩ := Option.map_eq_some_iff.mp start
    simp [RowInstr.exec, live, RowInstr.touched]

theorem execRows_stuck {j : Nat} {rows : Rows α} {instr : RowInstr} (todo : List RowInstr)
    (stuck : instr.begin j rows = none) (write : ∀ ops, instr ≠ .report ops) :
    execRows j rows (instr :: todo) = none := by
  apply Option.bind_eq_none_iff.mpr
  intro next run
  cases instr with
  | add t s =>
    obtain ⟨r1, hr1, run⟩ := Option.bind_eq_some_iff.mp run
    obtain ⟨r2, hr2, run⟩ := Option.bind_eq_some_iff.mp run
    obtain ⟨result, added, rfl⟩ := Option.map_eq_some_iff.mp run
    simp [RowInstr.begin, hr1, hr2, added] at stuck
  | report ops => exact absurd rfl (write ops)
  | remove i =>
    obtain ⟨row, live, rfl⟩ := Option.map_eq_some_iff.mp run
    simp [RowInstr.begin, live] at stuck

/-- A merge that has been entered will have, or has had, the effect of `merge_do` on `rows`. -/
inductive Effect (rows now : Rows α) (c : Candidate) : Pc α → Prop
  | running {cur : Option (Transit α)} {todo : List RowInstr} (within : Within c.ind todo)
      (writes : ∀ w ∈ cur, w.row ∈ c.ind)
      (expected : Option.Rel (AgreeOn c.ind) (execRows c.pivot (withCurrent now cur) todo)
        (execRows c.pivot rows (mergeDo rows c))) : Effect rows now c (.exec c cur todo)
  | done {pc : Pc α} {final : Rows α} (other : ∀ cur todo, pc ≠ .exec c cur todo)
      (run : execRows c.pivot rows (mergeDo rows c) = some final)
      (agree : AgreeOn c.ind now final) : Effect rows now c pc

theorem Effect.congr {rows now now' : Rows α} {c : Candidate} {pc : Pc α}
    (effect : Effect rows now c pc) (agree : AgreeOn c.ind now' now) : Effect rows now' c pc := by
  cases effect with
  | running within writes expected =>
    exact .running within writes
      (rel_agree_trans (execRows_agree within (withCurrent_agree agree _)) expected)
  | done other run final => exact .done other run (agree.trans final)

structure Outcome (rows : Rows α) (s : ApplyState α n) : Prop where
  untouched : ∀ i, (∀ m ∈ s.started, i ∉ m.2.ind) → s.rows i = rows i
  effect : ∀ m ∈ s.started, Effect rows s.rows m.2 (s.pc m.1)

theorem Outcome.running {rows : Rows α} {s : ApplyState α n} (inv : Outcome rows s) (reserved : Reserved s)
    {t : Fin n} {c : Candidate} {cur : Option (Transit α)} {todo : List RowInstr} (at_ : s.pc t = .exec c cur todo) :
    Within c.ind todo ∧ (∀ w ∈ cur, w.row ∈ c.ind) ∧
      Option.Rel (AgreeOn c.ind) (execRows c.pivot (withCurrent s.rows cur) todo)
        (execRows c.pivot rows (mergeDo rows c)) := by
  have effect := at_ ▸ inv.effect _ (reserved.entered t c cur todo at_)
  cases effect with
  | done other => exact absurd rfl (other _ _)
  | running within writes expected => exact ⟨within, writes, expected⟩

theorem Outcome.init (rows : Rows α) (wt : Nat → Nat)
    (L : List Candidate) : Outcome rows (ApplyState.init n rows wt L) :=
  ⟨fun _ _ => rfl, by simp [ApplyState.init]⟩

theorem Outcome.outside {rows : Rows α} {s s' : ApplyState α n}
    (inv : Outcome rows s) {t : Fin n} {pc : Pc α} (started : s'.started = s.started)
    (now : s'.rows = s.rows) (pcs : s'.pc = Function.update s.pc t pc)
    (before : (s.pc t).running = 0) (after : pc.running = 0) : Outcome rows s' := by
  refine ⟨fun i free => now ▸ inv.untouched i (started ▸ free), fun m member => ?_⟩
  have effect := inv.effect m (started ▸ member)
  rw [now, pcs]
  by_cases same : m.1 = t
  · rw [same] at effect ⊢
    rw [Function.update_self]
    generalize s.pc t = previous at effect before
    cases effect with
    | running => simp_all [Pc.running]
    | done other run agree =>
      refine .done ?_ run agree
      rintro cur todo rfl
      simp [Pc.running] at after
  · rwa [Function.update_of_ne same]

theorem Outcome.inside {rows : Rows α} {s s' : ApplyState α n}
    (inv : Outcome rows s) (reserved : Reserved s) {t : Fin n} {c : Candidate}
    {cur : Option (Transit α)} {todo : List RowInstr} {pc : Pc α} (at_ : s.pc t = .exec c cur todo)
    (started : s'.started = s.started) (pcs : s'.pc = Function.update s.pc t pc)
    (frame : ∀ i, i ∉ c.ind → s'.rows i = s.rows i)
    (own : ∀ c' cur' todo', pc = .exec c' cur' todo' → c' = c)
    (effect : Effect rows s'.rows c pc) : Outcome rows s' := by
  have entered := reserved.entered t c cur todo at_
  constructor
  · intro i free
    rw [started] at free
    rw [frame i (free _ entered), inv.untouched i free]
  · intro m member
    rw [started] at member
    by_cases current : m = (t, c)
    · subst current
      simpa [pcs] using effect
    have apart := reserved.disjoint member entered current
    have same : AgreeOn m.2.ind s'.rows s.rows := fun i hi => frame i fun hc => apart hi hc
    have old := (inv.effect m member).congr same
    by_cases thread : m.1 = t
    · have different : m.2 ≠ c := fun eq => current (Prod.ext thread eq)
      rw [thread] at old ⊢
      rw [at_] at old
      rw [pcs, Function.update_self]
      cases old with
      | running => exact absurd rfl different
      | done other run agree =>
        refine .done ?_ run agree
        intro cur' todo' eq
        exact different (own _ _ _ eq)
    · rwa [pcs, Function.update_of_ne thread]

theorem Outcome.enter {rows : Rows α} {s : ApplyState α n}
    (inv : Outcome rows s) {t : Fin n} {c : Candidate}
    (outside : ∀ m ∈ s.started, c.ind.Disjoint m.2.ind) (stopped : (s.pc t).running = 0) :
    Outcome rows (s.enter t c) ∧ AgreeOn c.ind s.rows rows := by
  have fresh : AgreeOn c.ind s.rows rows :=
    fun i member => inv.untouched i fun m hm hi => outside m hm member hi
  refine ⟨⟨fun i free => inv.untouched i fun m hm => free m (.tail _ hm), ?_⟩, fresh⟩
  intro m member
  rcases List.mem_cons.mp member with rfl | old
  · have within := mergeDo_within s.rows c
    simp only [ApplyState.enter, ApplyState.setPc_pc, Function.update_self]
    refine .running within (by simp) ?_
    rw [← mergeDo_congr fresh]
    exact execRows_agree within fresh
  · have effect := inv.effect m old
    by_cases thread : m.1 = t
    · rw [thread] at effect ⊢
      cases at_ : s.pc t with
      | exec c' cur todo => simp [at_, Pc.running] at stopped
      | idle | early c' k | reserve c' k =>
        rw [at_] at effect
        cases effect with
        | done other run agree =>
          refine .done ?_ run agree
          intro cur todo eq
          simp only [ApplyState.enter, ApplyState.setPc_pc, Function.update_self,
            Pc.exec.injEq] at eq
          obtain ⟨i, hi⟩ := List.exists_mem_of_ne_nil _ c.nonempty
          exact outside m old hi (eq.1 ▸ hi)
    · simpa [ApplyState.enter, thread] using effect

theorem Quiet.exec {s : ApplyState α n} {c : Candidate} {cur : Option (Transit α)}
    {todo : List RowInstr} {after : Pc α} (change : Quiet s (.exec c cur todo) after)
    {rows : Rows α} (effect : Effect rows s.rows c (.exec c cur todo)) :
    Effect rows s.rows c after ∧ ∀ c' cur' todo', after = .exec c' cur' todo' → c' = c := by
  cases effect with
  | done other => exact absurd rfl (other _ _)
  | running within writes expected =>
    cases change with
    | @begin _ instr todo cur start =>
      obtain ⟨run, touched, _⟩ := begin_exec start
      refine ⟨.running (fun i hi => within i (.tail _ hi)) ?_ ?_, by simp⟩
      · rintro w ⟨⟩
        exact within instr (by simp) _ touched
      · simpa [withCurrent, run] using expected
    | test low => exact ⟨.running within (by simpa using writes) expected, by simp⟩
    | skip saturated => exact ⟨.running within (by simpa using writes) expected, by simp⟩

/-! ## Where a column can be found -/

def Contains (rows : Rows α) (i j : Nat) : Prop := ∃ row, rows i = some row ∧ j ∈ columns row

def Inherits (rows : Rows α) (started : List (Fin n × Candidate)) (i j : Nat) : Prop :=
  Contains rows i j ∨ ∃ m ∈ started, i ∈ m.2.ind ∧ ∃ k ∈ m.2.ind, Contains rows k j

theorem Inherits.cons {rows : Rows α} {started : List (Fin n × Candidate)} {i j : Nat}
    (inherits : Inherits rows started i j) (m : Fin n × Candidate) :
    Inherits rows (m :: started) i j := by
  rcases inherits with own | ⟨m', member, inside, k, hk, source⟩
  · exact .inl own
  · exact .inr ⟨m', List.mem_cons_of_mem _ member, inside, k, hk, source⟩

structure Confined (rows : Rows α) (s : ApplyState α n) : Prop where
  stored : ∀ i j, Contains s.rows i j → Inherits rows s.started i j
  building : ∀ t c w todo, s.pc t = .exec c (some w) todo → ∀ row, w.result = some row →
    ∀ j ∈ columns row, ∃ k ∈ c.ind, Contains rows k j

theorem Confined.init (rows : Rows α) (wt : Nat → Nat) (L : List Candidate) :
    Confined rows (ApplyState.init n rows wt L) :=
  ⟨fun _ _ contains => .inl contains, by simp [ApplyState.init]⟩

theorem Confined.row {rows : Rows α} {s : ApplyState α n} (inv : Confined rows s)
    (reserved : Reserved s) {t : Fin n} {c : Candidate} (entered : (t, c) ∈ s.started) {i j : Nat}
    (inside : i ∈ c.ind) (contains : Contains s.rows i j) : ∃ k ∈ c.ind, Contains rows k j := by
  rcases inv.stored i j contains with own | ⟨m, member, inside', k, hk, source⟩
  · exact ⟨i, inside, own⟩
  · by_cases same : m = (t, c)
    · subst same
      exact ⟨k, hk, source⟩
    · exact absurd inside (reserved.disjoint member entered same inside')

theorem Confined.keep {rows : Rows α} {s s' : ApplyState α n} (inv : Confined rows s)
    {t : Fin n} {pc : Pc α} (now : s'.rows = s.rows) (started : s'.started = s.started)
    (pcs : s'.pc = Function.update s.pc t pc)
    (own : ∀ c w todo, pc = .exec c (some w) todo → ∀ row, w.result = some row →
      ∀ j ∈ columns row, ∃ k ∈ c.ind, Contains rows k j) : Confined rows s' := by
  refine ⟨fun i j contains => started ▸ inv.stored i j (now ▸ contains), ?_⟩
  intro u c w todo at_
  by_cases same : u = t
  · subst same
    exact own c w todo (by simpa [pcs] using at_)
  · exact inv.building u c w todo (by simpa [pcs, same] using at_)

theorem Confined.enter {rows : Rows α} {s : ApplyState α n} (inv : Confined rows s) (t : Fin n)
    (c : Candidate) : Confined rows (s.enter t c) := by
  refine ⟨fun i j contains => (inv.stored i j contains).cons _, ?_⟩
  intro u c' w todo at_
  by_cases same : u = t
  · subst same
    simp [ApplyState.enter] at at_
  · exact inv.building u c' w todo (by simpa [ApplyState.enter, same] using at_)

theorem Confined.begin {rows : Rows α} {s : ApplyState α n} (inv : Confined rows s)
    (reserved : Reserved s) {t : Fin n} {c : Candidate} (entered : (t, c) ∈ s.started)
    {instr : RowInstr} {w : Transit α} (within : ∀ i ∈ instr.touched, i ∈ c.ind)
    (start : instr.begin c.pivot s.rows = some w) {row : List α} (result : w.result = some row)
    {j : Nat} (member : j ∈ columns row) : ∃ k ∈ c.ind, Contains rows k j := by
  cases instr with
  | add i1 i2 =>
    obtain ⟨r1, hr1, start⟩ := Option.bind_eq_some_iff.mp start
    obtain ⟨r2, hr2, start⟩ := Option.bind_eq_some_iff.mp start
    obtain ⟨sum, added, rfl⟩ := Option.map_eq_some_iff.mp start
    cases result
    rcases addRow_columns added member with left | right
    · exact inv.row reserved entered (within i1 (by simp [RowInstr.touched])) ⟨r1, hr1, left⟩
    · exact inv.row reserved entered (within i2 (by simp [RowInstr.touched])) ⟨r2, hr2, right⟩
  | report ops => cases start
  | remove i =>
    obtain ⟨old, _, rfl⟩ := Option.map_eq_some_iff.mp start
    cases result

structure FromList (L : List Candidate) (s : ApplyState α n) : Prop where
  pending : ∀ c ∈ s.pending, c ∈ L
  taken : ∀ t, ∀ c ∈ (s.pc t).candidate?, c ∈ L
  started : ∀ m ∈ s.started, m.2 ∈ L

omit [Typerow α] in
theorem FromList.keep {s s' : ApplyState α n} {L : List Candidate} (inv : FromList L s) {t : Fin n} {pc : Pc α}
    (pending : ∀ c ∈ s'.pending, c ∈ s.pending) (pcs : s'.pc = Function.update s.pc t pc)
    (own : ∀ c ∈ pc.candidate?, c ∈ L)
    (started : ∀ m ∈ s'.started, m ∈ s.started ∨ m.2 ∈ L) : FromList L s' := by
  refine ⟨fun c member => inv.pending c (pending c member), fun u c member => ?_, fun m member => ?_⟩
  · by_cases same : u = t
    · subst same
      exact own c (by simpa [pcs] using member)
    · exact inv.taken u c (by simpa [pcs, same] using member)
  · exact (started m member).elim (inv.started m) id

structure PassInv (rows : Rows α) (L : List Candidate) (s : ApplyState α n) : Prop where
  reserved : Reserved s
  outcome : Outcome rows s
  confined : Confined rows s
  fromList : FromList L s

theorem PassInv.init (rows : Rows α) (wt : Nat → Nat) (L : List Candidate) :
    PassInv rows L (ApplyState.init n rows wt L) where
  reserved := .init rows wt L
  outcome := .init rows wt L
  confined := .init rows wt L
  fromList := ⟨fun _ => id, by simp [ApplyState.init, Pc.candidate?], by simp [ApplyState.init]⟩

variable [NeZero n] {label : Nat → Option Index} {L : List Candidate}

theorem Outcome.move {rows : Rows α} {s s' : ApplyState α n} {a : Act n}
    (inv : Outcome rows s) (reserved : Reserved s) (move : Move label L s a s') :
    Outcome rows s' := by
  cases move with
  | take parallel idle next => exact inv.outside rfl rfl rfl (by simp [idle, Pc.running]) rfl
  | @quiet t pc change =>
    cases at_ : s.pc t with
    | exec c cur todo =>
      rw [at_] at change
      have effect := at_ ▸ inv.effect _ (reserved.entered t c cur todo at_)
      obtain ⟨effect, own⟩ := change.exec effect
      exact inv.inside reserved at_ rfl rfl (fun _ _ => rfl) own effect
    | idle | early c k | reserve c k =>
      have stopped := change.reserved.2.1
      exact inv.outside rfl rfl rfl (by simp [at_, Pc.running])
        (by rw [stopped, at_]; rfl)
  | reserve at_ next free => exact inv.outside rfl rfl rfl (by simp [at_, Pc.running]) rfl
  | enter at_ all =>
    exact (inv.enter (reserved.entering at_ all) (by simp [at_, Pc.running])).1
  | @report t c ops todo at_ =>
    obtain ⟨within, writes, expected⟩ := inv.running reserved at_
    refine inv.inside reserved at_ rfl rfl (fun _ _ => rfl) (by simp) ?_
    exact .running (fun i hi => within i (.tail _ hi)) writes
      (by simpa [withCurrent, RowInstr.exec, ApplyState.bufferAdd] using expected)
  | @update t c row result op ops todo at_ =>
    obtain ⟨within, writes, expected⟩ := inv.running reserved at_
    refine inv.inside reserved at_ rfl rfl (fun _ _ => rfl) (by simp) ?_
    exact .running within (by simpa using writes) expected
  | @store t c row result tested todo at_ =>
    obtain ⟨within, writes, expected⟩ := inv.running reserved at_
    have inside : row ∈ c.ind := writes _ rfl
    refine inv.inside reserved at_ rfl rfl (fun i hi => ?_) (by simp)
      (.running within (by simp) expected)
    exact Function.update_of_ne (fun eq : i = row => hi (eq ▸ inside)) _ _
  | @finish t c at_ =>
    obtain ⟨within, writes, expected⟩ := inv.running reserved at_
    refine inv.inside reserved at_ rfl rfl (fun _ _ => rfl) (by simp) ?_
    cases final : execRows c.pivot rows (mergeDo rows c) with
    | none => simp [final, withCurrent] at expected
    | some after =>
      rw [final] at expected
      cases expected with
      | some agree => exact .done (by simp) final agree
  | join parallel empty idle enough => exact ⟨inv.untouched, inv.effect⟩
  | fallback parallel empty idle zero first =>
    have joined : Outcome rows { s with serial := true } := ⟨inv.untouched, inv.effect⟩
    refine (joined.enter ?_ (by simp [Pc.isIdle_iff.mp (idle 0), Pc.running])).1
    simp [reserved.started_nil idle zero]

theorem Confined.move {rows : Rows α} {s s' : ApplyState α n} {a : Act n}
    (inv : Confined rows s) (reserved : Reserved s) (outcome : Outcome rows s)
    (move : Move label L s a s') : Confined rows s' := by
  cases move with
  | take parallel idle next => exact inv.keep rfl rfl rfl (by simp)
  | @quiet t pc change =>
    refine inv.keep rfl rfl rfl ?_
    intro c w todo after
    subst after
    cases at_ : s.pc t with
    | idle | early c k | reserve c k =>
      rw [at_] at change
      cases change
    | exec c' cur todo' =>
      rw [at_] at change
      have entered := reserved.entered t c' cur todo' at_
      obtain ⟨within, writes, expected⟩ := outcome.running reserved at_
      have old := fun w (h : cur = some w) => inv.building t c' w todo' (h ▸ at_)
      clear at_
      cases change with
      | begin start =>
        intro row result j member
        exact inv.begin reserved entered (within _ (by simp)) start result member
      | test low => exact fun row result => old _ rfl row result
      | skip saturated => exact fun row result => old _ rfl row result
  | reserve at_ next free => exact inv.keep rfl rfl rfl (by simp)
  | @enter t c k at_ all => exact inv.enter t c
  | report at_ => exact inv.keep rfl rfl rfl (by simp)
  | @update t c row result op ops todo at_ =>
    refine inv.keep rfl rfl rfl ?_
    rintro c' w todo' ⟨⟩
    exact fun row' value => inv.building t c ⟨row, result, op :: ops, true⟩ todo at_ row' value
  | @store t c i result tested todo at_ =>
    have entered := reserved.entered t c _ todo at_
    have inside : i ∈ c.ind := (outcome.running reserved at_).2.1 _ rfl
    have others : Confined rows (s.setPc t (.exec c none todo)) := inv.keep rfl rfl rfl (by simp)
    refine ⟨fun k j contains => ?_, others.building⟩
    by_cases same : k = i
    · subst same
      obtain ⟨row, value, member⟩ := contains
      have result : result = some row := by simpa using value
      exact .inr ⟨_, entered, inside, inv.building t c _ todo at_ row result j member⟩
    · exact inv.stored k j (by simpa [Contains, same] using contains)
  | finish at_ => exact inv.keep rfl rfl rfl (by simp)
  | join parallel empty idle enough => exact ⟨inv.stored, inv.building⟩
  | @fallback c rest parallel empty idle zero first =>
    have joined : Confined rows { s with serial := true } := ⟨inv.stored, inv.building⟩
    exact joined.enter 0 c

theorem FromList.move {s s' : ApplyState α n} {a : Act n} (inv : FromList L s)
    (move : Move label L s a s') : FromList L s' := by
  cases move with
  | take parallel idle next =>
    refine inv.keep (fun c => List.mem_of_mem_eraseIdx) rfl ?_ fun _ => .inl
    rintro c ⟨⟩
    exact inv.pending _ (List.mem_of_getElem? next)
  | @quiet t pc change =>
    have old := inv.taken t
    refine inv.keep (fun _ => id) rfl ?_ fun _ => .inl
    generalize s.pc t = before at change old
    cases change <;> simp_all [Pc.candidate?]
  | @reserve t c k i at_ next free =>
    exact inv.keep (fun _ => id) rfl (at_ ▸ inv.taken t :) fun _ => .inl
  | @enter t c k at_ all =>
    have own : c ∈ L := inv.taken t c (by simp [at_, Pc.candidate?])
    refine inv.keep (fun _ => id) rfl (by simpa [Pc.candidate?] using own) fun m member => ?_
    rcases List.mem_cons.mp member with rfl | old
    · exact .inr own
    · exact .inl old
  | @report t c ops todo at_ =>
    exact inv.keep (fun _ => id) rfl (at_ ▸ inv.taken t :) fun _ => .inl
  | @update t c row result op ops todo at_ =>
    exact inv.keep (fun _ => id) rfl (at_ ▸ inv.taken t :) fun _ => .inl
  | @store t c row result tested todo at_ =>
    exact inv.keep (fun _ => id) rfl (at_ ▸ inv.taken t :) fun _ => .inl
  | finish at_ => exact inv.keep (fun _ => id) rfl (by simp [Pc.candidate?]) fun _ => .inl
  | join parallel empty idle enough => exact ⟨inv.pending, inv.taken, inv.started⟩
  | @fallback c rest parallel empty idle zero first =>
    have own : c ∈ L := by simp [first]
    refine inv.keep (fun _ => id) rfl (by simpa [Pc.candidate?] using own) fun m member => ?_
    rcases List.mem_cons.mp member with rfl | old
    · exact .inr own
    · exact .inl old

/-! ## Every reachable state -/

theorem PassInv.move {rows : Rows α} {s s' : ApplyState α n} {a : Act n} (inv : PassInv rows L s)
    (move : Move label L s a s') : PassInv rows L s' where
  reserved := inv.reserved.move move
  outcome := inv.outcome.move inv.reserved move
  confined := inv.confined.move inv.reserved inv.outcome move
  fromList := inv.fromList.move move

theorem Reach.passInv {rows : Rows α} {wt : Nat → Nat} {Q : ApplyState α n → Act n → Bool}
    {s : ApplyState α n} (reach : Reach label L Q (.init n rows wt L) s) : PassInv rows L s := by
  induction reach with
  | start => exact .init rows wt L
  | step _ _ run ih => exact ih.move (step_move run)

end CadoNfs.Filter

/-!
# Safety and progress of a pass

The merges executed in a pass are row-disjoint and find the transposed matrix still valid, a pass
always ends, and it executes at least one merge when it has a candidate.
-/

namespace CadoNfs.Filter
open Lib Typerow

variable {α : Type} {n : Nat}

-- The phase of a thread, the instructions left and the updates left.
def Pc.rank : Pc α → ℕ ×ₗ ℕ ×ₗ ℕ
  | idle => toLex (0, toLex (0, 0))
  | exec _ none todo => toLex (1, toLex (2 * todo.length, 0))
  | exec _ (some cur) todo =>
      toLex (1, toLex (2 * todo.length + 1, 2 * cur.ops.length + if cur.tested then 0 else 1))
  | reserve c k => toLex (2, toLex (c.ind.length - k, 0))
  | early c k => toLex (3, toLex (c.ind.length - k, 0))

def ApplyState.rank (s : ApplyState α n) : ℕ ×ₗ ℕ ×ₗ (Fin n → ℕ ×ₗ ℕ ×ₗ ℕ) :=
  toLex (if s.serial then 0 else 1, toLex (s.pending.length, fun t => (s.pc t).rank))

theorem ApplyState.rank_lt {s s' : ApplyState α n} {t : Fin n} {pc : Pc α}
    (serial : s'.serial = s.serial) (pending : s'.pending = s.pending)
    (pcs : s'.pc = Function.update s.pc t pc) (less : pc.rank < (s.pc t).rank) :
    s'.rank < s.rank := by
  have threads : (fun u => (s'.pc u).rank) =
      Function.update (fun u => (s.pc u).rank) t pc.rank := by
    funext u
    rw [pcs]
    exact Function.apply_update (fun _ => Pc.rank) s.pc t pc u
  have lower : (fun u => (s'.pc u).rank) < fun u => (s.pc u).rank := by
    rw [threads]
    exact update_lt_self_iff.mpr less
  unfold ApplyState.rank
  rw [serial, pending]
  exact Prod.Lex.toLex_lt_toLex.mpr (.inr ⟨rfl, Prod.Lex.toLex_lt_toLex.mpr (.inr ⟨rfl, lower⟩)⟩)

variable [Typerow α]

theorem Quiet.rank_lt {s : ApplyState α n} {before after : Pc α} (change : Quiet s before after) :
    after.rank < before.rank := by
  cases change with
  | looked left =>
    simp only [Pc.rank, Prod.Lex.toLex_lt_toLex, lt_self_iff_false, true_and, false_or]
    omega
  | discarded | available | blocked => simp [Pc.rank, Prod.Lex.toLex_lt_toLex]
  | begin start =>
    simp only [Pc.rank, Prod.Lex.toLex_lt_toLex, lt_self_iff_false, true_and, false_or,
      List.length_cons]
    omega
  | test low | skip saturated => simp [Pc.rank, Prod.Lex.toLex_lt_toLex]

variable [NeZero n] {label : Nat → Option Index} {L : List Candidate}

theorem Move.rank_lt {s s' : ApplyState α n} {a : Act n} (move : Move label L s a s') :
    s'.rank < s.rank := by
  cases move with
  | @take t it c parallel idle next =>
    have inside := (List.getElem?_eq_some_iff.mp next).1
    have shorter : (s.pending.eraseIdx it).length < s.pending.length := by
      rw [List.length_eraseIdx_of_lt inside]
      omega
    exact Prod.Lex.toLex_lt_toLex.mpr (.inr ⟨rfl, Prod.Lex.toLex_lt_toLex.mpr (.inl shorter)⟩)
  | quiet change => exact s.rank_lt rfl rfl rfl change.rank_lt
  | reserve at_ next free =>
    have inside := (List.getElem?_eq_some_iff.mp next).1
    refine s.rank_lt rfl rfl rfl ?_
    simp only [at_, Pc.rank, Prod.Lex.toLex_lt_toLex, lt_self_iff_false, true_and, false_or]
    omega
  | enter at_ all =>
    exact s.rank_lt rfl rfl rfl (by simp [at_, Pc.rank, Prod.Lex.toLex_lt_toLex])
  | report at_ =>
    exact s.rank_lt rfl rfl rfl (by simp [at_, Pc.rank, Prod.Lex.toLex_lt_toLex])
  | update at_ =>
    exact s.rank_lt rfl rfl rfl (by simp [at_, Pc.rank, Prod.Lex.toLex_lt_toLex]; omega)
  | store at_ =>
    exact s.rank_lt rfl rfl rfl (by simp [at_, Pc.rank, Prod.Lex.toLex_lt_toLex])
  | finish at_ =>
    exact s.rank_lt rfl rfl rfl (by simp [at_, Pc.rank, Prod.Lex.toLex_lt_toLex])
  | join parallel empty idle enough =>
    exact Prod.Lex.toLex_lt_toLex.mpr (.inl (by simp [parallel]))
  | fallback parallel empty idle zero first =>
    exact Prod.Lex.toLex_lt_toLex.mpr (.inl (by simp [parallel, ApplyState.enter]))

theorem step_wellFounded (label : Nat → Option Index) (L : List Candidate) :
    WellFounded fun s' s : ApplyState α n => ∃ a, s.step label L a = some s' :=
  Subrelation.wf (fun ⟨_, run⟩ => (step_move run).rank_lt) (InvImage.wf ApplyState.rank wellFounded_lt)

/-! ## A pass is never blocked -/

-- A merge whose own additions stop the program (`check_exponent`) stops the pass.
theorem PassInv.progress {rows : Rows α} {s : ApplyState α n} (inv : PassInv rows L s) :
    (∃ a s', s.step label L a = some s') ∨ s.finished ∨
      ∃ m ∈ s.started, execRows m.2.pivot rows (mergeDo rows m.2) = none := by
  by_cases idle : s.allIdle
  · by_cases serial : s.serial
    · exact .inr (.inl ⟨serial, idle⟩)
    · left
      rw [Bool.not_eq_true] at serial
      cases pending : s.pending with
      | nil =>
        refine ⟨.join, ?_⟩
        simp only [ApplyState.step, serial, pending, idle, and_self, if_true]
        cases (if s.nmerges = 0 then L else []) <;> exact ⟨_, rfl⟩
      | cons c rest =>
        refine ⟨.take 0 0, ?_⟩
        simp [ApplyState.step, serial, idle 0, pending]
  · obtain ⟨t, busy⟩ := not_forall.mp idle
    cases at_ : s.pc t with
    | idle => simp [at_, Pc.isIdle] at busy
    | early c k =>
      refine .inl ⟨.run t, ?_⟩
      cases next : c.ind[k]? <;> simp [ApplyState.step, ApplyState.threadStep, at_, next]
    | reserve c k =>
      refine .inl ⟨.run t, ?_⟩
      cases next : c.ind[k]? <;> simp [ApplyState.step, ApplyState.threadStep, at_, next]
    | exec c cur todo =>
      have run : s.step label L (.run t) = s.execStep label t c cur todo := by
        simp [ApplyState.step, ApplyState.threadStep, at_]
      have entered := inv.reserved.entered t c cur todo at_
      obtain ⟨within, writes, expected⟩ := inv.outcome.running inv.reserved at_
      cases cur with
      | some cur => exact .inl ⟨.run t, _, run⟩
      | none =>
        cases todo with
        | nil => exact .inl ⟨.run t, _, run⟩
        | cons instr todo =>
          cases start : instr.begin c.pivot s.rows with
          | some cur =>
            have other := (begin_exec start).2.2.2
            cases instr with
            | report ops => exact absurd rfl (other ops)
            | add i1 i2 | remove i =>
              exact .inl ⟨.run t, _, run.trans (by simp [ApplyState.execStep, start]; rfl)⟩
          | none =>
            cases instr with
            | report ops => exact .inl ⟨.run t, _, run⟩
            | add i1 i2 | remove i =>
              refine .inr (.inr ⟨_, entered, ?_⟩)
              have failed := execRows_stuck todo start (by simp)
              simp only [withCurrent] at expected
              rw [failed] at expected
              cases final : execRows c.pivot rows (mergeDo rows c) with
              | none => rfl
              | some after => simp [final] at expected

/-! ## The merges of a pass -/

def Exact (rows : Rows α) (c : Candidate) : Prop :=
  c.ind.Nodup ∧ ∀ i, i ∈ c.ind ↔ Contains rows i c.pivot

theorem Move.entering {rows : Rows α} {s s' : ApplyState α n} {a : Act n} {t : Fin n}
    {c : Candidate} (inv : PassInv rows L s) (move : Move label L s a s')
    (entered : s'.started = (t, c) :: s.started) :
    c ∈ L ∧ (∀ m ∈ s.started, c.ind.Disjoint m.2.ind) ∧ AgreeOn c.ind s.rows rows := by
  have listed : c ∈ L := (inv.move move).fromList.started (t, c) (by simp [entered])
  have outside : ∀ m ∈ s.started, c.ind.Disjoint m.2.ind := by
    have apart := (inv.reserved.move move).startedApart
    rw [entered, List.pairwise_cons] at apart
    exact apart.1
  exact ⟨listed, outside,
    fun i member => inv.outcome.untouched i fun m hm hi => outside m hm member hi⟩

omit [NeZero n] in
theorem Exact.entering {rows : Rows α} {s : ApplyState α n} {c : Candidate}
    (inv : PassInv rows L s) (exact : Exact rows c)
    (outside : ∀ m ∈ s.started, c.ind.Disjoint m.2.ind) (fresh : AgreeOn c.ind s.rows rows) :
    Exact s.rows c := by
  refine ⟨exact.1, fun i => ⟨fun member => ?_, fun contains => ?_⟩⟩
  · obtain ⟨row, value, pivot⟩ := (exact.2 i).mp member
    exact ⟨row, (fresh i member).trans value, pivot⟩
  · rcases inv.confined.stored i c.pivot contains with own | ⟨m, hm, inside, k, hk, source⟩
    · exact (exact.2 i).mpr own
    · exact absurd hk (outside m hm ((exact.2 k).mpr source))

omit [Typerow α] [NeZero n] in
theorem ApplyState.finished.nmerges {s : ApplyState α n} (done : s.finished)
    (inv : Reserved s) : s.nmerges = s.started.length := by
  have count := inv.count
  rwa [done.2.running, Nat.add_zero] at count

theorem Move.started_ne_nil {s s' : ApplyState α n} {a : Act n} (move : Move label L s a s')
    (inv : Reserved s) (old : s.serial = true → L ≠ [] → s.started ≠ [])
    (serial : s'.serial = true) (nonempty : L ≠ []) : s'.started ≠ [] := by
  cases move with
  | join parallel empty idle enough =>
    intro none
    have count := inv.count
    rw [idle.running, none] at count
    exact enough.elim (fun ne => ne count) nonempty
  | fallback parallel empty idle zero first => simp [ApplyState.enter]
  | enter at_ all => simp [ApplyState.enter]
  | take | quiet | reserve | report | update | store | finish => exact old serial nonempty

theorem Reach.started_ne_nil {rows : Rows α} {wt : Nat → Nat} {Q : ApplyState α n → Act n → Bool}
    {s : ApplyState α n} (reach : Reach label L Q (.init n rows wt L) s)
    (serial : s.serial = true) (nonempty : L ≠ []) : s.started ≠ [] := by
  induction reach with
  | start => simp [ApplyState.init] at serial
  | step before _ run ih =>
    exact (step_move run).started_ne_nil before.passInv.reserved (fun h _ => ih h) serial nonempty

/-- In every order of steps the merges executed have disjoint rows, and each has the effect of `merge_do` on the
rows that `compute_R` saw. A pass ends, and executes a candidate if there is one, unless a merge stops the
program. -/
theorem applyMerges_correct {rows : Rows α} {wt : Nat → Nat} {Q : ApplyState α n → Act n → Bool}
    {s : ApplyState α n} (reach : Reach label L Q (.init n rows wt L) s) :
    s.started.Pairwise (fun m m' => m.2.ind.Disjoint m'.2.ind) ∧
    (∀ a s' t c, s.step label L a = some s' → s'.started = (t, c) :: s.started →
      c ∈ L ∧ AgreeOn c.ind s.rows rows ∧ ((∀ c' ∈ L, Exact rows c') → Exact s.rows c)) ∧
    (s.finished → s.nmerges = s.started.length ∧ (L ≠ [] → 1 ≤ s.nmerges) ∧
      ∀ m ∈ s.started, ∃ final, execRows m.2.pivot rows (mergeDo rows m.2) = some final ∧
        AgreeOn m.2.ind s.rows final) ∧
    ((∃ a s', s.step label L a = some s') ∨ s.finished ∨
      ∃ m ∈ s.started, execRows m.2.pivot rows (mergeDo rows m.2) = none) ∧
    Acc (fun s' s => ∃ a, s.step label L a = some s') s := by
  have inv := reach.passInv
  refine ⟨inv.reserved.startedApart, ?_, ?_, inv.progress, (step_wellFounded label L).apply s⟩
  · intro a s' t c run entered
    obtain ⟨listed, outside, fresh⟩ := (step_move run).entering inv entered
    exact ⟨listed, fresh, fun exact => (exact c listed).entering inv outside fresh⟩
  · intro done
    have count := done.nmerges inv.reserved
    refine ⟨count, fun nonempty => ?_, fun m member => ?_⟩
    · rw [count]
      exact List.length_pos_iff.mpr (reach.started_ne_nil done.1 nonempty)
    · have effect := inv.outcome.effect m member
      rw [Pc.isIdle_iff.mp (done.2 m.1)] at effect
      cases effect with
      | done other run agree => exact ⟨_, run, agree⟩

theorem applyMerges_correct_blocked :
    let L : List Candidate := [⟨0, [0, 1], by simp⟩, ⟨1, [1, 0], by simp⟩]
    let rows : Rows Nat := fun i => if i < 2 then some [0, 1] else none
    let acts : List (Act 2) := [.take 0 0, .take 1 0] ++
      [0, 0, 0, 1, 1, 1, 0, 1, 0, 1].map Act.run ++ [.join] ++ List.replicate 14 (.run 0)
    ∃ s, (ApplyState.init 2 rows (fun _ => 2) L).steps (fun _ => none) L (fun _ _ => true) acts = some s ∧
      s.finished ∧ 1 ≤ s.nmerges := by
  intro L rows acts
  have ends : ((ApplyState.init 2 rows (fun _ => 2) L).steps (fun _ => none) L (fun _ _ => true) acts).any
      fun s => decide s.finished := by decide +kernel
  obtain ⟨s, run, finished⟩ := Option.any_eq_true _ _ |>.mp ends
  have done := of_decide_eq_true finished
  exact ⟨s, run, done, ((applyMerges_correct (.steps .start run)).2.2.1 done).2.1 (by simp [L])⟩

end CadoNfs.Filter
