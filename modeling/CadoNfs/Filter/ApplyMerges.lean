import CadoNfs.Filter.MergeDo

/-!
# The threads of a merge pass

`apply_merges` of `filter/merge.cpp` as a machine: each thread takes candidates of `L`, looks at the `busy_rows` of a
candidate, reserves them one by one and then executes `merge_do`.
-/

namespace CadoNfs.Filter
open Lib Typerow

/-- A row being rewritten: `ops` are the updates of `mat->wt` that `add_row` or `remove_row` still
has to make, and `tested` tells that the saturation test of the first one has succeeded. -/
structure Transit (α : Type) where
  row : Nat
  result : Option (List α)
  ops : List WtOp
  tested : Bool

inductive Pc (α : Type)
  | idle
  | early (c : Candidate) (k : Nat)
  | reserve (c : Candidate) (k : Nat)
  | exec (c : Candidate) (cur : Option (Transit α)) (todo : List RowInstr)

structure ApplyState (α : Type) (n : Nat) where
  rows : Rows α
  wt : Nat → Nat
  busyRows : Nat → Bool
  pending : List Candidate
  pc : Fin n → Pc α
  buffers : Fin n → List (List Char)
  nmerges : Nat
  serial : Bool
  started : List (Fin n × Candidate)

inductive Act (n : Nat)
  | take (t : Fin n) (it : Nat)
  | run (t : Fin n)
  | join

variable {α : Type} {n : Nat}

def Pc.isIdle : Pc α → Bool
  | idle => true
  | _ => false

theorem Pc.isIdle_iff {pc : Pc α} : pc.isIdle ↔ pc = .idle := by
  cases pc <;> simp [Pc.isIdle]

namespace ApplyState

def init (n : Nat) (rows : Rows α) (wt : Nat → Nat) (L : List Candidate) : ApplyState α n where
  rows := rows
  wt := wt
  busyRows _ := false
  pending := L
  pc _ := .idle
  buffers _ := []
  nmerges := 0
  serial := false
  started := []

def setPc (s : ApplyState α n) (t : Fin n) (pc : Pc α) : ApplyState α n :=
  { s with pc := Function.update s.pc t pc }

def bufferAdd (s : ApplyState α n) (t : Fin n) (lines : List (List Char)) : ApplyState α n :=
  { s with buffers := Function.update s.buffers t (s.buffers t ++ lines) }

@[simp] theorem setPc_rows (s : ApplyState α n) (t : Fin n) (pc : Pc α) :
    (s.setPc t pc).rows = s.rows := rfl

@[simp] theorem setPc_wt (s : ApplyState α n) (t : Fin n) (pc : Pc α) :
    (s.setPc t pc).wt = s.wt := rfl

@[simp] theorem setPc_busyRows (s : ApplyState α n) (t : Fin n) (pc : Pc α) :
    (s.setPc t pc).busyRows = s.busyRows := rfl

@[simp] theorem setPc_pending (s : ApplyState α n) (t : Fin n) (pc : Pc α) :
    (s.setPc t pc).pending = s.pending := rfl

@[simp] theorem setPc_buffers (s : ApplyState α n) (t : Fin n) (pc : Pc α) :
    (s.setPc t pc).buffers = s.buffers := rfl

@[simp] theorem setPc_nmerges (s : ApplyState α n) (t : Fin n) (pc : Pc α) :
    (s.setPc t pc).nmerges = s.nmerges := rfl

@[simp] theorem setPc_serial (s : ApplyState α n) (t : Fin n) (pc : Pc α) :
    (s.setPc t pc).serial = s.serial := rfl

@[simp] theorem setPc_started (s : ApplyState α n) (t : Fin n) (pc : Pc α) :
    (s.setPc t pc).started = s.started := rfl

@[simp] theorem setPc_pc (s : ApplyState α n) (t : Fin n) (pc : Pc α) :
    (s.setPc t pc).pc = Function.update s.pc t pc := rfl

def allIdle (s : ApplyState α n) : Prop := ∀ t, (s.pc t).isIdle

instance (s : ApplyState α n) : Decidable s.allIdle := inferInstanceAs (Decidable (∀ _, _))

def finished (s : ApplyState α n) : Prop := s.serial ∧ s.allIdle

instance (s : ApplyState α n) : Decidable s.finished := inferInstanceAs (Decidable (_ ∧ _))

end ApplyState

variable [Typerow α]

def RowInstr.begin (j : Nat) (rows : Rows α) : RowInstr → Option (Transit α)
  | add t s =>
      (rows t).bind fun r1 => (rows s).bind fun r2 => (addRow j r1 r2).map fun result =>
        ⟨t, some result.1, result.2, false⟩
  | report _ => none
  | remove i => (rows i).map fun row => ⟨i, none, removeRow row, false⟩

namespace ApplyState

-- `merge_do` looks at the rows of its candidate once, before it changes any of them.
def enter (s : ApplyState α n) (t : Fin n) (c : Candidate) : ApplyState α n :=
  { s with started := (t, c) :: s.started }.setPc t (.exec c none (mergeDo s.rows c))

def writeStep (s : ApplyState α n) (t : Fin n) (c : Candidate) (cur : Transit α)
    (todo : List RowInstr) : ApplyState α n :=
  match cur.ops with
  | [] => { s with rows := Function.update s.rows cur.row cur.result }.setPc t (.exec c none todo)
  | op :: ops =>
      if cur.tested then
        { s with wt := op.update s.wt }.setPc t
          (.exec c (some { cur with ops := ops, tested := false }) todo)
      else if s.wt op.column ≤ mergeLevelMax then
        s.setPc t (.exec c (some { cur with tested := true }) todo)
      else s.setPc t (.exec c (some { cur with ops := ops }) todo)

def execStep (label : Nat → Option Index) (s : ApplyState α n) (t : Fin n) (c : Candidate) :
    Option (Transit α) → List RowInstr → Option (ApplyState α n)
  | some cur, todo => some (s.writeStep t c cur todo)
  | none, [] => some ({ s with nmerges := s.nmerges + 1 }.setPc t .idle)
  | none, .report ops :: todo =>
      some ((s.bufferAdd t (ops.map fun op => op.line (label c.pivot))).setPc t (.exec c none todo))
  | none, instr :: todo =>
      (instr.begin c.pivot s.rows).map fun cur => s.setPc t (.exec c (some cur) todo)

def threadStep (label : Nat → Option Index) (s : ApplyState α n) (t : Fin n) :
    Option (ApplyState α n) :=
  match s.pc t with
  | .idle => none
  | .early c k =>
      match c.ind[k]? with
      | none => some (s.setPc t (.reserve c 0))
      | some i => some (s.setPc t (if s.busyRows i then .idle else .early c (k + 1)))
  | .reserve c k =>
      match c.ind[k]? with
      | none => some (s.enter t c)
      | some i =>
          some ({ s with busyRows := Function.update s.busyRows i true }.setPc t
            (if s.busyRows i then .idle else .reserve c (k + 1)))
  | .exec c cur todo => s.execStep label t c cur todo

variable [NeZero n]

/-- `join` is the end of the parallel section: when no merge was done the first one is applied. -/
def step (label : Nat → Option Index) (L : List Candidate) (s : ApplyState α n) :
    Act n → Option (ApplyState α n)
  | .take t it =>
      if !s.serial && (s.pc t).isIdle then
        s.pending[it]?.map fun c => { s with pending := s.pending.eraseIdx it }.setPc t (.early c 0)
      else none
  | .run t => s.threadStep label t
  | .join =>
      if s.serial = false ∧ s.pending = [] ∧ s.allIdle then
        match if s.nmerges = 0 then L else [] with
        | c :: _ => some ({ s with serial := true }.enter 0 c)
        | [] => some { s with serial := true }
      else none

def steps (label : Nat → Option Index) (L : List Candidate) (Q : ApplyState α n → Act n → Bool)
    (s : ApplyState α n) : List (Act n) → Option (ApplyState α n)
  | [] => some s
  | a :: acts => if Q s a then (s.step label L a).bind fun next => next.steps label L Q acts else none

end ApplyState

inductive Reach [NeZero n] (label : Nat → Option Index) (L : List Candidate)
    (Q : ApplyState α n → Act n → Bool) (first : ApplyState α n) : ApplyState α n → Prop
  | start : Reach label L Q first first
  | step {s s' : ApplyState α n} {a : Act n} : Reach label L Q first s → Q s a →
      s.step label L a = some s' → Reach label L Q first s'

theorem Reach.steps {label : Nat → Option Index} {L : List Candidate} [NeZero n]
    {Q : ApplyState α n → Act n → Bool} {first s s' : ApplyState α n} {acts : List (Act n)}
    (reach : Reach label L Q first s) (run : s.steps label L Q acts = some s') :
    Reach label L Q first s' := by
  induction acts generalizing s with
  | nil =>
    cases run
    exact reach
  | cons a acts ih =>
    simp only [ApplyState.steps] at run
    split_ifs at run with allowed
    obtain ⟨next, one, rest⟩ := Option.bind_eq_some_iff.mp run
    exact ih (reach.step allowed one) rest

/-! ## What a step can do -/

inductive Quiet (s : ApplyState α n) : Pc α → Pc α → Prop
  | looked {c : Candidate} {k : Nat} (left : k < c.ind.length) : Quiet s (.early c k) (.early c (k + 1))
  | discarded {c : Candidate} {k : Nat} : Quiet s (.early c k) .idle
  | available {c : Candidate} {k : Nat} : Quiet s (.early c k) (.reserve c 0)
  | blocked {c : Candidate} {k : Nat} : Quiet s (.reserve c k) .idle
  | begin {c : Candidate} {instr : RowInstr} {todo : List RowInstr} {cur : Transit α}
      (start : instr.begin c.pivot s.rows = some cur) :
      Quiet s (.exec c none (instr :: todo)) (.exec c (some cur) todo)
  | test {c : Candidate} {row : Nat} {result : Option (List α)} {op : WtOp} {ops : List WtOp}
      {todo : List RowInstr} (low : s.wt op.column ≤ mergeLevelMax) :
      Quiet s (.exec c (some ⟨row, result, op :: ops, false⟩) todo)
        (.exec c (some ⟨row, result, op :: ops, true⟩) todo)
  | skip {c : Candidate} {row : Nat} {result : Option (List α)} {op : WtOp} {ops : List WtOp}
      {todo : List RowInstr} (saturated : mergeLevelMax < s.wt op.column) :
      Quiet s (.exec c (some ⟨row, result, op :: ops, false⟩) todo)
        (.exec c (some ⟨row, result, ops, false⟩) todo)

inductive Move (label : Nat → Option Index) (L : List Candidate) [NeZero n] (s : ApplyState α n) :
    Act n → ApplyState α n → Prop
  | take {t : Fin n} {it : Nat} {c : Candidate} (parallel : s.serial = false) (idle : s.pc t = .idle)
      (next : s.pending[it]? = some c) :
      Move label L s (.take t it)
        ({ s with pending := s.pending.eraseIdx it }.setPc t (.early c 0))
  | quiet {t : Fin n} {pc : Pc α} (change : Quiet s (s.pc t) pc) :
      Move label L s (.run t) (s.setPc t pc)
  | reserve {t : Fin n} {c : Candidate} {k i : Nat} (at_ : s.pc t = .reserve c k)
      (next : c.ind[k]? = some i) (free : s.busyRows i = false) :
      Move label L s (.run t)
        ({ s with busyRows := Function.update s.busyRows i true }.setPc t (.reserve c (k + 1)))
  | enter {t : Fin n} {c : Candidate} {k : Nat} (at_ : s.pc t = .reserve c k)
      (all : c.ind.length ≤ k) : Move label L s (.run t) (s.enter t c)
  | report {t : Fin n} {c : Candidate} {ops : List RowOp} {todo : List RowInstr}
      (at_ : s.pc t = .exec c none (.report ops :: todo)) :
      Move label L s (.run t)
        ((s.bufferAdd t (ops.map fun op => op.line (label c.pivot))).setPc t (.exec c none todo))
  | update {t : Fin n} {c : Candidate} {row : Nat} {result : Option (List α)} {op : WtOp}
      {ops : List WtOp} {todo : List RowInstr}
      (at_ : s.pc t = .exec c (some ⟨row, result, op :: ops, true⟩) todo) :
      Move label L s (.run t)
        ({ s with wt := op.update s.wt }.setPc t (.exec c (some ⟨row, result, ops, false⟩) todo))
  | store {t : Fin n} {c : Candidate} {row : Nat} {result : Option (List α)} {tested : Bool}
      {todo : List RowInstr} (at_ : s.pc t = .exec c (some ⟨row, result, [], tested⟩) todo) :
      Move label L s (.run t)
        ({ s with rows := Function.update s.rows row result }.setPc t (.exec c none todo))
  | finish {t : Fin n} {c : Candidate} (at_ : s.pc t = .exec c none []) :
      Move label L s (.run t) ({ s with nmerges := s.nmerges + 1 }.setPc t .idle)
  | join (parallel : s.serial = false) (empty : s.pending = []) (idle : s.allIdle)
      (enough : s.nmerges ≠ 0 ∨ L = []) : Move label L s .join { s with serial := true }
  | fallback {c : Candidate} {rest : List Candidate} (parallel : s.serial = false)
      (empty : s.pending = []) (idle : s.allIdle) (zero : s.nmerges = 0) (first : L = c :: rest) :
      Move label L s .join ({ s with serial := true }.enter 0 c)

theorem execStep_move {label : Nat → Option Index} {L : List Candidate} [NeZero n]
    {s s' : ApplyState α n} {t : Fin n} {c : Candidate} {cur : Option (Transit α)}
    {todo : List RowInstr} (at_ : s.pc t = .exec c cur todo)
    (run : s.execStep label t c cur todo = some s') : Move label L s (.run t) s' := by
  cases cur with
  | some cur =>
    obtain ⟨row, result, ops, tested⟩ := cur
    cases run
    cases ops with
    | nil => exact .store at_
    | cons op ops =>
      cases tested with
      | true => exact .update at_
      | false =>
        by_cases low : s.wt op.column ≤ mergeLevelMax
        · simpa [ApplyState.writeStep, low] using Move.quiet (at_ ▸ .test low)
        · simpa [ApplyState.writeStep, low] using Move.quiet (at_ ▸ .skip (not_le.mp low))
  | none =>
    cases todo with
    | nil =>
      cases run
      exact .finish at_
    | cons instr todo =>
      cases instr with
      | report ops =>
        cases run
        exact .report at_
      | add i1 i2 | remove i =>
        obtain ⟨cur, start, rfl⟩ := Option.map_eq_some_iff.mp run
        exact .quiet (at_ ▸ .begin start)

theorem step_move {label : Nat → Option Index} {L : List Candidate} [NeZero n]
    {s s' : ApplyState α n} {a : Act n} (run : s.step label L a = some s') :
    Move label L s a s' := by
  cases a with
  | take t it =>
    simp only [ApplyState.step] at run
    split_ifs at run with guard
    obtain ⟨c, next, rfl⟩ := Option.map_eq_some_iff.mp run
    simp only [Bool.and_eq_true, Bool.not_eq_true', Pc.isIdle_iff] at guard
    exact .take guard.1 guard.2 next
  | run t =>
    simp only [ApplyState.step, ApplyState.threadStep] at run
    cases at_ : s.pc t with
    | idle => simp [at_] at run
    | early c k =>
      rw [at_] at run
      cases next : c.ind[k]? with
      | none =>
        simp only [next, Option.some.injEq] at run
        exact run ▸ .quiet (at_ ▸ .available)
      | some i =>
        have left := (List.getElem?_eq_some_iff.mp next).1
        simp only [next, Option.some.injEq] at run
        cases busy : s.busyRows i with
        | true =>
          rw [busy, if_pos rfl] at run
          exact run ▸ .quiet (at_ ▸ .discarded)
        | false =>
          rw [busy, if_neg (by simp)] at run
          exact run ▸ .quiet (at_ ▸ .looked left)
    | reserve c k =>
      rw [at_] at run
      cases next : c.ind[k]? with
      | none =>
        simp only [next, Option.some.injEq] at run
        exact run ▸ .enter at_ (List.getElem?_eq_none_iff.mp next)
      | some i =>
        simp only [next, Option.some.injEq] at run
        cases busy : s.busyRows i with
        | true =>
          have same : Function.update s.busyRows i true = s.busyRows := by rw [← busy]; simp
          rw [busy, same, if_pos rfl] at run
          exact run ▸ .quiet (at_ ▸ .blocked)
        | false =>
          rw [busy, if_neg (by simp)] at run
          exact run ▸ .reserve at_ next busy
    | exec c cur todo =>
      rw [at_] at run
      exact execStep_move at_ run
  | join =>
    simp only [ApplyState.step] at run
    split_ifs at run with guard zero
    · obtain ⟨parallel, empty, idle⟩ := guard
      cases L with
      | nil =>
        cases run
        exact .join parallel empty idle (.inr rfl)
      | cons c rest =>
        cases run
        exact .fallback parallel empty idle zero rfl
    · obtain ⟨parallel, empty, idle⟩ := guard
      cases run
      exact .join parallel empty idle (.inl zero)

end CadoNfs.Filter

/-!
# Reservations

Two merges of a pass never share a row: a thread that has reserved the rows of its candidate is
the only one that changes them, although a reservation that fails is never released.
-/

namespace CadoNfs.Filter
open Lib Typerow

variable {α : Type} {n : Nat}

namespace Pc

-- The rows a thread has reserved without executing its merge yet.
def reserved : Pc α → List Nat
  | reserve c k => c.ind.take k
  | _ => []

def reserving : Pc α → Bool
  | early _ _ | reserve _ _ => true
  | _ => false

def running : Pc α → Nat
  | exec _ _ _ => 1
  | _ => 0

def candidate? : Pc α → Option Candidate
  | idle => none
  | early c _ | reserve c _ | exec c _ _ => some c

end Pc

theorem sum_pc_update (f : Pc α → Nat) (pc : Fin n → Pc α) (t : Fin n) (new : Pc α) :
    (∑ u, f (Function.update pc t new u)) + f (pc t) = (∑ u, f (pc u)) + f new := by
  have others : ∑ u ∈ Finset.univ.erase t, f (Function.update pc t new u) =
      ∑ u ∈ Finset.univ.erase t, f (pc u) :=
    Finset.sum_congr rfl fun u member => by
      rw [Function.update_of_ne (Finset.ne_of_mem_erase member)]
  rw [← Finset.add_sum_erase _ _ (Finset.mem_univ t), others,
    ← Finset.add_sum_erase (a := t) _ (fun u => f (pc u)) (Finset.mem_univ t)]
  simp only [Function.update_self]
  omega

structure Reserved (s : ApplyState α n) : Prop where
  apart : ∀ t u, t ≠ u → (s.pc t).reserved.Disjoint (s.pc u).reserved
  startedApart : s.started.Pairwise fun m m' => m.2.ind.Disjoint m'.2.ind
  reservedStarted : ∀ t, ∀ m ∈ s.started, (s.pc t).reserved.Disjoint m.2.ind
  busyReserved : s.serial = false → ∀ t, ∀ i ∈ (s.pc t).reserved, s.busyRows i
  busyStarted : s.serial = false → ∀ m ∈ s.started, ∀ i ∈ m.2.ind, s.busyRows i
  serial : s.serial = true → ∀ t, (s.pc t).reserving = false
  entered : ∀ t c cur todo, s.pc t = .exec c cur todo → (t, c) ∈ s.started
  count : s.nmerges + ∑ t, (s.pc t).running = s.started.length

theorem Reserved.init (rows : Rows α) (wt : Nat → Nat) (L : List Candidate) :
    Reserved (ApplyState.init n rows wt L) where
  apart := by simp [ApplyState.init, Pc.reserved]
  startedApart := .nil
  reservedStarted := by simp [ApplyState.init]
  busyReserved := by simp [ApplyState.init, Pc.reserved]
  busyStarted := by simp [ApplyState.init]
  serial := by simp [ApplyState.init]
  entered := by simp [ApplyState.init]
  count := by simp [ApplyState.init, Pc.running]

theorem Reserved.release {s s' : ApplyState α n} (inv : Reserved s) {t : Fin n} {pc : Pc α}
    (started : s'.started = s.started) (serial : s'.serial = s.serial)
    (busy : s'.busyRows = s.busyRows) (pcs : s'.pc = Function.update s.pc t pc)
    (free : pc.reserved = []) (quiet : s.serial = true → pc.reserving = false)
    (entered : ∀ c cur todo, pc = .exec c cur todo → (t, c) ∈ s.started)
    (count : s'.nmerges + pc.running = s.nmerges + (s.pc t).running) : Reserved s' := by
  have reserved (u : Fin n) : (s'.pc u).reserved = [] ∨ (s'.pc u).reserved = (s.pc u).reserved := by
    by_cases same : u = t
    · subst same
      simp [pcs, free]
    · simp [pcs, same]
  constructor
  · intro u v ne
    rcases reserved u with left | left <;> rcases reserved v with right | right <;>
      simp [left, right, inv.apart u v ne]
  · exact started ▸ inv.startedApart
  · intro u m member
    rcases reserved u with left | left <;> simp [left, inv.reservedStarted u m (started ▸ member)]
  · intro parallel u i member
    rcases reserved u with left | left
    · simp [left] at member
    · exact busy ▸ inv.busyReserved (serial ▸ parallel) u i (left ▸ member)
  · intro parallel m member
    exact busy ▸ inv.busyStarted (serial ▸ parallel) m (started ▸ member)
  · intro isSerial u
    by_cases same : u = t
    · subst same
      simpa [pcs] using quiet (serial ▸ isSerial)
    · simpa [pcs, same] using inv.serial (serial ▸ isSerial) u
  · intro u c cur todo at_
    by_cases same : u = t
    · subst same
      exact started ▸ entered c cur todo (by simpa [pcs] using at_)
    · exact started ▸ inv.entered u c cur todo (by simpa [pcs, same] using at_)
  · have sum := sum_pc_update Pc.running s.pc t pc
    have old := inv.count
    rw [started, pcs]
    omega

theorem Reserved.executing {s s' : ApplyState α n} (inv : Reserved s) {t : Fin n} {c : Candidate}
    {cur cur' : Option (Transit α)} {todo todo' : List RowInstr} (at_ : s.pc t = .exec c cur todo)
    (started : s'.started = s.started) (serial : s'.serial = s.serial)
    (busy : s'.busyRows = s.busyRows) (nmerges : s'.nmerges = s.nmerges)
    (pcs : s'.pc = Function.update s.pc t (.exec c cur' todo')) : Reserved s' := by
  refine inv.release started serial busy pcs rfl (fun _ => rfl) ?_ (by simp [at_, nmerges, Pc.running])
  intro c' cur todo' after
  cases after
  exact inv.entered t c _ _ at_

theorem Reserved.join {s : ApplyState α n} (inv : Reserved s) (idle : s.allIdle) :
    Reserved { s with serial := true } where
  apart := inv.apart
  startedApart := inv.startedApart
  reservedStarted := inv.reservedStarted
  busyReserved parallel := absurd parallel (by simp)
  busyStarted parallel := absurd parallel (by simp)
  serial _ t := by simp [Pc.isIdle_iff.mp (idle t), Pc.reserving]
  entered := inv.entered
  count := inv.count

theorem ApplyState.allIdle.running {s : ApplyState α n} (idle : s.allIdle) :
    ∑ t, (s.pc t).running = 0 := by
  apply Finset.sum_eq_zero
  intro t _
  simp [Pc.isIdle_iff.mp (idle t), Pc.running]

theorem Reserved.started_nil {s : ApplyState α n} (inv : Reserved s) (idle : s.allIdle)
    (zero : s.nmerges = 0) : s.started = [] := by
  have count := inv.count
  rw [zero, idle.running] at count
  exact List.length_eq_zero_iff.mp count.symm

theorem Reserved.disjoint {s : ApplyState α n} (inv : Reserved s) {m m' : Fin n × Candidate}
    (left : m ∈ s.started) (right : m' ∈ s.started) (ne : m ≠ m') : m.2.ind.Disjoint m'.2.ind := by
  have symm : Std.Symm fun m m' : Fin n × Candidate => m.2.ind.Disjoint m'.2.ind :=
    ⟨fun _ _ apart => apart.symm⟩
  exact inv.startedApart.forall left right ne

-- Why a merge may be entered: no earlier merge has one of its rows.
theorem Reserved.entering {s : ApplyState α n} (inv : Reserved s) {t : Fin n} {c : Candidate}
    {k : Nat} (at_ : s.pc t = .reserve c k) (all : c.ind.length ≤ k) :
    ∀ m ∈ s.started, c.ind.Disjoint m.2.ind := by
  intro m member
  have apart := inv.reservedStarted t m member
  rwa [at_, Pc.reserved, List.take_of_length_le all] at apart

theorem Reserved.reserve {s : ApplyState α n} (inv : Reserved s) {t : Fin n} {c : Candidate}
    {k i : Nat} (at_ : s.pc t = .reserve c k) (next : c.ind[k]? = some i)
    (free : s.busyRows i = false) :
    Reserved ({ s with busyRows := Function.update s.busyRows i true }.setPc t (.reserve c (k + 1))) := by
  have parallel : s.serial = false := by
    cases serial : s.serial with
    | false => rfl
    | true => simpa [at_, Pc.reserving] using inv.serial serial t
  have grown : (Pc.reserve c (k + 1) : Pc α).reserved = (s.pc t).reserved ++ [i] := by
    simp [at_, Pc.reserved, List.take_add_one, next]
  have noOther (u : Fin n) : i ∉ (s.pc u).reserved := by
    intro member
    simp [inv.busyReserved parallel u i member] at free
  have notStarted : ∀ m ∈ s.started, i ∉ m.2.ind := by
    intro m hm member
    simp [inv.busyStarted parallel m hm i member] at free
  have stillBusy {j : Nat} (busy : s.busyRows j) : Function.update s.busyRows i true j := by
    by_cases same : j = i
    · simp [same]
    · simpa [same] using busy
  have apart (u : Fin n) (ne : u ≠ t) :
      ((s.pc t).reserved ++ [i]).Disjoint (s.pc u).reserved := by
    rw [List.disjoint_append_left]
    exact ⟨inv.apart t u ne.symm, by simpa using noOther u⟩
  constructor
  · intro u v ne
    by_cases left : u = t
    · subst left
      simpa [grown, ne.symm] using apart v ne.symm
    · by_cases right : v = t
      · subst right
        simpa [grown, ne] using (apart u ne).symm
      · simpa [left, right] using inv.apart u v ne
  · exact inv.startedApart
  · intro u m member
    by_cases left : u = t
    · subst left
      simp only [ApplyState.setPc_pc, Function.update_self, grown]
      rw [List.disjoint_append_left]
      exact ⟨inv.reservedStarted u m member, by simpa using notStarted m member⟩
    · simpa [left] using inv.reservedStarted u m member
  · intro _ u j member
    by_cases left : u = t
    · subst left
      simp only [ApplyState.setPc_pc, Function.update_self, grown, List.mem_append,
        List.mem_singleton] at member
      rcases member with old | rfl
      · exact stillBusy (inv.busyReserved parallel u j old)
      · simp
    · exact stillBusy (inv.busyReserved parallel u j (by simpa [left] using member))
  · intro _ m member j hj
    exact stillBusy (inv.busyStarted parallel m member j hj)
  · intro isSerial
    exact absurd (parallel.symm.trans isSerial) (by simp)
  · intro u c' cur todo at'
    by_cases left : u = t
    · subst left
      simp at at'
    · exact inv.entered u c' cur todo (by simpa [left] using at')
  · have sum := sum_pc_update Pc.running s.pc t (.reserve c (k + 1))
    have old := inv.count
    have before : (s.pc t).running = 0 := by simp [at_, Pc.running]
    have after : (Pc.reserve c (k + 1) : Pc α).running = 0 := rfl
    simp only [ApplyState.setPc_nmerges, ApplyState.setPc_pc, ApplyState.setPc_started]
    omega

variable [Typerow α]

theorem Quiet.reserved {s : ApplyState α n} {before after : Pc α} (change : Quiet s before after) :
    after.reserved = [] ∧ after.running = before.running ∧
      (before.reserving = false → after.reserving = false) ∧
      ∀ c cur todo, after = .exec c cur todo → ∃ cur' todo', before = .exec c cur' todo' := by
  cases change <;> simp [Pc.reserved, Pc.running, Pc.reserving]

theorem Reserved.enter {s : ApplyState α n} (inv : Reserved s) {t : Fin n} {c : Candidate}
    (outside : ∀ m ∈ s.started, c.ind.Disjoint m.2.ind)
    (others : ∀ u, u ≠ t → (s.pc u).reserved.Disjoint c.ind) (stopped : (s.pc t).running = 0)
    (busy : s.serial = false → ∀ i ∈ c.ind, s.busyRows i) : Reserved (s.enter t c) := by
  have own : (Pc.exec c none (mergeDo s.rows c) : Pc α).reserved = [] := rfl
  constructor
  · intro u v ne
    by_cases left : u = t <;> by_cases right : v = t <;>
      simp [ApplyState.enter, left, right, own, inv.apart u v ne]
  · exact .cons outside inv.startedApart
  · intro u m member
    by_cases left : u = t
    · subst left
      simp [ApplyState.enter, own]
    · have pc : (s.enter t c).pc u = s.pc u := by simp [ApplyState.enter, left]
      rw [pc]
      rcases List.mem_cons.mp member with rfl | old
      · exact others u left
      · exact inv.reservedStarted u m old
  · intro parallel u i member
    by_cases left : u = t
    · subst left
      simp [ApplyState.enter, own] at member
    · exact inv.busyReserved parallel u i (by simpa [ApplyState.enter, left] using member)
  · intro parallel m member
    rcases List.mem_cons.mp member with rfl | old
    · exact busy parallel
    · exact inv.busyStarted parallel m old
  · intro isSerial u
    by_cases left : u = t
    · subst left
      simp [ApplyState.enter, Pc.reserving]
    · simpa [ApplyState.enter, left] using inv.serial isSerial u
  · intro u c' cur todo at_
    by_cases left : u = t
    · subst left
      obtain ⟨rfl, _⟩ := by simpa [ApplyState.enter] using at_
      exact (.head _)
    · exact List.mem_cons_of_mem _ (inv.entered u c' cur todo
        (by simpa [ApplyState.enter, left] using at_))
  · have sum := sum_pc_update Pc.running s.pc t (.exec c none (mergeDo s.rows c))
    have old := inv.count
    simp only [ApplyState.enter, ApplyState.setPc_nmerges, ApplyState.setPc_pc,
      ApplyState.setPc_started, List.length_cons]
    have one : (Pc.exec c none (mergeDo s.rows c) : Pc α).running = 1 := rfl
    omega

variable [NeZero n] {label : Nat → Option Index} {L : List Candidate}

theorem Reserved.move {s s' : ApplyState α n} {a : Act n} (inv : Reserved s)
    (move : Move label L s a s') : Reserved s' := by
  cases move with
  | take parallel idle next =>
    exact inv.release rfl rfl rfl rfl rfl (by simp [parallel]) (by simp)
      (by simp [idle, Pc.running])
  | @quiet t pc change =>
    obtain ⟨free, running, reserving, exec⟩ := change.reserved
    refine inv.release rfl rfl rfl rfl free (fun serial => reserving (inv.serial serial _)) ?_
      (by simp [running])
    intro c cur todo after
    obtain ⟨cur', todo', before⟩ := exec c cur todo after
    exact inv.entered t c cur' todo' before
  | reserve at_ next free => exact inv.reserve at_ next free
  | @enter t c k at_ all =>
    have whole : (s.pc t).reserved = c.ind := by
      simp [at_, Pc.reserved, List.take_of_length_le all]
    refine inv.enter (fun m member => whole ▸ inv.reservedStarted t m member)
      (fun u ne => whole ▸ inv.apart u t ne) (by simp [at_, Pc.running])
      (fun parallel => whole ▸ inv.busyReserved parallel t)
  | report at_ => exact inv.executing at_ rfl rfl rfl rfl rfl
  | update at_ => exact inv.executing at_ rfl rfl rfl rfl rfl
  | store at_ => exact inv.executing at_ rfl rfl rfl rfl rfl
  | finish at_ =>
    exact inv.release rfl rfl rfl rfl rfl (fun _ => rfl) (by simp) (by simp [at_, Pc.running])
  | join parallel empty idle enough => exact inv.join idle
  | fallback parallel empty idle zero first =>
    refine (inv.join idle).enter (by simp [inv.started_nil idle zero]) (fun u _ => ?_) ?_ (by simp)
    · simp [Pc.isIdle_iff.mp (idle u), Pc.reserved]
    · simp [Pc.isIdle_iff.mp (idle 0), Pc.running]

end CadoNfs.Filter
