import CadoNfs.Cadofactor.ApiServer

/-!
# Tasks of the driver

`ClientServerTask` of `scripts/cadofactor/cadotask.py`.
-/

namespace CadoNfs.Cadofactor

inductive Counter
  | submitted
  | received
  | rangeReceived
  | timedout
  | failed
  deriving DecidableEq

structure TaskParams where
  name : Text
  task : Text
  maxresubmit : ℤ
  maxwuerror : ℤ
  maxtimedout : ℤ
  maxfailed : ℤ

structure TaskState where
  state : Counter → ℤ
  db : WuDb

inductive TaskError
  | tooManyTimedout
  | tooManyFailed
  | assertion
  | database (e : DbError)
  | python (e : PyError)
  deriving DecidableEq

def TaskState.add (t : TaskState) (key : Counter) (z : ℤ) : TaskState :=
  { t with state := Function.update t.state key (t.state key + z) }

def TaskState.outstanding (t : TaskState) : ℤ := t.state .submitted - t.state .received - t.state .timedout

inductive Action
  | assertOutstanding
  | checkTimedout
  | checkFailed
  | assertReceivedError (wuid : WuName)
  | count (key : Counter) (z : ℤ)
  | create (wu : Workunit)
  | cancel (wuid : WuName)
  | verification (wuid : WuName) (ok : Bool)
  deriving DecidableEq

def Action.run (p : TaskParams) (now : ℕ) (t : TaskState) : Action → Except TaskError TaskState
  | assertOutstanding => if 1 ≤ t.outstanding then .ok t else .error .assertion
  | checkTimedout => if t.state .timedout < p.maxtimedout then .ok t else .error .tooManyTimedout
  | checkFailed => if t.state .failed < p.maxfailed then .ok t else .error .tooManyFailed
  | assertReceivedError wuid =>
    if (t.db.getByWuid wuid).map (·.status) = some .receivedError then .ok t else .error .assertion
  | count key z => .ok (t.add key z)
  | create wu => ((t.db.create wu).mapError .database).map fun db => { t with db }
  | cancel wuid => .ok { t with db := t.db.cancel wuid }
  | verification wuid ok => ((t.db.verification wuid ok now).mapError .database).map fun r => { t with db := r.2 }

def runActions (p : TaskParams) (now : ℕ) (t : TaskState) (actions : List Action) : Except TaskError TaskState :=
  actions.foldlM (fun t action => action.run p now t) t

theorem Action.run_create {p : TaskParams} {now : ℕ} {t : TaskState} {wu : Workunit}
    (fresh : ∀ r ∈ t.db.rows, r.wuid ≠ wu.id) :
    (Action.create wu).run p now t = .ok { t with db := { t.db with rows := t.db.rows ++ [wu.newRow] } } := by
  have new : ¬ (t.db.rows.any (·.wuid = wu.id)) = true := by
    rw [List.any_eq_true]
    rintro ⟨r, member, same⟩
    exact fresh r member (of_decide_eq_true same)
  rw [run, WuDb.create, if_neg new]
  rfl

theorem Action.run_verification {p : TaskParams} {now : ℕ} {t : TaskState} {wuid : WuName} {row : WuRow} {ok : Bool}
    (found : t.db.getByWuid wuid = some row) (received : row.status = .receivedOk ∨ row.status = .receivedError) :
    (Action.verification wuid ok).run p now t = .ok { t with db := t.db.update (·.wuid = wuid) (·.verified ok now) } := by
  rw [run, WuDb.verification, found]
  dsimp only
  rw [if_neg (by tauto)]
  rfl

inductive Action.Ran (p : TaskParams) (now : ℕ) (t : TaskState) : Action → TaskState → Prop
  | assertOutstanding : 1 ≤ t.outstanding → Ran p now t .assertOutstanding t
  | checkTimedout : t.state .timedout < p.maxtimedout → Ran p now t .checkTimedout t
  | checkFailed : t.state .failed < p.maxfailed → Ran p now t .checkFailed t
  | assertReceivedError (wuid : WuName) (r : WuRow) : t.db.getByWuid wuid = some r → r.status = .receivedError →
    Ran p now t (.assertReceivedError wuid) t
  | count (key : Counter) (z : ℤ) : Ran p now t (.count key z) (t.add key z)
  | create (wu : Workunit) (db : WuDb) : t.db.create wu = .ok db → Ran p now t (.create wu) { t with db }
  | cancel (wuid : WuName) : Ran p now t (.cancel wuid) { t with db := t.db.cancel wuid }
  | unknown (wuid : WuName) (ok : Bool) : t.db.getByWuid wuid = none → Ran p now t (.verification wuid ok) t
  | verification (wuid : WuName) (ok : Bool) (r : WuRow) : t.db.getByWuid wuid = some r → r.status.isReceived = true →
    Ran p now t (.verification wuid ok) { t with db := t.db.update (·.wuid = wuid) (·.verified ok now) }

theorem Action.ran {p : TaskParams} {now : ℕ} {t t' : TaskState} {action : Action} (ok : action.run p now t = .ok t') :
    action.Ran p now t t' := by
  cases action with
  | assertOutstanding =>
    rw [run] at ok
    split at ok
    · cases ok
      exact .assertOutstanding ‹_›
    · cases ok
  | checkTimedout =>
    rw [run] at ok
    split at ok
    · cases ok
      exact .checkTimedout ‹_›
    · cases ok
  | checkFailed =>
    rw [run] at ok
    split at ok
    · cases ok
      exact .checkFailed ‹_›
    · cases ok
  | assertReceivedError wuid =>
    rw [run] at ok
    split at ok
    · rename_i status
      cases ok
      obtain ⟨r, found, status⟩ := Option.map_eq_some_iff.mp status
      exact .assertReceivedError wuid r found status
    · cases ok
  | count key z =>
    cases ok
    exact .count key z
  | create wu =>
    rw [run] at ok
    cases created : t.db.create wu with
    | error e =>
      rw [created] at ok
      cases ok
    | ok db =>
      rw [created] at ok
      cases ok
      exact .create wu db created
  | cancel wuid =>
    cases ok
    exact .cancel wuid
  | verification wuid good =>
    rw [run, WuDb.verification] at ok
    cases found : t.db.getByWuid wuid with
    | none =>
      rw [found] at ok
      cases ok
      exact .unknown wuid good found
    | some r =>
      rw [found] at ok
      dsimp only at ok
      split at ok
      · cases ok
      · rename_i received
        cases ok
        refine .verification wuid good r found ?_
        cases status : r.status <;> first | rfl | simp [status] at received

theorem runActions_cons {p : TaskParams} {now : ℕ} {t : TaskState} {action : Action} {actions : List Action} :
    runActions p now t (action :: actions) = (action.run p now t).bind fun t => runActions p now t actions :=
  List.foldlM_cons

theorem runActions_append {p : TaskParams} {now : ℕ} {t : TaskState} {actions actions' : List Action} :
    runActions p now t (actions ++ actions') =
      (runActions p now t actions).bind fun t => runActions p now t actions' :=
  List.foldlM_append

namespace TaskParams

variable (p : TaskParams)

def submitWu (wu : Workunit) : List Action := [.count .submitted 1, .create wu]

def cancelWu (wuid : WuName) : List Action := [.checkTimedout, .count .timedout 1, .cancel wuid]

def getWusize (wuid : WuName) : ℤ := wuid.hi - wuid.lo

def verification (wuid : WuName) (ok : Bool) : List Action :=
  [.assertOutstanding, .count .received 1, .count .rangeReceived (getWusize wuid), .verification wuid ok]

def nextAttempt (wuid : WuName) : ℕ := wuid.attempt.elim 2 (· + 1)

def nextName (wuid : WuName) : WuName := ⟨p.name, p.task, wuid.lo, wuid.hi, some (nextAttempt wuid)⟩

def renamed (wu : Workunit) : Workunit := { wu with id := p.nextName wu.id }

def resubmitOneWu (maxresubmit : ℤ) (wu : Workunit) : List Action :=
  if nextAttempt wu.id > maxresubmit then [] else submitWu (p.renamed wu)

/-- `none` is for `return False`. The row that is queried again has the same workunit. -/
def handleErrorResult (column : Text → Option ℤ) (message : ResultInfo) : Except TaskError (Option (List Action)) :=
  match message.getExitcode column 0 with
  | .error e => .error (.python e)
  | .ok exitcode =>
    if exitcode = 0 then .ok none
    else .ok (some (.checkFailed :: .assertReceivedError message.row.wuid :: .count .failed 1 ::
      (verification message.row.wuid false ++ p.resubmitOneWu p.maxwuerror message.row.wu)))

def resubmitOne (r : WuRow) : List Action := cancelWu r.wuid ++ p.resubmitOneWu p.maxresubmit r.wu

/-! ## The operations run through -/

variable {p} {now : ℕ} {t : TaskState}

theorem run_submitWu {wu : Workunit} (fresh : ∀ r ∈ t.db.rows, r.wuid ≠ wu.id) :
    runActions p now t (submitWu wu) =
      .ok { t.add .submitted 1 with db := { t.db with rows := t.db.rows ++ [wu.newRow] } } := by
  rw [submitWu, runActions_cons]
  show ((Action.create wu).run p now (t.add .submitted 1)).bind _ = _
  rw [Action.run_create (t := t.add .submitted 1) fresh]
  rfl

theorem run_verification {wuid : WuName} {row : WuRow} {ok : Bool} (found : t.db.getByWuid wuid = some row)
    (received : row.status = .receivedOk ∨ row.status = .receivedError) (outstanding : 1 ≤ t.outstanding) :
    runActions p now t (verification wuid ok) =
      .ok { (t.add .received 1).add .rangeReceived (getWusize wuid) with
        db := t.db.update (·.wuid = wuid) (·.verified ok now) } := by
  rw [verification, runActions_cons, Action.run, if_pos outstanding]
  let counted := (t.add .received 1).add .rangeReceived (getWusize wuid)
  have there : counted.db.getByWuid wuid = some row := found
  show ((Action.verification wuid ok).run p now counted).bind _ = _
  rw [Action.run_verification there received]
  rfl

end TaskParams

end CadoNfs.Cadofactor

/-!
# What the actions owe

A counter of a task and the row that it counts are written in different transactions. The actions that are still to be
done owe the difference.
-/

namespace CadoNfs.Cadofactor

def Action.owes : Action → ℤ
  | count .submitted z => z
  | count .received z | count .timedout z => -z
  | create _ => -1
  | cancel _ | verification _ _ => 1
  | _ => 0

def Action.target : Action → Option WuName
  | cancel wuid | verification wuid _ => some wuid
  | _ => none

def Action.isTest : Action → Bool
  | assertOutstanding | checkTimedout | checkFailed | assertReceivedError _ => true
  | _ => false

def owed (todo : List Action) : ℤ := (todo.map Action.owes).sum

def targets (todo : List Action) : List WuName := todo.filterMap Action.target

def Planned : List Action → Prop
  | [] => True
  | a :: todo => owed (a :: todo) ≤ (targets (a :: todo)).length ∧ (a.isTest = true → owed todo = 0) ∧
    (a = .assertOutstanding → targets todo ≠ []) ∧ Planned todo

@[simp] theorem owed_nil : owed [] = 0 := rfl

@[simp] theorem owed_cons (a : Action) (todo : List Action) : owed (a :: todo) = a.owes + owed todo := List.sum_cons

@[simp] theorem owed_append (todo todo' : List Action) : owed (todo ++ todo') = owed todo + owed todo' := by
  rw [owed, List.map_append, List.sum_append]
  rfl

@[simp] theorem targets_append (todo todo' : List Action) : targets (todo ++ todo') = targets todo ++ targets todo' :=
  List.filterMap_append

@[simp] theorem targets_nil : targets [] = [] := rfl

@[simp] theorem targets_cons (a : Action) (todo : List Action) :
  targets (a :: todo) = a.target.toList ++ targets todo := by
  rw [targets, List.filterMap_cons]
  cases a.target <;> rfl

/-! ## The operations are planned -/

structure Operational (todo : List Action) : Prop where
  planned : Planned todo
  owed : owed todo = 0

variable {p : TaskParams} {todo todo' : List Action}

theorem planned_append (planned : Planned todo) (later : Operational todo') : Planned (todo ++ todo') := by
  induction todo with
  | nil => exact later.planned
  | cons a todo ih =>
    obtain ⟨bound, test, outstanding, rest⟩ := planned
    rw [List.cons_append]
    refine ⟨?_, fun here => ?_, fun here none => ?_, ih rest⟩
    · rw [← List.cons_append, owed_append, targets_append, later.owed, List.length_append]
      push_cast
      omega
    · rw [owed_append, test here, later.owed]
      rfl
    · rw [targets_append] at none
      exact outstanding here (List.append_eq_nil_iff.mp none).1

theorem Operational.append (first : Operational todo) (later : Operational todo') : Operational (todo ++ todo') := by
  refine ⟨planned_append first.planned later, ?_⟩
  rw [owed_append, first.owed, later.owed]
  rfl

theorem operational_nil : Operational [] := ⟨trivial, rfl⟩

theorem operational_flatMap {α : Type*} {f : α → List Action} (each : ∀ r, Operational (f r)) (l : List α) :
    Operational (l.flatMap f) := by
  induction l with
  | nil => exact operational_nil
  | cons r l ih =>
    rw [List.flatMap_cons]
    exact (each r).append ih

theorem operational_submitWu (wu : Workunit) : Operational (TaskParams.submitWu wu) := by
  constructor <;> simp [TaskParams.submitWu, Planned, Action.owes, Action.isTest, Action.target]

theorem operational_cancelWu (wuid : WuName) : Operational (TaskParams.cancelWu wuid) := by
  constructor <;> simp [TaskParams.cancelWu, Planned, Action.owes, Action.isTest, Action.target]

theorem operational_verification (wuid : WuName) (ok : Bool) : Operational (TaskParams.verification wuid ok) := by
  constructor <;> simp [TaskParams.verification, Planned, Action.owes, Action.isTest, Action.target]

theorem operational_resubmitOneWu (maxresubmit : ℤ) (wu : Workunit) : Operational (p.resubmitOneWu maxresubmit wu) := by
  rw [TaskParams.resubmitOneWu]
  split
  · exact operational_nil
  · exact operational_submitWu _

theorem operational_resubmitOne (r : WuRow) : Operational (p.resubmitOne r) :=
  (operational_cancelWu _).append (operational_resubmitOneWu _ _)

theorem targets_resubmitOneWu (maxresubmit : ℤ) (wu : Workunit) : targets (p.resubmitOneWu maxresubmit wu) = [] := by
  rw [TaskParams.resubmitOneWu]
  split <;> rfl

theorem targets_resubmitOne (r : WuRow) : targets (p.resubmitOne r) = [r.wuid] := by
  rw [TaskParams.resubmitOne, targets_append, targets_resubmitOneWu]
  rfl

theorem targets_flatMap (l : List WuRow) : targets (l.flatMap p.resubmitOne) = l.map WuRow.wuid := by
  induction l with
  | nil => rfl
  | cons r l ih =>
    rw [List.flatMap_cons, targets_append, targets_resubmitOne, ih]
    rfl

end CadoNfs.Cadofactor

/-!
# The driver of a task

A `ClientServerTask` at work on a database that it shares with the Python server and with the other tasks.
-/

namespace CadoNfs.Cadofactor

open Lib

def TaskParams.owns (p : TaskParams) (wuid : WuName) : Bool := wuid.name = p.name ∧ wuid.task = p.task

def WuDb.oneResultInfo (db : WuDb) : Option ResultInfo :=
  db.getOneResult.map fun row => ⟨row, db.files.filter (·.wuid = row.wuid)⟩

/-- `send_result` for a result of the task. `processed` is what `updateObserver` makes of the files of a good result,
`none` if it returns `False` for them. -/
def TaskParams.sendResult (p : TaskParams) (column : Text → Option ℤ) (message : ResultInfo) (processed : Option Bool) :
    Except TaskError (List Action) :=
  (p.handleErrorResult column message).map fun handled =>
    handled.getD (processed.elim [.cancel message.row.wuid] (TaskParams.verification message.row.wuid))

def Action.ofOther (p : TaskParams) : Action → Bool
  | create wu => !p.owns wu.id
  | verification wuid _ => !p.owns wuid
  | cancel _ => true
  | _ => false

/-- The function in which the driver is. `queryLate` is between the two queries of `resubmit_timed_out_wus`. -/
inductive Operation
  | started
  | submitCommand
  | sendResult
  | queryLate
  | resubmitTimedOutWus
  deriving DecidableEq

structure Driver where
  task : TaskState
  operation : Operation
  todo : List Action

namespace Driver

inductive Move
  | result (wuid : WuName) (clientid : Text) (files : List FileRow) (errorcode failedcommand : Option Text) (now : ℕ)
  | assign (clientid : Text) (now : ℕ)
  | submit (wu : Workunit)
  | sendResult (processed : Option Bool)
  | queryLate (cutoff : ℕ)
  | queryNeedResubmit
  | run (now : ℕ)
  | stop
  | cancelAvailable
  | other (action : Action) (now : ℕ)

structure Idle (s : Driver) : Prop where
  todo : s.todo = []
  operation : s.operation ≠ .queryLate

def stopped (s : Driver) : Driver := ⟨s.task, .started, []⟩

inductive Step (p : TaskParams) (column : Text → Option ℤ) (s : Driver) : Move → Driver → Prop
  | result {wuid clientid files errorcode failedcommand now stored db} :
    s.task.db.result wuid clientid files errorcode failedcommand now = .ok (stored, db) →
    Step p column s (.result wuid clientid files errorcode failedcommand now) { s with task := { s.task with db } }
  | assign {clientid now wu db} : s.task.db.assign clientid now = some (wu, db) →
    Step p column s (.assign clientid now) { s with task := { s.task with db } }
  | submit {wu} : s.Idle → p.owns wu.id = true → wu.id.attempt = none → 0 < TaskParams.getWusize wu.id →
    Step p column s (.submit wu) ⟨s.task, .submitCommand, TaskParams.submitWu wu⟩
  | sendResult {message processed todo} : s.Idle → s.task.db.oneResultInfo = some message →
    p.owns message.row.wuid = true → p.sendResult column message processed = .ok todo →
    Step p column s (.sendResult processed) ⟨s.task, .sendResult, todo⟩
  | queryLate {cutoff} : s.Idle → Step p column s (.queryLate cutoff)
    ⟨s.task, .queryLate, (s.task.db.query (·.late cutoff)).flatMap p.resubmitOne⟩
  | queryNeedResubmit : s.operation = .queryLate → Step p column s .queryNeedResubmit
    ⟨s.task, .resubmitTimedOutWus, s.todo ++ (s.task.db.query (·.status = .needResubmit)).flatMap p.resubmitOne⟩
  | run {action todo now task} : s.operation ≠ .queryLate → s.todo = action :: todo →
    action.run p now s.task = .ok task → Step p column s (.run now) ⟨task, s.operation, todo⟩
  | raise {action todo now e} : s.operation ≠ .queryLate → s.todo = action :: todo →
    action.run p now s.task = .error e → Step p column s (.run now) s.stopped
  | stop : Step p column s .stop s.stopped
  | cancelAvailable : s.Idle →
    Step p column s .cancelAvailable { s with task := { s.task with db := s.task.db.cancelAllAvailable } }
  | other {action now task} : s.Idle → action.ofOther p = true → action.run p now s.task = .ok task →
    Step p column s (.other action now) { s with task }

end Driver

namespace WuDb

variable {db db' : WuDb} {wuid : WuName} {clientid : Text} {now : ℕ}

theorem result_ok {files : List FileRow} {errorcode failedcommand : Option Text} {stored : Bool}
    (ok : db.result wuid clientid files errorcode failedcommand now = .ok (stored, db')) :
    (stored = false ∧ db' = db) ∨
    (stored = true ∧ (∃ r, db.getByWuid wuid = some r ∧ r.status = .assigned) ∧
      db'.rows = updateWhere (·.wuid = wuid) (·.answered clientid errorcode failedcommand now) db.rows) := by
  rw [result] at ok
  cases found : db.getByWuid wuid with
  | none =>
    rw [found] at ok
    cases ok
    exact .inl ⟨rfl, rfl⟩
  | some r =>
    rw [found] at ok
    dsimp only at ok
    split at ok
    · cases ok
    · rename_i assigned
      cases added : db.addFiles wuid files with
      | error e =>
        rw [added] at ok
        cases ok
      | ok next =>
        rw [added] at ok
        cases ok
        refine .inr ⟨rfl, ⟨r, rfl, not_not.mp assigned⟩, ?_⟩
        rw [addFiles_ok added]
        rfl

theorem getByWuid_of_mem (unique : (db.rows.map WuRow.wuid).Nodup) {r : WuRow} (member : r ∈ db.rows) :
    db.getByWuid r.wuid = some r := by
  cases found : db.getByWuid r.wuid with
  | none => exact absurd (decide_eq_true rfl) (List.find?_eq_none.mp found r member)
  | some r' =>
    exact congrArg some (List.inj_on_of_nodup_map unique (List.mem_of_find?_eq_some found) member
      (wuid_of_getByWuid found))

theorem assign_some {wu : Workunit} (ok : db.assign clientid now = some (wu, db')) :
    ∃ r ∈ db.rows, r.status = .available ∧ r.wu = wu ∧ db' = db.update (·.wuid = r.wuid) fun r =>
      { r with status := .assigned, assignedclient := some clientid, timeassigned := some now } := by
  rw [assign] at ok
  cases found : db.rows.find? (·.status = .available) with
  | none =>
    rw [found] at ok
    cases ok
  | some r =>
    rw [found] at ok
    cases ok
    exact ⟨r, List.mem_of_find?_eq_some found, by simpa using List.find?_some found, rfl, rfl⟩

end WuDb

theorem TaskParams.cancel_mem_resubmitOne {p : TaskParams} {wuid : WuName} {r : WuRow}
    (member : .cancel wuid ∈ p.resubmitOne r) : wuid = r.wuid := by
  cases List.mem_append.mp member with
  | inl first => simpa [cancelWu] using first
  | inr second =>
    rw [resubmitOneWu] at second
    split at second
    · cases second
    · simp [submitWu] at second

/-! ## A task and its first workunit -/

def sievingParams : TaskParams := ⟨"c59".toList, "sieving".toList, 5, 2, 100, 100⟩

def firstWuid : WuName := ⟨"c59".toList, "sieving".toList, 0, 1000, none⟩

def firstWorkunit : Workunit := ⟨firstWuid, [], [], fun _ file => by cases file⟩

end CadoNfs.Cadofactor
