import CadoNfs.Cadofactor.ClientServerTask
import CadoNfs.Lib.Run

/-!
# Outstanding workunits

The counters of a task against the rows of its workunits.
-/

namespace CadoNfs.Cadofactor

open Lib

def WuStatus.isClosed : WuStatus → Bool
  | verifiedOk | verifiedError | cancelled => true
  | _ => false

def TaskParams.isOutstanding (p : TaskParams) (r : WuRow) : Bool := p.owns r.wuid && !r.status.isClosed

def WuDb.countOutstanding (p : TaskParams) (db : WuDb) : ℕ := db.rows.countP p.isOutstanding

variable {p : TaskParams} {todo todo' : List Action}

/-! ## The rows that an operation closes -/

structure Targeted (p : TaskParams) (db : WuDb) (todo : List Action) : Prop where
  nodup : (targets todo).Nodup
  outstanding : ∀ wuid ∈ targets todo, ∃ r ∈ db.rows, r.wuid = wuid ∧ p.isOutstanding r = true
  received : ∀ wuid ok, .verification wuid ok ∈ todo → ∃ r ∈ db.rows, r.wuid = wuid ∧ r.status.isReceived = true
  own : ∀ wu, .create wu ∈ todo → p.owns wu.id = true

structure Lasts (old new : WuStatus) : Prop where
  closed : new.isClosed = old.isClosed
  received : old.isReceived = true → new.isReceived = true
  needResubmit : new = .needResubmit → old = .needResubmit

structure Keeps (p : TaskParams) (db db' : WuDb) : Prop where
  unique : (db.rows.map WuRow.wuid).Nodup → (db'.rows.map WuRow.wuid).Nodup
  count : db'.countOutstanding p = db.countOutstanding p
  rows : ∀ r ∈ db.rows, p.owns r.wuid = true → ∃ r' ∈ db'.rows, r'.wuid = r.wuid ∧ Lasts r.status r'.status

variable {db db' : WuDb} {now : ℕ} {a : Action}

theorem Targeted.tail (targeted : Targeted p db (a :: todo)) : Targeted p db todo := by
  refine ⟨?_, fun wuid member => targeted.outstanding wuid ?_, fun wuid ok member => targeted.received wuid ok ?_,
    fun wu member => targeted.own wu (.tail _ member)⟩
  · have nodup := targeted.nodup
    rw [targets_cons] at nodup
    exact (List.nodup_append.mp nodup).2.1
  · rw [targets_cons]
    exact List.mem_append_right _ member
  · exact List.mem_cons_of_mem _ member

theorem Targeted.keeps (targeted : Targeted p db todo) (keeps : Keeps p db db') : Targeted p db' todo := by
  refine ⟨targeted.nodup, fun wuid member => ?_, fun wuid ok member => ?_, targeted.own⟩
  · obtain ⟨r, there, rfl, outstanding⟩ := targeted.outstanding wuid member
    rw [TaskParams.isOutstanding, Bool.and_eq_true] at outstanding
    obtain ⟨r', there', name, lasts⟩ := keeps.rows r there outstanding.1
    refine ⟨r', there', name, ?_⟩
    rw [TaskParams.isOutstanding, name, lasts.closed, Bool.and_eq_true]
    exact outstanding
  · have target : wuid ∈ targets todo := List.mem_filterMap.mpr ⟨_, member, rfl⟩
    obtain ⟨r, there, rfl, received⟩ := targeted.received wuid ok member
    obtain ⟨r₁, -, name₁, outstanding⟩ := targeted.outstanding r.wuid target
    rw [TaskParams.isOutstanding, name₁, Bool.and_eq_true] at outstanding
    obtain ⟨r', there', name, lasts⟩ := keeps.rows r there outstanding.1
    exact ⟨r', there', name, lasts.received received⟩

theorem lasts_refl (status : WuStatus) : Lasts status status := ⟨rfl, id, id⟩

theorem keeps_refl (db : WuDb) : Keeps p db db := ⟨id, rfl, fun r member _ => ⟨r, member, rfl, lasts_refl _⟩⟩

theorem keeps_update {cond : WuRow → Bool} {f : WuRow → WuRow} (wuid : ∀ r, (f r).wuid = r.wuid)
    (lasts : ∀ r ∈ db.rows, cond r = true → p.owns r.wuid = true → Lasts r.status (f r).status) :
    Keeps p db (db.update cond f) := by
  refine ⟨fun unique => (map_key_updateWhere wuid).symm ▸ unique, countP_updateWhere fun r member selected => ?_,
    fun r member own => ⟨_, mem_updateWhere.mpr ⟨r, member, rfl⟩, key_updateWhere wuid r, ?_⟩⟩
  · rw [TaskParams.isOutstanding, TaskParams.isOutstanding, wuid]
    cases own : p.owns r.wuid with
    | false => rfl
    | true => rw [(lasts r member selected own).closed]
  · split
    · exact lasts r member ‹_› own
    · exact lasts_refl _

theorem keeps_result (unique : (db.rows.map WuRow.wuid).Nodup) {wuid : WuName} {clientid : Text} {files : List FileRow}
    {errorcode failedcommand : Option Text} {stored : Bool}
    (ok : db.result wuid clientid files errorcode failedcommand now = .ok (stored, db')) : Keeps p db db' := by
  cases WuDb.result_ok ok with
  | inl unknown =>
    rw [unknown.2]
    exact keeps_refl db
  | inr known =>
    obtain ⟨-, ⟨r, found, assigned⟩, rows⟩ := known
    have same : Keeps p db (db.update (·.wuid = wuid) (·.answered clientid errorcode failedcommand now)) := by
      refine keeps_update (fun _ => rfl) fun r' member name _ => ?_
      obtain rfl : r' = r := List.inj_on_of_nodup_map unique member (List.mem_of_find?_eq_some found)
        ((of_decide_eq_true name).trans (WuDb.wuid_of_getByWuid found).symm)
      rw [assigned]
      constructor <;> cases errorcode <;> simp [WuRow.answered, WuStatus.isClosed, WuStatus.isReceived]
    exact ⟨rows ▸ same.unique, (congrArg _ rows).trans same.count, rows ▸ same.rows⟩

theorem keeps_assign (unique : (db.rows.map WuRow.wuid).Nodup) {clientid : Text} {wu : Workunit}
    (ok : db.assign clientid now = some (wu, db')) : Keeps p db db' := by
  obtain ⟨r, member, available, -, rfl⟩ := WuDb.assign_some ok
  refine keeps_update (fun _ => rfl) fun r' member' name _ => ?_
  obtain rfl : r' = r := List.inj_on_of_nodup_map unique member' member (of_decide_eq_true name)
  rw [available]
  constructor <;> simp [WuStatus.isClosed, WuStatus.isReceived]

theorem keeps_create {wu : Workunit} (other : p.owns wu.id = false) (ok : db.create wu = .ok db') : Keeps p db db' := by
  refine ⟨fun unique => WuDb.nodup_create unique ok, ?_, fun r member _ => ?_⟩
  · obtain ⟨-, rfl⟩ := WuDb.create_ok ok
    have none : [wu.newRow].countP p.isOutstanding = 0 := by
      rw [List.countP_singleton, TaskParams.isOutstanding, show wu.newRow.wuid = wu.id from rfl, other]
      rfl
    rw [WuDb.countOutstanding, List.countP_append, none]
    rfl
  · obtain ⟨-, rfl⟩ := WuDb.create_ok ok
    exact ⟨r, List.mem_append_left _ member, rfl, lasts_refl _⟩

/-! ## Closing and creating a row -/

theorem countOutstanding_create {wu : Workunit} (own : p.owns wu.id = true) (ok : db.create wu = .ok db') :
    db'.countOutstanding p = db.countOutstanding p + 1 := by
  obtain ⟨-, rfl⟩ := WuDb.create_ok ok
  have one : [wu.newRow].countP p.isOutstanding = 1 := by
    rw [List.countP_singleton, TaskParams.isOutstanding, show wu.newRow.wuid = wu.id from rfl, own]
    rfl
  rw [WuDb.countOutstanding, List.countP_append, one]
  rfl

theorem Targeted.create {wu : Workunit} (targeted : Targeted p db todo) (ok : db.create wu = .ok db') :
    Targeted p db' todo := by
  obtain ⟨-, rfl⟩ := WuDb.create_ok ok
  refine ⟨targeted.nodup, fun wuid member => ?_, fun wuid ok member => ?_, targeted.own⟩
  · obtain ⟨r, there, rest⟩ := targeted.outstanding wuid member
    exact ⟨r, List.mem_append_left _ there, rest⟩
  · obtain ⟨r, there, rest⟩ := targeted.received wuid ok member
    exact ⟨r, List.mem_append_left _ there, rest⟩

variable {f : WuRow → WuRow} {wuid : WuName}

theorem countOutstanding_close (unique : (db.rows.map WuRow.wuid).Nodup)
    (closed : ∀ r, (f r).status.isClosed = true) {r : WuRow} (member : r ∈ db.rows)
      (outstanding : p.isOutstanding r = true) :
    (db.update (·.wuid = r.wuid) f).countOutstanding p + 1 = db.countOutstanding p := by
  have count := countP_updateWhere_key (f := f) unique p.isOutstanding member
  have after : p.isOutstanding (f r) = false := by
    rw [TaskParams.isOutstanding, closed, Bool.not_true, Bool.and_false]
  rw [outstanding, after] at count
  exact count

theorem Targeted.close (targeted : Targeted p db (a :: todo)) (target : a.target = some wuid) :
    Targeted p (db.update (·.wuid = wuid) f) todo := by
  have rest := targeted.tail
  have nodup := targeted.nodup
  rw [targets_cons, target] at nodup
  have absent : wuid ∉ targets todo := (List.nodup_cons.mp nodup).1
  have untouched {r : WuRow} (there : r ∈ db.rows) (member : r.wuid ∈ targets todo) :
      r ∈ (db.update (·.wuid = wuid) f).rows := by
    refine mem_updateWhere.mpr ⟨r, there, (if_neg fun same => absent ?_).symm⟩
    exact of_decide_eq_true same ▸ member
  refine ⟨rest.nodup, fun name member => ?_, fun name ok member => ?_, rest.own⟩
  · obtain ⟨r, there, rfl, outstanding⟩ := rest.outstanding name member
    exact ⟨r, untouched there member, rfl, outstanding⟩
  · obtain ⟨r, there, rfl, received⟩ := rest.received name ok member
    exact ⟨r, untouched there (List.mem_filterMap.mpr ⟨_, member, rfl⟩), rfl, received⟩

theorem length_targets_le (targeted : Targeted p db todo) : (targets todo).length ≤ db.countOutstanding p := by
  have subset : targets todo ⊆ (db.rows.filter p.isOutstanding).map WuRow.wuid := by
    intro wuid member
    obtain ⟨r, there, rfl, outstanding⟩ := targeted.outstanding wuid member
    exact List.mem_map.mpr ⟨r, List.mem_filter.mpr ⟨there, outstanding⟩, rfl⟩
  have bound := (List.subperm_of_subset targeted.nodup subset).length_le
  rw [List.length_map, ← List.countP_eq_length_filter] at bound
  exact bound

variable {t t' : TaskState}

theorem outstanding_add (t : TaskState) (key : Counter) (z : ℤ) :
    (t.add key z).outstanding = t.outstanding + (Action.count key z).owes := by
  cases key <;> simp [TaskState.outstanding, TaskState.add, Action.owes, Function.update] <;> ring

/-- The counters and the rows of a task whose driver has still to do `todo`. -/
structure Balanced (p : TaskParams) (t : TaskState) (todo : List Action) : Prop where
  unique : (t.db.rows.map WuRow.wuid).Nodup
  balance : t.outstanding + owed todo = t.db.countOutstanding p
  planned : Planned todo
  targeted : Targeted p t.db todo

theorem Balanced.keeps (balanced : Balanced p t todo) (keeps : Keeps p t.db db') :
    Balanced p { t with db := db' } todo :=
  ⟨keeps.unique balanced.unique, (keeps.count.symm ▸ balanced.balance :), balanced.planned,
    balanced.targeted.keeps keeps⟩

theorem Balanced.nonneg (balanced : Balanced p t todo) : 0 ≤ t.outstanding := by
  have enough : owed todo ≤ (targets todo).length := by
    cases todo with
    | nil => exact le_rfl
    | cons a todo => exact balanced.planned.1
  have bound := length_targets_le balanced.targeted
  have balance := balanced.balance
  omega

theorem Balanced.assertion (balanced : Balanced p t (.assertOutstanding :: todo)) : 1 ≤ t.outstanding := by
  obtain ⟨-, test, some, -⟩ := balanced.planned
  have bound := length_targets_le balanced.targeted.tail
  have positive := List.length_pos_of_ne_nil (some rfl)
  have balance := balanced.balance
  rw [owed_cons, test rfl] at balance
  simp only [Action.owes] at balance
  omega

theorem Balanced.close (balanced : Balanced p t (a :: todo)) (target : a.target = some wuid) (owes : a.owes = 1)
    (keeps : ∀ r, (f r).wuid = r.wuid) (closed : ∀ r, (f r).status.isClosed = true) :
    Balanced p { t with db := t.db.update (·.wuid = wuid) f } todo := by
  obtain ⟨r, there, rfl, outstanding⟩ := balanced.targeted.outstanding wuid (by simp [target])
  refine ⟨(map_key_updateWhere keeps).symm ▸ balanced.unique, ?_, balanced.planned.2.2.2,
    balanced.targeted.close target⟩
  have count := countOutstanding_close balanced.unique closed there outstanding
  have balance := balanced.balance
  rw [owed_cons, owes] at balance
  show t.outstanding + owed todo = ((t.db.update (·.wuid = r.wuid) f).countOutstanding p : ℤ)
  omega

theorem Balanced.run (balanced : Balanced p t (a :: todo)) (ran : a.Ran p now t t') : Balanced p t' todo := by
  have balance := balanced.balance
  rw [owed_cons] at balance
  have unchanged (owes : a.owes = 0) : Balanced p t todo := by
    refine ⟨balanced.unique, ?_, balanced.planned.2.2.2, balanced.targeted.tail⟩
    rw [owes] at balance
    omega
  cases ran with
  | count key z =>
    refine ⟨balanced.unique, ?_, balanced.planned.2.2.2, balanced.targeted.tail⟩
    rw [outstanding_add, add_assoc]
    exact balance
  | create wu db created =>
    have count := countOutstanding_create (balanced.targeted.own wu (.head _)) created
    refine ⟨WuDb.nodup_create balanced.unique created, ?_, balanced.planned.2.2.2,
      balanced.targeted.tail.create created⟩
    show t.outstanding + owed todo = (db.countOutstanding p : ℤ)
    simp only [Action.owes] at balance
    omega
  | cancel wuid => exact balanced.close rfl rfl (fun _ => rfl) fun _ => rfl
  | unknown wuid ok absent =>
    obtain ⟨r, there, rfl, -⟩ := balanced.targeted.received wuid ok (.head _)
    rw [WuDb.getByWuid_of_mem balanced.unique there] at absent
    cases absent
  | verification wuid ok r found received =>
    refine balanced.close rfl rfl (fun _ => rfl) fun r => ?_
    cases ok <;> rfl
  | _ => exact unchanged rfl

theorem Balanced.raise {e : TaskError} (balanced : Balanced p t (a :: todo))
    (fresh : ∀ wu, a = .create wu → ∀ r ∈ t.db.rows, r.wuid ≠ wu.id) (raised : a.run p now t = .error e) :
    Balanced p t [] := by
  have balance := balanced.balance
  rw [owed_cons] at balance
  have test (here : a.isTest = true) (owes : a.owes = 0) : Balanced p t [] := by
    refine ⟨balanced.unique, ?_, trivial, ⟨List.nodup_nil, ?_, ?_, ?_⟩⟩
    · rw [owes, balanced.planned.2.1 here] at balance
      exact balance
    · simp
    · simp
    · simp
  cases a with
  | count key z => cases raised
  | create wu =>
    rw [Action.run_create (fresh wu rfl)] at raised
    cases raised
  | cancel wuid => cases raised
  | verification wuid ok =>
    obtain ⟨r, there, rfl, received⟩ := balanced.targeted.received wuid ok (.head _)
    have status : r.status = .receivedOk ∨ r.status = .receivedError := by
      cases here : r.status <;> simp [here, WuStatus.isReceived] at received ⊢
    rw [Action.run_verification (WuDb.getByWuid_of_mem balanced.unique there) status] at raised
    cases raised
  | _ => exact test rfl rfl

/-! ## The operations begin -/

theorem Balanced.begins (balanced : Balanced p t []) (operational : Operational todo)
    (targeted : Targeted p t.db todo) :
    Balanced p t todo := by
  refine ⟨balanced.unique, ?_, operational.planned, targeted⟩
  rw [operational.owed]
  exact balanced.balance

theorem targeted_submitWu {wu : Workunit} (own : p.owns wu.id = true) : Targeted p db (TaskParams.submitWu wu) := by
  constructor <;> simp [TaskParams.submitWu, Action.target, own]

theorem owns_nextName (wuid : WuName) : p.owns (p.nextName wuid) = true := decide_eq_true ⟨rfl, rfl⟩

theorem targeted_resubmitOneWu (maxresubmit : ℤ) (wu : Workunit) : Targeted p db (p.resubmitOneWu maxresubmit wu) := by
  rw [TaskParams.resubmitOneWu]
  split
  · constructor <;> simp
  · exact targeted_submitWu (owns_nextName _)

theorem Targeted.append (targeted : Targeted p db todo) (later : Targeted p db todo')
    (different : ∀ wuid ∈ targets todo, wuid ∉ targets todo') : Targeted p db (todo ++ todo') := by
  refine ⟨?_, fun wuid member => ?_, fun wuid ok member => ?_, fun wu member => ?_⟩
  · rw [targets_append]
    exact List.nodup_append.mpr ⟨targeted.nodup, later.nodup,
      fun wuid first wuid' second same => different wuid first (same ▸ second)⟩
  · rw [targets_append] at member
    exact (List.mem_append.mp member).elim (targeted.outstanding wuid) (later.outstanding wuid)
  · exact (List.mem_append.mp member).elim (targeted.received wuid ok) (later.received wuid ok)
  · exact (List.mem_append.mp member).elim (targeted.own wu) (later.own wu)

theorem targeted_verification {r : WuRow} (ok : Bool) (member : r ∈ db.rows) (own : p.owns r.wuid = true)
    (received : r.status.isReceived = true) : Targeted p db (TaskParams.verification r.wuid ok) := by
  have outstanding : p.isOutstanding r = true := by
    rw [TaskParams.isOutstanding, own]
    cases status : r.status <;> first | rfl | simp [status, WuStatus.isReceived] at received
  refine ⟨List.nodup_singleton r.wuid, fun wuid target => ?_, fun wuid ok' target => ?_, fun wu target => ?_⟩
  · obtain rfl : wuid = r.wuid := by simpa [TaskParams.verification, Action.target] using target
    exact ⟨r, member, rfl, outstanding⟩
  · obtain ⟨rfl, -⟩ : wuid = r.wuid ∧ ok' = ok := by simpa [TaskParams.verification] using target
    exact ⟨r, member, rfl, received⟩
  · simp [TaskParams.verification] at target

theorem begins_sendResult {column : Text → Option ℤ} {message : ResultInfo} {processed : Option Bool}
    (member : message.row ∈ db.rows) (own : p.owns message.row.wuid = true)
    (received : message.row.status.isReceived = true) (ok : p.sendResult column message processed = .ok todo)
    (seen : todo ≠ [.cancel message.row.wuid]) : Operational todo ∧ Targeted p db todo := by
  have verifies (good : Bool) : Operational (TaskParams.verification message.row.wuid good) ∧
      Targeted p db (TaskParams.verification message.row.wuid good) :=
    ⟨operational_verification _ _, targeted_verification good member own received⟩
  rw [TaskParams.sendResult, TaskParams.handleErrorResult] at ok
  split at ok
  · cases ok
  · split at ok
    · cases ok
      cases processed with
      | none => exact absurd rfl seen
      | some good => exact verifies good
    · cases ok
      obtain ⟨operational, targeted⟩ := verifies false
      have tests : Operational [.checkFailed, .assertReceivedError message.row.wuid, .count .failed 1] := by
        constructor <;> simp [Planned, Action.owes, Action.isTest, Action.target]
      refine ⟨tests.append (operational.append (operational_resubmitOneWu _ _)), ?_⟩
      have rest := targeted.append (targeted_resubmitOneWu (p := p) p.maxwuerror message.row.wu) fun wuid _ => by
        rw [targets_resubmitOneWu]
        exact List.not_mem_nil
      have nothing : Targeted p db [.checkFailed, .assertReceivedError message.row.wuid, .count .failed 1] := by
        constructor <;> simp [Action.target]
      exact nothing.append rest (by simp [Action.target])

theorem targeted_resubmitOne {r : WuRow} (member : r ∈ db.rows) (outstanding : p.isOutstanding r = true) :
    Targeted p db (p.resubmitOne r) := by
  refine Targeted.append ?_ (targeted_resubmitOneWu _ _) fun wuid _ => ?_
  · refine ⟨List.nodup_singleton r.wuid, fun wuid target => ?_, fun wuid ok target => ?_, fun wu target => ?_⟩
    · obtain rfl : wuid = r.wuid := by simpa [TaskParams.cancelWu, Action.target] using target
      exact ⟨r, member, rfl, outstanding⟩
    · simp [TaskParams.cancelWu] at target
    · simp [TaskParams.cancelWu] at target
  · rw [targets_resubmitOneWu]
    exact List.not_mem_nil

theorem targeted_flatMap {l : List WuRow} (nodup : (l.map WuRow.wuid).Nodup)
    (rows : ∀ r ∈ l, r ∈ db.rows ∧ p.isOutstanding r = true) : Targeted p db (l.flatMap p.resubmitOne) := by
  induction l with
  | nil => constructor <;> simp
  | cons r l ih =>
    rw [List.map_cons, List.nodup_cons] at nodup
    obtain ⟨member, outstanding⟩ := rows r (.head _)
    rw [List.flatMap_cons]
    refine (targeted_resubmitOne member outstanding).append
      (ih nodup.2 fun r' there => rows r' (.tail _ there)) fun wuid target => ?_
    rw [targets_resubmitOne, List.mem_singleton] at target
    rw [targets_flatMap, target]
    exact nodup.1

theorem targeted_query (unique : (db.rows.map WuRow.wuid).Nodup) {cond : WuRow → Bool}
    (open' : ∀ r, cond r = true → r.status.isClosed = false)
      (own : ∀ r ∈ db.rows, cond r = true → p.owns r.wuid = true) :
    Targeted p db ((db.query cond).flatMap p.resubmitOne) := by
  refine targeted_flatMap (unique.sublist (List.filter_sublist.map _)) fun r found => ?_
  obtain ⟨member, selected⟩ := List.mem_filter.mp found
  refine ⟨member, ?_⟩
  rw [TaskParams.isOutstanding, own r member selected, open' r selected]
  rfl

def Undisturbed (p : TaskParams) (column : Text → Option ℤ) (s : Driver) : Driver.Move → Prop
  | .run _ => ∀ wu todo, s.todo = .create wu :: todo → ∀ r ∈ s.task.db.rows, r.wuid ≠ wu.id
  | .stop => owed s.todo = 0
  | .sendResult processed => ∀ message, s.task.db.oneResultInfo = some message →
    p.sendResult column message processed ≠ .ok [.cancel message.row.wuid]
  | .queryLate cutoff => ∀ r ∈ s.task.db.rows, r.late cutoff = true → p.owns r.wuid = true
  | .queryNeedResubmit => ∀ r ∈ s.task.db.rows, r.status = .needResubmit → p.owns r.wuid = true
  | .cancelAvailable => ∀ r ∈ s.task.db.rows, r.status = .available → p.owns r.wuid = false
  | .other (.cancel wuid) _ => p.owns wuid = false
  | _ => True

structure DriverBalanced (p : TaskParams) (s : Driver) : Prop where
  balanced : Balanced p s.task s.todo
  late : s.operation = .queryLate → ∀ wuid ∈ targets s.todo, ∃ r ∈ s.task.db.rows,
    r.wuid = wuid ∧ p.owns wuid = true ∧ r.status ≠ .needResubmit

variable {column : Text → Option ℤ} {s s' : Driver} {m : Driver.Move}

theorem DriverBalanced.keeps (inv : DriverBalanced p s) (keeps : Keeps p s.task.db db') :
    DriverBalanced p { s with task := { s.task with db := db' } } := by
  refine ⟨inv.balanced.keeps keeps, fun operation wuid member => ?_⟩
  obtain ⟨r, there, rfl, own, status⟩ := inv.late operation wuid member
  obtain ⟨r', there', name, lasts⟩ := keeps.rows r there own
  exact ⟨r', there', name, own, fun same => status (lasts.needResubmit same)⟩

theorem Balanced.driver (balanced : Balanced p t todo) {operation : Operation} (other : operation ≠ .queryLate) :
    DriverBalanced p ⟨t, operation, todo⟩ := ⟨balanced, fun same => absurd same other⟩

theorem Balanced.idle (inv : Balanced p t todo) (none : todo = []) : Balanced p t [] := none ▸ inv

theorem Balanced.stopped (balanced : Balanced p t todo) (none : owed todo = 0) : Balanced p t [] := by
  refine ⟨balanced.unique, ?_, trivial, ?_⟩
  · rw [← balanced.balance, none]
    rfl
  · constructor <;> simp

theorem late_open {cutoff : ℕ} (r : WuRow) (late : r.late cutoff = true) : r.status.isClosed = false := by
  rw [(of_decide_eq_true late).1]
  rfl

theorem DriverBalanced.queryLate (inv : DriverBalanced p s) (idle : s.Idle) {cutoff : ℕ}
    (own : ∀ r ∈ s.task.db.rows, r.late cutoff = true → p.owns r.wuid = true) :
    DriverBalanced p ⟨s.task, .queryLate, (s.task.db.query (·.late cutoff)).flatMap p.resubmitOne⟩ := by
  refine ⟨(inv.balanced.idle idle.todo).begins (operational_flatMap operational_resubmitOne _)
    (targeted_query inv.balanced.unique late_open own), fun _ wuid target => ?_⟩
  rw [targets_flatMap] at target
  obtain ⟨r, found, rfl⟩ := List.mem_map.mp target
  obtain ⟨member, late⟩ := List.mem_filter.mp found
  refine ⟨r, member, rfl, own r member late, ?_⟩
  rw [(of_decide_eq_true late).1]
  exact fun same => by cases same

theorem DriverBalanced.queryNeedResubmit (inv : DriverBalanced p s) (between : s.operation = .queryLate)
    (own : ∀ r ∈ s.task.db.rows, r.status = .needResubmit → p.owns r.wuid = true) :
    DriverBalanced p ⟨s.task, .resubmitTimedOutWus,
      s.todo ++ (s.task.db.query (·.status = .needResubmit)).flatMap p.resubmitOne⟩ := by
  have unique := inv.balanced.unique
  have later : Operational ((s.task.db.query (·.status = .needResubmit)).flatMap p.resubmitOne) :=
    operational_flatMap operational_resubmitOne _
  have targeted : Targeted p s.task.db ((s.task.db.query (·.status = .needResubmit)).flatMap p.resubmitOne) := by
    refine targeted_query unique (fun r needed => ?_) fun r member needed => own r member (of_decide_eq_true needed)
    rw [of_decide_eq_true needed]
    rfl
  refine Balanced.driver ⟨unique, ?_, planned_append inv.balanced.planned later,
    inv.balanced.targeted.append targeted fun wuid first second => ?_⟩ fun same => by cases same
  · rw [owed_append, later.owed, add_zero]
    exact inv.balanced.balance
  · obtain ⟨r, member, rfl, -, status⟩ := inv.late between wuid first
    rw [targets_flatMap] at second
    obtain ⟨r', found, name⟩ := List.mem_map.mp second
    obtain ⟨member', needed⟩ := List.mem_filter.mp found
    obtain rfl : r' = r := List.inj_on_of_nodup_map unique member' member name
    exact status (of_decide_eq_true needed)

theorem oneResultInfo_some {message : ResultInfo} (found : db.oneResultInfo = some message) :
    message.row ∈ db.rows ∧ message.row.status.isReceived = true := by
  obtain ⟨r, result, rfl⟩ := Option.map_eq_some_iff.mp found
  rw [WuDb.getOneResult] at result
  cases Option.or_eq_some_iff.mp result with
  | inl good =>
    refine ⟨List.mem_of_find?_eq_some good, ?_⟩
    have status : r.status = .receivedOk := by simpa using List.find?_some good
    rw [status]
    rfl
  | inr bad =>
    refine ⟨List.mem_of_find?_eq_some bad.2, ?_⟩
    have status : r.status = .receivedError := by simpa using List.find?_some bad.2
    rw [status]
    rfl

theorem keeps_other {a : Action} (other : a.ofOther p = true) (clean : ∀ wuid, a = .cancel wuid → p.owns wuid = false)
    (ran : a.Ran p now t t') : t'.state = t.state ∧ Keeps p t.db t'.db := by
  cases ran with
  | create wu db created => exact ⟨rfl, keeps_create (by simpa [Action.ofOther] using other) created⟩
  | cancel wuid =>
    refine ⟨rfl, keeps_update (fun _ => rfl) fun r _ name own => ?_⟩
    rw [of_decide_eq_true name, clean wuid rfl] at own
    cases own
  | unknown => exact ⟨rfl, keeps_refl _⟩
  | verification wuid ok r found received =>
    refine ⟨rfl, keeps_update (fun _ => rfl) fun r _ name own => ?_⟩
    rw [of_decide_eq_true name, show p.owns wuid = false by simpa [Action.ofOther] using other] at own
    cases own
  | _ => cases other

theorem DriverBalanced.step (inv : DriverBalanced p s) (clean : Undisturbed p column s m)
    (ok : Driver.Step p column s m s') : DriverBalanced p s' := by
  have unique := inv.balanced.unique
  cases ok with
  | result answered => exact inv.keeps (keeps_result unique answered)
  | assign assigned => exact inv.keeps (keeps_assign unique assigned)
  | submit idle own =>
    exact ((inv.balanced.idle idle.todo).begins (operational_submitWu _) (targeted_submitWu own)).driver
      fun same => by cases same
  | sendResult idle found own ok =>
    obtain ⟨member, received⟩ := oneResultInfo_some found
    obtain ⟨operational, targeted⟩ := begins_sendResult member own received ok fun same => clean _ found (same ▸ ok)
    exact ((inv.balanced.idle idle.todo).begins operational targeted).driver fun same => by cases same
  | queryLate idle => exact inv.queryLate idle clean
  | queryNeedResubmit between => exact inv.queryNeedResubmit between clean
  | run other todo ran => exact ((todo ▸ inv.balanced :).run (Action.ran ran)).driver other
  | raise other todo raised =>
    exact ((todo ▸ inv.balanced :).raise (fun wu same => clean wu _ (same ▸ todo)) raised).driver fun same =>
      by cases same
  | stop => exact (inv.balanced.stopped clean).driver fun same => by cases same
  | cancelAvailable idle =>
    refine inv.keeps (keeps_update (fun _ => rfl) fun r member available own => ?_)
    rw [clean r member (of_decide_eq_true available)] at own
    cases own
  | @other a now task idle foreign ran =>
    have elsewhere (wuid : WuName) (same : a = .cancel wuid) : p.owns wuid = false := by
      subst same
      exact clean
    obtain ⟨state, keeps⟩ := keeps_other foreign elsewhere (Action.ran ran)
    obtain ⟨state', db⟩ := task
    obtain rfl : state' = s.task.state := state
    exact inv.keeps keeps

theorem outstanding_eq (p : TaskParams) (column : Text → Option ℤ) (s s' : Driver)
    (unique : (s.task.db.rows.map WuRow.wuid).Nodup) (idle : s.Idle)
      (start : s.task.outstanding = s.task.db.countOutstanding p)
    (run : Relation.ReflTransGen (fun s s' => ∃ m, Undisturbed p column s m ∧ Driver.Step p column s m s') s s') :
    (owed s'.todo = 0 → s'.task.outstanding = s'.task.db.countOutstanding p) ∧ 0 ≤ s'.task.outstanding ∧
      ∀ todo, s'.todo = .assertOutstanding :: todo → 1 ≤ s'.task.outstanding := by
  have first : DriverBalanced p s := by
    refine ⟨⟨unique, ?_, ?_, ?_⟩, fun operation => absurd operation idle.operation⟩
    · rw [idle.todo]
      exact (add_zero _).trans start
    · rw [idle.todo]
      exact trivial
    · rw [idle.todo]
      constructor <;> simp
  have inv := invariant_of_run (DriverBalanced p) (fun s s' inv ⟨m, clean, ok⟩ => inv.step clean ok) first run
  refine ⟨fun none => ?_, inv.balanced.nonneg, fun todo next => (next ▸ inv.balanced :).assertion⟩
  rw [← inv.balanced.balance, none, add_zero]

def newDriver : Driver := ⟨⟨fun _ => 0, ⟨[], []⟩⟩, .started, []⟩

theorem newDriver_idle : newDriver.Idle := ⟨rfl, fun same => by cases same⟩

theorem outstanding_eq_first :
  ∃ s', Relation.ReflTransGen (fun s s' => ∃ m, Undisturbed sievingParams (fun _ => none) s m ∧
    Driver.Step sievingParams (fun _ => none) s m s') newDriver s' ∧ s'.todo = [] ∧ s'.task.db.rows.length = 1 ∧
    s'.task.outstanding = s'.task.db.countOutstanding sievingParams := by
  have run : Relation.ReflTransGen (fun s s' => ∃ m, Undisturbed sievingParams (fun _ => none) s m ∧
    Driver.Step sievingParams (fun _ => none) s m s') newDriver newDriver := .refl
  replace run := run.tail ⟨.submit firstWorkunit, trivial, .submit newDriver_idle rfl rfl (by decide)⟩
  replace run := run.tail ⟨.run 0, fun _ _ same => (by cases same), .run (by decide) (by rfl) (by rfl)⟩
  replace run := run.tail ⟨.run 0, fun _ _ _ r member => (by cases member), .run (by decide) (by rfl) (by rfl)⟩
  exact ⟨_, run, rfl, rfl, (outstanding_eq _ _ newDriver _ List.nodup_nil newDriver_idle rfl run).1 rfl⟩

theorem assertion_fails :
  ∃ s', Relation.ReflTransGen (fun s s' => ∃ m, Driver.Step sievingParams (fun _ => none) s m s')
    newDriver s' ∧ s'.todo.head? = some .assertOutstanding ∧ s'.task.outstanding = 0 ∧
    s'.task.db.countOutstanding sievingParams = 1 := by
  have run : Relation.ReflTransGen (fun s s' => ∃ m, Driver.Step sievingParams (fun _ => none) s m s')
    newDriver newDriver := .refl
  replace run := run.tail ⟨.submit firstWorkunit, .submit newDriver_idle rfl rfl (by decide)⟩
  replace run := run.tail ⟨.run 0, .run (by decide) (by rfl) (by rfl)⟩
  replace run := run.tail ⟨.run 0, .run (by decide) (by rfl) (by rfl)⟩
  replace run := run.tail ⟨.assign ['a'] 1, .assign (by rfl)⟩
  replace run := run.tail ⟨.result firstWuid ['a'] [] none none 2, .result (by rfl)⟩
  replace run := run.tail ⟨.sendResult (some true), .sendResult ⟨rfl, by decide⟩ (by rfl) (by rfl) (by rfl)⟩
  replace run := run.tail ⟨.run 3, .run (by decide) (by rfl) (by rfl)⟩
  replace run := run.tail ⟨.run 3, .run (by decide) (by rfl) (by rfl)⟩
  replace run := run.tail ⟨.stop, .stop⟩
  replace run := run.tail ⟨.sendResult (some true), .sendResult ⟨rfl, by decide⟩ (by rfl) (by rfl) (by rfl)⟩
  exact ⟨_, run, rfl, rfl, rfl⟩

end CadoNfs.Cadofactor
