import CadoNfs.Cadofactor.ClientServerTask
import CadoNfs.Lib.Run

/-!
# Workunits that time out

What the cancellations of `resubmit_timed_out_wus` do to the statuses.
-/

namespace CadoNfs.Cadofactor.TimedOut

open Lib Driver

structure State where
  driver : Driver
  log : List StatusChange

def cancellations (s : Driver) : Move → List StatusChange
  | .run _ =>
    match s.operation, s.todo with
    | .resubmitTimedOutWus, .cancel wuid :: _ => (cancelUpdate (·.wuid = wuid)).events s.task.db
    | _, _ => []
  | _ => []

variable (p : TaskParams) (column : Text → Option ℤ)

def Step (s : State) (m : Move) (s' : State) : Prop :=
  ∃ driver, Driver.Step p column s.driver m driver ∧ s' = ⟨driver, cancellations s.driver m ++ s.log⟩

def Undisturbed (s : State) (m : Move) : Prop :=
  ∀ wuid clientid files errorcode failedcommand now db, m = .result wuid clientid files errorcode failedcommand now →
    s.driver.task.db.result wuid clientid files errorcode failedcommand now = .ok (true, db) →
    Action.cancel wuid ∉ s.driver.todo

structure Inv (s : State) : Prop where
  unique : (s.driver.task.db.rows.map WuRow.wuid).Nodup
  unreceived : s.driver.operation = .queryLate ∨ s.driver.operation = .resubmitTimedOutWus →
    ∀ wuid, Action.cancel wuid ∈ s.driver.todo → ∀ r ∈ s.driver.task.db.rows, r.wuid = wuid →
      r.status.isReceived = false
  log : ∀ e ∈ s.log, e.old.isReceived = false

/-! ## What does not store a result -/

structure StoresNone (db db' : WuDb) : Prop where
  unique : (db.rows.map WuRow.wuid).Nodup → (db'.rows.map WuRow.wuid).Nodup
  received : ∀ r' ∈ db'.rows, r'.status.isReceived = true → ∃ r ∈ db.rows, r.wuid = r'.wuid ∧ r.status.isReceived = true

variable {p column} {db db' : WuDb} {now : ℕ}

theorem StoresNone.refl (db : WuDb) : StoresNone db db := ⟨id, fun r member received => ⟨r, member, rfl, received⟩⟩

theorem storesNone_update {cond : WuRow → Bool} {f : WuRow → WuRow} (wuid : ∀ r, (f r).wuid = r.wuid)
    (received : ∀ r, (f r).status.isReceived = false) : StoresNone db (db.update cond f) := by
  refine ⟨fun unique => (map_key_updateWhere wuid).symm ▸ unique, fun r' member there => ?_⟩
  obtain ⟨r, member', rfl⟩ := mem_updateWhere.mp member
  refine ⟨r, member', (key_updateWhere wuid r).symm, ?_⟩
  split at there
  · rw [received] at there
    cases there
  · exact there

theorem storesNone_create {wu : Workunit} (ok : db.create wu = .ok db') : StoresNone db db' := by
  refine ⟨fun unique => WuDb.nodup_create unique ok, fun r' member received => ?_⟩
  obtain ⟨-, rfl⟩ := WuDb.create_ok ok
  cases List.mem_append.mp member with
  | inl before => exact ⟨r', before, rfl, received⟩
  | inr last =>
    obtain rfl := List.mem_singleton.mp last
    cases received

theorem storesNone_run {t t' : TaskState} {action : Action} (ran : action.Ran p now t t') : StoresNone t.db t'.db := by
  cases ran with
  | create wu db created => exact storesNone_create created
  | cancel wuid => exact storesNone_update (fun _ => rfl) fun _ => rfl
  | verification wuid good r found received =>
    refine storesNone_update (fun _ => rfl) fun r => ?_
    cases good <;> rfl
  | _ => exact .refl _

variable {s s' : State} {m : Move}

theorem Inv.storesNone (inv : Inv s) {driver : Driver} {log : List StatusChange}
    (none : StoresNone s.driver.task.db driver.task.db)
    (some : driver.operation = .queryLate ∨ driver.operation = .resubmitTimedOutWus →
      s.driver.operation = .queryLate ∨ s.driver.operation = .resubmitTimedOutWus)
    (todo : ∀ wuid, .cancel wuid ∈ driver.todo → .cancel wuid ∈ s.driver.todo)
    (unreceived : ∀ e ∈ log, e.old.isReceived = false) : Inv ⟨driver, log⟩ := by
  refine ⟨none.unique inv.unique, fun operation wuid member r' there name => ?_, unreceived⟩
  by_contra received
  obtain ⟨r, before, same, received'⟩ := none.received r' there (Bool.eq_true_of_not_eq_false received)
  rw [inv.unreceived (some operation) wuid (todo wuid member) r before (same.trans name)] at received'
  cases received'

theorem Inv.result (inv : Inv s) {wuid : WuName} {clientid : Text} {files : List FileRow}
    {errorcode failedcommand : Option Text} {stored : Bool}
    (clean : stored = true → Action.cancel wuid ∉ s.driver.todo)
    (ok : s.driver.task.db.result wuid clientid files errorcode failedcommand now = .ok (stored, db')) :
    Inv ⟨{ s.driver with task := { s.driver.task with db := db' } }, s.log⟩ := by
  cases WuDb.result_ok ok with
  | inl unknown => exact unknown.2 ▸ inv
  | inr known =>
    obtain ⟨rfl, -, rows⟩ := known
    have keeps (r : WuRow) : (r.answered clientid errorcode failedcommand now).wuid = r.wuid := rfl
    refine ⟨?_, fun operation name member r' there same => ?_, inv.log⟩
    · rw [rows, map_key_updateWhere keeps]
      exact inv.unique
    · rw [rows] at there
      obtain ⟨r, before, rfl⟩ := mem_updateWhere.mp there
      have other : ¬ r.wuid = wuid := by
        rintro rfl
        rw [if_pos (decide_eq_true rfl)] at same
        exact clean rfl (same ▸ member)
      rw [if_neg (by simpa using other)] at same ⊢
      exact inv.unreceived operation name member r before same

theorem unreceived_of_query (unique : (db.rows.map WuRow.wuid).Nodup) {cond : WuRow → Bool}
    (selects : ∀ r, cond r = true → r.status.isReceived = false) {wuid : WuName}
    (member : .cancel wuid ∈ (db.query cond).flatMap p.resubmitOne) :
    ∀ r ∈ db.rows, r.wuid = wuid → r.status.isReceived = false := by
  intro r there name
  obtain ⟨r', found, member⟩ := List.mem_flatMap.mp member
  obtain ⟨there', selected⟩ := List.mem_filter.mp found
  have same : r = r' :=
    List.inj_on_of_nodup_map unique there there' (name.trans (TaskParams.cancel_mem_resubmitOne member))
  rw [same]
  exact selects r' selected

theorem late_unreceived {cutoff : ℕ} (r : WuRow) (late : r.late cutoff = true) : r.status.isReceived = false := by
  rw [(of_decide_eq_true late).1]
  rfl

theorem needResubmit_unreceived (r : WuRow) (needed : decide (r.status = .needResubmit) = true) :
    r.status.isReceived = false := by
  rw [of_decide_eq_true needed]
  rfl

theorem Inv.cancellations (inv : Inv s) : ∀ e ∈ cancellations s.driver m, e.old.isReceived = false := by
  intro e member
  cases m with
  | run now =>
    rw [TimedOut.cancellations] at member
    split at member
    · rename_i operation todo
      obtain ⟨r, there, name, rfl⟩ := Update.mem_events.mp member
      exact inv.unreceived (.inr operation) _ (todo ▸ List.mem_cons_self) r there (of_decide_eq_true name)
    · cases member
  | _ => cases member

theorem Inv.step (inv : Inv s) (clean : Undisturbed s m) (ok : Step p column s m s') : Inv s' := by
  obtain ⟨driver, ok, rfl⟩ := ok
  have logged : ∀ e ∈ TimedOut.cancellations s.driver m ++ s.log, e.old.isReceived = false := by
    intro e member
    cases List.mem_append.mp member with
    | inl new => exact inv.cancellations e new
    | inr old => exact inv.log e old
  cases ok with
  | result answered =>
    refine inv.result (fun known => ?_) answered
    subst known
    exact clean _ _ _ _ _ _ _ rfl answered
  | assign assigned =>
    obtain ⟨r, -, -, -, rfl⟩ := WuDb.assign_some assigned
    exact inv.storesNone (storesNone_update (fun _ => rfl) fun _ => rfl) id (fun _ => id) logged
  | submit => exact ⟨inv.unique, fun operation => by cases operation <;> contradiction, logged⟩
  | sendResult => exact ⟨inv.unique, fun operation => by cases operation <;> contradiction, logged⟩
  | queryLate => exact ⟨inv.unique, fun _ _ member => unreceived_of_query inv.unique late_unreceived member, logged⟩
  | queryNeedResubmit between =>
    refine ⟨inv.unique, fun _ wuid member => ?_, logged⟩
    cases List.mem_append.mp member with
    | inl late => exact inv.unreceived (.inl between) wuid late
    | inr needed => exact unreceived_of_query inv.unique needResubmit_unreceived needed
  | run _ todo ran =>
    exact inv.storesNone (storesNone_run (Action.ran ran)) id
      (fun _ member => todo ▸ List.mem_cons_of_mem _ member) logged
  | raise => exact ⟨inv.unique, fun operation => by cases operation <;> contradiction, logged⟩
  | stop => exact ⟨inv.unique, fun operation => by cases operation <;> contradiction, logged⟩
  | cancelAvailable => exact inv.storesNone (storesNone_update (fun _ => rfl) fun _ => rfl) id (fun _ => id) logged
  | other _ _ ran => exact inv.storesNone (storesNone_run (Action.ran ran)) id (fun _ => id) logged

/-- Undisturbed cancellations lose no result. -/
theorem loses_none (p : TaskParams) (column : Text → Option ℤ) (s s' : State)
    (unique : (s.driver.task.db.rows.map WuRow.wuid).Nodup) (idle : s.driver.todo = []) (start : s.log = [])
    (run : Relation.ReflTransGen (fun s s' => ∃ m, Undisturbed s m ∧ Step p column s m s') s s') :
    ∀ e ∈ s'.log, e.old.isReceived = false := by
  have first : Inv s := by
    refine ⟨unique, ?_, ?_⟩
    · simp [idle]
    · simp [start]
  exact (invariant_of_run Inv (fun s s' inv ⟨m, clean, ok⟩ => Inv.step inv clean ok) first run).log

/-! ## One late workunit -/

def lateRow : WuRow :=
  ⟨firstWorkunit, .assigned, some 0, some ['a'], none, none, none, none, none⟩

def lateState : State :=
  ⟨⟨⟨fun key => if key = .submitted then 1 else 0, ⟨[lateRow], []⟩⟩, .started, []⟩, []⟩

theorem lateState_idle : lateState.driver.Idle := ⟨rfl, fun same => by cases same⟩

theorem loses_none_late : ∃ s', Relation.ReflTransGen
    (fun s s' => ∃ m, Undisturbed s m ∧ Step sievingParams (fun _ => none) s m s') lateState s' ∧
    s'.log = [⟨firstWuid, .assigned, .cancelled⟩] ∧ ∀ e ∈ s'.log, e.old.isReceived = false := by
  have run : Relation.ReflTransGen
      (fun s s' => ∃ m, Undisturbed s m ∧ Step sievingParams (fun _ => none) s m s') lateState lateState := .refl
  replace run := run.tail ⟨.queryLate 1, fun _ _ _ _ _ _ _ same => (by cases same), _, .queryLate lateState_idle, rfl⟩
  replace run := run.tail ⟨.queryNeedResubmit, fun _ _ _ _ _ _ _ same => (by cases same), _, .queryNeedResubmit rfl,
    rfl⟩
  replace run := run.tail ⟨.run 2, fun _ _ _ _ _ _ _ same => (by cases same), _, .run (by decide) (by rfl)
    (by rfl), rfl⟩
  replace run := run.tail ⟨.run 2, fun _ _ _ _ _ _ _ same => (by cases same), _, .run (by decide) (by rfl)
    (by rfl), rfl⟩
  replace run := run.tail ⟨.run 2, fun _ _ _ _ _ _ _ same => (by cases same), _, .run (by decide) (by rfl)
    (by rfl), rfl⟩
  exact ⟨_, run, rfl, loses_none _ _ lateState _ (List.nodup_singleton firstWuid) rfl rfl run⟩

theorem late_result_lost : ∃ s', Relation.ReflTransGen (fun s s' => ∃ m, Step sievingParams (fun _ => none) s m s')
    lateState s' ∧ ⟨firstWuid, .receivedOk, .cancelled⟩ ∈ s'.log ∧
    (s'.driver.task.db.rows.map fun r => (r.wuid.attempt, r.status)) = [(none, .cancelled), (some 2, .available)] := by
  have run : Relation.ReflTransGen (fun s s' => ∃ m, Step sievingParams (fun _ => none) s m s') lateState lateState :=
    .refl
  replace run := run.tail ⟨.queryLate 1, _, .queryLate lateState_idle, rfl⟩
  replace run := run.tail ⟨.queryNeedResubmit, _, .queryNeedResubmit rfl, rfl⟩
  replace run := run.tail ⟨.result firstWuid ['a'] [] none none 2, _, .result (by rfl), rfl⟩
  replace run := run.tail ⟨.run 2, _, .run (by decide) (by rfl) (by rfl), rfl⟩
  replace run := run.tail ⟨.run 2, _, .run (by decide) (by rfl) (by rfl), rfl⟩
  replace run := run.tail ⟨.run 2, _, .run (by decide) (by rfl) (by rfl), rfl⟩
  replace run := run.tail ⟨.run 2, _, .run (by decide) (by rfl) (by rfl), rfl⟩
  replace run := run.tail ⟨.run 2, _, .run (by decide) (by rfl) (by rfl), rfl⟩
  exact ⟨_, run, List.mem_cons_self, rfl⟩

end CadoNfs.Cadofactor.TimedOut
