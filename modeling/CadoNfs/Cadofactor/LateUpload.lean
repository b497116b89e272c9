import CadoNfs.Cadofactor.Assignment

/-!
# Late and repeated uploads

The uploads of the Rust server between their statements, with its requests and its background task and the operations of
the driver on the same database.
-/

namespace CadoNfs.Cadofactor.LateUpload

open Lib

structure Upload where
  rowid : WuName
  clientid : Text
  errorcode : Option ℤ
  files : List FileRow

structure State where
  db : WuDb
  uploads : List Upload
  requests : List (Text × WuRow)
  log : List StatusChange

inductive Action
  | uploadSelect (wuid clientid : Text) (errorcode : Option ℤ) (files : List FileRow)
  | uploadInsert (i : ℕ) (fails : Bool)
  | uploadUpdate (i : ℕ) (now : ℕ)
  | requestSelect (clientid : Text)
  | requestUpdate (i : ℕ) (now : ℕ)
  | reclaim (cutoff : ℕ)
  | create (wu : Workunit)
  | verification (wuid : WuName) (ok : Bool) (now : ℕ)
  | cancel (wuid : WuName)
  | cancelAllAvailable

def verificationUpdate (wuid : WuName) (ok : Bool) (now : ℕ) : Update :=
  ⟨(·.wuid = wuid), (·.verified ok now), fun _ => rfl⟩

def handUpdate (rowid : WuName) (clientid : Text) (now : ℕ) : Update :=
  ⟨fun r => r.wuid = rowid ∧ r.status = .available, (·.handedTo clientid now), fun _ => rfl⟩

def reclaimUpdate (cutoff : ℕ) : Update := ⟨(·.late cutoff), WuRow.reclaimed, fun _ => rfl⟩

def recordUpdate (u : Upload) (now : ℕ) : Update :=
  ⟨(·.wuid = u.rowid), (·.recorded u.clientid u.errorcode now), fun _ => rfl⟩

def Action.update (s : State) : Action → Option (Update × List Upload × List (Text × WuRow))
  | uploadUpdate i now => (s.uploads[i]?.filter (·.files.isEmpty)).map fun u =>
      (recordUpdate u now, s.uploads.eraseIdx i, s.requests)
  | requestUpdate i now => s.requests[i]?.map fun (clientid, r) =>
      (handUpdate r.wuid clientid now, s.uploads, s.requests.eraseIdx i)
  | reclaim cutoff => some (reclaimUpdate cutoff, s.uploads, s.requests)
  | verification wuid ok now => ((s.db.getByWuid wuid).filter (·.status.isReceived)).map fun _ =>
      (verificationUpdate wuid ok now, s.uploads, s.requests)
  | cancel wuid => some (cancelUpdate (·.wuid = wuid), s.uploads, s.requests)
  | cancelAllAvailable => some (cancelUpdate (·.status = .available), s.uploads, s.requests)
  | _ => none

def step (s : State) (a : Action) : Option State :=
  match a with
  | .uploadSelect wuid clientid errorcode files => (s.db.selectStatus wuid).map fun r =>
      { s with uploads := s.uploads ++ [⟨r.wuid, clientid, errorcode, files⟩] }
  | .uploadInsert i fails =>
    match s.uploads[i]? with
    | some ⟨rowid, clientid, errorcode, f :: files⟩ => some { s with
        db := if fails then s.db else (s.db.insertFile f).toOption.getD s.db
        uploads := s.uploads.set i ⟨rowid, clientid, errorcode, files⟩ }
    | _ => none
  | .requestSelect clientid => s.db.selectAvailable.map fun r => { s with requests := s.requests ++ [(clientid, r)] }
  | .create wu => (s.db.create wu).toOption.map fun db => { s with db }
  | a => (a.update s).map fun (u, uploads, requests) => ⟨u.run s.db, uploads, requests, u.events s.db ++ s.log⟩

def Undisturbed (s : State) (a : Action) : Prop :=
  (∀ wuid clientid errorcode files, a = .uploadSelect wuid clientid errorcode files →
    ∀ r, s.db.selectStatus wuid = some r → r.status = .assigned) ∧
  ∀ u uploads requests, a.update s = some (u, uploads, requests) →
    ∀ r ∈ s.db.rows, u.cond r = true → ∀ upload ∈ uploads, upload.rowid ≠ r.wuid

def accepted (wuid : WuName) (log : List StatusChange) : ℕ := log.countP fun e => e.wuid = wuid ∧ e.new.isReceived

structure Lawful (db : WuDb) (log : List StatusChange) : Prop where
  unique : (db.rows.map WuRow.wuid).Nodup
  assigned : ∀ e ∈ log, e.new.isReceived = true → e.old = .assigned
  once : ∀ wuid, accepted wuid log ≤ 1
  closed : ∀ r ∈ db.rows, 0 < accepted r.wuid log → r.status.isOpen = false
  unknown : ∀ wuid, (∀ r ∈ db.rows, r.wuid ≠ wuid) → accepted wuid log = 0

structure Inv (s : State) : Prop where
  lawful : Lawful s.db s.log
  present : ∀ upload ∈ s.uploads, ∃ r ∈ s.db.rows, r.wuid = upload.rowid
  waiting : ∀ upload ∈ s.uploads, ∀ r ∈ s.db.rows, r.wuid = upload.rowid → r.status = .assigned

structure Keeps (u : Update) (db : WuDb) : Prop where
  stores : ∀ r ∈ db.rows, u.cond r = true → (u.change r).status.isReceived = true → r.status = .assigned
  closed : ∀ r ∈ db.rows, u.cond r = true → r.status.isOpen = false → (u.change r).status.isOpen = false

variable {db : WuDb} {log : List StatusChange} {u : Update}

theorem accepted_append (wuid : WuName) (l l' : List StatusChange) :
    accepted wuid (l ++ l') = accepted wuid l + accepted wuid l' := List.countP_append

theorem accepted_events_pos {wuid : WuName} (some : 0 < accepted wuid (u.events db)) :
    ∃ r ∈ db.rows, u.cond r = true ∧ r.wuid = wuid ∧ (u.change r).status.isReceived = true := by
  obtain ⟨e, member, selected⟩ := List.countP_pos_iff.mp some
  obtain ⟨r, there, cond, rfl⟩ := Update.mem_events.mp member
  obtain ⟨name, received⟩ := of_decide_eq_true selected
  exact ⟨r, there, cond, name, received⟩

theorem accepted_events_le (unique : (db.rows.map WuRow.wuid).Nodup) (wuid : WuName) :
    accepted wuid (u.events db) ≤ 1 := by
  rw [accepted, Update.events, List.countP_map, List.countP_filter]
  refine countP_le_one unique (k := wuid) fun r selected => ?_
  rw [Bool.and_eq_true] at selected
  exact (of_decide_eq_true selected.1).1

theorem closed_not_open {status : WuStatus} (received : status.isReceived = true) : status.isOpen = false := by
  cases status <;> first | rfl | cases received

theorem Lawful.update (lawful : Lawful db log) (keeps : Keeps u db) : Lawful (u.run db) (u.events db ++ log) := by
  have before {r : WuRow} (member : r ∈ db.rows) (cond : u.cond r = true)
      (received : (u.change r).status.isReceived = true) : accepted r.wuid log = 0 := by
    by_contra some
    have closed := lawful.closed r member (Nat.pos_of_ne_zero some)
    rw [keeps.stores r member cond received] at closed
    cases closed
  refine ⟨?_, fun e member received => ?_, fun wuid => ?_, fun r' member some => ?_, fun wuid absent => ?_⟩
  · rw [Update.wuids_run]
    exact lawful.unique
  · cases List.mem_append.mp member with
    | inl new =>
      obtain ⟨r, there, cond, rfl⟩ := Update.mem_events.mp new
      exact keeps.stores r there cond received
    | inr old => exact lawful.assigned e old received
  · rw [accepted_append]
    by_cases new : 0 < accepted wuid (u.events db)
    · obtain ⟨r, there, cond, rfl, received⟩ := accepted_events_pos new
      rw [before there cond received]
      exact accepted_events_le lawful.unique _
    · rw [Nat.eq_zero_of_not_pos new, Nat.zero_add]
      exact lawful.once wuid
  · obtain ⟨r, there, rfl⟩ := Update.mem_run.mp member
    rw [Update.wuid_run, accepted_append] at some
    by_cases new : 0 < accepted r.wuid (u.events db)
    · obtain ⟨r₁, there₁, cond, name, received⟩ := accepted_events_pos new
      obtain rfl : r₁ = r := List.inj_on_of_nodup_map lawful.unique there₁ there name
      rw [if_pos cond]
      exact closed_not_open received
    · rw [Nat.eq_zero_of_not_pos new, Nat.zero_add] at some
      split
      · rename_i cond
        exact keeps.closed r there cond (lawful.closed r there some)
      · exact lawful.closed r there some
  · have known (r : WuRow) (there : r ∈ db.rows) : r.wuid ≠ wuid := by
      rw [← Update.wuid_run r]
      exact absent _ (Update.mem_run.mpr ⟨r, there, rfl⟩)
    rw [accepted_append, lawful.unknown wuid known, Nat.add_zero]
    by_contra some
    obtain ⟨r, there, -, name, -⟩ := accepted_events_pos (Nat.pos_of_ne_zero some)
    exact known r there name

theorem Lawful.create {db' : WuDb} {wu : Workunit} (lawful : Lawful db log) (ok : db.create wu = .ok db') :
    Lawful db' log := by
  have unique := WuDb.nodup_create lawful.unique ok
  obtain ⟨fresh, rfl⟩ := WuDb.create_ok ok
  refine ⟨unique, lawful.assigned, lawful.once, fun r member some => ?_, fun wuid absent => ?_⟩
  · cases List.mem_append.mp member with
    | inl before => exact lawful.closed r before some
    | inr last =>
      obtain rfl := List.mem_singleton.mp last
      rw [show accepted wu.newRow.wuid log = 0 from lawful.unknown _ fresh] at some
      cases some
  · exact lawful.unknown wuid fun r there => absent r (List.mem_append_left _ there)

theorem keeps_cancel (cond : WuRow → Bool) : Keeps (cancelUpdate cond) db :=
  ⟨fun _ _ _ received => (by cases received), fun _ _ _ _ => rfl⟩

theorem keeps_verification (wuid : WuName) (ok : Bool) (now : ℕ) : Keeps (verificationUpdate wuid ok now) db := by
  refine ⟨fun r _ _ received => ?_, fun r _ _ _ => ?_⟩
  · cases ok <;> cases received
  · cases ok <;> rfl

theorem keeps_hand (rowid : WuName) (clientid : Text) (now : ℕ) : Keeps (handUpdate rowid clientid now) db := by
  refine ⟨fun r _ _ received => (by cases received), fun r _ cond closed => ?_⟩
  rw [(of_decide_eq_true cond).2] at closed
  cases closed

theorem keeps_reclaim (cutoff : ℕ) : Keeps (reclaimUpdate cutoff) db := by
  refine ⟨fun r _ _ received => (by cases received), fun r _ cond closed => ?_⟩
  rw [(of_decide_eq_true cond).1] at closed
  cases closed

theorem keeps_record {upload : Upload} (waiting : ∀ r ∈ db.rows, r.wuid = upload.rowid → r.status = .assigned)
    (now : ℕ) :
    Keeps (recordUpdate upload now) db := by
  refine ⟨fun r member cond _ => waiting r member (of_decide_eq_true cond), fun r member cond closed => ?_⟩
  rw [waiting r member (of_decide_eq_true cond)] at closed
  cases closed

variable {s s' : State} {a : Action}

theorem insertFile_rows (db : WuDb) (f : FileRow) : ((db.insertFile f).toOption.getD db).rows = db.rows := by
  cases WuServer.insertFile_toOption db f with
  | inl taken => rw [taken.1]
  | inr added => rw [added]

theorem update_keeps {uploads : List Upload} {requests : List (Text × WuRow)}
    (ok : a.update s = some (u, uploads, requests)) : (∀ upload ∈ uploads, upload ∈ s.uploads) ∧
      ((∃ upload ∈ s.uploads, ∃ now, u = recordUpdate upload now) ∨ Keeps u s.db) := by
  cases a with
  | uploadUpdate i now =>
    obtain ⟨upload, found, same⟩ := Option.map_eq_some_iff.mp ok
    cases same
    have member := List.mem_of_getElem? (Option.eq_some_of_filter_eq_some found)
    exact ⟨fun _ member => List.mem_of_mem_eraseIdx member, .inl ⟨upload, member, now, rfl⟩⟩
  | requestUpdate i now =>
    obtain ⟨request, -, same⟩ := Option.map_eq_some_iff.mp ok
    cases same
    exact ⟨fun _ member => member, .inr (keeps_hand _ _ now)⟩
  | reclaim cutoff =>
    cases ok
    exact ⟨fun _ member => member, .inr (keeps_reclaim cutoff)⟩
  | verification wuid good now =>
    obtain ⟨r, -, same⟩ := Option.map_eq_some_iff.mp ok
    cases same
    exact ⟨fun _ member => member, .inr (keeps_verification wuid good now)⟩
  | cancel wuid =>
    cases ok
    exact ⟨fun _ member => member, .inr (keeps_cancel _)⟩
  | cancelAllAvailable =>
    cases ok
    exact ⟨fun _ member => member, .inr (keeps_cancel _)⟩
  | uploadSelect => cases ok
  | uploadInsert => cases ok
  | requestSelect => cases ok
  | create => cases ok

theorem update_cases (inv : Inv s) {uploads : List Upload} {requests : List (Text × WuRow)}
    (ok : a.update s = some (u, uploads, requests)) : Keeps u s.db ∧ ∀ upload ∈ uploads, upload ∈ s.uploads := by
  obtain ⟨some, ⟨upload, member, now, rfl⟩ | keeps⟩ := update_keeps ok
  · exact ⟨keeps_record (inv.waiting upload member) now, some⟩
  · exact ⟨keeps, some⟩

theorem Inv.update (inv : Inv s) (clean : Undisturbed s a) {uploads : List Upload} {requests : List (Text × WuRow)}
    (ok : a.update s = some (u, uploads, requests)) : Inv ⟨u.run s.db, uploads, requests, u.events s.db ++ s.log⟩ := by
  obtain ⟨keeps, some⟩ := update_cases inv ok
  refine ⟨inv.lawful.update keeps, fun upload member => ?_, fun upload member r' member' name => ?_⟩
  · obtain ⟨r, there, name⟩ := inv.present upload (some upload member)
    exact ⟨_, Update.mem_run.mpr ⟨r, there, rfl⟩, (Update.wuid_run r).trans name⟩
  · obtain ⟨r, there, rfl⟩ := Update.mem_run.mp member'
    rw [Update.wuid_run] at name
    by_cases cond : u.cond r = true
    · exact absurd name.symm (clean.2 u uploads requests ok r there cond upload member)
    · rw [if_neg cond]
      exact inv.waiting upload (some upload member) r there name

theorem Inv.step (inv : Inv s) (clean : Undisturbed s a) (ok : step s a = some s') : Inv s' := by
  have updated (next : (a.update s).map (fun (u, uploads, requests) =>
      (⟨u.run s.db, uploads, requests, u.events s.db ++ s.log⟩ : State)) = some s') : Inv s' := by
    obtain ⟨⟨u, uploads, requests⟩, update, rfl⟩ := Option.map_eq_some_iff.mp next
    exact inv.update clean update
  cases a with
  | uploadSelect wuid clientid errorcode files =>
    obtain ⟨r, found, rfl⟩ := Option.map_eq_some_iff.mp ok
    have there := List.mem_of_find?_eq_some found
    refine ⟨inv.lawful, fun upload member => ?_, fun upload member r' there' name => ?_⟩
    · cases List.mem_append.mp member with
      | inl before => exact inv.present upload before
      | inr last =>
        obtain rfl := List.mem_singleton.mp last
        exact ⟨r, there, rfl⟩
    · cases List.mem_append.mp member with
      | inl before => exact inv.waiting upload before r' there' name
      | inr last =>
        obtain rfl := List.mem_singleton.mp last
        exact List.inj_on_of_nodup_map inv.lawful.unique there' there name ▸
          clean.1 wuid clientid errorcode files rfl r found
  | uploadInsert i fails =>
    unfold LateUpload.step at ok
    dsimp only at ok
    split at ok
    · rename_i rowid clientid errorcode f files found
      obtain rfl := Option.some.inj ok
      have rows : (if fails then s.db else (s.db.insertFile f).toOption.getD s.db).rows = s.db.rows := by
        split
        · rfl
        · exact insertFile_rows s.db f
      have same {upload : Upload} (member : upload ∈ s.uploads.set i ⟨rowid, clientid, errorcode, files⟩) :
          ∃ before ∈ s.uploads, upload.rowid = before.rowid := by
        cases List.mem_or_eq_of_mem_set member with
        | inl old => exact ⟨upload, old, rfl⟩
        | inr new => exact ⟨_, List.mem_of_getElem? found, by rw [new]⟩
      refine ⟨?_, fun upload member => ?_, fun upload member => ?_⟩
      · exact ⟨rows ▸ inv.lawful.unique, inv.lawful.assigned, inv.lawful.once, rows ▸ inv.lawful.closed,
          rows ▸ inv.lawful.unknown⟩
      · obtain ⟨before, member', name⟩ := same member
        rw [rows, name]
        exact inv.present before member'
      · obtain ⟨before, member', name⟩ := same member
        rw [rows, name]
        exact inv.waiting before member'
    · cases ok
  | requestSelect clientid =>
    obtain ⟨r, -, rfl⟩ := Option.map_eq_some_iff.mp ok
    exact ⟨inv.lawful, inv.present, inv.waiting⟩
  | create wu =>
    obtain ⟨db, created, rfl⟩ := Option.map_eq_some_iff.mp ok
    cases result : s.db.create wu with
    | error e =>
      rw [result] at created
      cases created
    | ok next =>
      rw [result] at created
      obtain rfl := Option.some.inj created
      refine ⟨inv.lawful.create result, fun upload member => ?_, fun upload member r there name => ?_⟩
      · obtain ⟨r, there, name⟩ := inv.present upload member
        obtain ⟨-, rfl⟩ := WuDb.create_ok result
        exact ⟨r, List.mem_append_left _ there, name⟩
      · obtain ⟨fresh, rfl⟩ := WuDb.create_ok result
        cases List.mem_append.mp there with
        | inl before => exact inv.waiting upload member r before name
        | inr last =>
          obtain rfl := List.mem_singleton.mp last
          obtain ⟨r, there, name'⟩ := inv.present upload member
          exact absurd (name'.trans name.symm) (fresh r there)
  | uploadUpdate i now => exact updated ok
  | requestUpdate i now => exact updated ok
  | reclaim cutoff => exact updated ok
  | verification wuid good now => exact updated ok
  | cancel wuid => exact updated ok
  | cancelAllAvailable => exact updated ok

/-- Undisturbed uploads store results for assigned workunits only, and at most once for each. -/
theorem accepted_once (s s' : State) (unique : (s.db.rows.map WuRow.wuid).Nodup) (idle : s.uploads = [])
    (start : s.log = [])
    (run : Relation.ReflTransGen (fun s s' => ∃ a, Undisturbed s a ∧ step s a = some s') s s') :
    (∀ e ∈ s'.log, e.new.isReceived = true → e.old = .assigned) ∧ ∀ wuid, accepted wuid s'.log ≤ 1 := by
  have first : Inv s := by
    refine ⟨⟨unique, ?_, ?_, ?_, ?_⟩, ?_, ?_⟩
    · simp [start]
    · simp [start, accepted]
    · simp [start, accepted]
    · simp [start, accepted]
    · simp [idle]
    · simp [idle]
  have inv := invariant_of_run Inv (fun s s' inv ⟨a, clean, ok⟩ => Inv.step inv clean ok) first run
  exact ⟨inv.lawful.assigned, inv.lawful.once⟩

def assignedRow : WuRow :=
  ⟨Assignment.oneWorkunit, .assigned, some 0, some ['a'], none, none, none, none, none⟩

def assignedState : State := ⟨⟨[assignedRow], []⟩, [], [], []⟩

theorem accepted_once_one : ∃ s', Relation.ReflTransGen (fun s s' => ∃ a, Undisturbed s a ∧ step s a = some s')
    assignedState s' ∧ s'.log ≠ [] ∧ ∀ wuid, accepted wuid s'.log ≤ 1 := by
  have run : Relation.ReflTransGen (fun s s' => ∃ a, Undisturbed s a ∧ step s a = some s') assignedState _ :=
    (Relation.ReflTransGen.refl.tail
      ⟨.uploadSelect "c59_sieving_0-1000".toList ['a'] none [], ⟨by
        rintro wuid clientid errorcode files same r found
        cases same
        obtain rfl := Option.some.inj found
        rfl, fun u uploads requests update => by cases update⟩, rfl⟩).tail
      ⟨.uploadUpdate 0 5, ⟨fun wuid clientid errorcode files same => (by cases same), by
        rintro u uploads requests update r there cond upload member
        cases update
        cases member⟩, rfl⟩
  exact ⟨_, run, fun empty =>
    (by cases empty), (accepted_once assignedState _ (List.nodup_singleton Assignment.oneWorkunit.id)
    rfl rfl run).2⟩

theorem uploaded_twice : ∃ s', Relation.ReflTransGen (fun s s' => ∃ a, step s a = some s') assignedState s' ∧
    accepted Assignment.oneWorkunit.id s'.log = 2 ∧
    ⟨Assignment.oneWorkunit.id, .verifiedOk, .receivedOk⟩ ∈ s'.log := by
  have run : Relation.ReflTransGen (fun s s' => ∃ a, step s a = some s') assignedState _ :=
    ((((Relation.ReflTransGen.refl.tail
      ⟨.uploadSelect "c59_sieving_0-1000".toList ['a'] none [], rfl⟩).tail
      ⟨.uploadUpdate 0 5, rfl⟩).tail
      ⟨.verification Assignment.oneWorkunit.id true 6, rfl⟩).tail
      ⟨.uploadSelect "c59_sieving_0-1000".toList ['a'] none [], rfl⟩).tail
      ⟨.uploadUpdate 0 7, rfl⟩
  exact ⟨_, run, rfl, List.mem_cons_self⟩

theorem closed_update {uploads : List Upload} {requests : List (Text × WuRow)}
    (ok : a.update s = some (u, uploads, requests)) {r : WuRow} (member : r ∈ s.db.rows) (cond : u.cond r = true)
    (closed : r.status.isOpen = false) : (u.change r).status.isOpen = false := by
  obtain ⟨-, ⟨upload, -, now, rfl⟩ | keeps⟩ := update_keeps ok
  · apply closed_not_open
    simp only [recordUpdate, WuRow.recorded]
    split_ifs <;> rfl
  · exact keeps.closed r member cond closed

/-- The workunit is there, is not open, and has not been opened since the log was `log`. -/
structure Closed (wuid : WuName) (log : List StatusChange) (s : State) : Prop where
  present : ∃ r ∈ s.db.rows, r.wuid = wuid
  closed : ∀ r ∈ s.db.rows, r.wuid = wuid → r.status.isOpen = false
  since : ∃ events, s.log = events ++ log ∧ ∀ e ∈ events, e.wuid = wuid → e.new.isOpen = false

theorem Closed.step {wuid : WuName} (closed : Closed wuid log s) (ok : step s a = some s') : Closed wuid log s' := by
  have updated (next : (a.update s).map (fun (u, uploads, requests) =>
      (⟨u.run s.db, uploads, requests, u.events s.db ++ s.log⟩ : State)) = some s') : Closed wuid log s' := by
    obtain ⟨⟨u, uploads, requests⟩, update, rfl⟩ := Option.map_eq_some_iff.mp next
    obtain ⟨⟨r, there, name⟩, closed, events, eq, since⟩ := closed
    refine ⟨⟨_, Update.mem_run.mpr ⟨r, there, rfl⟩, (Update.wuid_run r).trans name⟩, fun r' member name => ?_,
      u.events s.db ++ events, by simp [eq], fun e member name => ?_⟩
    · obtain ⟨r, there, rfl⟩ := Update.mem_run.mp member
      have before := closed r there ((Update.wuid_run r).symm.trans name)
      split
      · exact closed_update update there ‹_› before
      · exact before
    · cases List.mem_append.mp member with
      | inl new =>
        obtain ⟨r, there, cond, rfl⟩ := Update.mem_events.mp new
        exact closed_update update there cond (closed r there name)
      | inr old => exact since e old name
  cases a with
  | uploadSelect =>
    obtain ⟨r, -, rfl⟩ := Option.map_eq_some_iff.mp ok
    exact ⟨closed.present, closed.closed, closed.since⟩
  | uploadInsert i fails =>
    unfold LateUpload.step at ok
    dsimp only at ok
    split at ok
    · rename_i f _ _
      obtain rfl := Option.some.inj ok
      have rows : (if fails then s.db else (s.db.insertFile f).toOption.getD s.db).rows = s.db.rows := by
        split
        · rfl
        · exact insertFile_rows s.db f
      exact ⟨rows ▸ closed.present, rows ▸ closed.closed, closed.since⟩
    · cases ok
  | requestSelect =>
    obtain ⟨r, -, rfl⟩ := Option.map_eq_some_iff.mp ok
    exact ⟨closed.present, closed.closed, closed.since⟩
  | create wu =>
    obtain ⟨db, created, rfl⟩ := Option.map_eq_some_iff.mp ok
    cases result : s.db.create wu with
    | error e =>
      rw [result] at created
      cases created
    | ok next =>
      rw [result] at created
      obtain rfl := Option.some.inj created
      obtain ⟨fresh, rfl⟩ := WuDb.create_ok result
      obtain ⟨r, there, name⟩ := closed.present
      refine ⟨⟨r, List.mem_append_left _ there, name⟩, fun r' member name' => ?_, closed.since⟩
      cases List.mem_append.mp member with
      | inl before => exact closed.closed r' before name'
      | inr last =>
        obtain rfl := List.mem_singleton.mp last
        exact absurd (name.trans name'.symm) (fresh r there)
  | uploadUpdate => exact updated ok
  | requestUpdate => exact updated ok
  | reclaim => exact updated ok
  | verification => exact updated ok
  | cancel => exact updated ok
  | cancelAllAvailable => exact updated ok

/-- Whatever the parties do and in whatever order, a workunit that is neither available nor assigned stays so. -/
theorem closed_for_good (s s' : State) {wuid : WuName} (present : ∃ r ∈ s.db.rows, r.wuid = wuid)
    (closed : ∀ r ∈ s.db.rows, r.wuid = wuid → r.status.isOpen = false)
    (run : Relation.ReflTransGen (fun s s' => ∃ a, step s a = some s') s s') :
    Closed wuid s.log s' :=
  invariant_of_run (Closed wuid s.log) (fun _ _ closed ⟨_, ok⟩ => closed.step ok)
    ⟨present, closed, [], rfl, nofun⟩ run

def cancelledState : State := ⟨⟨[{ assignedRow with status := .cancelled }], []⟩, [], [], []⟩

theorem closed_for_good_one : ∃ s', Relation.ReflTransGen (fun s s' => ∃ a, step s a = some s') cancelledState s' ∧
    s'.log ≠ [] ∧ Closed Assignment.oneWorkunit.id [] s' := by
  have run : Relation.ReflTransGen (fun s s' => ∃ a, step s a = some s') cancelledState _ :=
    (Relation.ReflTransGen.refl.tail ⟨.uploadSelect "c59_sieving_0-1000".toList ['a'] none [], rfl⟩).tail
      ⟨.uploadUpdate 0 5, rfl⟩
  exact ⟨_, run, nofun, closed_for_good cancelledState _ ⟨_, List.mem_cons_self, rfl⟩
    (fun r member _ => by rw [List.mem_singleton.mp member]; rfl) run⟩

end CadoNfs.Cadofactor.LateUpload
