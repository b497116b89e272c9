import CadoNfs.Lib.Table

/-!
# The workunit database

`Workunit` of `scripts/cadofactor/workunit.py` and `WuAccess` of `scripts/cadofactor/wudb.py`. Each operation is one
transaction.
-/

namespace CadoNfs.Cadofactor

open Lib

abbrev Text := List Char

abbrev Bytes := List UInt8

/-- What `split_wuname` reads from the name of a workunit; the identifier is a range. -/
structure WuName where
  name : Text
  task : Text
  lo : ℕ
  hi : ℕ
  attempt : Option ℕ
  deriving DecidableEq

def WuName.text (n : WuName) : Text :=
  n.name ++ '_' :: n.task ++ '_' :: Nat.toDigits 10 n.lo ++ '-' :: Nat.toDigits 10 n.hi ++
    n.attempt.elim [] fun k => '_' :: '_' :: 'R' :: Nat.toDigits 10 k

structure WuFile where
  filename : Text
  upload : Bool
  deriving DecidableEq

structure Workunit where
  id : WuName
  commands : List Text
  files : List (Text × WuFile)
  upper : ∀ f ∈ files, ¬ "stdout".toList <+: f.1 ∧ ¬ "stderr".toList <+: f.1
  deriving DecidableEq

theorem Workunit.upper_nil : ∀ f ∈ ([] : List (Text × WuFile)), ¬ "stdout".toList <+: f.1 ∧ ¬ "stderr".toList <+: f.1 :=
  List.forall_mem_nil _

inductive WuStatus
  | available
  | assigned
  | needResubmit
  | receivedOk
  | receivedError
  | verifiedOk
  | verifiedError
  | cancelled
  deriving DecidableEq

def WuStatus.isOpen : WuStatus → Bool
  | available | assigned => true
  | _ => false

structure WuRow where
  wu : Workunit
  status : WuStatus
  timeassigned : Option ℕ
  assignedclient : Option Text
  timeresult : Option ℕ
  resultclient : Option Text
  errorcode : Option Text
  failedcommand : Option Text
  timeverified : Option ℕ
  deriving DecidableEq

def WuRow.wuid (r : WuRow) : WuName := r.wu.id

def WuStatus.isReceived : WuStatus → Bool
  | receivedOk | receivedError => true
  | _ => false

def WuRow.late (cutoff : ℕ) (r : WuRow) : Bool := r.status = .assigned ∧ r.timeassigned.any (· < cutoff)

def Workunit.newRow (wu : Workunit) : WuRow := ⟨wu, .available, none, none, none, none, none, none, none⟩

def WuRow.answered (r : WuRow) (clientid : Text) (errorcode failedcommand : Option Text) (now : ℕ) : WuRow :=
  { r with
    resultclient := some clientid, errorcode, failedcommand, timeresult := some now
    status := if errorcode = none then .receivedOk else .receivedError }

def WuRow.verified (r : WuRow) (ok : Bool) (now : ℕ) : WuRow :=
  { r with timeverified := some now, status := if ok then .verifiedOk else .verifiedError }

structure FileRow where
  wuid : WuName
  filename : Text
  path : Text
  type : Text
  command : Option ℤ
  deriving DecidableEq

structure WuDb where
  rows : List WuRow
  files : List FileRow
  deriving DecidableEq

inductive DbError
  | statusUpdate
  | integrity
  deriving DecidableEq

namespace WuDb

variable (db : WuDb)

def getByWuid (wuid : WuName) : Option WuRow := db.rows.find? (·.wuid = wuid)

def update (cond : WuRow → Bool) (f : WuRow → WuRow) : WuDb :=
  { db with rows := updateWhere cond f db.rows }

def insertFile (f : FileRow) : Except DbError WuDb :=
  if db.files.any (·.path = f.path) then .error .integrity else .ok { db with files := db.files ++ [f] }

def create (wu : Workunit) : Except DbError WuDb :=
  if db.rows.any (·.wuid = wu.id) then .error .integrity
  else .ok { db with rows := db.rows ++ [wu.newRow] }

def assign (clientid : Text) (now : ℕ) : Option (Workunit × WuDb) :=
  match db.rows.find? (·.status = .available) with
  | none => none
  | some r => some (r.wu, db.update (·.wuid = r.wuid) fun r =>
      { r with status := .assigned, assignedclient := some clientid, timeassigned := some now })

def addFiles (wuid : WuName) (files : List FileRow) : Except DbError WuDb :=
  files.foldlM (fun db f => db.insertFile { f with wuid }) db

def result (wuid : WuName) (clientid : Text) (files : List FileRow) (errorcode failedcommand : Option Text) (now : ℕ) :
    Except DbError (Bool × WuDb) :=
  match db.getByWuid wuid with
  | none => .ok (false, db)
  | some data =>
    if data.status ≠ .assigned then .error .statusUpdate
    else (db.addFiles wuid files).map fun db =>
      (true, db.update (·.wuid = wuid) (·.answered clientid errorcode failedcommand now))

def verification (wuid : WuName) (ok : Bool) (now : ℕ) : Except DbError (Bool × WuDb) :=
  match db.getByWuid wuid with
  | none => .ok (false, db)
  | some data =>
    if data.status ≠ .receivedOk ∧ data.status ≠ .receivedError then .error .statusUpdate
    else .ok (true, db.update (·.wuid = wuid) (·.verified ok now))

def setStatus (status : WuStatus) (cond : WuRow → Bool) : WuDb := db.update cond fun r => { r with status }

def cancelByCondition (cond : WuRow → Bool) : WuDb := db.setStatus .cancelled cond

def cancel (wuid : WuName) : WuDb := db.cancelByCondition (·.wuid = wuid)

def cancelAllAvailable : WuDb := db.cancelByCondition (·.status = .available)

def query (cond : WuRow → Bool) : List WuRow := db.rows.filter cond

def getOneResult : Option WuRow :=
  (db.rows.find? (·.status = .receivedOk)).or (db.rows.find? (·.status = .receivedError))

variable {db} {db' : WuDb} {wu : Workunit}

theorem create_ok (ok : db.create wu = .ok db') :
    (∀ r ∈ db.rows, r.wuid ≠ wu.id) ∧ db' = { db with rows := db.rows ++ [wu.newRow] } := by
  unfold create at ok
  split at ok
  · cases ok
  · rename_i fresh
    refine ⟨fun r member same => fresh ?_, (Except.ok.inj ok).symm⟩
    exact List.any_eq_true.mpr ⟨r, member, decide_eq_true same⟩

theorem nodup_create (unique : (db.rows.map WuRow.wuid).Nodup) (ok : db.create wu = .ok db') :
    (db'.rows.map WuRow.wuid).Nodup := by
  obtain ⟨fresh, rfl⟩ := create_ok ok
  rw [List.map_append, List.nodup_append]
  refine ⟨unique, List.nodup_singleton _, fun name member name' last same => ?_⟩
  obtain ⟨r, there, rfl⟩ := List.mem_map.mp member
  obtain rfl := List.mem_singleton.mp last
  exact fresh r there same

end WuDb

end CadoNfs.Cadofactor

/-!
# What the statements do to the statuses

An `UPDATE` on the workunits with a log of the old and the new status of each row that it writes.
-/

namespace CadoNfs.Cadofactor

open Lib

structure Update where
  cond : WuRow → Bool
  change : WuRow → WuRow
  wuid : ∀ r, (change r).wuid = r.wuid

structure StatusChange where
  wuid : WuName
  old : WuStatus
  new : WuStatus
  deriving DecidableEq

namespace Update

variable (u : Update)

def run (db : WuDb) : WuDb := db.update u.cond u.change

def events (db : WuDb) : List StatusChange :=
  (db.rows.filter u.cond).map fun r => ⟨r.wuid, r.status, (u.change r).status⟩

variable {u} {db : WuDb}

theorem mem_events {e : StatusChange} :
    e ∈ u.events db ↔ ∃ r ∈ db.rows, u.cond r = true ∧ e = ⟨r.wuid, r.status, (u.change r).status⟩ := by
  rw [events, List.mem_map]
  constructor
  · rintro ⟨r, member, rfl⟩
    obtain ⟨there, selected⟩ := List.mem_filter.mp member
    exact ⟨r, there, selected, rfl⟩
  · rintro ⟨r, there, selected, rfl⟩
    exact ⟨r, List.mem_filter.mpr ⟨there, selected⟩, rfl⟩

theorem mem_run {r' : WuRow} : r' ∈ (u.run db).rows ↔ ∃ r ∈ db.rows, r' = if u.cond r then u.change r else r :=
  mem_updateWhere

theorem wuid_run (r : WuRow) : (if u.cond r then u.change r else r).wuid = r.wuid := key_updateWhere u.wuid r

theorem wuids_run : (u.run db).rows.map WuRow.wuid = db.rows.map WuRow.wuid := map_key_updateWhere u.wuid

end Update

def cancelUpdate (cond : WuRow → Bool) : Update := ⟨cond, fun r => { r with status := .cancelled }, fun _ => rfl⟩

end CadoNfs.Cadofactor
