import CadoNfs.Cadofactor.Client
import CadoNfs.Cadofactor.DictDb

/-!
# The server and the result message

`api_upload_file` of `scripts/cadofactor/api_server.py` and `ResultInfo` of `scripts/cadofactor/wudb.py`.
-/

namespace CadoNfs.Cadofactor

open Lib

structure ApiServer where
  db : WuDb
  disk : List (Text × Bytes)
  uploadCycle : ℕ

-- `flask.request.files.items()` gives the first file of each key.
def firstOfEach : List (Text × Bytes) → List (Text × Bytes)
  | [] => []
  | f :: files => f :: (firstOfEach files).filter (·.1 ≠ f.1)

namespace ApiServer

variable (secureFilename : Text → Text) (uploadDir : ℕ → Text)

def saveFile (a : Answer) (server : ApiServer) (f : Text × Bytes) : ApiServer × Except ℕ FileRow :=
  let filename := secureFilename f.1
  let path := pathJoin (uploadDir server.uploadCycle) filename
  let server := { server with uploadCycle := server.uploadCycle + 1 }
  match a.fileinfo.lookup filename with
  | none => (server, .error 400)
  | some fi =>
    if server.disk.any (·.1 = path) then (server, .error 403)
    else ({ server with disk := server.disk ++ [(path, f.2)] }, .ok ⟨a.wuid, filename, path, fi.key, fi.command⟩)

def saveFiles (a : Answer) (server : ApiServer) : List (Text × Bytes) → ApiServer × Except ℕ (List FileRow)
  | [] => (server, .ok [])
  | f :: files =>
    match saveFile secureFilename uploadDir a server f with
    | (server, .error code) => (server, .error code)
    | (server, .ok row) =>
      match saveFiles a server files with
      | (server, .error code) => (server, .error code)
      | (server, .ok rows) => (server, .ok (row :: rows))

-- A `StatusUpdateError` is only logged.
def upload (server : ApiServer) (a : Answer) (now : ℕ) : ℕ × ApiServer :=
  match saveFiles secureFilename uploadDir a server (firstOfEach a.files) with
  | (server, .error code) => (code, server)
  | (server, .ok files) =>
    match server.db.result a.wuid a.clientid files a.errorcode a.failedcommand now with
    | .error .statusUpdate => (200, server)
    | .error .integrity => (500, server)
    | .ok (_, db) => (200, { server with db })

end ApiServer

/-! ## The result message -/

structure ResultInfo where
  row : WuRow
  files : List FileRow

def WuDb.resultInfo (db : WuDb) (wuid : WuName) : Option ResultInfo :=
  (db.getByWuid wuid).map fun row => ⟨row, db.files.filter (·.wuid = wuid)⟩

namespace ResultInfo

-- `int(None)` raises.
def findStdio (filetype : Text) (commandNr : ℕ) : List FileRow → Except PyError (Option Text)
  | [] => .ok none
  | f :: files =>
    if filetype <+: f.type then
      match f.command with
      | none => .error .typeError
      | some c => if c = commandNr then .ok (some f.path) else findStdio filetype commandNr files
    else findStdio filetype commandNr files

variable (info : ResultInfo)

def getStdio (filetype : Text) (commandNr : ℕ) : Except PyError (Option Text) :=
  findStdio filetype commandNr info.files

def getStdoutfile (commandNr : ℕ) : Except PyError (Option Text) := info.getStdio "stdout".toList commandNr

def getStderrfile (commandNr : ℕ) : Except PyError (Option Text) := info.getStdio "stderr".toList commandNr

def getExitcode (column : Text → Option ℤ) (commandNr : ℕ) : Except PyError ℤ :=
  match info.row.failedcommand with
  | none => .ok 0
  | some failedcommand =>
    match column failedcommand with
    | none => .error .valueError
    | some n =>
      if n = commandNr then
        match info.row.errorcode with
        | none => .error .typeError
        | some errorcode => (column errorcode).elim (.error .valueError) .ok
      else .ok 0

end ResultInfo

namespace WuDb

theorem getByWuid_update {db : WuDb} {cond : WuRow → Bool} {f : WuRow → WuRow} {wuid : WuName}
    (keeps : ∀ r, (f r).wuid = r.wuid) :
    (db.update cond f).getByWuid wuid = (db.getByWuid wuid).map fun r => if cond r then f r else r :=
  find_updateWhere fun r => by rw [keeps]

theorem wuid_of_getByWuid {db : WuDb} {wuid : WuName} {r : WuRow} (found : db.getByWuid wuid = some r) :
    r.wuid = wuid := by
  have := List.find?_some found
  simpa using this

theorem insertFile_ok {db db' : WuDb} {f : FileRow} (ok : db.insertFile f = .ok db') :
    db' = { db with files := db.files ++ [f] } := by
  unfold insertFile at ok
  split at ok
  · cases ok
  · exact (Except.ok.inj ok).symm

theorem addFiles_ok {wuid : WuName} {files : List FileRow} {db db' : WuDb} (ok : db.addFiles wuid files = .ok db') :
    db' = { db with files := db.files ++ files.map fun f => { f with wuid } } := by
  induction files generalizing db with
  | nil =>
    rw [List.map_nil, List.append_nil]
    exact (Except.ok.inj ok).symm
  | cons f files ih =>
    rw [addFiles, List.foldlM_cons] at ok
    cases inserted : db.insertFile { f with wuid } with
    | error e =>
      rw [inserted] at ok
      cases ok
    | ok next =>
      rw [inserted] at ok
      have rest := ih ok
      rw [insertFile_ok inserted] at rest
      rw [rest, List.map_cons, List.append_assoc, List.singleton_append]

theorem addFiles_ne {wuid : WuName} {files : List FileRow} {db : WuDb} :
    db.addFiles wuid files ≠ .error .statusUpdate := by
  induction files generalizing db with
  | nil => exact fun same => by cases same
  | cons f files ih =>
    rw [addFiles, List.foldlM_cons]
    unfold insertFile
    split
    · exact fun same => by cases same
    · exact ih

theorem result_assigned {db : WuDb} {wuid : WuName} {r : WuRow} (found : db.getByWuid wuid = some r)
    (assigned : r.status = .assigned) (clientid : Text) (files : List FileRow) (errorcode failedcommand : Option Text)
    (now : ℕ) :
    db.result wuid clientid files errorcode failedcommand now = (db.addFiles wuid files).map fun db =>
      (true, db.update (·.wuid = wuid) (·.answered clientid errorcode failedcommand now)) := by
  unfold result
  rw [found]
  exact if_neg (not_not.mpr assigned)

end WuDb

/-! ## Reachable databases -/

namespace WuDb

inductive Reachable : WuDb → Prop
  | empty : Reachable ⟨[], []⟩
  | create {db db'} (wu : Workunit) : Reachable db → db.create wu = .ok db' → Reachable db'
  | assign {db db'} (clientid : Text) (now : ℕ) (wu : Workunit) :
    Reachable db → db.assign clientid now = some (wu, db') → Reachable db'
  | result {db db'} (wuid : WuName) (clientid : Text) (files : List FileRow) (errorcode failedcommand : Option Text)
    (now : ℕ) (stored : Bool) :
    Reachable db → db.result wuid clientid files errorcode failedcommand now = .ok (stored, db') → Reachable db'
  | verification {db db'} (wuid : WuName) (ok : Bool) (now : ℕ) (stored : Bool) :
    Reachable db → db.verification wuid ok now = .ok (stored, db') → Reachable db'
  | cancel {db} (cond : WuRow → Bool) : Reachable db → Reachable (db.cancelByCondition cond)

structure FilesOfResults (db : WuDb) : Prop where
  owned : ∀ f ∈ db.files, ∃ r ∈ db.rows, r.wuid = f.wuid
  closed : ∀ f ∈ db.files, ∀ r ∈ db.rows, r.wuid = f.wuid → r.status.isOpen = false

namespace FilesOfResults

variable {db : WuDb}

theorem update (inv : db.FilesOfResults) {cond : WuRow → Bool} {g : WuRow → WuRow} (keeps : ∀ r, (g r).wuid = r.wuid)
    (closed : ∀ f ∈ db.files, ∀ r ∈ db.rows, cond r → r.wuid = f.wuid → (g r).status.isOpen = false) :
      (db.update cond g).FilesOfResults := by
  have wuid (r : WuRow) : (if cond r then g r else r).wuid = r.wuid := by
    split
    · exact keeps r
    · rfl
  refine ⟨fun f member => ?_, fun f member r' member' same => ?_⟩
  · obtain ⟨r, there, same⟩ := inv.owned f member
    exact ⟨_, List.mem_map_of_mem there, (wuid r).trans same⟩
  · obtain ⟨r, there, rfl⟩ := List.mem_map.mp member'
    rw [wuid] at same
    by_cases selected : cond r
    · rw [if_pos selected]
      exact closed f member r there selected same
    · rw [if_neg selected]
      exact inv.closed f member r there same

theorem of_create {db' : WuDb} {wu : Workunit} (inv : db.FilesOfResults) (ok : db.create wu = .ok db') :
    db'.FilesOfResults := by
  obtain ⟨fresh, rfl⟩ := create_ok ok
  refine ⟨fun f member => ?_, fun f member r member' same => ?_⟩
  · obtain ⟨r, there, same⟩ := inv.owned f member
    exact ⟨r, List.mem_append_left _ there, same⟩
  · cases List.mem_append.mp member' with
    | inl before => exact inv.closed f member r before same
    | inr last =>
      obtain rfl := List.mem_singleton.mp last
      obtain ⟨r, there, owner⟩ := inv.owned f member
      exact absurd (owner.trans same.symm) (fresh r there)

theorem of_assign {db' : WuDb} {clientid : Text} {now : ℕ} {wu : Workunit} (inv : db.FilesOfResults)
    (ok : db.assign clientid now = some (wu, db')) : db'.FilesOfResults := by
  unfold assign at ok
  split at ok
  · cases ok
  · rename_i r found
    obtain ⟨-, rfl⟩ := Prod.mk.inj (Option.some.inj ok)
    refine inv.update (fun _ => rfl) fun f member r' there selected same => ?_
    have wuid : r.wuid = f.wuid := (of_decide_eq_true selected).symm.trans same
    have closed := inv.closed f member r (List.mem_of_find?_eq_some found) wuid
    have available : r.status = .available := by simpa using List.find?_some found
    rw [available] at closed
    cases closed

theorem of_result {db' : WuDb} {wuid : WuName} {clientid : Text} {files : List FileRow}
    {errorcode failedcommand : Option Text} {now : ℕ} {stored : Bool} (inv : db.FilesOfResults)
    (ok : db.result wuid clientid files errorcode failedcommand now = .ok (stored, db')) : db'.FilesOfResults := by
  unfold result at ok
  split at ok
  · obtain ⟨-, rfl⟩ := Prod.mk.inj (Except.ok.inj ok)
    exact inv
  · rename_i data found
    split at ok
    · cases ok
    · cases added : db.addFiles wuid files with
      | error e =>
        rw [added] at ok
        cases ok
      | ok next =>
        rw [added] at ok
        obtain ⟨-, rfl⟩ := Prod.mk.inj (Except.ok.inj ok)
        obtain rfl := addFiles_ok added
        have status (r : WuRow) : (r.answered clientid errorcode failedcommand now).status.isOpen = false := by
          unfold WuRow.answered
          split <;> rfl
        have wuidOf (r : WuRow) : (if decide (r.wuid = wuid) then r.answered clientid errorcode failedcommand now
            else r).wuid = r.wuid := by
          split <;> rfl
        refine ⟨fun f member => ?_, fun f member r' member' same => ?_⟩
        · cases List.mem_append.mp member with
          | inl before =>
            obtain ⟨r, there, same⟩ := inv.owned f before
            exact ⟨_, List.mem_map_of_mem there, (wuidOf r).trans same⟩
          | inr last =>
            obtain ⟨f', -, rfl⟩ := List.mem_map.mp last
            exact ⟨_, List.mem_map_of_mem (List.mem_of_find?_eq_some found),
              (wuidOf data).trans (wuid_of_getByWuid found)⟩
        · obtain ⟨r, there, rfl⟩ := List.mem_map.mp member'
          rw [wuidOf] at same
          by_cases selected : r.wuid = wuid
          · rw [if_pos (decide_eq_true selected)]
            exact status r
          · rw [if_neg (by simpa using selected)]
            cases List.mem_append.mp member with
            | inl before => exact inv.closed f before r there same
            | inr last =>
              obtain ⟨f', -, rfl⟩ := List.mem_map.mp last
              exact absurd same selected

theorem of_verification {db' : WuDb} {wuid : WuName} {good : Bool} {now : ℕ} {stored : Bool} (inv : db.FilesOfResults)
    (ok : db.verification wuid good now = .ok (stored, db')) : db'.FilesOfResults := by
  unfold verification at ok
  split at ok
  · obtain ⟨-, rfl⟩ := Prod.mk.inj (Except.ok.inj ok)
    exact inv
  · split at ok
    · cases ok
    · obtain ⟨-, rfl⟩ := Prod.mk.inj (Except.ok.inj ok)
      refine inv.update (fun _ => rfl) fun f _ r _ _ _ => ?_
      cases good <;> rfl

end FilesOfResults

theorem Reachable.filesOfResults {db : WuDb} (reachable : db.Reachable) : db.FilesOfResults := by
  induction reachable with
  | empty =>
    refine ⟨fun f member => ?_, fun f member => ?_⟩
    · cases member
    · cases member
  | create wu _ ok ih => exact ih.of_create ok
  | assign clientid now wu _ ok ih => exact ih.of_assign ok
  | result wuid clientid files errorcode failedcommand now stored _ ok ih => exact ih.of_result ok
  | verification wuid good now stored _ ok ih => exact ih.of_verification ok
  | cancel cond _ ih =>
    exact ih.update (fun _ => rfl) fun _ _ _ _ _ _ => rfl

end WuDb

namespace ApiServer

variable {secureFilename : Text → Text} {uploadDir : ℕ → Text} {a : Answer}

def contents (server : ApiServer) (path : Text) : Option Bytes := server.disk.lookup path

structure Saved (secureFilename : Text → Text) (a : Answer) (disk : List (Text × Bytes)) (f : Text × Bytes)
    (row : FileRow) : Prop where
  wuid : row.wuid = a.wuid
  info : a.fileinfo.lookup (secureFilename f.1) = some ⟨row.type, row.command⟩
  contents : disk.lookup row.path = some f.2

theorem Saved.append {disk added : List (Text × Bytes)} {f : Text × Bytes} {row : FileRow}
    (saved : Saved secureFilename a disk f row) : Saved secureFilename a (disk ++ added) f row := by
  refine ⟨saved.wuid, saved.info, ?_⟩
  rw [List.lookup_append, saved.contents]
  rfl

theorem lookup_new {disk : List (Text × Bytes)} {path : Text} {data : Bytes}
    (absent : disk.any (·.1 = path) = false) : (disk ++ [(path, data)]).lookup path = some data := by
  have none : disk.lookup path = none := by
    rw [List.lookup_eq_none_iff]
    intro e member
    have other := List.any_eq_false.mp absent e member
    rw [bne_iff_ne]
    exact fun same => other (decide_eq_true same.symm)
  rw [List.lookup_append, none]
  simp

theorem Saved.wuids {disk files : List (Text × Bytes)} {rows : List FileRow}
    (all : List.Forall₂ (Saved secureFilename a disk) files rows) :
    rows.map (fun f => { f with wuid := a.wuid }) = rows := by
  induction all with
  | nil => rfl
  | cons saved _ ih => rw [List.map_cons, ih, ← saved.wuid]

theorem saveFile_ok {server server' : ApiServer} {f : Text × Bytes} {row : FileRow}
    (ok : saveFile secureFilename uploadDir a server f = (server', .ok row)) :
    server'.db = server.db ∧ (∃ added, server'.disk = server.disk ++ added) ∧
      Saved secureFilename a server'.disk f row := by
  unfold saveFile at ok
  dsimp only at ok
  split at ok
  · cases ok
  · rename_i fi info
    split at ok
    · cases ok
    · rename_i absent
      obtain ⟨rfl, same⟩ := Prod.mk.inj ok
      obtain rfl := Except.ok.inj same
      exact ⟨rfl, ⟨_, rfl⟩, rfl, info, lookup_new (Bool.eq_false_of_not_eq_true absent)⟩

theorem saveFiles_ok {files : List (Text × Bytes)} {server server' : ApiServer} {rows : List FileRow}
    (ok : saveFiles secureFilename uploadDir a server files = (server', .ok rows)) :
    server'.db = server.db ∧ (∃ added, server'.disk = server.disk ++ added) ∧
      List.Forall₂ (Saved secureFilename a server'.disk) files rows := by
  induction files generalizing server server' rows with
  | nil =>
    obtain ⟨rfl, same⟩ := Prod.mk.inj ok
    obtain rfl := Except.ok.inj same
    exact ⟨rfl, ⟨[], (List.append_nil _).symm⟩, .nil⟩
  | cons f files ih =>
    unfold saveFiles at ok
    split at ok
    · cases ok
    · rename_i middle row first
      split at ok
      · cases ok
      · rename_i last rest others
        obtain ⟨rfl, same⟩ := Prod.mk.inj ok
        obtain rfl := Except.ok.inj same
        obtain ⟨db, ⟨added, disk⟩, saved⟩ := saveFile_ok first
        obtain ⟨db', ⟨added', disk'⟩, all⟩ := ih others
        refine ⟨db'.trans db, ⟨added ++ added', ?_⟩, .cons ?_ all⟩
        · rw [disk', disk, List.append_assoc]
        · rw [disk']
          exact saved.append

theorem saveFiles_error {files : List (Text × Bytes)} {server server' : ApiServer} {code : ℕ}
    (error : saveFiles secureFilename uploadDir a server files = (server', .error code)) : code = 400 ∨ code = 403 := by
  induction files generalizing server server' with
  | nil => cases error
  | cons f files ih =>
    unfold saveFiles at error
    split at error
    · rename_i first
      unfold saveFile at first
      dsimp only at first
      split at first
      · cases error
        cases first
        exact .inl rfl
      · split at first
        · cases error
          cases first
          exact .inr rfl
        · cases first
    · split at error
      · rename_i others
        cases error
        exact ih others
      · cases error

theorem upload_ok {server server' : ApiServer} {now : ℕ} {row : WuRow}
    (found : server.db.getByWuid a.wuid = some row) (assigned : row.status = .assigned)
    (ok : server.upload secureFilename uploadDir a now = (200, server')) :
    ∃ rows, List.Forall₂ (Saved secureFilename a server'.disk) (firstOfEach a.files) rows ∧
      server'.db.files = server.db.files ++ rows ∧
      server'.db.getByWuid a.wuid = some (row.answered a.clientid a.errorcode a.failedcommand now) := by
  unfold upload at ok
  split at ok
  · rename_i error
    obtain ⟨rfl, -⟩ := Prod.mk.inj ok
    cases saveFiles_error error with
    | inl bad => cases bad
    | inr bad => cases bad
  · rename_i middle rows saved
    obtain ⟨db, -, all⟩ := saveFiles_ok saved
    rw [db, WuDb.result_assigned found assigned] at ok
    cases added : server.db.addFiles a.wuid rows with
    | error e =>
      rw [added] at ok
      cases e with
      | statusUpdate => exact absurd added WuDb.addFiles_ne
      | integrity => cases ok
    | ok next =>
      rw [added] at ok
      obtain rfl := WuDb.addFiles_ok added
      obtain ⟨-, rfl⟩ := Prod.mk.inj ok
      refine ⟨rows, all, congrArg (server.db.files ++ ·) (Saved.wuids all), ?_⟩
      refine (WuDb.getByWuid_update
        (f := (·.answered a.clientid a.errorcode a.failedcommand now)) fun _ => rfl).trans ?_
      have row' : WuDb.getByWuid { server.db with
          files := server.db.files ++ rows.map fun f => { f with wuid := a.wuid } } a.wuid = some row := found
      rw [row', Option.map_some, if_pos (decide_eq_true (WuDb.wuid_of_getByWuid found))]

end ApiServer

end CadoNfs.Cadofactor
