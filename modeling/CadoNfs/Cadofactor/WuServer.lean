import CadoNfs.Cadofactor.Client

/-!
# The workunit server in Rust

`rust/cado-wu-server/src/main.rs` over the same database. It runs its statements one by one, without a transaction.
-/

namespace CadoNfs.Cadofactor

open Lib

def WuRow.recorded (r : WuRow) (clientid : Text) (errorcode : Option ℤ) (now : ℕ) : WuRow :=
  { r with
    status := if errorcode.getD 0 = 0 then .receivedOk else .receivedError
    resultclient := some clientid, errorcode := errorcode.map printInt, timeresult := some now }

def WuRow.reclaimed (r : WuRow) : WuRow := { r with status := .available, assignedclient := none, timeassigned := none }

def WuRow.handedTo (r : WuRow) (clientid : Text) (now : ℕ) : WuRow :=
  { r with status := .assigned, assignedclient := some clientid, timeassigned := some now }

namespace WuDb

variable (db : WuDb)

-- `SELECT wurowid, wu ... WHERE status=?1 ORDER BY wurowid LIMIT 1`; the rows are in the order of `wurowid`.
def selectAvailable : Option WuRow := db.rows.find? (·.status = .available)

def updateAssigned (rowid : WuName) (clientid : Text) (now : ℕ) : ℕ × WuDb :=
  (db.rows.countP fun r => r.wuid = rowid ∧ r.status = .available,
    db.update (fun r => r.wuid = rowid ∧ r.status = .available) (·.handedTo clientid now))

def reclaim (cutoff : ℕ) : WuDb := db.update (·.late cutoff) WuRow.reclaimed

def selectStatus (wuid : Text) : Option WuRow := db.rows.find? (·.wuid.text = wuid)

def updateRecorded (rowid : WuName) (clientid : Text) (errorcode : Option ℤ) (now : ℕ) : WuDb :=
  db.update (·.wuid = rowid) (·.recorded clientid errorcode now)

end WuDb

namespace WuServer

def sanitize (name : Text) : Text := name.map fun c => if c.isAlphanum ∨ c ∈ ['.', '_', '-'] then c else '_'

def parseI64 (text : Text) : Option ℤ :=
  let digits := if text.head? = some '-' ∨ text.head? = some '+' then text.tail else text
  let n := Nat.ofDigitChars 10 digits 0
  let z := if text.head? = some '-' then -(n : ℤ) else n
  if digits ≠ [] ∧ digits.all Char.isDigit ∧ -2 ^ 63 ≤ z ∧ z < 2 ^ 63 then some z else none

/-- A part of the body. What cannot be read is `none`. -/
inductive Part
  | file (fname : Text) (data : Option Bytes)
  | field (name : Text) (text : Option Text)
  | malformed

/-- What the object `fileinfo` has under a name, as far as it has the right type. -/
structure JsonInfo where
  key : Option Text
  command : Option ℤ
  deriving DecidableEq

structure SavedFile where
  fname : Text
  basename : Text
  destpath : Text

structure Form where
  fields : List (Text × Text)
  saved : List SavedFile

structure Failures where
  pool : Bool
  select : Bool
  insert : ℕ → Bool
  update : Bool

structure State where
  db : WuDb
  disk : List (Text × Bytes)

section
variable (uploaddir : Text) (writeFails : Text → Bool)

def destExists (disk : List (Text × Bytes)) (safe dest : Text) : Bool :=
  safe ∈ [[], ['.'], ['.', '.']] || disk.any (·.1 = dest)

def receive (disk : List (Text × Bytes)) (form : Form) : List Part → List (Text × Bytes) × Except ℕ Form
  | [] => (disk, .ok form)
  | .malformed :: _ => (disk, .error 400)
  | .field name text :: parts =>
    receive disk { form with fields := text.elim form.fields (dictSet form.fields name) } parts
  | .file fname data :: parts =>
    match data with
    | none => (disk, .error 400)
    | some data =>
      let safe := sanitize fname
      let dest := pathJoin uploaddir safe
      if destExists disk safe dest then (disk, .error 403)
      else if writeFails dest then (disk, .error 500)
      else receive (disk ++ [(dest, data)]) { form with saved := form.saved ++ [⟨fname, safe, dest⟩] } parts

end

def SavedFile.row (fileinfo : Text → Option JsonInfo) (rowid : WuName) (f : SavedFile) (name : Text) : FileRow :=
  ⟨rowid, f.basename, f.destpath, ((fileinfo name).bind JsonInfo.key).getD [], (fileinfo name).bind JsonInfo.command⟩

def insertAll (fails : ℕ → Bool) (fileinfo : Text → Option JsonInfo) (rowid : WuName) (i : ℕ) (db : WuDb) :
    List SavedFile → WuDb
  | [] => db
  | f :: saved =>
    let row := f.row fileinfo rowid f.basename
    let db := if fails i then db else (db.insertFile row).toOption.getD db
    insertAll fails fileinfo rowid (i + 1) db saved

def recordResult (fails : Failures) (db : WuDb) (wuid clientid : Text) (saved : List SavedFile)
    (fileinfo : Text → Option JsonInfo) (errorcode : Option ℤ) (now : ℕ) : ℕ × WuDb :=
  if fails.pool then (500, db)
  else if fails.select then (503, db)
  else match db.selectStatus wuid with
    | none => (404, db)
    | some row =>
      let db := insertAll fails.insert fileinfo row.wuid 0 db saved
      (200, if fails.update then db else db.updateRecorded row.wuid clientid errorcode now)

variable (json : Text → Text → Option JsonInfo)

def Form.fileinfo (form : Form) : Text → Option JsonInfo := json ((form.fields.lookup "fileinfo".toList).getD "{}".toList)

def Form.errorcode (form : Form) : Option ℤ := (form.fields.lookup "errorcode".toList).bind parseI64

def upload (uploaddir : Text) (writeFails : Text → Bool) (fails : Failures) (s : State) (parts : List Part) (now : ℕ) :
    ℕ × State :=
  match receive uploaddir writeFails s.disk ⟨[], []⟩ parts with
  | (disk, .error code) => (code, ⟨s.db, disk⟩)
  | (disk, .ok form) =>
    match form.fields.lookup "clientid".toList, form.fields.lookup "WUid".toList with
    | some clientid, some wuid =>
      let (code, db) := recordResult fails s.db wuid clientid form.saved (form.fileinfo json) form.errorcode now
      (code, ⟨db, disk⟩)
    | _, _ => (400, ⟨s.db, disk⟩)

structure Reached (uploaddir : Text) (writeFails : Text → Bool) (fails : Failures) (s : State) (parts : List Part)
    (form : Form) (clientid wuid : Text) (row : WuRow) : Prop where
  received : (receive uploaddir writeFails s.disk ⟨[], []⟩ parts).2 = .ok form
  client : form.fields.lookup "clientid".toList = some clientid
  wu : form.fields.lookup "WUid".toList = some wuid
  pool : fails.pool = false
  select : fails.select = false
  found : s.db.selectStatus wuid = some row

/-- The reply 200 is for an upload all of whose files have a row with the type and command under their name, and whose
workunit is updated. After any other reply the tables are as before. -/
structure AllOrNothing (uploaddir : Text) (writeFails : Text → Bool) (fails : Failures) (s : State) (parts : List Part)
    (now : ℕ) : Prop where
  all : (upload json uploaddir writeFails fails s parts now).1 = 200 →
    ∃ form clientid wuid row, Reached uploaddir writeFails fails s parts form clientid wuid row ∧
      (upload json uploaddir writeFails fails s parts now).2.db =
        { s.db.updateRecorded row.wuid clientid form.errorcode now with
          files := s.db.files ++ form.saved.map fun f => f.row (form.fileinfo json) row.wuid f.fname }
  nothing : (upload json uploaddir writeFails fails s parts now).1 ≠ 200 →
    (upload json uploaddir writeFails fails s parts now).2.db = s.db

structure Undisturbed (fails : Failures) (db : WuDb) (form : Form) (clientid : Text) (row : WuRow)
  (now : ℕ) : Prop where
  inserts : ∀ i < form.saved.length, fails.insert i = false
  paths : ∀ f ∈ form.saved, ∀ g ∈ db.files, g.path ≠ f.destpath
  names : ∀ f ∈ form.saved, f.row (form.fileinfo json) row.wuid f.basename = f.row (form.fileinfo json) row.wuid f.fname
  update : fails.update = true → db.updateRecorded row.wuid clientid form.errorcode now = db

section
variable {fails : ℕ → Bool} {fileinfo : Text → Option JsonInfo} {rowid : WuName}

theorem insertFile_toOption (db : WuDb) (row : FileRow) :
    (db.insertFile row).toOption.getD db = db ∧ (∃ g ∈ db.files, g.path = row.path) ∨
      (db.insertFile row).toOption.getD db = { db with files := db.files ++ [row] } := by
  unfold WuDb.insertFile
  split
  · rename_i there
    obtain ⟨g, member, same⟩ := List.any_eq_true.mp there
    exact .inl ⟨rfl, g, member, of_decide_eq_true same⟩
  · exact .inr rfl

theorem insertAll_rows {i : ℕ} {db : WuDb} {saved : List SavedFile} :
    (insertAll fails fileinfo rowid i db saved).rows = db.rows := by
  induction saved generalizing i db with
  | nil => rfl
  | cons f saved ih =>
    rw [insertAll, ih]
    split
    · rfl
    · cases insertFile_toOption db (f.row fileinfo rowid f.basename) with
      | inl taken => rw [taken.1]
      | inr added => rw [added]

theorem insertAll_length_le (fails : ℕ → Bool) (fileinfo : Text → Option JsonInfo) (rowid : WuName) (i : ℕ) (db : WuDb)
    (saved : List SavedFile) :
    (insertAll fails fileinfo rowid i db saved).files.length ≤ db.files.length + saved.length := by
  induction saved generalizing i db with
  | nil => exact le_rfl
  | cons f saved ih =>
    rw [insertAll, List.length_cons]
    refine (ih _ _).trans ?_
    split
    · omega
    · cases insertFile_toOption db (f.row fileinfo rowid f.basename) with
      | inl taken =>
        rw [taken.1]
        omega
      | inr added =>
        rw [added, List.length_append, List.length_singleton]
        omega

theorem inserts_of_length {i : ℕ} {db : WuDb} {saved : List SavedFile}
    (full : (insertAll fails fileinfo rowid i db saved).files.length = db.files.length + saved.length) :
    (∀ j < saved.length, fails (i + j) = false) ∧ ∀ f ∈ saved, ∀ g ∈ db.files, g.path ≠ f.destpath := by
  induction saved generalizing i db with
  | nil =>
    refine ⟨fun j small => ?_, fun f member => ?_⟩
    · cases small
    · cases member
  | cons f saved ih =>
    rw [insertAll, List.length_cons] at full
    have short := insertAll_length_le fails fileinfo rowid (i + 1) db saved
    split at full
    · omega
    · rename_i here
      cases insertFile_toOption db (f.row fileinfo rowid f.basename) with
      | inl taken =>
        rw [taken.1] at full
        omega
      | inr added =>
        rw [added] at full
        obtain ⟨later, paths⟩ := ih (by rw [full, List.length_append, List.length_singleton]; omega)
        have free : ∀ g ∈ db.files, g.path ≠ f.destpath := by
          intro g member same
          have taken : (db.files.any fun x => x.path = (f.row fileinfo rowid f.basename).path) = true :=
            List.any_eq_true.mpr ⟨g, member, decide_eq_true same⟩
          rw [WuDb.insertFile, if_pos taken] at added
          have files := congrArg (fun d => d.files.length) added
          simp [Except.toOption] at files
        refine ⟨fun j small => ?_, List.forall_mem_cons.mpr ⟨free, fun f' member g there => ?_⟩⟩
        · cases j with
          | zero => exact Bool.eq_false_of_not_eq_true here
          | succ j =>
            rw [← Nat.add_assoc, Nat.add_right_comm]
            exact later j (by simpa using small)
        · exact paths f' member g (List.mem_append_left _ there)

theorem insertAll_files (fileinfo : Text → Option JsonInfo) (rowid : WuName) {i : ℕ} {db : WuDb}
    {saved : List SavedFile}
    (succeed : ∀ j < saved.length, fails (i + j) = false) (nodup : (saved.map SavedFile.destpath).Nodup)
    (paths : ∀ f ∈ saved, ∀ g ∈ db.files, g.path ≠ f.destpath) :
    (insertAll fails fileinfo rowid i db saved).files =
      db.files ++ saved.map fun f => f.row fileinfo rowid f.basename := by
  induction saved generalizing i db with
  | nil => exact (List.append_nil _).symm
  | cons f saved ih =>
    rw [List.map_cons, List.nodup_cons] at nodup
    rw [List.forall_mem_cons] at paths
    have here : fails i = false := succeed 0 (Nat.succ_pos _)
    have added : (db.insertFile (f.row fileinfo rowid f.basename)).toOption.getD db =
        { db with files := db.files ++ [f.row fileinfo rowid f.basename] } := by
      cases insertFile_toOption db (f.row fileinfo rowid f.basename) with
      | inl taken =>
        obtain ⟨g, member, same⟩ := taken.2
        exact absurd same (paths.1 g member)
      | inr added => exact added
    rw [insertAll, here, if_neg Bool.false_ne_true, added, ih, List.append_assoc]
    · rfl
    · intro j small
      rw [Nat.add_assoc, Nat.add_comm 1]
      exact succeed (j + 1) (by simpa using small)
    · exact nodup.2
    · intro f' member g there
      cases List.mem_append.mp there with
      | inl before => exact paths.2 f' member g before
      | inr last =>
        obtain rfl := List.mem_singleton.mp last
        intro same
        exact nodup.1 (List.mem_map.mpr ⟨f', member, same.symm⟩)

end

theorem receive_nodup {uploaddir : Text} {writeFails : Text → Bool} {parts : List Part}
    {disk disk' : List (Text × Bytes)}
    {form form' : Form} (ok : receive uploaddir writeFails disk form parts = (disk', .ok form'))
    (nodup : (form.saved.map SavedFile.destpath).Nodup) (there : ∀ f ∈ form.saved, disk.any (·.1 = f.destpath) = true) :
    (form'.saved.map SavedFile.destpath).Nodup := by
  induction parts generalizing disk form with
  | nil =>
    obtain ⟨-, same⟩ := Prod.mk.inj ok
    obtain rfl := Except.ok.inj same
    exact nodup
  | cons part parts ih =>
    cases part with
    | malformed => cases ok
    | field name text => exact ih ok nodup there
    | file fname data =>
      cases data with
      | none => cases ok
      | some data =>
        rw [receive] at ok
        split at ok
        · cases ok
        · rename_i free
          split at ok
          · cases ok
          · refine ih ok ?_ ?_
            · rw [List.map_append, List.nodup_append]
              refine ⟨nodup, List.nodup_singleton _, fun path member path' last same => free ?_⟩
              obtain ⟨f, member', rfl⟩ := List.mem_map.mp member
              obtain rfl := List.mem_singleton.mp last
              rw [destExists, ← show f.destpath = pathJoin uploaddir (sanitize fname) from same, there f member',
                Bool.or_true]
            · intro f member
              rw [List.any_append, Bool.or_eq_true]
              cases List.mem_append.mp member with
              | inl before => exact .inl (there f before)
              | inr last =>
                obtain rfl := List.mem_singleton.mp last
                exact .inr (by simp)

theorem receive_error {uploaddir : Text} {writeFails : Text → Bool} {parts : List Part}
    {disk disk' : List (Text × Bytes)}
    {form : Form} {code : ℕ} (error : receive uploaddir writeFails disk form parts = (disk', .error code)) :
      code ≠ 200 := by
  induction parts generalizing disk form with
  | nil => cases error
  | cons part parts ih =>
    cases part with
    | malformed =>
      cases error
      decide
    | field name text => exact ih error
    | file fname data =>
      cases data with
      | none =>
        cases error
        decide
      | some data =>
        rw [receive] at error
        split at error
        · cases error
          decide
        · split at error
          · cases error
            decide
          · exact ih error

section
variable (json : Text → Text → Option JsonInfo) {uploaddir : Text} {writeFails : Text → Bool} {fails : Failures}
  {s : State} {parts : List Part} (now : ℕ)

theorem upload_reached {form : Form} {clientid wuid : Text} {row : WuRow}
    (reached : Reached uploaddir writeFails fails s parts form clientid wuid row) :
    let db := insertAll fails.insert (form.fileinfo json) row.wuid 0 s.db form.saved
    (upload json uploaddir writeFails fails s parts now).1 = 200 ∧
      (upload json uploaddir writeFails fails s parts now).2.db =
        if fails.update then db else db.updateRecorded row.wuid clientid form.errorcode now := by
  obtain ⟨received, client, wu, pool, select, found⟩ := reached
  unfold upload
  cases result : receive uploaddir writeFails s.disk ⟨[], []⟩ parts with
  | mk disk form' =>
    rw [result] at received
    obtain rfl : form' = .ok form := received
    dsimp only
    rw [client, wu]
    dsimp only
    rw [recordResult, pool, select, found]
    exact ⟨rfl, rfl⟩

variable (uploaddir writeFails fails s parts) in
theorem upload_cases : (∃ form clientid wuid row, Reached uploaddir writeFails fails s parts form clientid wuid row) ∨
    (upload json uploaddir writeFails fails s parts now).1 ≠ 200 ∧
      (upload json uploaddir writeFails fails s parts now).2.db = s.db := by
  unfold upload
  cases result : receive uploaddir writeFails s.disk ⟨[], []⟩ parts with
  | mk disk form =>
    cases form with
    | error code => exact .inr ⟨receive_error result, rfl⟩
    | ok form =>
      dsimp only
      cases client : form.fields.lookup "clientid".toList with
      | none => exact .inr ⟨(by decide : 400 ≠ 200), rfl⟩
      | some clientid =>
        cases wu : form.fields.lookup "WUid".toList with
        | none => exact .inr ⟨(by decide : 400 ≠ 200), rfl⟩
        | some wuid =>
          dsimp only
          unfold recordResult
          cases pool : fails.pool with
          | true => exact .inr ⟨(by decide : 500 ≠ 200), rfl⟩
          | false =>
            cases select : fails.select with
            | true => exact .inr ⟨(by decide : 503 ≠ 200), rfl⟩
            | false =>
              cases found : s.db.selectStatus wuid with
              | none => exact .inr ⟨(by decide : 404 ≠ 200), rfl⟩
              | some row => exact .inl ⟨form, clientid, wuid, row, congrArg Prod.snd result, client, wu, pool, select, found⟩

end

theorem stored_iff {json : Text → Text → Option JsonInfo} {fails : Failures} {db : WuDb} {form : Form} {clientid : Text}
    {row : WuRow} {now : ℕ} (nodup : (form.saved.map SavedFile.destpath).Nodup) :
    (let db' := insertAll fails.insert (form.fileinfo json) row.wuid 0 db form.saved
      if fails.update then db' else db'.updateRecorded row.wuid clientid form.errorcode now) =
      { db.updateRecorded row.wuid clientid form.errorcode now with
        files := db.files ++ form.saved.map fun f => f.row (form.fileinfo json) row.wuid f.fname } ↔
    Undisturbed json fails db form clientid row now := by
  have rows : (insertAll fails.insert (form.fileinfo json) row.wuid 0 db form.saved).rows = db.rows := insertAll_rows
  dsimp only
  generalize after : insertAll fails.insert (form.fileinfo json) row.wuid 0 db form.saved = db' at rows
  have files : (if fails.update then db' else db'.updateRecorded row.wuid clientid form.errorcode now).files =
      db'.files := by
    split <;> rfl
  constructor
  · intro kept
    have filesKept := files.symm.trans (congrArg WuDb.files kept)
    have length : (insertAll fails.insert (form.fileinfo json) row.wuid 0 db form.saved).files.length =
        db.files.length + form.saved.length := by
      rw [after, filesKept, List.length_append, List.length_map]
    obtain ⟨inserts, paths⟩ := inserts_of_length length
    have inserted := insertAll_files (form.fileinfo json) row.wuid inserts nodup paths
    rw [after, filesKept] at inserted
    simp only [Nat.zero_add] at inserts
    refine ⟨inserts, paths, ?_, fun failed => ?_⟩
    · have same := List.append_cancel_left inserted
      exact fun f member => (List.map_inj_left.mp same f member).symm
    · rw [failed, if_pos rfl] at kept
      have rowsKept := congrArg WuDb.rows kept
      rw [rows] at rowsKept
      exact congrArg (fun rows => ({ db with rows } : WuDb)) rowsKept.symm
  · intro undisturbed
    have inserts : ∀ j < form.saved.length, fails.insert (0 + j) = false := by
      simpa only [Nat.zero_add] using undisturbed.inserts
    have inserted := insertAll_files (form.fileinfo json) row.wuid inserts nodup undisturbed.paths
    rw [after, List.map_congr_left undisturbed.names] at inserted
    have rowsKept : (if fails.update then db' else db'.updateRecorded row.wuid clientid form.errorcode now).rows =
        (db.updateRecorded row.wuid clientid form.errorcode now).rows := by
      split
      · rename_i failed
        rw [undisturbed.update failed, rows]
      · show db'.rows.map _ = db.rows.map _
        rw [rows]
    cases result : if fails.update then db' else db'.updateRecorded row.wuid clientid form.errorcode now with
    | mk rows' files' =>
      rw [result] at rowsKept files
      exact congr (congrArg WuDb.mk rowsKept) (files.trans inserted)

theorem allOrNothing_iff (json : Text → Text → Option JsonInfo) (uploaddir : Text) (writeFails : Text → Bool)
    (fails : Failures) (s : State) (parts : List Part) (now : ℕ) :
    AllOrNothing json uploaddir writeFails fails s parts now ↔
      ∀ form clientid wuid row, Reached uploaddir writeFails fails s parts form clientid wuid row →
        Undisturbed json fails s.db form clientid row now := by
  have nodup {form : Form} {clientid wuid : Text} {row : WuRow}
      (reached : Reached uploaddir writeFails fails s parts form clientid wuid row) :
      (form.saved.map SavedFile.destpath).Nodup :=
    receive_nodup (Prod.ext rfl reached.received) List.nodup_nil fun f member => by cases member
  constructor
  · intro promise form clientid wuid row reached
    obtain ⟨code, after⟩ := upload_reached json now reached
    obtain ⟨form', clientid', wuid', row', reached', kept⟩ := promise.all code
    obtain rfl : form = form' := Except.ok.inj (reached.received.symm.trans reached'.received)
    obtain rfl : clientid = clientid' := Option.some.inj (reached.client.symm.trans reached'.client)
    obtain rfl : wuid = wuid' := Option.some.inj (reached.wu.symm.trans reached'.wu)
    obtain rfl : row = row' := Option.some.inj (reached.found.symm.trans reached'.found)
    exact (stored_iff (nodup reached)).mp (after.symm.trans kept)
  · intro undisturbed
    refine ⟨fun code => ?_, fun error => ?_⟩
    · cases upload_cases json uploaddir writeFails fails s parts now with
      | inr failed => exact absurd code failed.1
      | inl found =>
        obtain ⟨form, clientid, wuid, row, reached⟩ := found
        refine ⟨form, clientid, wuid, row, reached, ?_⟩
        obtain ⟨-, after⟩ := upload_reached json now reached
        exact after.trans ((stored_iff (nodup reached)).mpr (undisturbed form clientid wuid row reached))
    · cases upload_cases json uploaddir writeFails fails s parts now with
      | inr failed => exact failed.2
      | inl found =>
        obtain ⟨form, clientid, wuid, row, reached⟩ := found
        exact absurd (upload_reached json now reached).1 error

def assignedState : State :=
  ⟨⟨[⟨⟨⟨"c59".toList, "sieving".toList, 0, 1000, none⟩, [], [], Workunit.upper_nil⟩, .assigned, some 0,
    some "client".toList, none, none, none, none, none⟩], []⟩, []⟩

def noFiles : List Part :=
  [.field "clientid".toList (some "client".toList), .field "WUid".toList (some "c59_sieving_0-1000".toList)]

/-- The `UPDATE` fails and the reply is 200. -/
theorem busyUpdate_not_allOrNothing : ¬ AllOrNothing (fun _ _ => none) "upload".toList (fun _ => false)
    ⟨false, false, fun _ => false, true⟩ assignedState noFiles 1 := by
  intro promise
  obtain ⟨form, clientid, wuid, row, reached, kept⟩ := promise.all rfl
  obtain rfl := Except.ok.inj reached.received
  obtain rfl := Option.some.inj reached.wu
  obtain rfl := Option.some.inj reached.found
  cases congrArg (fun db => db.rows.map (·.status)) kept

end WuServer

end CadoNfs.Cadofactor
