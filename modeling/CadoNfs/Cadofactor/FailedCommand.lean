import CadoNfs.Cadofactor.ClientServerTask
import CadoNfs.Cadofactor.StdioFiles

/-!
# Failed commands

What the driver makes of the answer of a client one of whose commands ends with a nonzero exit code.
-/

namespace CadoNfs.Cadofactor

open Lib

/-- Command `k` is seen to fail with `c`, and `handle_error_result` marks the workunit and resubmits it. -/
structure FailureSeen (column : Text → Option ℤ) (db : WuDb) (info : ResultInfo) (k : ℕ) (c : ℤ) : Prop where
  exitcode : info.getExitcode column k = .ok c
  others : ∀ j, j ≠ k → info.getExitcode column j = .ok 0
  notSuccess : ∀ p : TaskParams, p.handleErrorResult column info ≠ .ok none
  marked : ∀ (p : TaskParams) (now : ℕ) (t : TaskState), t.db = db → t.state .failed < p.maxfailed →
    1 ≤ t.outstanding → (∀ r ∈ db.rows, r.wuid ≠ p.nextName info.row.wuid) →
    ∃ actions t', p.handleErrorResult column info = .ok (some actions) ∧ runActions p now t actions = .ok t' ∧
      (t'.db.getByWuid info.row.wuid).map (·.status) = some .verifiedError ∧
      (TaskParams.nextAttempt info.row.wuid ≤ p.maxwuerror →
        (t'.db.getByWuid (p.nextName info.row.wuid)).map (·.status) = some .available)

/-- The Rust client gives the text of the command in place of its number. -/
def Client.GivesZero (client : Client) (column : Text → Option ℤ) (settings : Settings) (wu : Workunit)
    (k : ℕ) : Prop :=
  match client with
  | .python => False
  | .rust _ => k = 0 ∧ ∃ raw, wu.commands[0]? = some raw ∧ column (Rust.command settings wu raw) = some 0

theorem WorkunitProcessor.answer_failed {settings : Settings} {wu : Workunit} {run : ℕ → Option Outcome}
    {read : Text → Option Bytes} {a : Answer} {k : ℕ} {o : Outcome}
    (answered : Client.python.answer settings wu run read = some a)
    (last : (Client.python.outcomes settings wu run)[k]? = some o) (failed : o.rc ≠ 0) :
    a.wuid = wu.id ∧ a.errorcode = some (printInt o.rc) ∧
      a.failedcommand = if k = 0 then none else some (Nat.toDigits 10 k) := by
  obtain ⟨p, ran, ok⟩ := Option.bind_eq_some_iff.mp answered
  obtain ⟨number, code⟩ := runCommands_failed settings failed ran last
  obtain ⟨uploads, -, rfl⟩ := Option.map_eq_some_iff.mp ok
  rw [Nat.zero_add] at number
  refine ⟨rfl, (if_neg (code ▸ failed)).trans (congrArg (fun c => some (printInt c)) code), ?_⟩
  show (p.failedcommand.filter (· ≠ 0)).map (Nat.toDigits 10) = _
  rw [number]
  cases k <;> rfl

theorem Rust.answer_failed {order : Rust.Order} {settings : Settings} {wu : Workunit} {run : ℕ → Option Outcome}
    {read : Text → Option Bytes} {a : Answer} {k : ℕ} {o : Outcome}
    (answered : (Client.rust order).answer settings wu run read = some a)
    (last : ((Client.rust order).outcomes settings wu run)[k]? = some o) (failed : o.rc ≠ 0) :
    a.wuid = wu.id ∧ a.errorcode = some (printInt o.rc) ∧
      ∃ raw, wu.commands[k]? = some raw ∧ a.failedcommand = some (Rust.command settings wu raw) := by
  obtain ⟨r, ran, rfl⟩ := Option.map_eq_some_iff.mp answered
  obtain ⟨raw, here, text, code⟩ := Rust.runCommands_failed failed ran last
  exact ⟨rfl, congrArg (Option.map printInt) code, raw, here, text⟩

/-! ## What the driver does -/

variable {column : Text → Option ℤ} {info : ResultInfo}

theorem ResultInfo.getExitcode_of_none (none : info.row.failedcommand = none) (k : ℕ) :
    info.getExitcode column k = .ok 0 := by
  rw [getExitcode, none]

theorem ResultInfo.getExitcode_of_some {text code : Text} {n c : ℤ} (failedcommand : info.row.failedcommand = some text)
    (number : column text = some n) (errorcode : info.row.errorcode = some code) (value : column code = some c)
      (k : ℕ) :
    info.getExitcode column k = .ok (if n = k then c else 0) := by
  rw [getExitcode, failedcommand]
  dsimp only
  rw [number, errorcode]
  dsimp only
  rw [value]
  split <;> rfl

theorem TaskParams.handleErrorResult_zero (p : TaskParams) (zero : info.getExitcode column 0 = .ok 0) :
    p.handleErrorResult column info = .ok none := by
  rw [handleErrorResult, zero]
  rfl

theorem handleErrorResult_marks {p : TaskParams} (now : ℕ) {t : TaskState} {wuid : WuName} {row : WuRow}
    (found : t.db.getByWuid wuid = some row) (received : row.status = .receivedError)
    (failed : t.state .failed < p.maxfailed) (outstanding : 1 ≤ t.outstanding)
    (fresh : ∀ r ∈ t.db.rows, r.wuid ≠ p.nextName row.wuid) :
    ∃ t', runActions p now t (.checkFailed :: .assertReceivedError wuid :: .count .failed 1 ::
        (TaskParams.verification wuid false ++ p.resubmitOneWu p.maxwuerror row.wu)) = .ok t' ∧
      (t'.db.getByWuid wuid).map (·.status) = some .verifiedError ∧
      (TaskParams.nextAttempt wuid ≤ p.maxwuerror →
        (t'.db.getByWuid (p.nextName row.wuid)).map (·.status) = some .available) := by
  have name : row.wuid = wuid := WuDb.wuid_of_getByWuid found
  let t₁ := t.add .failed 1
  let t₂ : TaskState := { (t₁.add .received 1).add .rangeReceived (TaskParams.getWusize wuid) with
    db := t.db.update (·.wuid = wuid) (·.verified false now) }
  have start (rest : List Action) : runActions p now t (.checkFailed :: .assertReceivedError wuid :: .count .failed 1 ::
      (TaskParams.verification wuid false ++ rest)) = runActions p now t₂ rest := by
    rw [runActions_cons, Action.run, if_pos failed]
    show runActions p now t (.assertReceivedError wuid :: _) = _
    rw [runActions_cons, Action.run, found, Option.map_some, received, if_pos rfl]
    show runActions p now t₁ _ = _
    rw [runActions_append, TaskParams.run_verification (t := t₁) found (.inr received) outstanding]
    rfl
  have old : t₂.db.getByWuid wuid = some (row.verified false now) := by
    refine (WuDb.getByWuid_update (f := (·.verified false now)) fun _ => rfl).trans ?_
    rw [found, Option.map_some, if_pos (decide_eq_true name)]
  have fresh' : ∀ r ∈ t₂.db.rows, r.wuid ≠ p.nextName row.wu.id := by
    intro r member
    obtain ⟨r', member', rfl⟩ := List.mem_map.mp member
    split <;> exact fresh r' member'
  rw [start, TaskParams.resubmitOneWu]
  split
  · rename_i last
    refine ⟨t₂, rfl, by rw [old]; rfl, fun more => ?_⟩
    rw [show row.wu.id = wuid from name] at last
    omega
  · refine ⟨_, TaskParams.run_submitWu fresh', ?_, fun _ => ?_⟩
    · show ((t₂.db.rows ++ _).find? _).map _ = _
      rw [List.find?_append]
      show ((t₂.db.getByWuid wuid).or _).map _ = _
      rw [old]
      rfl
    · show ((t₂.db.rows ++ _).find? _).map _ = _
      have absent : t₂.db.rows.find? (·.wuid = p.nextName row.wuid) = none := by
        refine List.find?_eq_none.mpr fun r member => ?_
        rw [decide_eq_true_eq]
        exact fresh' r member
      have new : decide ((p.renamed row.wu).newRow.wuid = p.nextName row.wuid) = true := decide_eq_true rfl
      rw [List.find?_append, absent, Option.none_or, List.find?_cons, new]
      rfl

/-- Only a failed first command of the Rust client is ever seen, and only if its text is read as 0. -/
theorem failureSeen_iff (client : Client) (settings : Settings) (wu : Workunit) (run : ℕ → Option Outcome)
    (read : Text → Option Bytes) (secureFilename : Text → Text) (uploadDir : ℕ → Text) (column : Text → Option ℤ)
    (server server' : ApiServer) (a : Answer) (now : ℕ) (row : WuRow) (k : ℕ) (o : Outcome)
    (integers : ∀ z ∈ [o.rc, (k : ℤ)], column (printInt z) = some z) (reachable : server.db.Reachable)
    (found : server.db.getByWuid wu.id = some row) (assigned : row.status = .assigned)
    (last : (client.outcomes settings wu run)[k]? = some o) (failed : o.rc ≠ 0)
    (answered : client.answer settings wu run read = some a)
    (recorded : server.upload secureFilename uploadDir a now = (200, server')) :
    ∃ info, server'.db.resultInfo wu.id = some info ∧
      (FailureSeen column server'.db info k o.rc ↔ client.GivesZero column settings wu k) := by
  have anyParams : TaskParams := ⟨[], [], 0, 0, 0, 0⟩
  cases client with
  | python =>
    obtain ⟨wuid, code, number⟩ := WorkunitProcessor.answer_failed answered last failed
    obtain ⟨info, found', row', -⟩ := upload_resultInfo reachable (wuid ▸ found) assigned recorded
    refine ⟨info, wuid ▸ found', fun seen => ?_, fun never => never.elim⟩
    have errorcode : info.row.errorcode = some (printInt o.rc) := by rw [row', ← code]; rfl
    have failedcommand : info.row.failedcommand = if k = 0 then none else some (Nat.toDigits 10 k) := by
      rw [row', ← number]
      rfl
    refine seen.notSuccess anyParams (TaskParams.handleErrorResult_zero _ ?_)
    cases k with
    | zero => exact ResultInfo.getExitcode_of_none failedcommand 0
    | succ k =>
      exact ResultInfo.getExitcode_of_some failedcommand (integers (k + 1 : ℕ) (by simp)) errorcode
        (integers o.rc (.head _)) 0
  | rust order =>
    obtain ⟨wuid, code, raw, here, text⟩ := Rust.answer_failed answered last failed
    obtain ⟨info, found', row', -⟩ := upload_resultInfo reachable (wuid ▸ found) assigned recorded
    have errorcode : info.row.errorcode = some (printInt o.rc) := by rw [row', ← code]; rfl
    have failedcommand : info.row.failedcommand = some (Rust.command settings wu raw) := by rw [row', ← text]; rfl
    refine ⟨info, wuid ▸ found', fun seen => ?_, ?_⟩
    · cases number : column (Rust.command settings wu raw) with
      | none =>
        have exitcode := seen.exitcode
        rw [ResultInfo.getExitcode, failedcommand] at exitcode
        dsimp only at exitcode
        rw [number] at exitcode
        cases exitcode
      | some n =>
        have exitcode := ResultInfo.getExitcode_of_some failedcommand number errorcode (integers o.rc (.head _))
        have first : n = k := by
          by_contra other
          have same := Except.ok.inj ((exitcode k).symm.trans seen.exitcode)
          rw [if_neg other] at same
          exact failed same.symm
        have zero : n = 0 := by
          by_contra other
          refine seen.notSuccess anyParams (TaskParams.handleErrorResult_zero _ ?_)
          rw [exitcode, Nat.cast_zero, if_neg other]
        obtain rfl : k = 0 := by omega
        exact ⟨rfl, raw, here, zero ▸ number⟩
    · rintro ⟨rfl, raw', here', number⟩
      obtain rfl : raw = raw' := Option.some.inj (here.symm.trans here')
      have exitcode := ResultInfo.getExitcode_of_some failedcommand number errorcode (integers o.rc (.head _))
      have zero : info.getExitcode column 0 = .ok o.rc := by rw [exitcode, Nat.cast_zero, if_pos rfl]
      have handled (p : TaskParams) : p.handleErrorResult column info =
          .ok (some (.checkFailed :: .assertReceivedError info.row.wuid :: .count .failed 1 ::
            (TaskParams.verification info.row.wuid false ++ p.resubmitOneWu p.maxwuerror info.row.wu))) := by
        rw [TaskParams.handleErrorResult, zero]
        exact if_neg failed
      have received : info.row.status = .receivedError := by
        rw [row', WuRow.answered, code]
        rfl
      obtain ⟨row'', stored, rfl⟩ := Option.map_eq_some_iff.mp found'
      refine ⟨zero, fun j other => ?_, fun p same => ?_, fun p now t db failures outstanding fresh => ?_⟩
      · rw [exitcode, if_neg (by omega)]
      · rw [handled] at same
        cases same
      · have name := WuDb.wuid_of_getByWuid stored
        have there : t.db.getByWuid row''.wuid = some row'' := db ▸ name.symm ▸ stored
        obtain ⟨t', ran, marked, again⟩ := handleErrorResult_marks now there received failures outstanding (db ▸ fresh)
        exact ⟨_, t', handled p, ran, marked, again⟩

def readDecimal (digits : Text) : Option ℕ :=
  if digits ≠ [] ∧ digits.all Char.isDigit then some (Nat.ofDigitChars 10 digits 0) else none

def readInt (text : Text) : Option ℤ :=
  if text.head? = some '-' then (readDecimal text.tail).map fun n => -(n : ℤ) else (readDecimal text).map (↑)

theorem readDecimal_toDigits (n : ℕ) : readDecimal (Nat.toDigits 10 n) = some n := by
  have digits : (Nat.toDigits 10 n).all Char.isDigit = true :=
    List.all_eq_true.mpr fun c member => Nat.isDigit_of_mem_toDigits (by norm_num) (by norm_num) member
  rw [readDecimal, if_pos ⟨Nat.toDigits_ne_nil, digits⟩, Nat.ofDigitChars_ten_toDigits]

theorem readInt_printInt (z : ℤ) : readInt (printInt z) = some z := by
  cases z with
  | ofNat n =>
    have digit : (printInt (.ofNat n)).head? ≠ some '-' := by
      intro minus
      have member : '-' ∈ Nat.toDigits 10 n := List.mem_of_mem_head? minus
      cases Nat.isDigit_of_mem_toDigits (by norm_num) (by norm_num) member
    rw [readInt, if_neg digit]
    show (readDecimal (Nat.toDigits 10 n)).map _ = _
    rw [readDecimal_toDigits]
    rfl
  | negSucc n =>
    rw [printInt, readInt, List.head?_cons, if_pos rfl, List.tail_cons, readDecimal_toDigits]
    rfl

def oneCommand (command : Text) : Workunit :=
  ⟨⟨"c59".toList, "sieving".toList, 0, 1000, none⟩, [command], [], Workunit.upper_nil⟩

def fails (_ : ℕ) : Option Outcome := some ⟨1, [], []⟩

def uploadedFailure (client : Client) (command : Text) : Option (ℕ × ApiServer) :=
  (client.answer someSettings (oneCommand command) fails fun _ => none).map fun a =>
    (assignedServer (oneCommand command)).upload id (fun _ => "upload".toList) a 1

theorem failureSeen_iff_zero : ∃ server' info, uploadedFailure (.rust ⟨id, .refl⟩) "0".toList = some (200, server') ∧
    server'.db.resultInfo (oneCommand "0".toList).id = some info ∧ FailureSeen readInt server'.db info 0 1 := by
  obtain ⟨server', ok⟩ : ∃ server', uploadedFailure (.rust ⟨id, .refl⟩) "0".toList = some (200, server') := ⟨_, rfl⟩
  obtain ⟨a, answered, recorded⟩ := Option.map_eq_some_iff.mp ok
  obtain ⟨info, found, iff⟩ := failureSeen_iff (.rust ⟨id, .refl⟩) someSettings (oneCommand "0".toList) fails
    (fun _ => none) id (fun _ => "upload".toList) readInt (assignedServer (oneCommand "0".toList)) server' a 1 _ 0
    ⟨1, [], []⟩ (fun z _ => readInt_printInt z) (assignedServer_reachable _) rfl rfl rfl (by decide) answered recorded
  exact ⟨server', info, ok, found, iff.mpr ⟨rfl, "0".toList, rfl, by decide⟩⟩

theorem firstCommand_not_seen : ∃ server' info, uploadedFailure .python "las".toList = some (200, server') ∧
    server'.db.resultInfo (oneCommand "las".toList).id = some info ∧ info.row.status = .receivedError ∧
    (∀ p : TaskParams, p.handleErrorResult readInt info = .ok none) ∧ ¬ FailureSeen readInt server'.db info 0 1 := by
  refine ⟨_, _, rfl, rfl, rfl, fun p => rfl, fun seen => ?_⟩
  cases seen.exitcode

end CadoNfs.Cadofactor
