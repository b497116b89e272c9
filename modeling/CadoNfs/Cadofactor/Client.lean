import CadoNfs.Cadofactor.Wudb
import CadoNfs.Lib.Dict

/-!
# The clients

`WorkunitProcessor` of `cado-nfs-client.py`, and `run_commands` and `upload` of `rust/cado-nfs-client/src/main.rs`. What
the commands of a workunit do is given: `run k` is the outcome of command `k`, and `none` stands for a process that
cannot be started.
-/

namespace CadoNfs.Cadofactor

open Lib

inductive Std
  | stdout
  | stderr
  deriving DecidableEq

namespace Std

def name : Std → Text
  | stdout => "stdout".toList
  | stderr => "stderr".toList

def upperName : Std → Text
  | stdout => "STDOUT".toList
  | stderr => "STDERR".toList

end Std

structure Outcome where
  rc : ℤ
  stdout : Bytes
  stderr : Bytes
  deriving DecidableEq

def Outcome.blob (o : Outcome) : Std → Bytes
  | .stdout => o.stdout
  | .stderr => o.stderr

def fileId (name : Text) (counter : ℕ) : Text := name ++ Nat.toDigits 10 counter

def printInt : ℤ → Text
  | .ofNat n => Nat.toDigits 10 n
  | .negSucc n => '-' :: Nat.toDigits 10 (n + 1)

def pathJoin (dir name : Text) : Text :=
  if name.head? = some '/' ∨ dir = [] then name
  else if dir.getLast? = some '/' then dir ++ name
  else dir ++ '/' :: name

def basename (path : Text) : Text := (path.reverse.takeWhile (· ≠ '/')).reverse

structure FileInfo where
  key : Text
  command : Option ℤ
  deriving DecidableEq

structure Answer where
  wuid : WuName
  clientid : Text
  errorcode : Option Text
  failedcommand : Option Text
  files : List (Text × Bytes)
  fileinfo : List (Text × FileInfo)
  deriving DecidableEq

structure Settings where
  clientid : Text
  dldir : Text
  workdir : Text

namespace Workunit

variable (wu : Workunit)

def declares (fid : Text) : Bool := wu.files.any (·.1 = fid)

def capture (o : Outcome) (counter : ℕ) (s : Std) : Option Bytes :=
  if wu.declares (fileId s.upperName counter) ∨ o.blob s = [] then none else some (o.blob s)

end Workunit

/-! ## The Python client -/

structure WorkunitProcessor where
  errorcode : ℤ
  failedcommand : Option ℕ
  stdio : Std → List Bytes

namespace WorkunitProcessor

def init : WorkunitProcessor := ⟨0, none, fun _ => []⟩

def runCommands (wu : Workunit) (run : ℕ → Option Outcome) (counter : ℕ) :
    List Text → WorkunitProcessor → Option WorkunitProcessor
  | [], p => some p
  | _ :: commands, p =>
    if wu.declares (fileId "STDIN".toList counter) then none
    else match run counter with
      | none => none
      | some o =>
        let p := { p with stdio := fun s => p.stdio s ++ (wu.capture o counter s).toList }
        if o.rc ≠ 0 then some { p with failedcommand := some counter, errorcode := o.rc }
        else runCommands wu run (counter + 1) commands p

def attachUpload (read : Text → Option Bytes) (f : Text × WuFile) : Option (Text × Bytes × FileInfo) :=
  (read f.2.filename).map fun data => (basename f.2.filename, data, ⟨f.1, none⟩)

def attachStdio (wu : Workunit) (s : Std) (blobs : List Bytes) : List (Text × Bytes × FileInfo) :=
  blobs.zipIdx.map fun (blob, counter) =>
    (wu.id.text ++ '.' :: fileId s.name counter, blob, ⟨fileId s.name counter, some counter⟩)

def prepareAnswer (wu : Workunit) (settings : Settings) (read : Text → Option Bytes) (p : WorkunitProcessor) :
    Option Answer :=
  ((wu.files.filter (·.2.upload)).mapM (attachUpload read)).map fun uploads =>
    let attached := dictFrom (uploads ++
      attachStdio wu .stdout (p.stdio .stdout) ++ attachStdio wu .stderr (p.stdio .stderr))
    { wuid := wu.id
      clientid := settings.clientid
      errorcode := if p.errorcode = 0 then none else some (printInt p.errorcode)
      failedcommand := (p.failedcommand.filter (· ≠ 0)).map (Nat.toDigits 10)
      files := attached.map fun (name, data, _) => (name, data)
      fileinfo := attached.map fun (name, _, info) => (name, info) }

end WorkunitProcessor

namespace Rust

def isIdent (c : Char) : Bool := c.isAlphanum || c = '_'

def ident : Text → Text
  | [] => []
  | c :: rest => if c.isDigit then [] else (c :: rest).takeWhile isIdent

-- `None => { out.push('$'); out.push_str(&name) }`
def expand (map : Text → Option Text) (name : Text) : Text := (map name).getD ('$' :: name)

def pushBytes (c : Char) : Text := (String.utf8EncodeChar c).map fun b => Char.ofNat b.toNat

def substituteGo (map : Text → Option Text) : ℕ → Text → Text
  | 0, _ => []
  | _, [] => []
  | fuel + 1, c :: rest =>
    if c ≠ '$' then pushBytes c ++ substituteGo map fuel rest
    else match rest with
      | '$' :: rest => '$' :: substituteGo map fuel rest
      | '{' :: inner =>
        match inner.dropWhile (· ≠ '}') with
        | [] => '$' :: substituteGo map fuel rest
        | _ :: next => expand map (inner.takeWhile (· ≠ '}')) ++ substituteGo map fuel next
      | rest =>
        if ident rest = [] then '$' :: substituteGo map fuel rest
        else expand map (ident rest) ++ substituteGo map fuel (rest.drop (ident rest).length)

def substitute (map : Text → Option Text) (input : Text) : Text := substituteGo map input.length input

def substArch (name arch : Text) : Text := substitute (fun n => if n = "ARCH".toList then some arch else none) name

def fileMap (s : Settings) (wu : Workunit) (fid : Text) : Option Text :=
  (wu.files.lookup fid).map fun f =>
    let name := substArch f.filename []
    let starts (word : String) := word.toList.isPrefixOf fid
    if starts "FILE" ∨ starts "EXECFILE" then pathJoin s.dldir name
    else if starts "RESULT" ∨ starts "WDIR" ∨ starts "STDOUT" ∨ starts "STDERR" ∨ starts "STDIN" then
      pathJoin s.workdir name
    else name

def command (s : Settings) (wu : Workunit) (raw : Text) : Text := substitute (fileMap s wu) (raw.filter (· ≠ '\''))

def blank (command : Text) : Bool := command.all (· = ' ')

structure Ran where
  errorcode : Option ℤ
  failedcommand : Option Text
  stdio : List (Text × Bytes)

def insertStdio (wu : Workunit) (o : Outcome) (counter : ℕ) (s : Std) : List (Text × Bytes) :=
  (wu.capture o counter s).toList.map fun blob => (fileId s.upperName counter, blob)

def runCommands (settings : Settings) (wu : Workunit) (run : ℕ → Option Outcome) (counter : ℕ) :
    List Text → List (Text × Bytes) → Option Ran
  | [], stdio => some ⟨none, none, stdio⟩
  | raw :: commands, stdio =>
    if blank (command settings wu raw) then runCommands settings wu run (counter + 1) commands stdio
    else match run counter with
      | none => none
      | some o =>
        let stdio := stdio ++ insertStdio wu o counter .stdout ++ insertStdio wu o counter .stderr
        if o.rc ≠ 0 then some ⟨some o.rc, some (command settings wu raw), stdio⟩
        else runCommands settings wu run (counter + 1) commands stdio

-- The number is an `i64`.
def fileinfoEntry (key : Text) : FileInfo :=
  let digits := (key.reverse.takeWhile Char.isDigit).reverse
  let n := Nat.ofDigitChars 10 digits 0
  ⟨key, if digits ≠ [] ∧ n < 2 ^ 63 then some (n : ℤ) else none⟩

-- A declared file that is missing is left out.
def attachUpload (read : Text → Option Bytes) (f : Text × WuFile) : Option (Text × Bytes × FileInfo) :=
  let name := substArch f.2.filename []
  (read name).map fun data => (name, data, fileinfoEntry f.1)

def attachStdio (wu : Workunit) (f : Text × Bytes) : Text × Bytes × FileInfo :=
  (wu.id.text ++ '.' :: f.1, f.2, fileinfoEntry f.1)

def Order : Type :=
  { order : List (Text × Bytes × FileInfo) → List (Text × Bytes × FileInfo) // ∀ l, (order l).Perm l }

def upload (order : Order) (wu : Workunit) (settings : Settings) (read : Text → Option Bytes) (r : Ran) : Answer :=
  let attached := order.1
    ((wu.files.filter (·.2.upload)).filterMap (attachUpload read) ++ r.stdio.map (attachStdio wu))
  { wuid := wu.id
    clientid := settings.clientid
    errorcode := r.errorcode.map printInt
    failedcommand := r.failedcommand
    files := attached.map fun (name, data, _) => (name, data)
    fileinfo := dictFrom (attached.map fun (name, _, info) => (name, info)) }

end Rust

inductive Client
  | python
  | rust (order : Rust.Order)

def Client.answer (client : Client) (settings : Settings) (wu : Workunit) (run : ℕ → Option Outcome)
    (read : Text → Option Bytes) : Option Answer :=
  match client with
  | .python => (WorkunitProcessor.runCommands wu run 0 wu.commands .init).bind fun p =>
      p.prepareAnswer wu settings read
  | .rust order => (Rust.runCommands settings wu run 0 wu.commands []).map fun r =>
      Rust.upload order wu settings read r

/-! ## What the commands do -/

def outcomesFrom (run : ℕ → Text → Option Outcome) (counter : ℕ) : List Text → List Outcome
  | [] => []
  | command :: commands =>
    match run counter command with
    | none => []
    | some o => o :: if o.rc ≠ 0 then [] else outcomesFrom run (counter + 1) commands

namespace Client

variable (client : Client) (settings : Settings) (wu : Workunit) (run : ℕ → Option Outcome)

def outcome (counter : ℕ) (raw : Text) : Option Outcome :=
  match client with
  | .python => run counter
  | .rust _ => if Rust.blank (Rust.command settings wu raw) then some ⟨0, [], []⟩ else run counter

def outcomes : List Outcome := outcomesFrom (client.outcome settings wu run) 0 wu.commands

def captured (s : Std) (k : ℕ) : Option Bytes :=
  (client.outcomes settings wu run)[k]?.bind fun o => wu.capture o k s

end Client

theorem outcomesFrom_cons {run : ℕ → Text → Option Outcome} {counter : ℕ} {command : Text} {commands : List Text}
    {o : Outcome} (started : run counter command = some o) :
    outcomesFrom run counter (command :: commands) =
      o :: if o.rc ≠ 0 then [] else outcomesFrom run (counter + 1) commands := by
  rw [outcomesFrom, started]

theorem runCommands_stdio (settings : Settings) {wu : Workunit} {run : ℕ → Option Outcome} (s : Std)
    {commands : List Text} {counter : ℕ} {p p' : WorkunitProcessor}
    (ok : WorkunitProcessor.runCommands wu run counter commands p = some p') :
    p'.stdio s = p.stdio s ++ (((outcomesFrom (Client.python.outcome settings wu run) counter commands).zipIdx
      counter).map fun (o, k) => wu.capture o k s).reduceOption := by
  induction commands generalizing counter p with
  | nil =>
    obtain rfl := Option.some.inj ok
    exact (List.append_nil _).symm
  | cons command commands ih =>
    unfold WorkunitProcessor.runCommands at ok
    split at ok
    · cases ok
    · cases started : run counter with
      | none =>
        rw [started] at ok
        cases ok
      | some o =>
        have cons (l : List (Option Bytes)) :
            (wu.capture o counter s :: l).reduceOption = (wu.capture o counter s).toList ++ l.reduceOption := by
          cases wu.capture o counter s <;> rfl
        rw [started] at ok
        rw [outcomesFrom_cons started, List.zipIdx_cons, List.map_cons, cons, ← List.append_assoc]
        dsimp only at ok
        split at ok
        · rename_i failed
          obtain rfl := Option.some.inj ok
          rw [if_pos failed]
          exact (List.append_nil _).symm
        · rename_i succeeded
          rw [if_neg succeeded]
          exact ih ok

theorem runCommands_failed (settings : Settings) {wu : Workunit} {run : ℕ → Option Outcome} {k : ℕ} {o : Outcome}
    (failed : o.rc ≠ 0) {commands : List Text} {counter : ℕ} {p p' : WorkunitProcessor}
    (ok : WorkunitProcessor.runCommands wu run counter commands p = some p')
    (last : (outcomesFrom (Client.python.outcome settings wu run) counter commands)[k]? = some o) :
    p'.failedcommand = some (counter + k) ∧ p'.errorcode = o.rc := by
  induction commands generalizing counter k p with
  | nil => cases last
  | cons command commands ih =>
    unfold WorkunitProcessor.runCommands at ok
    split at ok
    · cases ok
    · cases started : run counter with
      | none =>
        rw [started] at ok
        cases ok
      | some first =>
        rw [started] at ok
        rw [outcomesFrom_cons started] at last
        dsimp only at ok
        cases k with
        | zero =>
          obtain rfl := Option.some.inj last
          rw [if_pos failed] at ok
          obtain rfl := Option.some.inj ok
          exact ⟨rfl, rfl⟩
        | succ k =>
          rw [List.getElem?_cons_succ] at last
          split at last
          · cases last
          · rename_i succeeded
            rw [if_neg succeeded] at ok
            rw [← Nat.add_assoc, Nat.add_right_comm]
            exact ih ok last

namespace Rust

theorem runCommands_keys {settings : Settings} {wu : Workunit} {run : ℕ → Option Outcome} {commands : List Text}
    {counter : ℕ} {stdio : List (Text × Bytes)} {r : Ran}
    (ok : runCommands settings wu run counter commands stdio = some r)
    (keys : ∀ e ∈ stdio, ∃ s k, e.1 = fileId (Std.upperName s) k) :
      ∀ e ∈ r.stdio, ∃ s k, e.1 = fileId (Std.upperName s) k := by
  induction commands generalizing counter stdio with
  | nil =>
    obtain rfl := Option.some.inj ok
    exact keys
  | cons raw commands ih =>
    unfold runCommands at ok
    split at ok
    · exact ih ok keys
    · split at ok
      · cases ok
      · rename_i o started
        have inserted (s : Std) : ∀ e ∈ insertStdio wu o counter s, ∃ s k, e.1 = fileId (Std.upperName s) k := by
          intro e member
          obtain ⟨blob, -, rfl⟩ := List.mem_map.mp member
          exact ⟨s, counter, rfl⟩
        have all : ∀ e ∈ stdio ++ insertStdio wu o counter .stdout ++ insertStdio wu o counter .stderr,
            ∃ s k, e.1 = fileId (Std.upperName s) k := by
          simp only [List.forall_mem_append]
          exact ⟨⟨keys, inserted _⟩, inserted _⟩
        dsimp only at ok
        split at ok
        · obtain rfl := Option.some.inj ok
          exact all
        · exact ih ok all

theorem runCommands_failed {order : Order} {settings : Settings} {wu : Workunit} {run : ℕ → Option Outcome} {k : ℕ}
    {o : Outcome} (failed : o.rc ≠ 0) {commands : List Text} {counter : ℕ} {stdio : List (Text × Bytes)} {r : Ran}
    (ok : runCommands settings wu run counter commands stdio = some r)
    (last : (outcomesFrom ((Client.rust order).outcome settings wu run) counter commands)[k]? = some o) :
    ∃ raw, commands[k]? = some raw ∧ r.failedcommand = some (command settings wu raw) ∧ r.errorcode = some o.rc := by
  induction commands generalizing counter k stdio with
  | nil => cases last
  | cons raw commands ih =>
    unfold runCommands at ok
    split at ok
    · rename_i passed
      have started : (Client.rust order).outcome settings wu run counter raw = some ⟨0, [], []⟩ := if_pos passed
      rw [outcomesFrom_cons started] at last
      cases k with
      | zero =>
        obtain rfl := Option.some.inj last
        exact absurd rfl failed
      | succ k => exact ih ok last
    · rename_i words
      have outcome : (Client.rust order).outcome settings wu run counter raw = run counter := if_neg words
      split at ok
      · cases ok
      · rename_i first started
        rw [outcomesFrom_cons (outcome.trans started)] at last
        dsimp only at ok
        cases k with
        | zero =>
          obtain rfl := Option.some.inj last
          rw [if_pos failed] at ok
          obtain rfl := Option.some.inj ok
          exact ⟨raw, rfl, rfl, rfl⟩
        | succ k =>
          rw [List.getElem?_cons_succ] at last
          split at last
          · cases last
          · rename_i succeeded
            rw [if_neg succeeded] at ok
            exact ih ok last

end Rust

end CadoNfs.Cadofactor
