import CadoNfs.Cadofactor.ApiServer
import CadoNfs.Lib.Decimal
import CadoNfs.Lib.Positions
import CadoNfs.Lib.Related

/-!
# The captured outputs

The outputs that a client attaches, and what `get_stdoutfile` and `get_stderrfile` find of them.
-/

namespace CadoNfs.Cadofactor

open Lib

theorem firstOfEach_of_nodup {files : List (Text × Bytes)} (nodup : (files.map Prod.fst).Nodup) :
    firstOfEach files = files := by
  induction files with
  | nil => rfl
  | cons f files ih =>
    rw [List.map_cons, List.nodup_cons] at nodup
    rw [firstOfEach, ih nodup.2, List.filter_eq_self.mpr]
    intro g member
    exact decide_eq_true fun same => nodup.1 (same ▸ List.mem_map_of_mem member)

/-! ## What the Python client attaches -/

theorem toDigits_inj {m n : ℕ} (same : Nat.toDigits 10 m = Nat.toDigits 10 n) : m = n := by
  have values := congrArg (readDigits (0 : ℕ)) same
  rwa [readDigits_zero_toDigits, readDigits_zero_toDigits] at values

theorem name_third (s : Std) (rest : Text) : (s.name ++ rest)[3]? = some (if s = .stdout then 'o' else 'e') := by
  cases s <;> rfl

theorem name_append_inj {s s' : Std} {rest rest' : Text} (same : s.name ++ rest = s'.name ++ rest') : s = s' := by
  have third := congrArg (·[3]?) same
  simp only [name_third, Option.some.injEq] at third
  cases s <;> cases s'
  · rfl
  · exact absurd third (by decide)
  · exact absurd third (by decide)
  · rfl

theorem fileId_inj {s s' : Std} {k k' : ℕ} (same : fileId s.name k = fileId s'.name k') : s = s' ∧ k = k' := by
  obtain rfl := name_append_inj same
  exact ⟨rfl, toDigits_inj (List.append_cancel_left same)⟩

namespace WorkunitProcessor

variable {wu : Workunit}

theorem mem_attachStdio {s : Std} {blobs : List Bytes} {e : Text × Bytes × FileInfo} :
    e ∈ attachStdio wu s blobs ↔ ∃ k blob, blobs[k]? = some blob ∧
      e = (wu.id.text ++ '.' :: fileId s.name k, blob, ⟨fileId s.name k, some k⟩) := by
  unfold attachStdio
  rw [List.mem_map]
  constructor
  · rintro ⟨⟨blob, k⟩, member, rfl⟩
    exact ⟨k, blob, List.mem_zipIdx_iff_getElem?.mp member, rfl⟩
  · rintro ⟨k, blob, here, rfl⟩
    exact ⟨(blob, k), List.mem_zipIdx_iff_getElem?.mpr here, rfl⟩

theorem stdioName_inj {s s' : Std} {k k' : ℕ}
    (same : wu.id.text ++ '.' :: fileId s.name k = wu.id.text ++ '.' :: fileId s'.name k') : s = s' ∧ k = k' :=
  fileId_inj (List.cons.inj (List.append_cancel_left same)).2

theorem nodup_attachStdio (stdout stderr : List Bytes) :
    ((attachStdio wu .stdout stdout ++ attachStdio wu .stderr stderr).map Prod.fst).Nodup := by
  have each (s : Std) (blobs : List Bytes) : ((attachStdio wu s blobs).map Prod.fst).Nodup := by
    have names : (attachStdio wu s blobs).map Prod.fst =
        (blobs.zipIdx.map Prod.snd).map fun k => wu.id.text ++ '.' :: fileId s.name k := by
      rw [attachStdio, List.map_map, List.map_map]
      rfl
    rw [names]
    exact (List.nodup_zipIdx_map_snd blobs).map fun k k' same => (stdioName_inj same).2
  rw [List.map_append, List.nodup_append]
  refine ⟨each _ _, each _ _, fun name out name' err same => ?_⟩
  obtain ⟨e, member, rfl⟩ := List.mem_map.mp out
  obtain ⟨e', member', rfl⟩ := List.mem_map.mp err
  obtain ⟨k, blob, -, rfl⟩ := mem_attachStdio.mp member
  obtain ⟨k', blob', -, rfl⟩ := mem_attachStdio.mp member'
  cases (stdioName_inj same).1

theorem mem_of_mapM {α β : Type} {f : α → Option β} {l : List α} {l' : List β} (ok : l.mapM f = some l') {b : β}
    (member : b ∈ l') : ∃ a ∈ l, f a = some b := by
  induction l generalizing l' with
  | nil =>
    obtain rfl := Option.some.inj ok
    cases member
  | cons a l ih =>
    rw [List.mapM_cons] at ok
    obtain ⟨first, head, ok⟩ := Option.bind_eq_some_iff.mp ok
    obtain ⟨rest, tail, ok⟩ := Option.bind_eq_some_iff.mp ok
    obtain rfl := Option.some.inj ok
    cases member with
    | head => exact ⟨a, List.mem_cons_self, head⟩
    | tail _ later =>
      obtain ⟨a', member', same⟩ := ih tail later
      exact ⟨a', List.mem_cons_of_mem a member', same⟩

theorem prepareAnswer_ok {settings : Settings} {read : Text → Option Bytes} {p : WorkunitProcessor} {a : Answer}
    (ok : p.prepareAnswer wu settings read = some a) :
    ∃ attached : List (Text × Bytes × FileInfo), (attached.map Prod.fst).Nodup ∧
      a.files = attached.map (fun e => (e.1, e.2.1)) ∧ a.fileinfo = attached.map (fun e => (e.1, e.2.2)) ∧
      a.wuid = wu.id ∧
      (∀ e ∈ attached, (∃ f ∈ wu.files, e.2.2 = ⟨f.1, none⟩) ∨ ∃ s, e ∈ attachStdio wu s (p.stdio s)) ∧
      ∀ s, ∀ e ∈ attachStdio wu s (p.stdio s), e ∈ attached := by
  obtain ⟨uploads, all, rfl⟩ := Option.map_eq_some_iff.mp ok
  refine ⟨_, nodup_dictFrom _, rfl, rfl, rfl, fun e member => ?_, fun s e member => ?_⟩
  · rw [List.append_assoc] at member
    cases List.mem_append.mp (mem_dictFrom member) with
    | inl upload =>
      left
      obtain ⟨f, there, same⟩ := mem_of_mapM all upload
      obtain ⟨data, -, rfl⟩ := Option.map_eq_some_iff.mp same
      exact ⟨f, List.mem_of_mem_filter there, rfl⟩
    | inr stdio =>
      right
      cases List.mem_append.mp stdio with
      | inl out => exact ⟨.stdout, out⟩
      | inr err => exact ⟨.stderr, err⟩
  · rw [List.append_assoc]
    refine mem_dictFrom_append (nodup_attachStdio _ _) (List.mem_append.mpr ?_)
    cases s with
    | stdout => exact .inl member
    | stderr => exact .inr member

end WorkunitProcessor

/-! ## What the driver finds -/

namespace ResultInfo

theorem findStdio_eq {filetype : Text} {k : ℕ} {files : List FileRow}
    (numbered : ∀ f ∈ files, filetype <+: f.type → f.command ≠ none) :
    findStdio filetype k files =
      .ok ((files.find? fun f => decide (filetype <+: f.type ∧ f.command = some (k : ℤ))).map FileRow.path) := by
  induction files with
  | nil => rfl
  | cons f files ih =>
    rw [List.forall_mem_cons] at numbered
    unfold findStdio
    rw [List.find?_cons]
    split
    · rename_i starts
      cases number : f.command with
      | none => exact absurd number (numbered.1 starts)
      | some c =>
        by_cases same : c = k
        · subst same
          simp [starts]
        · simp [starts, same, ih numbered.2]
    · rename_i other
      simp [other, ih numbered.2]

end ResultInfo

/-- The files that `get_stdoutfile` and `get_stderrfile` give hold the outputs, and there is none exactly if nothing was
captured. -/
def DeliversStdio (server : ApiServer) (wuid : WuName) (captured : Std → ℕ → Option Bytes) : Prop :=
  ∃ info, server.db.resultInfo wuid = some info ∧ ∀ k,
    (∃ path, info.getStdoutfile k = .ok path ∧ path.map server.contents = (captured .stdout k).map some) ∧
    (∃ path, info.getStderrfile k = .ok path ∧ path.map server.contents = (captured .stderr k).map some)

theorem deliversStdio_iff_all {server : ApiServer} {wuid : WuName} {captured : Std → ℕ → Option Bytes}
    {info : ResultInfo}
    (found : server.db.resultInfo wuid = some info) :
    DeliversStdio server wuid captured ↔ ∀ s k, ∃ path, info.getStdio (Std.name s) k = .ok path ∧
      path.map server.contents = (captured s k).map some := by
  constructor
  · rintro ⟨info', found', delivers⟩ s k
    obtain rfl := Option.some.inj (found'.symm.trans found)
    cases s with
    | stdout => exact (delivers k).1
    | stderr => exact (delivers k).2
  · intro delivers
    exact ⟨info, found, fun k => ⟨delivers .stdout k, delivers .stderr k⟩⟩

theorem upload_resultInfo {secureFilename : Text → Text} {uploadDir : ℕ → Text} {server server' : ApiServer}
    {a : Answer}
    {now : ℕ} {row : WuRow} (reachable : server.db.Reachable) (found : server.db.getByWuid a.wuid = some row)
    (assigned : row.status = .assigned) (recorded : server.upload secureFilename uploadDir a now = (200, server')) :
    ∃ info, server'.db.resultInfo a.wuid = some info ∧
      info.row = row.answered a.clientid a.errorcode a.failedcommand now ∧
      List.Forall₂ (ApiServer.Saved secureFilename a server'.disk) (firstOfEach a.files) info.files := by
  obtain ⟨rows, saved, files, row'⟩ := ApiServer.upload_ok found assigned recorded
  refine ⟨_, by rw [WuDb.resultInfo, row']; rfl, rfl, ?_⟩
  have old : server.db.files.filter (·.wuid = a.wuid) = [] := by
    refine List.filter_eq_nil_iff.mpr fun f member => ?_
    rw [decide_eq_true_eq]
    intro same
    have closed := reachable.filesOfResults.closed f member row (List.mem_of_find?_eq_some found)
      ((WuDb.wuid_of_getByWuid found).trans same.symm)
    rw [assigned] at closed
    cases closed
  have new : rows.filter (·.wuid = a.wuid) = rows := by
    refine List.filter_eq_self.mpr fun f member => ?_
    rw [← ApiServer.Saved.wuids saved] at member
    obtain ⟨f', -, rfl⟩ := List.mem_map.mp member
    exact decide_eq_true rfl
  show List.Forall₂ _ _ (server'.db.files.filter (·.wuid = a.wuid))
  rw [files, List.filter_append, old, new]
  exact saved

namespace WorkunitProcessor

theorem name_prefix_fileId {s s' : Std} {k : ℕ} (starts : s.name <+: fileId s'.name k) : s = s' := by
  obtain ⟨rest, same⟩ := starts
  exact name_append_inj same

theorem other_name {wu : Workunit} {f : Text × WuFile} (member : f ∈ wu.files) (s : Std) : ¬ s.name <+: f.1 := by
  cases s with
  | stdout => exact (wu.upper f member).1
  | stderr => exact (wu.upper f member).2

theorem getStdio_eq {wu : Workunit} {settings : Settings} {read : Text → Option Bytes} {p : WorkunitProcessor}
    {a : Answer}
    {secureFilename : Text → Text} {server : ApiServer} {info : ResultInfo}
    (ok : p.prepareAnswer wu settings read = some a) (secure : ∀ f ∈ a.files, secureFilename f.1 = f.1)
    (saved : List.Forall₂ (ApiServer.Saved secureFilename a server.disk) (firstOfEach a.files) info.files) (s : Std)
    (k : ℕ) :
    ∃ path, info.getStdio s.name k = .ok path ∧ path.map server.contents = ((p.stdio s)[k]?).map some := by
  obtain ⟨attached, nodup, files, fileinfo, -, sources, stdio⟩ := prepareAnswer_ok ok
  have names : (a.files.map Prod.fst) = attached.map Prod.fst := by
    rw [files, List.map_map]
    rfl
  rw [firstOfEach_of_nodup (names ▸ nodup)] at saved
  have entries : List.Forall₂ (fun e row => e ∈ attached ∧ (⟨row.type, row.command⟩ : FileInfo) = e.2.2 ∧
      server.contents row.path = some e.2.1) attached info.files := by
    rw [files, List.forall₂_map_left_iff] at saved
    have both := (List.forall₂_and_left attached info.files).mpr ⟨fun e member => member, saved⟩
    refine both.imp fun e row both => ⟨both.1, ?_, both.2.contents⟩
    have same := both.2.info
    rw [secure _ (files ▸ List.mem_map_of_mem both.1), fileinfo] at same
    have info := lookup_of_mem (d := attached.map fun e => (e.1, e.2.2)) (by rw [List.map_map]; exact nodup)
      (List.mem_map_of_mem both.1)
    exact Option.some.inj (same.symm.trans info)
  have stdioRow {e : Text × Bytes × FileInfo} {row : FileRow} (member : e ∈ attached)
      (same : (⟨row.type, row.command⟩ : FileInfo) = e.2.2) (starts : s.name <+: row.type) :
      ∃ (k : ℕ) (blob : Bytes), (p.stdio s)[k]? = some blob ∧ e.2.1 = blob ∧ row.command = some (k : ℤ) := by
    cases sources e member with
    | inl upload =>
      obtain ⟨f, there, info⟩ := upload
      have type : row.type = f.1 := congrArg FileInfo.key (same.trans info)
      exact absurd (type ▸ starts) (other_name there s)
    | inr stdio =>
      obtain ⟨s', there⟩ := stdio
      obtain ⟨k, blob, here, rfl⟩ := mem_attachStdio.mp there
      have type : row.type = fileId s'.name k := congrArg FileInfo.key same
      obtain rfl : s = s' := name_prefix_fileId (type ▸ starts)
      exact ⟨k, blob, here, rfl, congrArg FileInfo.command same⟩
  have numbered : ∀ row ∈ info.files, s.name <+: row.type → row.command ≠ none := by
    intro row member starts
    obtain ⟨e, -, there, same, -⟩ := mem_of_forall₂ entries.flip member
    obtain ⟨k, -, -, -, number⟩ := stdioRow there same starts
    rw [number]
    exact Option.some_ne_none _
  refine ⟨_, ResultInfo.findStdio_eq numbered, ?_⟩
  cases first : info.files.find? fun row => decide (s.name <+: row.type ∧ row.command = some (k : ℤ)) with
  | some row =>
    have selected := List.find?_some first
    rw [decide_eq_true_eq] at selected
    obtain ⟨e, -, there, same, contents⟩ := mem_of_forall₂ entries.flip (List.mem_of_find?_eq_some first)
    obtain ⟨k', blob, here, data, number⟩ := stdioRow there same selected.1
    obtain rfl : k' = k := Nat.cast_injective (Option.some.inj (number.symm.trans selected.2))
    rw [here, Option.map_some, Option.map_some, Option.map_some, contents, data]
  | none =>
    cases here : (p.stdio s)[k]? with
    | none => rfl
    | some blob =>
      have member := stdio s _ (mem_attachStdio.mpr ⟨k, blob, here, rfl⟩)
      obtain ⟨row, there, -, same, -⟩ := mem_of_forall₂ entries member
      have absent := List.find?_eq_none.mp first row there
      rw [decide_eq_true_eq] at absent
      have type : row.type = fileId s.name k := congrArg FileInfo.key same
      exact absurd ⟨⟨_, type.symm⟩, congrArg FileInfo.command same⟩ absent

end WorkunitProcessor

namespace Rust

theorem other_name_upper (s s' : Std) (k : ℕ) : ¬ s.name <+: fileId s'.upperName k := by
  rintro ⟨rest, same⟩
  have lower : (s.name ++ rest).head? = some 's' := by cases s <;> rfl
  have upper : (fileId s'.upperName k).head? = some 'S' := by cases s' <;> rfl
  rw [same, upper] at lower
  exact absurd lower (by decide)

theorem getStdio_none {order : Order} {wu : Workunit} {settings : Settings} {run : ℕ → Option Outcome}
    {read : Text → Option Bytes} {a : Answer} {secureFilename : Text → Text} {server : ApiServer} {info : ResultInfo}
    (answered : (Client.rust order).answer settings wu run read = some a)
    (saved : List.Forall₂ (ApiServer.Saved secureFilename a server.disk) (firstOfEach a.files) info.files) (s : Std)
    (k : ℕ) : info.getStdio s.name k = .ok none := by
  obtain ⟨r, ran, rfl⟩ := Option.map_eq_some_iff.mp answered
  have keys := runCommands_keys ran fun e member => by cases member
  have types : ∀ row ∈ info.files, ¬ s.name <+: row.type := by
    intro row member
    obtain ⟨f, -, here⟩ := mem_of_forall₂ saved.flip member
    have there : (secureFilename f.1, (⟨row.type, row.command⟩ : FileInfo)) ∈
      (upload order wu settings read r).fileinfo :=
      mem_of_lookup here.info
    obtain ⟨e, attached, same⟩ := List.mem_map.mp (mem_dictFrom there)
    have type : row.type = e.2.2.key := congrArg (·.2.key) same.symm
    rw [type]
    cases List.mem_append.mp ((order.2 _).mem_iff.mp attached) with
    | inl upload =>
      obtain ⟨f, member, ok⟩ := List.mem_filterMap.mp upload
      obtain ⟨data, -, rfl⟩ := Option.map_eq_some_iff.mp ok
      exact WorkunitProcessor.other_name (List.mem_of_mem_filter member) s
    | inr stdio =>
      obtain ⟨f, member, rfl⟩ := List.mem_map.mp stdio
      obtain ⟨s', k', key⟩ := keys f member
      show ¬ s.name <+: f.1
      rw [key]
      exact other_name_upper s s' k'
  have none : info.files.find? (fun row => decide (s.name <+: row.type ∧ row.command = some (k : ℤ))) = none := by
    refine List.find?_eq_none.mpr fun row member => ?_
    rw [decide_eq_true_eq]
    exact fun both => types row member both.1
  rw [ResultInfo.getStdio, ResultInfo.findStdio_eq fun row member starts => absurd starts (types row member), none]
  rfl

end Rust

/-! ## Which outputs arrive -/

def Client.Numbered (client : Client) (captured : Std → ℕ → Option Bytes) : Prop :=
  match client with
  | .python => ∀ s k, (captured s k).isSome → ∀ j < k, (captured s j).isSome
  | .rust _ => ∀ s k, captured s k = none

theorem captured_eq (client : Client) (settings : Settings) (wu : Workunit) (run : ℕ → Option Outcome) (s : Std)
    (k : ℕ) :
    (((client.outcomes settings wu run).zipIdx.map fun (o, k) => wu.capture o k s)[k]?).join =
      client.captured settings wu run s k := by
  rw [List.getElem?_map, List.getElem?_zipIdx, Nat.zero_add, Option.map_map, Client.captured]
  cases (client.outcomes settings wu run)[k]? <;> rfl

theorem deliversStdio_iff (client : Client) (settings : Settings) (wu : Workunit) (run : ℕ → Option Outcome)
    (read : Text → Option Bytes) (secureFilename : Text → Text) (uploadDir : ℕ → Text) (server server' : ApiServer)
    (a : Answer) (now : ℕ) (row : WuRow) (reachable : server.db.Reachable)
    (found : server.db.getByWuid wu.id = some row) (assigned : row.status = .assigned)
    (answered : client.answer settings wu run read = some a) (secure : ∀ f ∈ a.files, secureFilename f.1 = f.1)
    (recorded : server.upload secureFilename uploadDir a now = (200, server')) :
    DeliversStdio server' wu.id (client.captured settings wu run) ↔
      client.Numbered (client.captured settings wu run) := by
  have wuid : a.wuid = wu.id := by
    cases client with
    | python =>
      obtain ⟨p, -, ok⟩ := Option.bind_eq_some_iff.mp answered
      exact (WorkunitProcessor.prepareAnswer_ok ok).choose_spec.2.2.2.1
    | rust order =>
      obtain ⟨r, -, rfl⟩ := Option.map_eq_some_iff.mp answered
      rfl
  obtain ⟨info, found', -, saved⟩ := upload_resultInfo reachable (wuid ▸ found) assigned recorded
  rw [wuid] at found'
  rw [deliversStdio_iff_all found']
  cases client with
  | python =>
    obtain ⟨p, ran, ok⟩ := Option.bind_eq_some_iff.mp answered
    have each (s : Std) : (∀ k, ∃ path, info.getStdio s.name k = .ok path ∧
        path.map server'.contents = (Client.python.captured settings wu run s k).map some) ↔
        ∀ k, (Client.python.captured settings wu run s k).isSome → ∀ j < k,
          (Client.python.captured settings wu run s j).isSome := by
      have list := runCommands_stdio settings s ran
      rw [WorkunitProcessor.init, List.nil_append] at list
      have gapless := getElem?_reduceOption_iff
        (((Client.python.outcomes settings wu run).zipIdx).map fun (o, k) => wu.capture o k s)
      simp only [Gapless, captured_eq] at gapless
      rw [← gapless]
      refine forall_congr' fun k => ?_
      obtain ⟨path, found, same⟩ := WorkunitProcessor.getStdio_eq ok secure saved s k
      rw [list] at same
      constructor
      · rintro ⟨path', found', same'⟩
        obtain rfl := Except.ok.inj (found.symm.trans found')
        exact Option.map_injective (Option.some_injective _) (same.symm.trans same')
      · intro here
        exact ⟨path, found, same.trans (congrArg (Option.map some) here)⟩
    exact ⟨fun all s => (each s).mp (all s), fun all s => (each s).mpr (all s)⟩
  | rust order =>
    have nothing (s : Std) (k : ℕ) := Rust.getStdio_none (k := k) answered saved s
    constructor
    · intro delivers s k
      obtain ⟨path, ok, same⟩ := delivers s k
      obtain rfl := Except.ok.inj (ok.symm.trans (nothing s k))
      exact Option.map_eq_none_iff.mp same.symm
    · intro missing s k
      exact ⟨none, nothing s k, by rw [missing]; rfl⟩

def twoCommands : Workunit :=
  ⟨⟨"c59".toList, "sieving".toList, 0, 1000, none⟩, ["las".toList, "date".toList], [], Workunit.upper_nil⟩

def printsAt (k counter : ℕ) : Option Outcome := some ⟨0, if counter = k then [65] else [], []⟩

def assignedServer (wu : Workunit) : ApiServer :=
  ⟨⟨[⟨wu, .assigned, some 0, some "client".toList, none, none, none, none, none⟩], []⟩, [], 0⟩

theorem assignedServer_reachable (wu : Workunit) : (assignedServer wu).db.Reachable := by
  have created : WuDb.Reachable ⟨[wu.newRow], []⟩ := .create wu .empty rfl
  have assign (client : Text) : WuDb.assign ⟨[wu.newRow], []⟩ client 0 =
      some (wu, ⟨[⟨wu, .assigned, some 0, some client, none, none, none, none, none⟩], []⟩) := by
    unfold WuDb.assign
    simp [WuDb.update, updateWhere, Workunit.newRow]
  exact created.assign "client".toList 0 wu (assign _)

def someSettings : Settings := ⟨"client".toList, "dl".toList, "work".toList⟩

def uploaded (k : ℕ) : Option (ℕ × ApiServer) :=
  (Client.python.answer someSettings twoCommands (printsAt k) fun _ => none).map fun a =>
    (assignedServer twoCommands).upload id (fun _ => "upload".toList) a 1

theorem deliversStdio_iff_first : ∃ server', uploaded 0 = some (200, server') ∧
    DeliversStdio server' twoCommands.id (Client.python.captured someSettings twoCommands (printsAt 0)) := by
  have numbered : Client.python.Numbered (Client.python.captured someSettings twoCommands (printsAt 0)) := by
    intro s k here j before
    cases k with
    | zero => omega
    | succ k =>
      cases k with
      | zero => cases s <;> cases here
      | succ k => cases here
  obtain ⟨server', ok⟩ : ∃ server', uploaded 0 = some (200, server') := ⟨_, rfl⟩
  obtain ⟨a, answered, recorded⟩ := Option.map_eq_some_iff.mp ok
  exact ⟨server', ok, (deliversStdio_iff .python someSettings twoCommands (printsAt 0) (fun _ => none) id _ _ _ a 1 _
    (assignedServer_reachable _) rfl rfl answered (fun _ _ => rfl) recorded).mpr numbered⟩

theorem secondOutput_lost : ∃ server', uploaded 1 = some (200, server') ∧
    ¬ DeliversStdio server' twoCommands.id (Client.python.captured someSettings twoCommands (printsAt 1)) := by
  refine ⟨_, rfl, ?_⟩
  rintro ⟨info, found, delivers⟩
  obtain rfl := Option.some.inj found
  obtain ⟨path, ok, same⟩ := (delivers 1).1
  obtain rfl := Except.ok.inj ok
  cases same

end CadoNfs.Cadofactor
