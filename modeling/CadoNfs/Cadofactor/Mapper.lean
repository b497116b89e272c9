import CadoNfs.Cadofactor.Wudb
import CadoNfs.Lib.LeftJoin
import CadoNfs.Lib.Related

/-!
# Workunits with their files

`Mapper.insert` and `Mapper.where` of `scripts/cadofactor/wudb.py`, over `DbTable.insert` of `database/table.py` and the
cursor of `database/base.py`, whose property `lastrowid` returns nothing.
-/

namespace CadoNfs.Cadofactor.Mapper
open Lib

/-! ## Dictionaries and tables -/

inductive Value
  | none
  | int (n : ℤ)
  | text (t : Text)
  deriving DecidableEq

def Value.truth : Value → Bool
  | none => false
  | int n => n ≠ 0
  | text t => t ≠ []

inductive Key
  | wurowid | wuid | submitter | status | wu | timecreated | timeassigned | assignedclient | timeresult | resultclient
  | errorcode | failedcommand | timeverified | retryof | priority
  | filesrowid | filename | path | type | command
  | other (name : Text)
  deriving DecidableEq

abbrev Fields := Key → Option Value

structure Column where
  name : Key
  notNull : Bool
  unique : Bool

/-- A subclass of `DbTable`; the primary key is the number of the row. -/
structure Table where
  primarykey : Key
  columns : List Column
  references : Option Key

def Table.colnames (table : Table) : List Key := table.primarykey :: table.columns.map Column.name

def WuTable : Table where
  primarykey := .wurowid
  columns := [⟨.wuid, true, true⟩, ⟨.submitter, false, false⟩, ⟨.status, true, false⟩, ⟨.wu, true, false⟩,
    ⟨.timecreated, false, false⟩, ⟨.timeassigned, false, false⟩, ⟨.assignedclient, false, false⟩,
    ⟨.timeresult, false, false⟩, ⟨.resultclient, false, false⟩, ⟨.errorcode, false, false⟩,
    ⟨.failedcommand, false, false⟩, ⟨.timeverified, false, false⟩, ⟨.retryof, false, false⟩, ⟨.priority, false, false⟩]
  references := none

def FilesTable : Table where
  primarykey := .filesrowid
  columns := [⟨.filename, false, false⟩, ⟨.path, true, true⟩, ⟨.type, false, false⟩, ⟨.command, false, false⟩]
  references := some .wurowid

/-- A workunit: the entry for the key `files` is apart. It does not matter if it is missing or `None`. -/
structure WuDict where
  fields : Fields
  files : Option (List Fields)

structure Affinity where
  convert : Key → Value → Value
  convert_ne_none : ∀ column v, v ≠ .none → convert column v ≠ .none

structure Row where
  rowid : ℕ
  values : Key → Value

structure Db where
  workunits : List Row
  files : List Row

inductive Failure
  | operational
  | integrity
  | assertion
  | attribute
  deriving DecidableEq

def newId (rows : List Row) : ℕ := (rows.map Row.rowid).foldr max 0 + 1

def withoutNone (d : Fields) : Fields := fun column => (d column).filter (· ≠ .none)

variable (affinity : Affinity)

def stored (d : Fields) (column : Key) : Value :=
  match d column with
  | none => .none
  | some v => affinity.convert column v

def Table.accepts (table : Table) (rows : List Row) (values : Key → Value) : Bool :=
  table.columns.all fun c => (c.notNull → values c.name ≠ .none) &&
    (c.unique → rows.all fun r => values c.name = .none || r.values c.name ≠ values c.name)

def refersTo (ids : List ℕ) (v : Value) : Bool :=
  match v with
  | .none => true
  | .int n => ids.any fun (id : ℕ) => (id : ℤ) = n
  | .text _ => false

def execInsert (table : Table) (ids : List ℕ) (rows : List Row) (fields : Fields) : Except Failure (List Row × ℕ) :=
  let values := stored affinity fields
  if table.colnames.all (fields · = none) && table.references.all (fields · = none) then .error .operational
  else if !table.accepts rows values || !refersTo ids (values .wurowid) || !refersTo ids (values .retryof) then
    .error .integrity
  else .ok (rows ++ [⟨newId rows, values⟩], newId rows)

/-! ## The cursor and the table -/

def lastrowid (_ : ℕ) : Value := .none

def cursorInsert (table : Table) (ids : List ℕ) (rows : List Row) (d : Fields) : Except Failure (List Row × Value) :=
  match execInsert affinity table ids rows (withoutNone d) with
  | .error e => .error e
  | .ok (rows, rowid) => .ok (rows, lastrowid rowid)

def Table.dictextract (table : Table) (d : Fields) : Fields := fun k => if k ∈ table.colnames then d k else none

def absent (d : Fields) (key : Key) : Bool := (d key).getD .none = .none

def Table.insert (table : Table) (ids : List ℕ) (rows : List Row) (values : Fields) (foreign : Value) :
    Except Failure (List Row × Fields) :=
  let d := table.dictextract values
  if !absent d table.primarykey then .error .assertion
  else
    let added : Except Failure Fields :=
      if foreign.truth then
        match table.references with
        | none => .error .attribute
        | some r => if !absent d r then .error .assertion else .ok (Function.update d r (some foreign))
      else .ok d
    match added with
    | .error e => .error e
    | .ok d =>
      match cursorInsert affinity table ids rows d with
      | .error e => .error e
      | .ok (rows, rowid) => .ok (rows, Function.update values table.primarykey (some rowid))

def insertOne (table : Table) (ids : List ℕ) (rows : List Row) (d : Fields) (foreign : Value) :
    Except Failure (List Row × Fields) :=
  let pk := table.primarykey
  if (d pk).isSome then .ok (rows, d)
  else
    match table.insert affinity ids rows d foreign with
    | .error e => .error e
    | .ok (rows, wuc) => .ok (rows, Function.update d pk (wuc pk))

def insertFiles (ids : List ℕ) (rows : List Row) (foreign : Value) : List Fields → Except Failure (List Row × List Fields)
  | [] => .ok (rows, [])
  | d :: ds =>
    match insertOne affinity FilesTable ids rows d foreign with
    | .error e => .error e
    | .ok (rows, d) =>
      match insertFiles ids rows foreign ds with
      | .error e => .error e
      | .ok (rows, ds) => .ok (rows, d :: ds)

def Db.ids (db : Db) : List ℕ := db.workunits.map Row.rowid

def insert (db : Db) (foreign : Value) : List WuDict → Except Failure (Db × List WuDict)
  | [] => .ok (db, [])
  | wu :: wus =>
    match insertOne affinity WuTable (newId db.workunits :: db.ids) db.workunits wu.fields foreign with
    | .error e => .error e
    | .ok (workunits, fields) =>
      let db := { db with workunits }
      let sub : Except Failure (List Row × Option (List Fields)) :=
        match wu.files with
        | none => .ok (db.files, none)
        | some ds => (insertFiles affinity db.ids db.files ((fields WuTable.primarykey).getD .none) ds).map
            fun r => (r.1, some r.2)
      match sub with
      | .error e => .error e
      | .ok (rows, files) =>
        match insert { db with files := rows } foreign wus with
        | .error e => .error e
        | .ok (db, wus) => .ok (db, ⟨fields, files⟩ :: wus)

def Table.dict (table : Table) (r : Row) : Fields := fun k =>
  if k = table.primarykey then some (.int r.rowid) else if k ∈ table.columns.map Column.name then some (r.values k) else none

def selects (cond : List (Key × Value)) (r : Row) : Bool :=
  cond.all fun c =>
    let v := (WuTable.dict r c.1).getD .none
    v ≠ .none && c.2 ≠ .none && v = affinity.convert c.1 c.2

/-- `Mapper.where` with a condition `eq`; a row of the join is one of `workunits` with one of `files` or with `NULL`s. The
cursor takes the order for an offset, and without a limit it is not used. -/
def whereEq (db : Db) (limit : Option ℕ) (cond : List (Key × Value)) : Except Failure (List WuDict) :=
  if !cond.all (·.1 ∈ WuTable.colnames) then .error .operational
  else
    let workunits := db.workunits.filter (selects affinity cond)
    let workunits := limit.elim workunits workunits.take
    let rows := leftJoin (fun r f => f.values .wurowid = .int r.rowid) workunits db.files
    .ok ((regroup Row.rowid Row.rowid rows).map fun wu => ⟨WuTable.dict wu.1, wu.2.map (·.map FilesTable.dict)⟩)

variable {affinity} {table : Table} {ids : List ℕ} {rows rows' : List Row} {d d' : Fields} {db db' : Db} {rowid : ℕ}

theorem newId_fresh (rows : List Row) : newId rows ∉ rows.map Row.rowid := by
  have bound (l : List ℕ) : ∀ id ∈ l, id ≤ l.foldr max 0 := by
    induction l with
    | nil => exact nofun
    | cons id l ih =>
      exact List.forall_mem_cons.mpr ⟨le_max_left _ _, fun id' later => (ih id' later).trans (le_max_right _ _)⟩
  exact fun there => Nat.not_succ_le_self _ (bound _ _ there)

theorem nodup_concat {row : Row} (nodup : (rows.map Row.rowid).Nodup) (new : row.rowid = newId rows) :
    ((rows ++ [row]).map Row.rowid).Nodup := by
  rw [List.map_append]
  refine nodup.append (List.nodup_singleton _) (List.disjoint_singleton.mpr ?_)
  rw [new]
  exact newId_fresh rows

theorem execInsert_ok {fields : Fields} (ok : execInsert affinity table ids rows fields = .ok (rows', rowid)) :
    rows' = rows ++ [⟨newId rows, stored affinity fields⟩] ∧ table.accepts rows (stored affinity fields) = true := by
  rw [execInsert] at ok
  split_ifs at ok with empty refused
  cases ok
  simp only [Bool.or_eq_true, not_or, Bool.not_eq_true', Bool.not_eq_false] at refused
  exact ⟨rfl, refused.1.1⟩

def Table.rowValues (affinity : Affinity) (table : Table) (d : Fields) : Key → Value :=
  stored affinity (withoutNone (table.dictextract d))

theorem insertOne_ok (new : d table.primarykey = none) (ok : insertOne affinity table ids rows d .none = .ok (rows', d')) :
    rows' = rows ++ [⟨newId rows, table.rowValues affinity d⟩] ∧
      table.accepts rows (table.rowValues affinity d) = true ∧ d' table.primarykey = some .none := by
  have noKey : absent (table.dictextract d) table.primarykey = true := by
    rw [absent, Table.dictextract, new, ite_self]
    rfl
  have noForeign : ¬Value.none.truth = true := Bool.false_ne_true
  rw [insertOne, new, if_neg (by exact nofun), Table.insert, noKey, if_neg (by exact nofun), if_neg noForeign] at ok
  dsimp only [cursorInsert] at ok
  cases inserted : execInsert affinity table ids rows (withoutNone (table.dictextract d)) with
  | error e =>
    rw [inserted] at ok
    cases ok
  | ok result =>
    obtain ⟨rows'', rowid⟩ := result
    rw [inserted] at ok
    cases ok
    obtain ⟨rfl, accepted⟩ := execInsert_ok inserted
    refine ⟨rfl, accepted, ?_⟩
    rw [Function.update_self, Function.update_self, lastrowid]

variable {ds ds' : List Fields} {wu wu' : WuDict} {wus wus' : List WuDict}

structure Db.WellFormed (db : Db) : Prop where
  ids : db.ids.Nodup
  files : (db.files.map Row.rowid).Nodup
  wuids : (db.workunits.map (·.values .wuid)).Nodup
  references : ∀ f ∈ db.files, f.values .wurowid = .none ∨ ∃ id ∈ db.ids, f.values .wurowid = .int id

theorem insertFiles_ok (nodup : (rows.map Row.rowid).Nodup)
    (ok : insertFiles affinity ids rows .none ds = .ok (rows', ds')) :
    (rows'.map Row.rowid).Nodup ∧ ∀ f ∈ rows', f ∈ rows ∨ f.values .wurowid = .none := by
  induction ds generalizing rows ds' with
  | nil =>
    cases ok
    exact ⟨nodup, fun f member => .inl member⟩
  | cons d ds ih =>
    rw [insertFiles] at ok
    cases one : insertOne affinity FilesTable ids rows d .none with
    | error e =>
      rw [one] at ok
      cases ok
    | ok result =>
      obtain ⟨rows₁, d₁⟩ := result
      rw [one] at ok
      dsimp only at ok
      have first : (rows₁.map Row.rowid).Nodup ∧ ∀ f ∈ rows₁, f ∈ rows ∨ f.values .wurowid = .none := by
        cases key : d FilesTable.primarykey with
        | some v =>
          rw [insertOne, key] at one
          cases one
          exact ⟨nodup, fun f member => .inl member⟩
        | none =>
          obtain ⟨rfl, -, -⟩ := insertOne_ok key one
          refine ⟨nodup_concat nodup rfl, fun f member => ?_⟩
          rcases List.mem_append.mp member with before | last
          · exact .inl before
          · rw [List.mem_singleton.mp last]
            exact .inr rfl
      cases more : insertFiles affinity ids rows₁ .none ds with
      | error e =>
        rw [more] at ok
        cases ok
      | ok result =>
        obtain ⟨rows₂, ds₂⟩ := result
        rw [more] at ok
        cases ok
        obtain ⟨nodup', rest⟩ := ih first.1 more
        refine ⟨nodup', fun f member => ?_⟩
        rcases rest f member with before | none
        · exact first.2 f before
        · exact .inr none

theorem wuid_of_accepts {values : Key → Value} (accepted : WuTable.accepts rows values = true) :
    values .wuid ≠ .none ∧ ∀ r ∈ rows, r.values .wuid ≠ values .wuid := by
  rw [Table.accepts, List.all_eq_true] at accepted
  have here := accepted ⟨.wuid, true, true⟩ List.mem_cons_self
  simp only [Bool.and_eq_true, decide_eq_true_eq, forall_const, List.all_eq_true, Bool.or_eq_true] at here
  exact ⟨here.1, fun r member => (here.2 r member).resolve_left here.1⟩

def IsRow (affinity : Affinity) (wu : WuDict) (r : Row) : Prop :=
  r.values = WuTable.rowValues affinity wu.fields ∧ r.values .wuid ≠ .none

structure Adds (affinity : Affinity) (wu : WuDict) (db db₁ : Db) (r : Row) : Prop where
  wellFormed : db₁.WellFormed
  workunits : db₁.workunits = db.workunits ++ [r]
  files : ∀ f ∈ db₁.files, f ∈ db.files ∨ f.values .wurowid = .none
  isRow : IsRow affinity wu r

theorem adds (wf : db.WellFormed) (accepted : WuTable.accepts db.workunits (WuTable.rowValues affinity wu.fields) = true)
    {files : List Row} (nodup : (files.map Row.rowid).Nodup)
    (known : ∀ f ∈ files, f ∈ db.files ∨ f.values .wurowid = .none) {r : Row}
    (row : r = ⟨newId db.workunits, WuTable.rowValues affinity wu.fields⟩) :
    Adds affinity wu db ⟨db.workunits ++ [r], files⟩ r := by
  subst row
  have name := wuid_of_accepts accepted
  refine ⟨⟨nodup_concat wf.ids rfl, nodup, ?_, ?_⟩, rfl, known, rfl, name.1⟩
  · rw [List.map_append]
    refine wf.wuids.append (List.nodup_singleton _) (List.disjoint_singleton.mpr fun there => ?_)
    obtain ⟨r', member, same⟩ := List.mem_map.mp there
    exact name.2 r' member same
  · intro f member
    rcases known f member with before | none
    · refine (wf.references f before).imp_right fun ⟨id, there, refers⟩ => ⟨id, ?_, refers⟩
      rw [Db.ids, List.map_append]
      exact List.mem_append_left _ there
    · exact .inl none

theorem insert_cons (wf : db.WellFormed) (new : wu.fields WuTable.primarykey = none)
    (ok : insert affinity db .none (wu :: wus) = .ok (db', wus')) :
    ∃ r db₁ wu' wus₁, wus' = wu' :: wus₁ ∧ insert affinity db₁ .none wus = .ok (db', wus₁) ∧ Adds affinity wu db db₁ r ∧
      wu'.fields WuTable.primarykey = some .none := by
  rw [insert] at ok
  cases one : insertOne affinity WuTable (newId db.workunits :: db.ids) db.workunits wu.fields .none with
  | error e =>
    rw [one] at ok
    cases ok
  | ok result =>
    obtain ⟨workunits, fields⟩ := result
    rw [one] at ok
    obtain ⟨rfl, accepted, noId⟩ := insertOne_ok new one
    dsimp only at ok
    rw [noId, Option.getD_some] at ok
    cases files : wu.files with
    | none =>
      rw [files] at ok
      dsimp only at ok
      split at ok
      · cases ok
      · rename_i rest
        cases ok
        exact ⟨_, _, _, _, rfl, rest, adds wf accepted wf.files (fun f member => .inl member) rfl, noId⟩
    | some ds =>
      rw [files] at ok
      dsimp only at ok
      cases sub : insertFiles affinity (Db.ids ⟨_, db.files⟩) db.files .none ds with
      | error e =>
        rw [sub] at ok
        cases ok
      | ok result =>
        obtain ⟨files', ds'⟩ := result
        obtain ⟨nodup, known⟩ := insertFiles_ok wf.files sub
        rw [sub] at ok
        dsimp only [Except.map] at ok
        split at ok
        · cases ok
        · rename_i rest
          cases ok
          exact ⟨_, _, _, _, rfl, rest, adds wf accepted nodup known rfl, noId⟩

theorem insert_ok (wf : db.WellFormed) (new : ∀ wu ∈ wus, wu.fields WuTable.primarykey = none)
    (ok : insert affinity db .none wus = .ok (db', wus')) :
    db'.WellFormed ∧ ∃ rows, db'.workunits = db.workunits ++ rows ∧ List.Forall₂ (IsRow affinity) wus rows ∧
      (∀ f ∈ db'.files, f ∈ db.files ∨ f.values .wurowid = .none) ∧
      ∀ wu' ∈ wus', wu'.fields WuTable.primarykey = some .none := by
  induction wus generalizing db wus' with
  | nil =>
    cases ok
    exact ⟨wf, [], (List.append_nil _).symm, .nil, fun f member => .inl member, nofun⟩
  | cons wu wus ih =>
    obtain ⟨r, db₁, wu', wus₁, rfl, rest, one, noId⟩ := insert_cons wf (new wu (.head _)) ok
    obtain ⟨wf', rows, workunits, isRows, files, noIds⟩ :=
      ih one.wellFormed (fun wu member => new wu (.tail _ member)) rest
    refine ⟨wf', r :: rows, ?_, .cons one.isRow isRows, fun f member => ?_, fun wu' member => ?_⟩
    · rw [workunits, one.workunits, List.append_assoc, List.singleton_append]
    · rcases files f member with before | none
      · exact one.files f before
      · exact .inr none
    · rcases List.mem_cons.mp member with rfl | later
      · exact noId
      · exact noIds wu' later

theorem whereEq_wuid (wf : db.WellFormed) {r : Row} (member : r ∈ db.workunits) {v : Value} (given : v ≠ .none)
    (name : r.values .wuid = affinity.convert .wuid v) :
    whereEq affinity db none [(.wuid, v)] = .ok [⟨WuTable.dict r,
      (partnersOf (fun r f => f.values .wurowid = .int r.rowid) db.files r).map (·.map FilesTable.dict)⟩] := by
  have selected : db.workunits.filter (selects affinity [(.wuid, v)]) = [r] := by
    refine filter_eq_singleton wf.wuids member fun r' _ => ?_
    have column : WuTable.dict r' .wuid = some (r'.values .wuid) := rfl
    simp only [selects, List.all_cons, List.all_nil, Bool.and_true, column, Option.getD_some, Bool.and_eq_true,
      decide_eq_true_eq, name]
    refine ⟨And.right, fun same => ⟨⟨?_, given⟩, same⟩⟩
    rw [same]
    exact affinity.convert_ne_none _ _ given
  have one : ([r].map Row.rowid).Nodup := List.nodup_singleton r.rowid
  rw [whereEq, List.all_cons, if_neg (by exact Bool.false_ne_true), selected]
  dsimp only [Option.elim_none]
  rw [regroup_leftJoin one wf.files]
  rfl

def Table.entry (affinity : Affinity) (table : Table) (rowid : ℕ) (d : Fields) : Fields :=
  table.dict ⟨rowid, stored affinity (withoutNone d)⟩

def OwnFiles (affinity : Affinity) (own : List Fields) (found : Option (List Fields)) : Prop :=
  ∃ ids : List ℕ, ids.length = own.length ∧ found = if own = [] then none else some (ids.zipWith (FilesTable.entry affinity) own)

def ReturnedOnce (affinity : Affinity) (db : Db) (wu : WuDict) (rowid : ℕ) : Prop :=
  ∃ files, whereEq affinity db none [(.wuid, (wu.fields .wuid).getD .none)] =
    .ok [⟨WuTable.entry affinity rowid wu.fields, files⟩] ∧ OwnFiles affinity (wu.files.getD []) files

def RoundTrip (affinity : Affinity) (db : Db) (wus wus' : List WuDict) : Prop :=
  List.Forall₂ (fun wu wu' => ∃ rowid, ReturnedOnce affinity db wu rowid ∧ wu'.fields WuTable.primarykey = some (.int rowid))
    wus wus'

theorem dict_rowValues (r : Row) (values : r.values = WuTable.rowValues affinity wu.fields) :
    WuTable.dict r = WuTable.entry affinity r.rowid wu.fields := by
  funext k
  rw [Table.entry, Table.dict, Table.dict, values]
  split_ifs with key column
  · rfl
  · have among : k ∈ WuTable.colnames := List.mem_cons_of_mem _ column
    simp only [Table.rowValues, stored, withoutNone, Table.dictextract, if_pos among]
  · rfl

theorem whereEq_inserted (wf : db.WellFormed) {r : Row} (member : r ∈ db.workunits) (isRow : IsRow affinity wu r)
    (unlinked : ∀ f ∈ db.files, f.values .wurowid ≠ .int r.rowid) :
    whereEq affinity db none [(.wuid, (wu.fields .wuid).getD .none)] =
      .ok [⟨WuTable.entry affinity r.rowid wu.fields, none⟩] := by
  obtain ⟨values, named⟩ := isRow
  have name : r.values .wuid = stored affinity (withoutNone (WuTable.dictextract wu.fields)) .wuid := congrFun values .wuid
  have given : (wu.fields .wuid).getD .none ≠ .none ∧ r.values .wuid = affinity.convert .wuid ((wu.fields .wuid).getD .none) := by
    rw [stored, withoutNone, Table.dictextract, if_pos (by decide)] at name
    cases field : wu.fields .wuid with
    | none =>
      rw [field] at name
      exact absurd name named
    | some v =>
      rw [field, Option.filter_some] at name
      split_ifs at name with given
      · exact ⟨of_decide_eq_true given, name⟩
      · exact absurd name named
  have noPartners : partnersOf (fun r f => decide (f.values .wurowid = .int r.rowid)) db.files r = none :=
    partnersOf_eq_none fun f there => decide_eq_false (unlinked f there)
  rw [whereEq_wuid wf member given.1 given.2, noPartners, dict_rowValues r values]
  rfl

theorem ownFiles_none {own : List Fields} : OwnFiles affinity own none ↔ own = [] := by
  constructor
  · rintro ⟨ids, -, found⟩
    split_ifs at found with empty
    exact empty
  · rintro rfl
    exact ⟨[], rfl, rfl⟩

/-- Since no row id comes back, only the empty list is stored and returned as it should be. A workunit is returned once and
with its own files if it has none. -/
theorem insert_whereEq_iff (affinity : Affinity) (db db' : Db) (wus wus' : List WuDict) (wf : db.WellFormed)
    (new : ∀ wu ∈ wus, wu.fields WuTable.primarykey = none) (ok : insert affinity db .none wus = .ok (db', wus')) :
    (RoundTrip affinity db' wus wus' ↔ wus = []) ∧
      ∀ wu ∈ wus, (∃ rowid, ReturnedOnce affinity db' wu rowid) ↔ wu.files.getD [] = [] := by
  obtain ⟨wf', rows, workunits, isRows, files, noIds⟩ := insert_ok wf new ok
  refine ⟨⟨fun roundTrip => ?_, ?_⟩, fun wu member => ?_⟩
  · cases roundTrip with
    | nil => rfl
    | cons first _ =>
      obtain ⟨rowid, -, hasId⟩ := first
      rw [noIds _ List.mem_cons_self] at hasId
      cases hasId
  · rintro rfl
    cases ok
    exact .nil
  · obtain ⟨r, here, isRow⟩ := mem_of_forall₂ isRows member
    have there : r ∈ db'.workunits := workunits ▸ List.mem_append_right _ here
    have unlinked : ∀ f ∈ db'.files, f.values .wurowid ≠ .int r.rowid := by
      have none {f : Row} (noForeign : f.values .wurowid = .none) : f.values .wurowid ≠ .int r.rowid := by
        rw [noForeign]
        exact nofun
      intro f among
      rcases files f among with before | noForeign
      · rcases wf.references f before with noForeign | ⟨id, old, refers⟩
        · exact none noForeign
        · intro same
          obtain rfl : id = r.rowid := by
            rw [refers] at same
            simpa using same
          have ids := wf'.ids
          rw [Db.ids, workunits, List.map_append, List.nodup_append] at ids
          exact ids.2.2 _ old _ (List.mem_map_of_mem here) rfl
      · exact none noForeign
    have returned := whereEq_inserted wf' there isRow unlinked
    constructor
    · rintro ⟨rowid, found, result, own⟩
      rw [returned] at result
      obtain rfl : none = found := congrArg WuDict.files (List.head_eq_of_cons_eq (Except.ok.inj result))
      exact ownFiles_none.mp own
    · exact fun empty => ⟨r.rowid, none, returned, ownFiles_none.mpr empty⟩

/-! ## One workunit with a file -/

def plain : Affinity := ⟨fun _ v => v, fun _ _ given => given⟩

def oneFile : WuDict where
  fields
    | .wuid => some (.text ['a'])
    | .status => some (.int 0)
    | .wu => some (.text ['w'])
    | _ => none
  files := some [fun k => if k = .path then some (.text ['f']) else none]

theorem wellFormed_empty : Db.WellFormed ⟨[], []⟩ := ⟨List.nodup_nil, List.nodup_nil, List.nodup_nil, nofun⟩

theorem insert_whereEq_oneFile : ∃ db' wus', insert plain ⟨[], []⟩ .none [oneFile] = .ok (db', wus') ∧
    (RoundTrip plain db' [oneFile] wus' ↔ [oneFile] = []) := by
  refine ⟨_, _, rfl, (insert_whereEq_iff plain ⟨[], []⟩ _ [oneFile] _ wellFormed_empty ?_ rfl).1⟩
  intro wu member
  rw [List.mem_singleton.mp member]
  rfl

theorem insert_whereEq_lost : ∃ db' wu', insert plain ⟨[], []⟩ .none [oneFile] = .ok (db', [wu']) ∧
    wu'.fields WuTable.primarykey = some .none ∧ (∃ found, whereEq plain db' none [(.wuid, .text ['a'])] = .ok [found] ∧
      found.files = none) ∧ ¬RoundTrip plain db' [oneFile] [wu'] := by
  refine ⟨_, _, rfl, rfl, ⟨_, rfl, rfl⟩, fun roundTrip => ?_⟩
  obtain ⟨⟨rowid, -, hasId⟩, -⟩ := List.forall₂_cons.mp roundTrip
  exact nomatch hasId.symm.trans (rfl : _ = some Value.none)

end CadoNfs.Cadofactor.Mapper
