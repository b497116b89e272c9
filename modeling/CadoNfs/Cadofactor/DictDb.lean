import CadoNfs.Lib.ExceptRun
import Mathlib

/-!
# Dictionaries in the database

`DictDbDirectAccess` of `scripts/cadofactor/database/dictdb.py`, over `DbTable` of `database/table.py` and the cursor
of `database/base.py`.
-/

namespace CadoNfs.Cadofactor

open Lib

inductive PyError
  | typeError
  | valueError
  | indexError
  | exception
  deriving DecidableEq

inductive Arg
  | int (n : ℕ)
  | order (column direction : String)
  deriving DecidableEq

def Arg.toInt : Arg → Except PyError ℕ
  | .int n => .ok n
  | .order .. => .error .typeError

structure DictRow where
  kkey : String
  type : ℕ
  value : String
  deriving DecidableEq

inductive Value (F : Type)
  | str (s : String)
  | int (n : ℤ)
  | float (x : F)
  | bool (b : Bool)
  deriving DecidableEq

structure Conditions where
  offset : Option Arg
  eqKey : Option String

structure Select where
  eqKey : Option String
  order : Option (String × String)
  limit : Option ℕ
  offset : Option ℕ

def whereQuery (limit offset order : Option Arg) (eqKey : Option String) : Except PyError Select := do
  let order ← match order with
    | none => pure none
    | some (.int _) => .error .typeError
    | some (.order column direction) =>
      if direction = "ASC" ∨ direction = "DESC" then pure (some (column, direction)) else .error .exception
  match limit with
  | none => pure ⟨eqKey, order, none, none⟩
  | some limit => do
    let limit ← limit.toInt
    match offset with
    | none => pure ⟨eqKey, order, some limit, none⟩
    | some offset => do
      let offset ← offset.toInt
      pure ⟨eqKey, order, some limit, some offset⟩

def Select.run (orderBy : String × String → List DictRow → List DictRow) (q : Select) (rows : List DictRow) :
    List DictRow :=
  let rows := rows.filter fun r => q.eqKey.all (r.kkey = ·)
  let rows := q.order.elim rows (orderBy · rows)
  let rows := rows.drop (q.offset.getD 0)
  q.limit.elim rows rows.take

-- The third argument after `joinsource` of `where_query` is `limit` and the fourth is `offset`.
def cursorWhere (limit _offset order : Option Arg) (conditions : Conditions) : Except PyError Select :=
  whereQuery limit order none conditions.eqKey

-- An `offset` among the conditions becomes the argument of that name.
def whereAsDict (limit order : Option Arg) (conditions : Conditions) : Except PyError Select :=
  cursorWhere limit conditions.offset order { conditions with offset := none }

def dbTableWhere (limit order : Option Arg) (conditions : Conditions) : Except PyError Select :=
  whereAsDict limit order conditions

section
variable {F : Type} (pyInt : String → Option ℤ) (pyFloat : String → Option F)

def convertValue (row : DictRow) : Except PyError (Value F) :=
  match row.type with
  | 0 => .ok (.str row.value)
  | 1 => (pyInt row.value).elim (.error .valueError) fun n => .ok (.int n)
  | 2 => (pyFloat row.value).elim (.error .valueError) fun x => .ok (.float x)
  | 3 =>
    if row.value = "True" then .ok (.bool true)
    else if row.value = "False" then .ok (.bool false)
    else .error .valueError
  | _ => .error .indexError

structure DictDb where
  rows : List DictRow
  unique : (rows.map DictRow.kkey).Nodup
  valid : ∀ r ∈ rows, ∃ v, convertValue pyInt pyFloat r = .ok v

end

namespace DictDb

variable {F : Type} {pyInt : String → Option ℤ} {pyFloat : String → Option F}
variable (orderBy : String × String → List DictRow → List DictRow) (T : DictDb pyInt pyFloat)

def select (limit order : Option Arg) (conditions : Conditions) : Except PyError (List DictRow) := do
  let q ← dbTableWhere limit order conditions
  pure (q.run orderBy T.rows)

def entry (pyInt : String → Option ℤ) (pyFloat : String → Option F) (r : DictRow) :
    Except PyError (String × Value F) := do
  let v ← convertValue pyInt pyFloat r
  pure (r.kkey, v)

def iterRaw : Except PyError (List (String × Value F)) := do
  let n := T.rows.length
  let batchSize := 128
  let batches ← (List.range' 1 ((n + batchSize - 1) / batchSize) batchSize).mapM fun i => do
    let rows ← T.select orderBy (some (.int batchSize)) none ⟨some (.int i), none⟩
    rows.mapM (entry pyInt pyFloat)
  pure batches.flatten

def iter : Except PyError (List String) := do
  let l ← T.iterRaw orderBy
  pure (l.map Prod.fst)

def items : Except PyError (List (String × Value F)) := T.iterRaw orderBy

def getitem (key : String) : Except PyError (Value F) := do
  let rows ← T.select orderBy (some (.int 1)) none ⟨none, some key⟩
  match rows with
  | [r] => convertValue pyInt pyFloat r
  | _ => .error .valueError

def dictOf {V : Type} (l : List (String × V)) (key : String) : Option V := l.reverse.lookup key

def toDict : Except PyError (String → Option (Value F)) := do
  let keys ← T.iter orderBy
  let l ← keys.mapM fun key => do
    let v ← T.getitem orderBy key
    pure (key, v)
  pure (dictOf l)

def backendEntries : Except PyError (List (String × Value F)) := do
  let rows ← T.select orderBy none none ⟨none, none⟩
  rows.mapM (entry pyInt pyFloat)

def backendGetall : Except PyError (String → Option (Value F)) := do
  let l ← T.backendEntries orderBy
  pure (dictOf l)

variable {orderBy : String × String → List DictRow → List DictRow} {T : DictDb pyInt pyFloat}

theorem select_limit (limit : ℕ) (offset : Option Arg) (key : Option String) :
    T.select orderBy (some (.int limit)) none ⟨offset, key⟩ =
      .ok ((T.rows.filter fun r => key.all (r.kkey = ·)).take limit) := rfl

theorem select_all : T.select orderBy none none ⟨none, none⟩ = .ok T.rows := by
  have all : (T.rows.filter fun r => (none : Option String).all (r.kkey = ·)) = T.rows :=
    List.filter_eq_self.mpr fun _ _ => rfl
  show Except.ok (T.rows.filter fun r => (none : Option String).all (r.kkey = ·)) = _
  rw [all]

def rowValue (pyInt : String → Option ℤ) (pyFloat : String → Option F) (r : DictRow) : Value F :=
  (convertValue pyInt pyFloat r).toOption.getD (.str r.value)

theorem convertValue_eq {r : DictRow} (member : r ∈ T.rows) :
    convertValue pyInt pyFloat r = .ok (rowValue pyInt pyFloat r) := by
  obtain ⟨v, ok⟩ := T.valid r member
  rw [rowValue, ok]
  rfl

def stored (T : DictDb pyInt pyFloat) : List (String × Value F) :=
  T.rows.map fun r => (r.kkey, rowValue pyInt pyFloat r)

theorem stored_keys : T.stored.map Prod.fst = T.rows.map DictRow.kkey := by
  rw [stored, List.map_map]
  rfl

theorem mapM_entry {l : List DictRow} (rows : ∀ r ∈ l, r ∈ T.rows) :
    l.mapM (entry pyInt pyFloat) = .ok (l.map fun r => (r.kkey, rowValue pyInt pyFloat r)) := by
  refine mapM_ok fun r member => ?_
  rw [entry, convertValue_eq (rows r member)]
  rfl

theorem backendEntries_eq : T.backendEntries orderBy = .ok T.stored := by
  rw [backendEntries, select_all]
  exact mapM_entry fun _ member => member

theorem iterRaw_eq :
    T.iterRaw orderBy = .ok (List.replicate ((T.rows.length + 127) / 128) (T.stored.take 128)).flatten := by
  have all : (T.rows.filter fun r => (none : Option String).all (r.kkey = ·)) = T.rows :=
    List.filter_eq_self.mpr fun _ _ => rfl
  have batch (i : ℕ) : (do
      let rows ← T.select orderBy (some (.int 128)) none ⟨some (.int i), none⟩
      rows.mapM (entry pyInt pyFloat)) = .ok (T.stored.take 128) := by
    rw [select_limit, all, stored, ← List.map_take]
    exact mapM_entry fun r member => List.mem_of_mem_take member
  have batches : ((List.range' 1 ((T.rows.length + 127) / 128) 128).mapM fun i => do
      let rows ← T.select orderBy (some (.int 128)) none ⟨some (.int i), none⟩
      rows.mapM (entry pyInt pyFloat)) =
      .ok (List.replicate ((T.rows.length + 127) / 128) (T.stored.take 128)) := by
    rw [mapM_ok fun i _ => batch i, List.map_const', List.length_range']
  unfold iterRaw
  show (do
    let batches ← (List.range' 1 ((T.rows.length + 127) / 128) 128).mapM fun i => do
      let rows ← T.select orderBy (some (.int 128)) none ⟨some (.int i), none⟩
      rows.mapM (entry pyInt pyFloat)
    pure batches.flatten) = _
  rw [batches]
  rfl

theorem length_stored : T.stored.length = T.rows.length := by rw [stored, List.length_map]

theorem iterRaw_of_small (small : T.rows.length ≤ 128) : T.iterRaw orderBy = .ok T.stored := by
  rw [iterRaw_eq]
  cases rows : T.rows.length with
  | zero =>
    have empty : T.stored = [] := List.eq_nil_of_length_eq_zero (length_stored.trans rows)
    rw [empty]
    rfl
  | succ n =>
    have one : (n + 1 + 127) / 128 = 1 := by omega
    rw [one, List.replicate_one, List.flatten_singleton, List.take_of_length_le (by rw [length_stored]; exact small)]

variable (orderBy) in
theorem iterRaw_of_large (large : 128 < T.rows.length) :
    ∃ l, T.iterRaw orderBy = .ok l ∧ ¬ (l.map Prod.fst).Nodup := by
  refine ⟨_, iterRaw_eq, fun nodup => ?_⟩
  obtain ⟨k, two⟩ : ∃ k, (T.rows.length + 127) / 128 = k + 2 := ⟨(T.rows.length + 127) / 128 - 2, by omega⟩
  obtain ⟨e, stored, start⟩ : ∃ e stored, T.stored.take 128 = e :: stored := by
    cases start : T.stored.take 128 with
    | nil =>
      have := congrArg List.length start
      rw [List.length_take, length_stored, List.length_nil] at this
      omega
    | cons e stored => exact ⟨e, stored, rfl⟩
  rw [two, start, List.replicate_succ, List.replicate_succ, List.flatten_cons, List.flatten_cons, List.map_append,
    List.nodup_append] at nodup
  exact nodup.2.2 e.1 (by simp) e.1 (by simp) rfl

theorem filter_key {rows : List DictRow} (unique : (rows.map DictRow.kkey).Nodup) {r : DictRow} (member : r ∈ rows) :
    (rows.filter fun r' => r'.kkey = r.kkey) = [r] := by
  induction rows with
  | nil => cases member
  | cons first rows ih =>
    rw [List.map_cons, List.nodup_cons] at unique
    by_cases here : first.kkey = r.kkey
    · have absent : ∀ r' ∈ rows, ¬ r'.kkey = r.kkey := fun r' inside same =>
        unique.1 (List.mem_map.mpr ⟨r', inside, same.trans here.symm⟩)
      have same : first = r := by
        cases member with
        | head => rfl
        | tail _ inside => exact absurd rfl (absent r inside)
      rw [List.filter_cons_of_pos (by simpa using here), same,
        List.filter_eq_nil_iff.mpr fun r' inside => by simpa using absent r' inside]
    · have inside : r ∈ rows := by
        cases member with
        | head => exact absurd rfl here
        | tail _ inside => exact inside
      rw [List.filter_cons_of_neg (by simpa using here), ih unique.2 inside]

theorem getitem_eq {r : DictRow} (member : r ∈ T.rows) :
    T.getitem orderBy r.kkey = .ok (rowValue pyInt pyFloat r) := by
  have one : (T.rows.filter fun r' => (some r.kkey : Option String).all (r'.kkey = ·)).take 1 = [r] := by
    have row := filter_key T.unique member
    simpa [Option.all] using congrArg (List.take 1) row
  rw [getitem, select_limit, one]
  exact convertValue_eq member

theorem toDict_of_small (small : T.rows.length ≤ 128) : T.toDict orderBy = .ok (dictOf T.stored) := by
  have values : ∀ r ∈ T.rows, (do
      let v ← T.getitem orderBy r.kkey
      pure (r.kkey, v)) = (.ok (r.kkey, rowValue pyInt pyFloat r) : Except PyError (String × Value F)) := by
    intro r member
    rw [getitem_eq member]
    rfl
  have all : ((T.rows.map DictRow.kkey).mapM fun key => do
      let v ← T.getitem orderBy key
      pure (key, v)) = .ok T.stored := by
    rw [List.mapM_map]
    exact mapM_ok values
  rw [toDict, iter, iterRaw_of_small small]
  show (do
    let l ← (T.stored.map Prod.fst).mapM fun key => do
      let v ← T.getitem orderBy key
      pure (key, v)
    pure (dictOf l)) = _
  rw [stored_keys, all]
  rfl

/-- Iteration gives each key of the table once, and the same mapping as `_backend_getall`. -/
structure IteratesTable (orderBy : String × String → List DictRow → List DictRow) (T : DictDb pyInt pyFloat) :
    Prop where
  iter : ∃ keys, T.iter orderBy = .ok keys ∧ keys.Perm (T.rows.map DictRow.kkey)
  items : ∃ l all, T.items orderBy = .ok l ∧ T.backendEntries orderBy = .ok all ∧ l.Perm all
  toDict : ∃ d, T.toDict orderBy = .ok d ∧ T.backendGetall orderBy = .ok d

theorem not_iteratesTable (large : 128 < T.rows.length) : ¬ T.IteratesTable orderBy := by
  intro iterates
  obtain ⟨keys, ok, perm⟩ := iterates.iter
  obtain ⟨l, raw, twice⟩ := iterRaw_of_large orderBy large
  rw [iter, raw] at ok
  obtain rfl : l.map Prod.fst = keys := Except.ok.inj ok
  exact twice (perm.nodup_iff.mpr T.unique)

theorem iteratesTable_iff (orderBy : String × String → List DictRow → List DictRow) (T : DictDb pyInt pyFloat) :
    T.IteratesTable orderBy ↔ T.rows.length ≤ 128 := by
  constructor
  · intro iterates
    by_contra large
    exact not_iteratesTable (not_le.mp large) iterates
  · intro small
    refine ⟨⟨_, by rw [iter, iterRaw_of_small small]; rfl, ?_⟩,
      ⟨_, _, iterRaw_of_small small, backendEntries_eq, .refl _⟩,
      ⟨_, toDict_of_small small, by rw [backendGetall, backendEntries_eq]; rfl⟩⟩
    rw [stored_keys]

def oneTooMany : DictDb (fun _ => none) (fun _ => (none : Option Unit)) where
  rows := (List.range 129).map fun i => ⟨String.ofList (List.replicate i 'a'), 0, "x"⟩
  unique := by
    rw [List.map_map]
    refine List.nodup_range.map fun i j same => ?_
    have lists := congrArg (fun s => s.toList.length) same
    simpa using lists
  valid := by
    intro r member
    obtain ⟨i, -, rfl⟩ := List.mem_map.mp member
    exact ⟨.str "x", rfl⟩

theorem oneTooMany_not_iterates : ¬ oneTooMany.IteratesTable fun _ rows => rows :=
  not_iteratesTable (by rw [oneTooMany, List.length_map, List.length_range]; norm_num)

end DictDb

end CadoNfs.Cadofactor
