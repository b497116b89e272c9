import CadoNfs.Cadofactor.DictDb
import CadoNfs.Lib.Dict

/-!
# The dictionaries in memory

`DictDbCachedAccess` of `scripts/cadofactor/database/dictdb.py` over its table. A transaction that raises is rolled
back. The keys are strings, and nothing else writes to the table.
-/

namespace CadoNfs.Cadofactor
open Lib

/-- `str` and the types `int` and `float`; `str(n)` raises for too many digits. -/
structure PyTypes (F : Type) where
  intStr : ℤ → Option String
  pyInt : String → Option ℤ
  floatStr : F → String
  pyFloat : String → Option F
  int_round : ∀ n s, intStr n = some s → pyInt s = some n
  float_round : ∀ x, pyFloat (floatStr x) = some x

inductive PyValue (F : Type)
  | value (v : Value F)
  | other

inductive Raised
  | keyError
  | database (e : PyError)
  deriving DecidableEq

namespace DictDb

variable {F : Type} {pyInt : String → Option ℤ} {pyFloat : String → Option F}

def value (T : DictDb pyInt pyFloat) (key : String) : Option (Value F) := dictOf T.stored key

theorem backendGetall_eq (orderBy : String × String → List DictRow → List DictRow) (T : DictDb pyInt pyFloat) :
    T.backendGetall orderBy = .ok T.value := by
  rw [backendGetall, backendEntries_eq]
  rfl

theorem value_eq_some_iff {T : DictDb pyInt pyFloat} {key : String} {v : Value F} :
    T.value key = some v ↔ ∃ r ∈ T.rows, r.kkey = key ∧ rowValue pyInt pyFloat r = v := by
  have nodup : (T.stored.reverse.map Prod.fst).Nodup := by
    rw [List.map_reverse, List.nodup_reverse, stored_keys]
    exact T.unique
  have member : (key, v) ∈ T.stored.reverse ↔ ∃ r ∈ T.rows, r.kkey = key ∧ rowValue pyInt pyFloat r = v := by
    rw [List.mem_reverse, stored, List.mem_map]
    simp only [Prod.mk.injEq]
  rw [← member]
  exact ⟨mem_of_lookup, fun there => lookup_of_mem nodup there⟩

end DictDb

variable {F : Type} (py : PyTypes F)

def ValidRow : Type := { r : DictRow // ∃ v, convertValue py.pyInt py.pyFloat r = .ok v }

abbrev Table : Type := DictDb py.pyInt py.pyFloat

def rowOf (key : String) : Value F → Except PyError (ValidRow py)
  | .str s => .ok ⟨⟨key, 0, s⟩, .str s, rfl⟩
  | .int n =>
    match printed : py.intStr n with
    | some s => .ok ⟨⟨key, 1, s⟩, .int n, by rw [convertValue, py.int_round n s printed]; rfl⟩
    | none => .error .valueError
  | .float x => .ok ⟨⟨key, 2, py.floatStr x⟩, .float x, by rw [convertValue, py.float_round]; rfl⟩
  | .bool b => .ok ⟨⟨key, 3, if b then "True" else "False"⟩, .bool b, by cases b <;> rfl⟩

variable {py}

namespace Table

def put (T : Table py) (new : ValidRow py) : Table py where
  rows :=
    if T.rows.any (·.kkey = new.1.kkey) then T.rows.map fun r => if r.kkey = new.1.kkey then new.1 else r
    else T.rows ++ [new.1]
  unique := by
    split_ifs with there
    · have same : (T.rows.map fun r => if r.kkey = new.1.kkey then new.1 else r).map DictRow.kkey =
          T.rows.map DictRow.kkey := by
        rw [List.map_map]
        apply List.map_congr_left
        intro r _
        by_cases eq : r.kkey = new.1.kkey
        · exact (congrArg DictRow.kkey (if_pos eq)).trans eq.symm
        · exact congrArg DictRow.kkey (if_neg eq)
      rw [same]
      exact T.unique
    · rw [List.map_append, List.nodup_append]
      refine ⟨T.unique, List.nodup_singleton _, ?_⟩
      intro k member k' last same
      obtain ⟨r, inside, rfl⟩ := List.mem_map.mp member
      rw [List.map_singleton, List.mem_singleton] at last
      exact there (List.any_eq_true.mpr ⟨r, inside, decide_eq_true (same.trans last)⟩)
  valid := by
    intro r member
    split_ifs at member with there
    · obtain ⟨old, inside, rfl⟩ := List.mem_map.mp member
      split_ifs
      · exact new.2
      · exact T.valid old inside
    · rcases List.mem_append.mp member with inside | last
      · exact T.valid r inside
      · exact List.mem_singleton.mp last ▸ new.2

def delete (T : Table py) (key : String) : Table py where
  rows := T.rows.filter (·.kkey ≠ key)
  unique := T.unique.sublist (List.filter_sublist.map DictRow.kkey)
  valid r member := T.valid r (List.mem_of_mem_filter member)

def empty : Table py where
  rows := []
  unique := List.nodup_nil
  valid _ member := absurd member List.not_mem_nil

end Table

variable (py) in
structure Cached where
  table : Table py
  data : String → Option (PyValue F)

inductive Op (F : Type)
  | setitem (key : String) (value : PyValue F)
  | delitem (key : String)
  | setdefault (key : String) (default : PyValue F)
  | setdefaults (default : List (String × PyValue F))
  | update (other : List (String × PyValue F))
  | clear (args : Option (List String))

namespace Cached

def setitemNocommit (T : Table py) (key : String) : PyValue F → Except PyError (Table py)
  | .value v => do
    let row ← rowOf py key v
    pure (T.put row)
  | .other => .error .typeError

def superUpdate (T : Table py) (other : List (String × PyValue F)) : Except PyError (Table py) :=
  other.foldlM (fun T e => setitemNocommit T e.1 e.2) T

def setitem (s : Cached py) (key : String) (value : PyValue F) : Cached py × Option Raised :=
  match setitemNocommit s.table key value with
  | .error e => (s, some (.database e))
  | .ok table => (⟨table, Function.update s.data key (some value)⟩, none)

def delitem (s : Cached py) (key : String) : Cached py × Option Raised :=
  let s := { s with table := s.table.delete key }
  match s.data key with
  | none => (s, some .keyError)
  | some _ => ({ s with data := Function.update s.data key none }, none)

def update (s : Cached py) (other : List (String × PyValue F)) : Cached py × Option Raised :=
  match superUpdate s.table other with
  | .error e => (s, some (.database e))
  | .ok table => (⟨table, other.foldl (fun data e => Function.update data e.1 (some e.2)) s.data⟩, none)

/-- `super().setdefault` comes back to `update`. -/
def setdefault (s : Cached py) (key : String) (default : PyValue F) : Cached py × Option Raised :=
  match s.data key with
  | some _ => (s, none)
  | none =>
    match s.update [(key, default)] with
    | (s, some raised) => (s, some raised)
    | (s, none) =>
      match s.data key with
      | none => (s, some .keyError)
      | some value => ({ s with data := Function.update s.data key (some value) }, none)

def setdefaults (s : Cached py) (default : List (String × PyValue F)) : Cached py × Option Raised :=
  match default.filter fun e => (s.data e.1).isNone with
  | [] => (s, none)
  | e :: other => s.update (e :: other)

def delKeys : List String → (String → Option (PyValue F)) → (String → Option (PyValue F)) × Option Raised
  | [], data => (data, none)
  | key :: args, data =>
    match data key with
    | none => (data, some .keyError)
    | some _ => delKeys args (Function.update data key none)

def clear (s : Cached py) : Option (List String) → Cached py × Option Raised
  | none => (⟨.empty, fun _ => none⟩, none)
  | some args =>
    let table := args.foldl Table.delete s.table
    let (data, raised) := delKeys args s.data
    (⟨table, data⟩, raised)

def step (s : Cached py) : Op F → Cached py × Option Raised
  | .setitem key value => s.setitem key value
  | .delitem key => s.delitem key
  | .setdefault key default => s.setdefault key default
  | .setdefaults default => s.setdefaults default
  | .update other => s.update other
  | .clear args => s.clear args

def run (s : Cached py) (ops : List (Op F)) : Cached py := ops.foldl (fun s op => (s.step op).1) s

variable (orderBy : String × String → List DictRow → List DictRow)

def load (T : Table py) : Except PyError (Cached py) := do
  let data ← T.backendGetall orderBy
  pure ⟨T, fun key => (data key).map .value⟩

def Consistent (s : Cached py) : Prop := load orderBy s.table = .ok s

/-- In the list of keys, no key of the dictionary comes first after a key that raises. -/
def Clears (data : String → Option (PyValue F)) (args : List String) : Prop :=
  ∀ before key after, args = before ++ key :: after → data key = none ∨ key ∈ before →
    ∀ k ∈ after, data k ≠ none → k ∈ before

def ClearsAll (s : Cached py) : Op F → Prop
  | .clear (some args) => Clears s.data args
  | _ => True

def RunClearsAll : Cached py → List (Op F) → Prop
  | _, [] => True
  | s, op :: ops => s.ClearsAll op ∧ RunClearsAll (s.step op).1 ops

/-! ## The table and its dictionary -/

def contents (T : Table py) (key : String) : Option (PyValue F) := (T.value key).map .value

variable {orderBy}

theorem load_eq (T : Table py) : load orderBy T = .ok ⟨T, contents T⟩ := by
  rw [load, DictDb.backendGetall_eq]
  rfl

theorem consistent_iff {s : Cached py} : s.Consistent orderBy ↔ s.data = contents s.table := by
  obtain ⟨T, data⟩ := s
  rw [Consistent, load_eq, Except.ok.injEq, Cached.mk.injEq]
  exact ⟨fun same => same.2.symm, fun same => ⟨rfl, same.symm⟩⟩

theorem mem_put {T : Table py} {new : ValidRow py} {r : DictRow} :
    r ∈ (T.put new).rows ↔ r = new.1 ∨ r ∈ T.rows ∧ r.kkey ≠ new.1.kkey := by
  unfold Table.put
  split_ifs with there
  · obtain ⟨old, inside, same⟩ := List.any_eq_true.mp there
    rw [List.mem_map]
    constructor
    · rintro ⟨r', inside', rfl⟩
      split_ifs with eq
      · exact .inl rfl
      · exact .inr ⟨inside', eq⟩
    · rintro (rfl | ⟨inside', other⟩)
      · exact ⟨old, inside, if_pos (of_decide_eq_true same)⟩
      · exact ⟨r, inside', if_neg other⟩
  · rw [List.mem_append, List.mem_singleton]
    constructor
    · rintro (inside | last)
      · exact .inr ⟨inside, fun same => there (List.any_eq_true.mpr ⟨r, inside, decide_eq_true same⟩)⟩
      · exact .inl last
    · rintro (last | ⟨inside, -⟩)
      · exact .inr last
      · exact .inl inside

theorem value_put (T : Table py) (new : ValidRow py) :
    (T.put new).value = Function.update T.value new.1.kkey (some (DictDb.rowValue py.pyInt py.pyFloat new.1)) := by
  funext key
  ext v
  rw [DictDb.value_eq_some_iff]
  by_cases same : key = new.1.kkey
  · rw [same, Function.update_self, Option.some.injEq]
    constructor
    · rintro ⟨r, inside, eq, value⟩
      rcases mem_put.mp inside with rfl | ⟨-, other⟩
      · exact value
      · exact absurd eq other
    · exact fun value => ⟨new.1, mem_put.mpr (.inl rfl), rfl, value⟩
  · rw [Function.update_of_ne same, DictDb.value_eq_some_iff]
    constructor
    · rintro ⟨r, inside, rfl, value⟩
      rcases mem_put.mp inside with rfl | ⟨there, -⟩
      · exact absurd rfl same
      · exact ⟨r, there, rfl, value⟩
    · rintro ⟨r, inside, rfl, value⟩
      exact ⟨r, mem_put.mpr (.inr ⟨inside, same⟩), rfl, value⟩

theorem value_delete (T : Table py) (key : String) : (T.delete key).value = Function.update T.value key none := by
  funext k
  ext v
  have member : ∀ r, r ∈ (T.delete key).rows ↔ r ∈ T.rows ∧ r.kkey ≠ key := fun r => by
    rw [Table.delete, List.mem_filter, decide_eq_true_eq]
  rw [DictDb.value_eq_some_iff]
  by_cases same : k = key
  · rw [same, Function.update_self]
    constructor
    · rintro ⟨r, inside, eq, -⟩
      exact absurd eq ((member r).mp inside).2
    · exact fun impossible => nomatch impossible
  · rw [Function.update_of_ne same, DictDb.value_eq_some_iff]
    constructor
    · rintro ⟨r, inside, eq, value⟩
      exact ⟨r, ((member r).mp inside).1, eq, value⟩
    · rintro ⟨r, inside, eq, value⟩
      exact ⟨r, (member r).mpr ⟨inside, eq ▸ same⟩, eq, value⟩

theorem contents_delete (T : Table py) (key : String) :
    contents (T.delete key) = Function.update (contents T) key none := by
  funext k
  rw [contents, value_delete]
  by_cases same : k = key
  · rw [same, Function.update_self, Function.update_self]
    rfl
  · rw [Function.update_of_ne same, Function.update_of_ne same, contents]

theorem rowOf_spec {key : String} {v : Value F} {row : ValidRow py} (made : rowOf py key v = .ok row) :
    row.1.kkey = key ∧ DictDb.rowValue py.pyInt py.pyFloat row.1 = v := by
  cases v with
  | str s =>
    cases made
    exact ⟨rfl, rfl⟩
  | int n =>
    rw [rowOf] at made
    split at made
    · next s printed =>
      cases made
      refine ⟨rfl, ?_⟩
      rw [DictDb.rowValue, convertValue, py.int_round n s printed]
      rfl
    · cases made
  | float x =>
    cases made
    refine ⟨rfl, ?_⟩
    rw [DictDb.rowValue, convertValue, py.float_round]
    rfl
  | bool b =>
    cases made
    cases b <;> exact ⟨rfl, rfl⟩

theorem setitemNocommit_contents {T T' : Table py} {key : String} {value : PyValue F}
    (done : setitemNocommit T key value = .ok T') : contents T' = Function.update (contents T) key (some value) := by
  cases value with
  | other => cases done
  | value v =>
    obtain ⟨row, made, put⟩ := bind_ok.mp done
    obtain ⟨same, value⟩ := rowOf_spec made
    cases put
    funext k
    rw [contents, value_put, same, value]
    by_cases here : k = key
    · rw [here, Function.update_self, Function.update_self]
      rfl
    · rw [Function.update_of_ne here, Function.update_of_ne here, contents]

theorem superUpdate_contents {T T' : Table py} {other : List (String × PyValue F)}
    (done : superUpdate T other = .ok T') :
    contents T' =
      other.foldl (fun (data : String → Option (PyValue F)) e => Function.update data e.1 (some e.2)) (contents T) := by
  induction other generalizing T with
  | nil =>
    cases done
    rfl
  | cons e other ih =>
    rw [superUpdate, List.foldlM_cons] at done
    obtain ⟨T'', first, done⟩ := bind_ok.mp done
    rw [ih done, setitemNocommit_contents first, List.foldl_cons]

theorem update_consistent {s : Cached py} {other : List (String × PyValue F)} (consistent : s.Consistent orderBy) :
    (s.update other).1.Consistent orderBy := by
  have same := consistent_iff.mp consistent
  unfold update
  cases done : superUpdate s.table other with
  | error e => exact consistent
  | ok table =>
    rw [consistent_iff]
    simp only [superUpdate_contents done, same]

theorem setitem_consistent {s : Cached py} {key : String} {value : PyValue F} (consistent : s.Consistent orderBy) :
    (s.setitem key value).1.Consistent orderBy := by
  have same := consistent_iff.mp consistent
  unfold setitem
  cases done : setitemNocommit s.table key value with
  | error e => exact consistent
  | ok table =>
    rw [consistent_iff]
    simp only [setitemNocommit_contents done, same]

theorem delitem_consistent {s : Cached py} {key : String} (consistent : s.Consistent orderBy) :
    (s.delitem key).1.Consistent orderBy := by
  have same := consistent_iff.mp consistent
  unfold delitem
  cases there : s.data key with
  | none =>
    simp only [there]
    rw [consistent_iff]
    simp only [contents_delete, ← same]
    rw [← there, Function.update_eq_self]
  | some value =>
    simp only [there]
    rw [consistent_iff]
    simp only [contents_delete, same]

theorem setdefault_consistent {s : Cached py} {key : String} {default : PyValue F}
    (consistent : s.Consistent orderBy) : (s.setdefault key default).1.Consistent orderBy := by
  have updated : (s.update [(key, default)]).1.Consistent orderBy := update_consistent consistent
  unfold setdefault
  cases there : s.data key with
  | some value => exact consistent
  | none =>
    obtain ⟨⟨s', raised⟩, outcome⟩ : ∃ outcome, s.update [(key, default)] = outcome := ⟨_, rfl⟩
    rw [outcome] at updated
    simp only [outcome]
    cases raised with
    | some raised => exact updated
    | none =>
      simp only
      cases there' : s'.data key with
      | none => exact updated
      | some value =>
        simp only
        rw [← there', Function.update_eq_self]
        exact updated

theorem setdefaults_consistent {s : Cached py} {default : List (String × PyValue F)}
    (consistent : s.Consistent orderBy) : (s.setdefaults default).1.Consistent orderBy := by
  unfold setdefaults
  split
  · exact consistent
  · exact update_consistent consistent

theorem clears_of_missing {data : String → Option (PyValue F)} {key : String} {args : List String}
    (missing : data key = none) : Clears data (key :: args) ↔ ∀ k ∈ key :: args, data k = none := by
  constructor
  · intro clears k member
    rcases List.mem_cons.mp member with rfl | later
    · exact missing
    · by_contra present
      exact List.not_mem_nil (clears [] key args rfl (.inl missing) k later present)
  · intro none before key' after split _ k later present
    refine absurd (none k ?_) present
    rw [split]
    exact List.mem_append_right _ (.tail _ later)

theorem clears_of_present {data : String → Option (PyValue F)} {key : String} {args : List String}
    (present : data key ≠ none) : Clears data (key :: args) ↔ Clears (Function.update data key none) args := by
  have gone : ∀ k before, (Function.update data key none k = none ∨ k ∈ before) ↔
      (data k = none ∨ k ∈ key :: before) := by
    intro k before
    by_cases same : k = key
    · simp [same]
    · rw [Function.update_of_ne same, List.mem_cons, or_iff_right same]
  constructor
  · intro clears before key' after split raises k later there
    have member := clears (key :: before) key' after (by rw [split, List.cons_append])
      ((gone key' before).mp raises) k later
    by_contra absent
    exact ((gone k before).not.mp (not_or.mpr ⟨there, absent⟩)) (.inr (member fun none =>
      absurd ((gone k before).mpr (.inl none)) (not_or.mpr ⟨there, absent⟩)))
  · intro clears before key' after split raises k later there
    cases before with
    | nil =>
      rw [List.nil_append, List.cons.injEq] at split
      rcases raises with none | impossible
      · exact absurd (split.1 ▸ none) present
      · cases impossible
    | cons first before =>
      rw [List.cons_append, List.cons.injEq] at split
      obtain ⟨rfl, split⟩ := split
      by_contra absent
      have there' : ¬ (Function.update data key none k = none ∨ k ∈ before) :=
        (gone k before).not.mpr (not_or.mpr ⟨there, absent⟩)
      rw [not_or] at there'
      exact there'.2 (clears before key' after split ((gone key' before).mpr raises) k later there'.1)

theorem delKeys_iff (args : List String) (data : String → Option (PyValue F)) :
    (delKeys args data).1 = (fun k => if k ∈ args then none else data k) ↔ Clears data args := by
  induction args generalizing data with
  | nil =>
    have trivial : Clears data [] := fun before key after split => by simp at split
    simp [delKeys, trivial]
  | cons key args ih =>
    rw [delKeys]
    cases there : data key with
    | none =>
      rw [clears_of_missing there, funext_iff]
      constructor
      · intro same k member
        have value := same k
        rwa [if_pos member] at value
      · intro none k
        split_ifs with member
        · exact none k member
        · rfl
    | some value =>
      have present : data key ≠ none := by simp [there]
      rw [clears_of_present present, ← ih]
      have same : (fun k => if k ∈ key :: args then none else data k) =
          fun k => if k ∈ args then none else Function.update data key none k := by
        funext k
        by_cases first : k = key
        · simp [first]
        · simp [first]
      rw [same]

theorem contents_foldl_delete (args : List String) (T : Table py) :
    contents (args.foldl Table.delete T) = fun k => if k ∈ args then none else contents T k := by
  induction args generalizing T with
  | nil => simp
  | cons key args ih =>
    rw [List.foldl_cons, ih, contents_delete]
    funext k
    by_cases first : k = key
    · simp [first]
    · simp [first]

theorem clear_consistent_iff {s : Cached py} {args : List String} (consistent : s.Consistent orderBy) :
    (s.clear (some args)).1.Consistent orderBy ↔ s.ClearsAll (.clear (some args)) := by
  have same := consistent_iff.mp consistent
  rw [consistent_iff, clear]
  simp only [contents_foldl_delete, ← same]
  exact delKeys_iff args s.data

theorem step_consistent_iff {s : Cached py} {op : Op F} (consistent : s.Consistent orderBy) :
    (s.step op).1.Consistent orderBy ↔ s.ClearsAll op := by
  cases op with
  | setitem key value => exact iff_of_true (setitem_consistent consistent) trivial
  | delitem key => exact iff_of_true (delitem_consistent consistent) trivial
  | setdefault key default => exact iff_of_true (setdefault_consistent consistent) trivial
  | setdefaults default => exact iff_of_true (setdefaults_consistent consistent) trivial
  | update other => exact iff_of_true (update_consistent consistent) trivial
  | clear args =>
    cases args with
    | none => exact iff_of_true (consistent_iff.mpr rfl) trivial
    | some args => exact clear_consistent_iff consistent

theorem run_consistent (T : Table py) (s : Cached py) (loaded : load orderBy T = .ok s) (ops : List (Op F))
    (clears : RunClearsAll s ops) (n : ℕ) : (s.run (ops.take n)).Consistent orderBy := by
  have consistent : s.Consistent orderBy := by
    rw [load_eq, Except.ok.injEq] at loaded
    exact loaded ▸ consistent_iff.mpr rfl
  clear loaded
  induction ops generalizing s n with
  | nil =>
    rw [List.take_nil]
    exact consistent
  | cons op ops ih =>
    cases n with
    | zero => exact consistent
    | succ n => exact ih _ clears.2 n ((step_consistent_iff consistent).mpr clears.1)

def oneDigit : PyTypes Empty where
  intStr n := if n = 1 then some "1" else none
  pyInt s := if s = "1" then some 1 else none
  floatStr x := nomatch x
  pyFloat _ := none
  int_round n s printed := by
    split_ifs at printed with one
    cases printed
    rw [one]
    rfl
  float_round x := nomatch x

def oneRow : Table oneDigit where
  rows := [⟨"a", 0, "1"⟩]
  unique := List.nodup_singleton _
  valid r member := by
    rw [List.mem_singleton.mp member]
    exact ⟨.str "1", rfl⟩

def refusedThenCleared : List (Op Empty) :=
  [.setitem "b" .other, .setitem "b" (.value (.int 1)), .clear (some ["a", "x"])]

theorem run_consistent_refused :
    (run ⟨oneRow, contents oneRow⟩ (refusedThenCleared.take 3)).Consistent fun _ rows => rows := by
  refine run_consistent oneRow _ (load_eq oneRow) refusedThenCleared ⟨trivial, trivial, ?_, trivial⟩ 3
  intro before key after split raises k later _
  cases before with
  | nil =>
    rw [List.nil_append, List.cons.injEq] at split
    rcases raises with missing | impossible
    · rw [← split.1] at missing
      exact absurd missing (by decide)
    · cases impossible
  | cons first before =>
    have length := congrArg List.length split
    simp only [List.length_cons, List.length_nil, List.cons_append, List.length_append] at length
    rw [List.length_eq_zero_iff.mp (by omega : after.length = 0)] at later
    cases later

theorem clear_missing : ¬ ∀ n, (run ⟨oneRow, contents oneRow⟩ ([Op.clear (some ["x", "a"])].take n)).Consistent
    fun _ rows => rows := by
  intro consistent
  have cleared := (clear_consistent_iff (consistent_iff.mpr rfl)).mp (consistent 1)
  exact List.not_mem_nil (cleared [] "x" ["a"] rfl (.inl rfl) "a" List.mem_cons_self (by decide))

end Cached

end CadoNfs.Cadofactor
