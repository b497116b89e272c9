import CadoNfs.Cadofactor.CadoParamsRead
import CadoNfs.Lib.Expansion

/-!
# References are replaced

`readparams` of `cadofactor/cadoparams.py` comes to an end if no variable or reference is met inside of a value that
was put for the same name.
-/

namespace CadoNfs.Cadofactor.CadoParams
open Lib Lib.Expansion Relation

variable {opening closing : Char} {lookup : Text → Except Failure Text} {v v' w : Text} {fuel k : ℕ}

def referenceSyntax (opening closing : Char) : Syntax Char Text where
  search := search opening closing
  mark := '$'
  found text before name after reference := by
    obtain ⟨rest, rfl⟩ := search_eq_some reference
    exact ⟨opening :: (name ++ closing :: rest), by simp⟩

def valueOf? (lookup : Text → Except Failure Text) (name : Text) : Option Text := (lookup name).toOption

theorem valueOf?_eq_some {name : Text} : valueOf? lookup name = some v ↔ lookup name = .ok v := by
  rw [valueOf?]
  cases lookup name with
  | error e => exact iff_of_false nofun nofun
  | ok w => simp [Except.toOption]

theorem valueOf?_eq_none {name : Text} : valueOf? lookup name = none ↔ ∃ e, lookup name = .error e := by
  rw [valueOf?]
  cases lookup name with
  | error e => exact iff_of_true rfl ⟨e, rfl⟩
  | ok w => exact iff_of_false nofun nofun

/-- A name is met inside of its own value. -/
def CircularValue (opening closing : Char) (lookup : Text → Except Failure Text) (value : Text) : Prop :=
  Circular (referenceSyntax opening closing) (valueOf? lookup) value

def Step (opening closing : Char) (lookup : Text → Except Failure Text) (v v' : Text) : Prop :=
  ∃ before varname after r, search opening closing v = some (before, varname, after) ∧ lookup varname = .ok r ∧
    v' = before ++ r ++ after

theorem expand_step (step : Step opening closing lookup v v') :
    expand opening closing lookup (fuel + 1) v = expand opening closing lookup fuel v' := by
  obtain ⟨before, varname, after, r, found, known, rfl⟩ := step
  rw [expand, found]
  dsimp only
  rw [known]

theorem expand_steps (steps : ReflTransGen (Step opening closing lookup) v v') :
    ∃ n, ∀ fuel, expand opening closing lookup (fuel + n) v = expand opening closing lookup fuel v' := by
  induction steps using ReflTransGen.head_induction_on with
  | refl => exact ⟨0, fun _ => rfl⟩
  | head step _ ih =>
    obtain ⟨n, rest⟩ := ih
    exact ⟨n + 1, fun fuel => (expand_step step).trans (rest fuel)⟩

theorem step_of_turn {s s' : State Char Text} (turn : Turn (referenceSyntax opening closing) (valueOf? lookup) s s') :
    Step opening closing lookup s.1 s'.1 := by
  obtain ⟨before, name, after, r, found, known, rfl⟩ := turn
  exact ⟨before, name, after, r, found, valueOf?_eq_some.mp known, (List.append_assoc ..).symm⟩

theorem steps_of_turns {s s' : State Char Text}
    (run : ReflTransGen (Turn (referenceSyntax opening closing) (valueOf? lookup)) s s') :
    ReflTransGen (Step opening closing lookup) s.1 s'.1 := by
  induction run with
  | refl => exact .refl
  | tail _ turn ih => exact ih.tail (step_of_turn turn)

theorem expand_returns (names : Finset Text) (all : ∀ name r, lookup name = .ok r → name ∈ names)
    (notCircular : ¬CircularValue opening closing lookup v) : ∃ fuel r, expand opening closing lookup fuel v = some r := by
  obtain ⟨s, run, stops⟩ := stops_of_not_circular names (fun name r known => all name r (valueOf?_eq_some.mp known)) notCircular
  obtain ⟨n, same⟩ := expand_steps (steps_of_turns run)
  have last : ∃ r, expand opening closing lookup 1 s.1 = some r := by
    rw [expand]
    cases found : search opening closing s.1 with
    | none => exact ⟨_, rfl⟩
    | some reference =>
      obtain ⟨before, name, after⟩ := reference
      obtain ⟨e, unknown⟩ := valueOf?_eq_none.mp (stops before name after found)
      dsimp only
      rw [unknown]
      exact ⟨_, rfl⟩
  obtain ⟨r, last⟩ := last
  exact ⟨1 + n, r, (same 1).trans last⟩

theorem expand_add {r : Except Failure Text} (result : expand opening closing lookup fuel v = some r) (k : ℕ) :
    expand opening closing lookup (fuel + k) v = some r := by
  induction fuel generalizing v with
  | zero => cases result
  | succ fuel ih =>
    rw [Nat.add_right_comm, expand]
    rw [expand] at result
    cases found : search opening closing v with
    | none =>
      rw [found] at result
      exact result
    | some reference =>
      obtain ⟨before, name, after⟩ := reference
      rw [found] at result
      dsimp only at result ⊢
      cases known : lookup name with
      | error e =>
        rw [known] at result
        exact result
      | ok r =>
        rw [known] at result
        exact ih result

theorem expand_ok (result : expand opening closing lookup fuel v = some (.ok w)) :
    ReflTransGen (Step opening closing lookup) v w ∧ search opening closing w = none := by
  induction fuel generalizing v with
  | zero => cases result
  | succ fuel ih =>
    rw [expand] at result
    cases found : search opening closing v with
    | none =>
      rw [found] at result
      cases result
      exact ⟨.refl, found⟩
    | some reference =>
      obtain ⟨before, name, after⟩ := reference
      rw [found] at result
      dsimp only at result
      cases known : lookup name with
      | error e =>
        rw [known] at result
        cases result
      | ok r =>
        rw [known] at result
        obtain ⟨steps, none⟩ := ih result
        exact ⟨steps.head ⟨before, name, after, r, found, known, rfl⟩, none⟩

theorem expand_error {e : Failure} (result : expand opening closing lookup fuel v = some (.error e)) :
    ∃ name, lookup name = .error e := by
  induction fuel generalizing v with
  | zero => cases result
  | succ fuel ih =>
    rw [expand] at result
    cases found : search opening closing v with
    | none =>
      rw [found] at result
      cases result
    | some reference =>
      obtain ⟨before, name, after⟩ := reference
      rw [found] at result
      dsimp only at result
      cases known : lookup name with
      | error e' =>
        rw [known] at result
        cases result
        exact ⟨name, known⟩
      | ok r =>
        rw [known] at result
        exact ih result

theorem steps_eq (none : search opening closing v = none) (steps : ReflTransGen (Step opening closing lookup) v w) : w = v := by
  rcases steps.cases_head with eq | ⟨v', ⟨before, name, after, r, found, -⟩, -⟩
  · exact eq.symm
  · rw [none] at found
    cases found

/-! ## The names that have values -/

variable {environ : List (Text × Text)} {data d t : Dict} {path p q : List Text} {key name value : Text}
  {rest : List (List Text × Text)} {line : Text} {lines : List Text}

theorem mem_of_lookup_some {l : List (Text × Text)} (found : l.lookup name = some v) : name ∈ l.map Prod.fst :=
  List.mem_map.mpr ⟨(name, v), mem_of_lookup found, rfl⟩

theorem lookupVariable_mem (known : lookupVariable environ key name = .ok v) : name ∈ (environ.map Prod.fst).toFinset := by
  rw [lookupVariable] at known
  cases found : environ.lookup name with
  | none =>
    rw [found] at known
    cases known
  | some w => exact List.mem_toFinset.mpr (mem_of_lookup_some found)

theorem mem_places (value : data.valueAt q key = some v) (path : List Text) : (path ++ q, key) ∈ places data path := by
  induction data generalizing q path with
  | nil =>
    rw [valueAt_empty] at value
    cases value
  | value k w rest ih =>
    rw [places, List.mem_cons]
    cases q with
    | nil =>
      rw [NameTree.valueAt_nil, NameTree.value?, NameTree.get?] at value
      split_ifs at value with same
      · exact .inl (by rw [List.append_nil, same])
      · exact .inr (ih (q := []) value path)
    | cons node q =>
      refine .inr (ih (q := node :: q) ?_ path)
      rw [NameTree.valueAt_cons, NameTree.sub?, NameTree.get?] at value
      rw [NameTree.valueAt_cons, NameTree.sub?]
      split_ifs at value
      · cases value
      · exact value
  | sub k dic rest ihDic ih =>
    rw [places, List.mem_append]
    cases q with
    | nil =>
      rw [NameTree.valueAt_nil, NameTree.value?, NameTree.get?] at value
      split_ifs at value
      · cases value
      · exact .inr (ih (q := []) value path)
    | cons node q =>
      rw [NameTree.valueAt_cons, NameTree.sub?, NameTree.get?] at value
      split_ifs at value with same
      · have inside := ihDic (q := q) value (path ++ [k])
        rw [List.append_assoc, List.singleton_append, same] at inside
        exact .inl (same ▸ inside)
      · refine .inr (ih (q := node :: q) ?_ path)
        rw [NameTree.valueAt_cons, NameTree.sub?]
        exact value

def referenceNames (data : Dict) : Finset Text :=
  ((places data []).map Prod.snd ++ predefinedN.map Prod.fst).toFinset

theorem lookupReference_mem (known : lookupReference data path key name = .ok v) : name ∈ referenceNames data := by
  rw [referenceNames, List.mem_toFinset, List.mem_append]
  rw [lookupReference] at known
  split_ifs at known
  cases found : ((predefined.lookup key).bind (·.lookup name)).or (((myparams data [name] path).lookup name).map Prod.fst) with
  | none =>
    rw [found] at known
    cases known
  | some w =>
    rcases Option.or_eq_some_iff.mp found with given | ⟨-, own⟩
    · obtain ⟨table, there, given⟩ := Option.bind_eq_some_iff.mp given
      have only : table = predefinedN := by
        rw [predefined, List.lookup_cons] at there
        split at there
        · exact (Option.some.inj there).symm
        · cases there
      exact .inr (mem_of_lookup_some (only ▸ given))
    · rw [myparams_lookup, Option.map_map, Option.map_eq_some_iff] at own
      obtain ⟨⟨node, w'⟩, inherited, -⟩ := own
      have value := (NameTree.inherited_eq_some.mp inherited).2.1
      exact .inl (List.mem_map.mpr ⟨_, mem_places value [], rfl⟩)

def NoCircles : Dict → List (List Text × Text) → Prop
  | _, [] => True
  | data, (path, key) :: rest =>
    match data.valueAt path key with
    | none => NoCircles data rest
    | some value =>
      ¬CircularValue '(' ')' (lookupReference data path key) value ∧
        ∀ fuel value', substReference data fuel path key value = some (.ok value') →
          NoCircles (data.setAt path key value') rest

theorem substReferences_add {r : Except Failure Dict} (result : substReferences fuel data rest = some r) (k : ℕ) :
    substReferences (fuel + k) data rest = some r := by
  induction rest generalizing data with
  | nil => exact result
  | cons place rest ih =>
    obtain ⟨path, key⟩ := place
    rw [substReferences] at result ⊢
    cases value : data.valueAt path key with
    | none =>
      rw [value] at result
      exact ih result
    | some v =>
      rw [value] at result
      dsimp only at result ⊢
      cases turn : substReference data fuel path key v with
      | none =>
        rw [turn] at result
        cases result
      | some r' =>
        have again : substReference data (fuel + k) path key v = some r' := expand_add turn k
        rw [turn] at result
        rw [again]
        cases r' with
        | error e => exact result
        | ok v' => exact ih result

theorem substReferences_returns (noCircles : NoCircles data rest) : ∃ fuel r, substReferences fuel data rest = some r := by
  induction rest generalizing data with
  | nil => exact ⟨0, _, rfl⟩
  | cons place rest ih =>
    obtain ⟨path, key⟩ := place
    rw [NoCircles] at noCircles
    cases value : data.valueAt path key with
    | none =>
      rw [value] at noCircles
      obtain ⟨fuel, r, result⟩ := ih noCircles
      refine ⟨fuel, r, ?_⟩
      rw [substReferences, value]
      exact result
    | some v =>
      rw [value] at noCircles
      obtain ⟨notCircular, later⟩ := noCircles
      obtain ⟨fuel, r, turn⟩ := expand_returns (referenceNames data) (fun _ _ known => lookupReference_mem known) notCircular
      cases r with
      | error e =>
        refine ⟨fuel, .error e, ?_⟩
        rw [substReferences, value]
        dsimp only
        rw [substReference, turn]
      | ok v' =>
        obtain ⟨fuel', r, result⟩ := ih (later fuel v' turn)
        refine ⟨fuel + fuel', r, ?_⟩
        have result := substReferences_add result fuel
        rw [Nat.add_comm] at result
        rw [substReferences, value]
        dsimp only
        rw [substReference, expand_add turn fuel']
        exact result

theorem lookupReference_error {e : Failure} (raised : lookupReference data path key name = .error e) : e.isKeyError = true := by
  rw [lookupReference] at raised
  split_ifs at raised
  · cases raised
    rfl
  · split at raised
    · cases raised
      rfl
    · cases raised

theorem substReferences_error {e : Failure} (raised : substReferences fuel data rest = some (.error e)) :
    e.isKeyError = true := by
  induction rest generalizing data with
  | nil => cases raised
  | cons place rest ih =>
    obtain ⟨path, key⟩ := place
    rw [substReferences] at raised
    cases value : data.valueAt path key with
    | none =>
      rw [value] at raised
      exact ih raised
    | some v =>
      rw [value] at raised
      dsimp only at raised
      cases turn : substReference data fuel path key v with
      | none =>
        rw [turn] at raised
        cases raised
      | some r =>
        rw [turn] at raised
        cases r with
        | error e' =>
          cases raised
          obtain ⟨name, unknown⟩ := expand_error turn
          exact lookupReference_error unknown
        | ok v' => exact ih raised

def Mixed (data t d : Dict) : Prop := ∀ q k, t.valueAt q k = data.valueAt q k ∨ t.valueAt q k = d.valueAt q k

/-- The references of a value were replaced, one after the other, by what is found for the name along the path of the
key, as it was before or after its own references were replaced. -/
def Replaced (data d : Dict) (q : List Text) (k v w : Text) : Prop :=
  ∃ t, Mixed data t d ∧ ReflTransGen (Step '(' ')' (lookupReference t q k)) v w

def Follows (data d : Dict) : Prop := ∀ q k, (data.valueAt q k = none → d.valueAt q k = none) ∧
  ∀ v, data.valueAt q k = some v → ∃ w, d.valueAt q k = some w ∧ Replaced data d q k v w

theorem valueAt_setAt_value {k : Text} (value : data.valueAt path key = some v) :
    (data.setAt path key v').valueAt q k = if q = path ∧ k = key then some v' else data.valueAt q k := by
  rw [← NameTree.shapeAt_join, shapeAt_setAt_value value]
  split_ifs
  · rfl
  · exact NameTree.shapeAt_join data q k

theorem substReferences_follows (result : substReferences fuel data rest = some (.ok d)) :
    Follows data d ∧ ∀ place ∈ rest, ∀ w, d.valueAt place.1 place.2 = some w → search '(' ')' w = none := by
  induction rest generalizing data with
  | nil =>
    cases result
    exact ⟨fun q k => ⟨id, fun v value => ⟨v, value, d, fun _ _ => .inl rfl, .refl⟩⟩, nofun⟩
  | cons place rest ih =>
    obtain ⟨path, key⟩ := place
    rw [substReferences] at result
    cases value : data.valueAt path key with
    | none =>
      rw [value] at result
      obtain ⟨follows, closed⟩ := ih result
      refine ⟨follows, fun place among w here => ?_⟩
      rcases List.mem_cons.mp among with rfl | later
      · rw [(follows path key).1 value] at here
        cases here
      · exact closed place later w here
    | some v =>
      rw [value] at result
      dsimp only at result
      cases turn : substReference data fuel path key v with
      | none =>
        rw [turn] at result
        cases result
      | some r =>
        rw [turn] at result
        cases r with
        | error e => cases result
        | ok v' =>
          obtain ⟨steps, none⟩ := expand_ok turn
          obtain ⟨follows, closed⟩ := ih result
          have after (q : List Text) (k : Text) : (data.setAt path key v').valueAt q k = _ := valueAt_setAt_value value
          have last : d.valueAt path key = some v' := by
            obtain ⟨w, here, t, -, rest⟩ := (follows path key).2 v' (by rw [after, if_pos ⟨rfl, rfl⟩])
            rw [here, steps_eq none rest]
          have mixed {t : Dict} (mix : Mixed (data.setAt path key v') t d) : Mixed data t d := by
            intro q k
            rcases mix q k with before | now
            · rw [after] at before
              split_ifs at before with here
              · rw [here.1, here.2, last]
                rw [here.1, here.2] at before
                exact .inr before
              · exact .inl before
            · exact .inr now
          refine ⟨fun q k => ?_, fun place among w here => ?_⟩
          · by_cases here : q = path ∧ k = key
            · obtain ⟨rfl, rfl⟩ := here
              refine ⟨fun absent => absurd (absent.symm.trans value) (Option.some_ne_none v).symm, fun v₀ there => ?_⟩
              obtain rfl : v = v₀ := Option.some.inj (value.symm.trans there)
              exact ⟨v', last, data, fun _ _ => .inl rfl, steps⟩
            · have same := after q k
              rw [if_neg here] at same
              refine ⟨fun absent => (follows q k).1 (same.trans absent), fun v₀ there => ?_⟩
              obtain ⟨w, now, t, mix, rest⟩ := (follows q k).2 v₀ (same.trans there)
              exact ⟨w, now, t, mixed mix, rest⟩
          · rcases List.mem_cons.mp among with rfl | later
            · rw [last] at here
              cases here
              exact none
            · exact closed place later w here

theorem resolved_substReferences (result : substReferences fuel data (places data []) = some (.ok d)) : Resolved d := by
  obtain ⟨follows, closed⟩ := substReferences_follows result
  intro q k w here
  have there : data.valueAt q k ≠ none := fun absent => by
    rw [(follows q k).1 absent] at here
    cases here
  obtain ⟨v, value⟩ := Option.ne_none_iff_exists'.mp there
  exact closed (q, k) (mem_places value []) w here

theorem resolved_readparams (result : readparams environ fuel data lines = some (.ok d)) : Resolved d := by
  rw [readparams] at result
  split at result
  · cases result
  · cases result
  · exact resolved_substReferences result

def FromLine (environ : List (Text × Text)) (lines : List Text) (q : List Text) (k v : Text) : Prop :=
  ∃ line ∈ lines, ∃ key value, parseline (stripOf (· = '\n') line) = .ok (some (key, value)) ∧ pathOf key = q ∧
    baseOf key = k ∧ ReflTransGen (Step '{' '}' (lookupVariable environ key)) value v ∧ search '{' '}' v = none

theorem FromLine.cons {k : Text} (from' : FromLine environ lines q k v) : FromLine environ (line :: lines) q k v := by
  obtain ⟨line', among, rest⟩ := from'
  exact ⟨line', List.mem_cons_of_mem _ among, rest⟩

theorem parseline_error {e : Failure} (raised : parseline line = .error e) : e = .invalidLine line := by
  rw [parseline] at raised
  split_ifs at raised
  cases raised
  rfl

theorem insertAt_error {e : Failure} (raised : insertAt data path key v = .error e) : e.isKeyError = true := by
  induction path generalizing data with
  | nil =>
    rw [insertAt] at raised
    split at raised
    · cases raised
      rfl
    · cases raised
  | cons segment path ih =>
    rw [insertAt_cons] at raised
    split_ifs at raised
    · cases raised
      rfl
    · cases below : insertAt ((data.sub? segment).getD .nil) path key v with
      | error e' =>
        rw [below] at raised
        cases raised
        exact ih below
      | ok dic =>
        rw [below] at raised
        cases raised

theorem lookupVariable_error {e : Failure} (raised : lookupVariable environ key name = .error e) : e.isKeyError = true := by
  rw [lookupVariable] at raised
  split at raised
  · cases raised
    rfl
  · cases raised

def NoVariableCircles (environ : List (Text × Text)) (lines : List Text) : Prop :=
  ∀ line ∈ lines, ∀ key value, parseline (stripOf (· = '\n') line) = .ok (some (key, value)) →
    ¬CircularValue '{' '}' (lookupVariable environ key) value

theorem insertLines_add {r : Except Failure Dict} (result : insertLines environ fuel data lines = some r) (k : ℕ) :
    insertLines environ (fuel + k) data lines = some r := by
  induction lines generalizing data with
  | nil => exact result
  | cons line lines ih =>
    rw [insertLines] at result ⊢
    cases parsed : parseline (stripOf (· = '\n') line) with
    | error e =>
      rw [parsed] at result
      exact result
    | ok entry =>
      rw [parsed] at result
      cases entry with
      | none => exact ih result
      | some entry =>
        obtain ⟨key, value⟩ := entry
        dsimp only at result ⊢
        cases turn : substEnvVar environ fuel key value with
        | none =>
          rw [turn] at result
          cases result
        | some r' =>
          have again : substEnvVar environ (fuel + k) key value = some r' := expand_add turn k
          rw [turn] at result
          rw [again]
          cases r' with
          | error e => exact result
          | ok v =>
            dsimp only at result ⊢
            cases inserted : insertkey data key v with
            | error e =>
              rw [inserted] at result
              exact result
            | ok d =>
              rw [inserted] at result
              exact ih result

theorem insertLines_returns (noCircles : NoVariableCircles environ lines) :
    ∃ fuel r, insertLines environ fuel data lines = some r := by
  induction lines generalizing data with
  | nil => exact ⟨0, _, rfl⟩
  | cons line lines ih =>
    have later : NoVariableCircles environ lines := fun line among => noCircles line (.tail _ among)
    cases parsed : parseline (stripOf (· = '\n') line) with
    | error e =>
      refine ⟨0, .error e, ?_⟩
      rw [insertLines, parsed]
    | ok entry =>
      cases entry with
      | none =>
        obtain ⟨fuel, r, result⟩ : ∃ fuel r, insertLines environ fuel data lines = some r := ih later
        refine ⟨fuel, r, ?_⟩
        rw [insertLines, parsed]
        exact result
      | some entry =>
        obtain ⟨key, value⟩ := entry
        obtain ⟨fuel, r, turn⟩ := expand_returns (environ.map Prod.fst).toFinset (fun _ _ known => lookupVariable_mem known)
          (noCircles line (.head _) key value parsed)
        cases r with
        | error e =>
          refine ⟨fuel, .error e, ?_⟩
          rw [insertLines, parsed]
          dsimp only
          rw [substEnvVar, turn]
        | ok v =>
          cases inserted : insertkey data key v with
          | error e =>
            refine ⟨fuel, .error e, ?_⟩
            rw [insertLines, parsed]
            dsimp only
            rw [substEnvVar, turn]
            dsimp only
            rw [inserted]
          | ok d =>
            obtain ⟨fuel', r, result⟩ : ∃ fuel r, insertLines environ fuel d lines = some r := ih later
            refine ⟨fuel + fuel', r, ?_⟩
            have result := insertLines_add result fuel
            rw [Nat.add_comm] at result
            rw [insertLines, parsed]
            dsimp only
            rw [substEnvVar, expand_add turn fuel']
            dsimp only
            rw [inserted]
            exact result

theorem insertLines_cases {r : Except Failure Dict} (result : insertLines environ fuel data (line :: lines) = some r) :
    (∃ e, r = .error e ∧ (e.isKeyError = true ∨ e = .invalidLine (stripOf (· = '\n') line))) ∨
    (parseline (stripOf (· = '\n') line) = .ok none ∧ insertLines environ fuel data lines = some r) ∨
    ∃ key value v d, parseline (stripOf (· = '\n') line) = .ok (some (key, value)) ∧
      substEnvVar environ fuel key value = some (.ok v) ∧ insertkey data key v = .ok d ∧
      insertLines environ fuel d lines = some r := by
  rw [insertLines] at result
  cases parsed : parseline (stripOf (· = '\n') line) with
  | error e =>
    rw [parsed] at result
    exact .inl ⟨e, (Option.some.inj result).symm, .inr (parseline_error parsed)⟩
  | ok entry =>
    rw [parsed] at result
    cases entry with
    | none => exact .inr (.inl ⟨rfl, result⟩)
    | some entry =>
      obtain ⟨key, value⟩ := entry
      dsimp only at result
      cases turn : substEnvVar environ fuel key value with
      | none =>
        rw [turn] at result
        cases result
      | some r' =>
        rw [turn] at result
        cases r' with
        | error e =>
          obtain ⟨name, unknown⟩ := expand_error turn
          exact .inl ⟨e, (Option.some.inj result).symm, .inl (lookupVariable_error unknown)⟩
        | ok v =>
          dsimp only at result
          cases inserted : insertkey data key v with
          | error e =>
            rw [inserted] at result
            exact .inl ⟨e, (Option.some.inj result).symm, .inl (insertAt_error inserted)⟩
          | ok d =>
            rw [inserted] at result
            exact .inr (.inr ⟨key, value, v, d, rfl, turn, inserted, result⟩)

theorem insertLines_error {e : Failure} (raised : insertLines environ fuel data lines = some (.error e)) :
    e.isKeyError = true ∨ ∃ line ∈ lines, e = .invalidLine (stripOf (· = '\n') line) := by
  induction lines generalizing data with
  | nil => cases raised
  | cons line lines ih =>
    have later {data : Dict} (raised : insertLines environ fuel data lines = some (.error e)) :
        e.isKeyError = true ∨ ∃ line' ∈ line :: lines, e = .invalidLine (stripOf (· = '\n') line') := by
      rcases ih raised with keyError | ⟨line', among, invalid⟩
      · exact .inl keyError
      · exact .inr ⟨line', List.mem_cons_of_mem _ among, invalid⟩
    rcases insertLines_cases raised with ⟨e', same, here⟩ | ⟨-, rest⟩ | ⟨_, _, _, _, -, -, -, rest⟩
    · cases same
      exact here.imp_right fun invalid => ⟨line, List.mem_cons_self, invalid⟩
    · exact later rest
    · exact later rest

theorem insertLines_ok (result : insertLines environ fuel data lines = some (.ok d)) (q : List Text) (k : Text) :
    d.valueAt q k = data.valueAt q k ∨ ∃ v, d.valueAt q k = some v ∧ FromLine environ lines q k v := by
  induction lines generalizing data with
  | nil =>
    cases result
    exact .inl rfl
  | cons line lines ih =>
    have later {data : Dict} (result : insertLines environ fuel data lines = some (.ok d)) :
        d.valueAt q k = data.valueAt q k ∨ ∃ v, d.valueAt q k = some v ∧ FromLine environ (line :: lines) q k v := by
      rcases ih result with same | ⟨v, value, from'⟩
      · exact .inl same
      · exact .inr ⟨v, value, from'.cons⟩
    rcases insertLines_cases result with ⟨e, other, -⟩ | ⟨-, rest⟩ | ⟨key, value, v, d', parsed, turn, inserted, rest⟩
    · cases other
    · exact later rest
    · rcases later rest with same | from'
      · rw [valueAt_insertAt inserted] at same
        split_ifs at same with here
        · obtain ⟨steps, none⟩ := expand_ok turn
          exact .inr ⟨v, same, line, List.mem_cons_self, key, value, parsed, here.1.symm, here.2.symm, steps, none⟩
        · exact .inl same
      · exact .inr from'

structure WithoutCircles (environ : List (Text × Text)) (data : Dict) (lines : List Text) : Prop where
  ofLines : NoVariableCircles environ lines
  ofTree : ∀ fuel d, insertLines environ fuel data lines = some (.ok d) → NoCircles d (places d [])

theorem readparams_add {r : Except Failure Dict} (result : readparams environ fuel data lines = some r) (k : ℕ) :
    readparams environ (fuel + k) data lines = some r := by
  rw [readparams] at result ⊢
  cases inserted : insertLines environ fuel data lines with
  | none =>
    rw [inserted] at result
    cases result
  | some r' =>
    rw [inserted] at result
    rw [insertLines_add inserted k]
    cases r' with
    | error e => exact result
    | ok d => exact substReferences_add result k

theorem readparams_terminates (acyclic : WithoutCircles environ data lines) :
    ∃ fuel r, readparams environ fuel data lines = some r := by
  obtain ⟨fuel, r, inserted⟩ : ∃ fuel r, insertLines environ fuel data lines = some r :=
    insertLines_returns acyclic.ofLines
  cases r with
  | error e =>
    refine ⟨fuel, .error e, ?_⟩
    rw [readparams, inserted]
  | ok d =>
    obtain ⟨fuel', r, result⟩ := substReferences_returns (acyclic.ofTree fuel d inserted)
    refine ⟨fuel + fuel', r, ?_⟩
    have result := substReferences_add result fuel
    rw [Nat.add_comm] at result
    rw [readparams, insertLines_add inserted fuel']
    exact result

theorem readparams_error {e : Failure} (raised : readparams environ fuel data lines = some (.error e)) :
    e.isKeyError = true ∨ ∃ line ∈ lines, e = .invalidLine (stripOf (· = '\n') line) := by
  rw [readparams] at raised
  split at raised
  · cases raised
  · rename_i e' inserted
    cases raised
    exact insertLines_error inserted
  · exact .inl (substReferences_error raised)

theorem readparams_ok (result : readparams environ fuel data lines = some (.ok d)) :
    ∃ d', insertLines environ fuel data lines = some (.ok d') ∧ substReferences fuel d' (places d' []) = some (.ok d) := by
  rw [readparams] at result
  split at result
  · cases result
  · cases result
  · rename_i d' inserted
    exact ⟨d', inserted, result⟩

theorem substReferences_append {r : Except Failure Dict} {before after : List (List Text × Text)}
    (first : substReferences fuel data before = some (.ok t)) (second : substReferences fuel t after = some r) :
    substReferences fuel data (before ++ after) = some r := by
  induction before generalizing data with
  | nil =>
    cases first
    exact second
  | cons place before ih =>
    obtain ⟨path, key⟩ := place
    rw [List.cons_append]
    rw [substReferences] at first ⊢
    cases value : data.valueAt path key with
    | none =>
      rw [value] at first
      exact ih first
    | some v =>
      rw [value] at first
      dsimp only at first ⊢
      cases turn : substReference data fuel path key v with
      | none =>
        rw [turn] at first
        cases first
      | some r' =>
        rw [turn] at first
        cases r' with
        | error e => cases first
        | ok v' => exact ih first

def RefersToItself (environ : List (Text × Text)) (data : Dict) (lines : List Text) : Prop :=
  ∃ fuel d t before path key after v w, insertLines environ fuel data lines = some (.ok d) ∧
    places d [] = before ++ (path, key) :: after ∧ substReferences fuel d before = some (.ok t) ∧
    t.valueAt path key = some v ∧ ReflTransGen (Step '(' ')' (lookupReference t path key)) v w ∧
    ∃ left right, search '(' ')' w = some (left, key, right)

theorem expand_selfReference {left right : Text}
    (steps : ReflTransGen (Step '(' ')' (lookupReference t path key)) v w) (own : search '(' ')' w = some (left, key, right)) :
    ∃ n, substReference t (1 + n) path key v = some (.error .selfReference) := by
  obtain ⟨n, same⟩ := expand_steps steps
  refine ⟨n, (same 1).trans ?_⟩
  rw [expand, own]
  dsimp only
  rw [lookupReference, if_pos rfl]

theorem readparams_selfReference (itself : RefersToItself environ data lines) :
    ∃ fuel, readparams environ fuel data lines = some (.error .selfReference) := by
  obtain ⟨fuel, d, t, before, path, key, after, v, w, inserted, split, first, value, steps, left, right, own⟩ := itself
  obtain ⟨n, raised⟩ := expand_selfReference steps own
  have raised : substReference t (1 + n + fuel) path key v = some (.error .selfReference) := expand_add raised fuel
  refine ⟨fuel + (1 + n), ?_⟩
  rw [readparams, insertLines_add inserted (1 + n)]
  dsimp only
  rw [split]
  refine substReferences_append (substReferences_add first (1 + n)) ?_
  rw [substReferences, value]
  dsimp only
  rw [Nat.add_comm fuel, raised]

/-- Without circles `readparams` ends, with an exception or with a tree without references, where each is replaced
by what is found along the path. -/
theorem readparams_returns (environ : List (Text × Text)) (data : Dict) (lines : List Text)
    (acyclic : WithoutCircles environ data lines) :
    (∃ fuel r, readparams environ fuel data lines = some r ∧ ∀ fuel' r', readparams environ fuel' data lines = some r' → r' = r) ∧
    (∀ fuel e, readparams environ fuel data lines = some (.error e) →
      e.isKeyError = true ∨ ∃ line ∈ lines, e = .invalidLine (stripOf (· = '\n') line)) ∧
    (∀ fuel d, readparams environ fuel data lines = some (.ok d) →
      (∃ d', insertLines environ fuel data lines = some (.ok d') ∧ Follows d' d ∧
        ∀ q k, d'.valueAt q k = data.valueAt q k ∨ ∃ v, d'.valueAt q k = some v ∧ FromLine environ lines q k v) ∧
      ∀ q k v, d.valueAt q k = some v → search '(' ')' v = none ∧ ('\n' ∉ v → ¬HasReference '(' ')' v)) ∧
    (RefersToItself environ data lines → ∃ fuel, readparams environ fuel data lines = some (.error .selfReference)) := by
  refine ⟨?_, fun fuel e => readparams_error, fun fuel d result => ⟨?_, fun q k v value => ?_⟩, readparams_selfReference⟩
  · obtain ⟨fuel, r, result⟩ := readparams_terminates acyclic
    refine ⟨fuel, r, result, fun fuel' r' result' => ?_⟩
    have more := readparams_add result fuel'
    have more' := readparams_add result' fuel
    rw [Nat.add_comm, more] at more'
    exact (Option.some.inj more').symm
  · obtain ⟨d', inserted, replaced⟩ := readparams_ok result
    exact ⟨d', inserted, (substReferences_follows replaced).1, insertLines_ok inserted⟩
  · have none := resolved_readparams result q k v value
    exact ⟨none, fun noNewline => noReference_of_search noNewline none⟩

theorem notCircular_of_none (none : search opening closing v = none) : ¬CircularValue opening closing lookup v := by
  rintro ⟨s, run, before, name, after, value, found, -⟩
  have same := steps_eq none (steps_of_turns run)
  rw [same] at found
  exact nomatch none.symm.trans found

theorem notCircular_of_step {before after : Text} (found : search opening closing v = some (before, name, after))
    (known : lookup name = .ok w) (none : search opening closing (before ++ w ++ after) = none) :
    ¬CircularValue opening closing lookup v := by
  rintro ⟨s, run, circle⟩
  rcases run.cases_head with rfl | ⟨s', turn, rest⟩
  · obtain ⟨_, _, _, _, -, -, inside⟩ := circle
    cases inside
  · obtain ⟨before', name', after', r, found', known', rfl⟩ := turn
    obtain ⟨rfl, rfl, rfl⟩ : before = before' ∧ name = name' ∧ after = after' := by
      simpa using found.symm.trans found'
    obtain rfl : w = r := Except.ok.inj (known.symm.trans (valueOf?_eq_some.mp known'))
    have same := steps_eq (List.append_assoc .. ▸ none) (steps_of_turns rest)
    obtain ⟨_, _, _, _, again, -⟩ := circle
    rw [same] at again
    rw [List.append_assoc] at none
    exact nomatch none.symm.trans again

def referenceLines : List Text := [['a', '=', '1'], ['b', '=', '$', '(', 'a', ')']]

def referenceTree : Dict := .value ['a'] ['1'] (.value ['b'] ['$', '(', 'a', ')'] .nil)

theorem insertLines_reference : insertLines [] (fuel + 1) .nil referenceLines = some (.ok referenceTree) := by
  rfl

theorem readparams_returns_reference :
    ∃ fuel r, readparams [] fuel .nil referenceLines = some r ∧
      ∀ fuel' r', readparams [] fuel' .nil referenceLines = some r' → r' = r := by
  refine (readparams_returns [] .nil referenceLines ⟨?_, ?_⟩).1
  · intro line among key value parsed
    refine notCircular_of_none ?_
    fin_cases among
    all_goals
      cases parsed
      rfl
  · intro fuel d inserted
    cases fuel with
    | zero => cases inserted
    | succ fuel =>
      rw [insertLines_reference] at inserted
      cases inserted
      have known : lookupReference referenceTree [] ['b'] ['a'] = .ok ['1'] := rfl
      refine ⟨notCircular_of_none rfl, fun fuel v' turn => ?_⟩
      cases expand_ok_of_none rfl turn
      exact ⟨notCircular_of_step rfl known rfl, fun _ _ _ => trivial⟩

def circleLines : List Text :=
  [['a', '=', '$', '(', 'b', ')'], ['b', '=', '$', '(', 'c', ')'], ['c', '=', '$', '(', 'b', ')']]

def circleTree : Dict :=
  .value ['a'] ['$', '(', 'b', ')'] (.value ['b'] ['$', '(', 'c', ')'] (.value ['c'] ['$', '(', 'b', ')'] .nil))

theorem expand_circle (fuel : ℕ) :
    substReference circleTree fuel [] ['a'] ['$', '(', 'b', ')'] = none ∧
    substReference circleTree fuel [] ['a'] ['$', '(', 'c', ')'] = none := by
  induction fuel with
  | zero => exact ⟨rfl, rfl⟩
  | succ fuel ih => exact ⟨ih.2, ih.1⟩

/-- A line without `=` raises an exception that is not a `KeyError`, and on a circle that the key is not on the replacing
goes on for ever. -/
theorem readparams_circle :
    (∃ e, readparams [] 1 .nil [['x']] = some (.error e) ∧ e.isKeyError = false) ∧
    ∀ fuel, readparams [] fuel .nil circleLines = none := by
  refine ⟨⟨.invalidLine ['x'], rfl, rfl⟩, fun fuel => ?_⟩
  cases fuel with
  | zero => rfl
  | succ fuel =>
    have inserted : insertLines [] (fuel + 1) .nil circleLines = some (.ok circleTree) := rfl
    have first : places circleTree [] = ([], ['a']) :: [([], ['b']), ([], ['c'])] := rfl
    have value : circleTree.valueAt [] ['a'] = some ['$', '(', 'b', ')'] := rfl
    rw [readparams, inserted]
    dsimp only
    rw [first, substReferences, value]
    dsimp only
    rw [(expand_circle (fuel + 1)).1]

end CadoNfs.Cadofactor.CadoParams
