import CadoNfs.Cadofactor.CadoParams
import CadoNfs.Lib.ExceptRun

/-!
# Reading parameters

`parseline`, `subst_env_var`, `_insertkey`, `_subst_references` and `readparams` of `cadofactor/cadoparams.py`. The loops
that replace variables and references need not end: the functions take the number of turns that are allowed.
-/

namespace CadoNfs.Cadofactor.CadoParams
open Lib

inductive Failure where
  | invalidLine (line : Text)
  | undefinedVariable (varname fqn : Text)
  | selfReference
  | undefinedReference (varname fqn : Text)
  | subdirectoryIsKey (segment : Text)
  | keyIsSubdictionary (key : Text)
  deriving DecidableEq

namespace Failure

def isKeyError : Failure → Bool
  | invalidLine _ => false
  | _ => true

end Failure

def isSpace (c : Char) : Bool :=
  let n := c.toNat
  9 ≤ n && n ≤ 13 || 28 ≤ n && n ≤ 32 || n = 0x85 || n = 0xa0 || n = 0x1680 || 0x2000 ≤ n && n ≤ 0x200a || n = 0x2028 ||
    n = 0x2029 || n = 0x202f || n = 0x205f || n = 0x3000

def stripOf (remove : Char → Bool) (text : Text) : Text := (text.dropWhile remove).rdropWhile remove

def strip (text : Text) : Text := stripOf isSpace text

def parseline (line : Text) : Except Failure (Option (Text × Text)) :=
  let line2 := line.takeWhile (· ≠ '#')
  let line2 := strip line2
  if line2 = [] then .ok none
  else if '=' ∉ line2 then .error (.invalidLine line)
  else .ok (some (strip (line2.takeWhile (· ≠ '=')), strip (line2.dropWhile (· ≠ '=')).tail))

/-! ## Variables and references -/

def splitLast (closing : Char) : Text → Option (Text × Text)
  | [] => none
  | c :: text =>
    match splitLast closing text with
    | some (varname, after) => some (c :: varname, after)
    | none => if c = closing then some ([], text) else none

def referenceHere (opening closing : Char) : Text → Option (Text × Text)
  | '$' :: c :: text => if c = opening then splitLast closing text else none
  | _ => none

def referenceIn (opening closing : Char) : Text → Option (Text × Text × Text)
  | [] => none
  | c :: text =>
    match referenceIn opening closing text with
    | some (before, reference) => some (c :: before, reference)
    | none => (referenceHere opening closing (c :: text)).map ([], ·)

/-- `re.search` of `^(.*)\$\((.*)\)(.*)$`, with the parentheses given: the groups take as much as they can, from the
left, the dot no end of line, and `$` is also before a last end of line. -/
def search (opening closing : Char) (value : Text) : Option (Text × Text × Text) :=
  let body := if value.getLast? = some '\n' then value.dropLast else value
  if '\n' ∈ body then none else referenceIn opening closing body

/-- A loop that puts values for variables: `none` when it goes on after so many turns. -/
def expand (opening closing : Char) (lookup : Text → Except Failure Text) : ℕ → Text → Option (Except Failure Text)
  | 0, _ => none
  | fuel + 1, value =>
    match search opening closing value with
    | none => some (.ok value)
    | some (before, varname, after) =>
      match lookup varname with
      | .error e => some (.error e)
      | .ok v => expand opening closing lookup fuel (before ++ v ++ after)

def lookupVariable (environ : List (Text × Text)) (fqn varname : Text) : Except Failure Text :=
  match environ.lookup varname with
  | none => .error (.undefinedVariable varname fqn)
  | some v => .ok v

def substEnvVar (environ : List (Text × Text)) (fuel : ℕ) (fqn value : Text) : Option (Except Failure Text) :=
  expand '{' '}' (lookupVariable environ fqn) fuel value

def predefinedN : List (Text × Text) := [
  (['c', '5', '9'],
    "90377629292003121684002147101760858109247336549001090677693".toList),
  (['R', 'S', 'A', '1', '0', '0'],
    "1522605027922533360535618378132637429718068114961380688657908494580122963258952897654000350692006139".toList),
  (['R', 'S', 'A', '1', '1', '0'],
    ("3579423417972586877499180783256845540300377802422822619353290819048467025236467741151351611120450406" ++
      "0317568667").toList),
  (['R', 'S', 'A', '1', '2', '0'],
    ("2270104812954373633342599609474936688958753364660847800381732582470091626757797353897911515740491667" ++
      "47880487470296548479").toList),
  (['R', 'S', 'A', '1', '3', '0'],
    ("1807082088687404805951656164405905566278102516769401349170127021450056662540244048387341127590812303" ++
      "371781887966563182013214880557").toList),
  (['R', 'S', 'A', '1', '4', '0'],
    ("2129024631825875754749788201627151749780670396327721627823338321538194998405649591136657385302191831" ++
      "6783107387995317230889569230873441936471").toList),
  (['R', 'S', 'A', '1', '5', '0'],
    ("1550898124783484405096067543700118617706545458309954306554669457743126327034634659543633350275777290" ++
      "25391453996787414027003501631772186840890795964683").toList),
  (['R', 'S', 'A', '1', '5', '5'],
    ("1094173864157052742180970732204035761200373294544920599091384213147634998428893478471799725789126733" ++
      "2497625752899781833797076537244027146743531593354333897").toList)]

def predefined : List (Text × List (Text × Text)) := [(['N'], predefinedN)]

def lookupReference (data : Dict) (path : List Text) (key varname : Text) : Except Failure Text :=
  if key = varname then .error .selfReference
  else
    match ((predefined.lookup key).bind (·.lookup varname)).or (((myparams data [varname] path).lookup varname).map Prod.fst) with
    | none => .error (.undefinedReference varname (join (path ++ [key])))
    | some v => .ok v

def substReference (data : Dict) (fuel : ℕ) (path : List Text) (key value : Text) : Option (Except Failure Text) :=
  expand '(' ')' (lookupReference data path key) fuel value

def places : Dict → List Text → List (List Text × Text)
  | .nil, _ => []
  | .value key _ rest, path => (path, key) :: places rest path
  | .sub key dic rest, path => places dic (path ++ [key]) ++ places rest path

def substReferences (fuel : ℕ) : Dict → List (List Text × Text) → Option (Except Failure Dict)
  | data, [] => some (.ok data)
  | data, (path, key) :: rest =>
    match data.valueAt path key with
    | none => substReferences fuel data rest
    | some value =>
      match substReference data fuel path key value with
      | none => none
      | some (.error e) => some (.error e)
      | some (.ok value) => substReferences fuel (data.setAt path key value) rest

def insertAt : Dict → List Text → Text → Text → Except Failure Dict
  | dest, [], key, value =>
    match dest.get? key with
    | some (.sub _) => .error (.keyIsSubdictionary key)
    | _ => .ok (dest.put key (.value value))
  | dest, segment :: splitpath, key, value =>
    match dest.get? segment with
    | none => (insertAt .nil splitpath key value).map fun dic => dest.put segment (.sub dic)
    | some (.sub dic) => (insertAt dic splitpath key value).map fun dic => dest.put segment (.sub dic)
    | some (.value _) => .error (.subdirectoryIsKey segment)

def insertkey (data : Dict) (path value : Text) : Except Failure Dict := insertAt data (pathOf path) (baseOf path) value

def insertLines (environ : List (Text × Text)) (fuel : ℕ) : Dict → List Text → Option (Except Failure Dict)
  | data, [] => some (.ok data)
  | data, line :: lines =>
    match parseline (stripOf (· = '\n') line) with
    | .error e => some (.error e)
    | .ok none => insertLines environ fuel data lines
    | .ok (some (key, value)) =>
      match substEnvVar environ fuel key value with
      | none => none
      | some (.error e) => some (.error e)
      | some (.ok value) =>
        match insertkey data key value with
        | .error e => some (.error e)
        | .ok data => insertLines environ fuel data lines

def readparams (environ : List (Text × Text)) (fuel : ℕ) (data : Dict) (lines : List Text) : Option (Except Failure Dict) :=
  match insertLines environ fuel data lines with
  | none => none
  | some (.error e) => some (.error e)
  | some (.ok data) => substReferences fuel data (places data [])

/-! ## What an insertion changes -/

variable {data d dest : Dict} {path p q : List Text} {key k v : Text}

theorem valueAt_empty (q : List Text) (k : Text) : (NameTree.nil : Dict).valueAt q k = none := by
  cases q with
  | nil => rfl
  | cons k' q => rw [NameTree.valueAt_cons]; rfl

theorem insertAt_cons : insertAt dest (key :: path) k v =
    if (dest.value? key).isSome then .error (.subdirectoryIsKey key)
    else (insertAt ((dest.sub? key).getD .nil) path k v).map fun dic => dest.put key (.sub dic) := by
  rw [insertAt, NameTree.value?, NameTree.sub?]
  cases dest.get? key with
  | none => rfl
  | some e =>
    cases e with
    | value v => rfl
    | sub dic => rfl

theorem valueAt_child (dest : Dict) (key : Text) (q : List Text) (k : Text) :
    ((dest.sub? key).getD .nil).valueAt q k = dest.valueAt (key :: q) k := by
  rw [NameTree.valueAt_cons]
  cases dest.sub? key with
  | none => exact valueAt_empty q k
  | some dic => rfl

theorem shapeAt_child (dest : Dict) (key : Text) (q : List Text) (k : Text) :
    ((dest.sub? key).getD .nil).shapeAt q k = dest.shapeAt (key :: q) k := by
  rw [NameTree.shapeAt_cons]
  cases dest.sub? key with
  | some dic => rfl
  | none =>
    cases q with
    | nil => rfl
    | cons k' q => rw [Option.getD_none, NameTree.shapeAt_cons]; rfl

theorem valueAt_insertAt (inserted : insertAt dest path key v = .ok d) :
    d.valueAt q k = if q = path ∧ k = key then some v else dest.valueAt q k := by
  induction path generalizing dest d q with
  | nil =>
    rw [insertAt] at inserted
    have noSub : dest.sub? key = none := by
      cases entry : dest.get? key with
      | none => exact (NameTree.get?_eq_none.mp entry).2
      | some e =>
        cases e with
        | value v' => exact NameTree.sub?_eq_none_of_value (NameTree.get?_eq_value.mp entry)
        | sub dic =>
          rw [entry] at inserted
          cases inserted
    have put : d = dest.put key (.value v) := by
      split at inserted
      · cases inserted
      · exact (Except.ok.inj inserted).symm
    have after : (dest.put key (.value v)).get? key = some (.value v) := NameTree.get?_put_self
    subst put
    cases q with
    | nil =>
      by_cases same : k = key
      · rw [if_pos ⟨rfl, same⟩, same]
        exact NameTree.get?_eq_value.mp after
      · rw [if_neg fun both => same both.2, NameTree.valueAt_nil, NameTree.valueAt_nil, NameTree.value?, NameTree.value?,
          NameTree.get?_put_ne (Ne.symm same)]
    | cons k' q =>
      rw [if_neg fun both => List.cons_ne_nil _ _ both.1, NameTree.valueAt_cons, NameTree.valueAt_cons]
      by_cases same : k' = key
      · rw [same, noSub, NameTree.sub?_eq_none_of_value (NameTree.get?_eq_value.mp after)]
      · rw [NameTree.sub?_put_ne (Ne.symm same)]
  | cons segment path ih =>
    rw [insertAt_cons] at inserted
    split_ifs at inserted with isValue
    have noValue : dest.value? segment = none := Option.not_isSome_iff_eq_none.mp isValue
    cases below : insertAt ((dest.sub? segment).getD .nil) path key v with
    | error e =>
      rw [below] at inserted
      cases inserted
    | ok dic =>
      rw [below] at inserted
      obtain rfl := (Except.ok.inj inserted).symm
      cases q with
      | nil =>
        rw [if_neg fun both => List.cons_ne_nil _ _ both.1.symm]
        by_cases same : k = segment
        · rw [same]
          exact (NameTree.value?_eq_none_of_sub NameTree.sub?_put_self).trans noValue.symm
        · rw [NameTree.valueAt_nil, NameTree.valueAt_nil, NameTree.value?, NameTree.value?,
            NameTree.get?_put_ne (Ne.symm same)]
      | cons k' q =>
        by_cases same : k' = segment
        · rw [same, NameTree.valueAt_cons, NameTree.sub?_put_self, Option.bind_some, ih below, valueAt_child]
          simp only [List.cons.injEq, true_and]
        · rw [if_neg fun both => same (List.cons.inj both.1).1, NameTree.valueAt_cons, NameTree.valueAt_cons,
            NameTree.sub?_put_ne (Ne.symm same)]

theorem insertAt_ok_iff (dest : Dict) (path : List Text) (key v : Text) : (∃ d, insertAt dest path key v = .ok d) ↔
    (∀ p k, p ++ [k] <+: path → dest.valueAt p k = none) ∧ dest.shapeAt path key ≠ some none := by
  induction path generalizing dest with
  | nil =>
    have shape : dest.shapeAt [] key ≠ some none ↔ dest.sub? key = none :=
      (not_congr NameTree.shape_eq_sub).trans Option.not_isSome_iff_eq_none
    rw [shape, and_iff_right fun p k pre => absurd (List.prefix_nil.mp pre) (by simp), insertAt]
    cases entry : dest.get? key with
    | none => exact iff_of_true ⟨_, rfl⟩ (NameTree.get?_eq_none.mp entry).2
    | some e =>
      cases e with
      | value v' => exact iff_of_true ⟨_, rfl⟩ (NameTree.sub?_eq_none_of_value (NameTree.get?_eq_value.mp entry))
      | sub dic =>
        rw [NameTree.get?_eq_sub.mp entry]
        exact iff_of_false (fun ⟨_, ok⟩ => nomatch ok) nofun
  | cons segment path ih =>
    have below : (∀ p k, p ++ [k] <+: segment :: path → dest.valueAt p k = none) ↔
        dest.value? segment = none ∧ ∀ p k, p ++ [k] <+: path → dest.valueAt (segment :: p) k = none := by
      constructor
      · intro all
        refine ⟨all [] segment (List.cons_prefix_cons.mpr ⟨rfl, List.nil_prefix⟩), fun p k pre => ?_⟩
        exact all (segment :: p) k (List.cons_prefix_cons.mpr ⟨rfl, pre⟩)
      · rintro ⟨first, rest⟩ p k pre
        cases p with
        | nil =>
          obtain ⟨rfl, -⟩ := List.cons_prefix_cons.mp pre
          exact first
        | cons k' p =>
          obtain ⟨rfl, later⟩ := List.cons_prefix_cons.mp pre
          exact rest p k later
    have child := ih ((dest.sub? segment).getD .nil)
    simp only [valueAt_child, shapeAt_child] at child
    rw [below, insertAt_cons, and_assoc, ← child]
    cases first : dest.value? segment with
    | some v' => exact iff_of_false (by rintro ⟨-, ⟨⟩⟩) fun both => Option.some_ne_none _ both.1
    | none =>
      rw [if_neg (by exact Bool.false_ne_true), and_iff_right rfl]
      cases insertAt ((dest.sub? segment).getD .nil) path key v with
      | error e => exact iff_of_false (by rintro ⟨-, ⟨⟩⟩) (by rintro ⟨-, ⟨⟩⟩)
      | ok dic => exact iff_of_true ⟨_, rfl⟩ ⟨_, rfl⟩

/-! ## What the references change -/

variable {fuel : ℕ} {rest : List (List Text × Text)}

def Resolved (data : Dict) : Prop := ∀ path key v, data.valueAt path key = some v → search '(' ')' v = none

theorem expand_none {opening closing : Char} {lookup : Text → Except Failure Text}
    (none : search opening closing v = none) : expand opening closing lookup (fuel + 1) v = some (.ok v) := by
  rw [expand, none]

theorem substReferences_resolved (resolved : Resolved data) (rest : List (List Text × Text)) :
    substReferences (fuel + 1) data rest = some (.ok data) := by
  induction rest with
  | nil => rfl
  | cons place rest ih =>
    obtain ⟨path, key⟩ := place
    rw [substReferences]
    cases value : data.valueAt path key with
    | none => exact ih
    | some v =>
      dsimp only
      rw [substReference, expand_none (resolved path key v value)]
      dsimp only
      rw [NameTree.setAt_self value]
      exact ih

def Keeps (data d : Dict) : Prop := ∀ q k, d.shapeAt q k = data.shapeAt q k ∨
  ∃ v v', data.shapeAt q k = some (some v) ∧ d.shapeAt q k = some (some v') ∧ search '(' ')' v ≠ none

theorem expand_ok_of_none {opening closing : Char} {lookup : Text → Except Failure Text} {v' : Text}
    (none : search opening closing v = none) (result : expand opening closing lookup fuel v = some (.ok v')) : v' = v := by
  cases fuel with
  | zero => cases result
  | succ fuel =>
    rw [expand_none none] at result
    exact (Except.ok.inj (Option.some.inj result)).symm

theorem shapeAt_setAt_value {v' : Text} (value : data.valueAt path key = some v) :
    (data.setAt path key v').shapeAt q k = if q = path ∧ k = key then some (some v') else data.shapeAt q k := by
  obtain ⟨n, node, here⟩ := Option.bind_eq_some_iff.mp value
  refine NameTree.shapeAt_setAt (node ▸ rfl) ?_
  rw [NameTree.shapeAt, node, Option.bind_some, Ne, NameTree.shape_eq_sub, NameTree.sub?_eq_none_of_value here]
  exact Bool.false_ne_true

theorem shapeAt_of_value (value : data.valueAt path key = some v) : data.shapeAt path key = some (some v) := by
  rw [← NameTree.shapeAt_join] at value
  exact Option.join_eq_some_iff.mp value

theorem keeps_substReferences (result : substReferences fuel data rest = some (.ok d)) : Keeps data d := by
  induction rest generalizing data with
  | nil =>
    cases result
    exact fun q k => .inl rfl
  | cons place rest ih =>
    obtain ⟨path, key⟩ := place
    rw [substReferences] at result
    cases value : data.valueAt path key with
    | none =>
      rw [value] at result
      exact ih result
    | some v =>
      rw [value] at result
      dsimp only at result
      cases turn : substReference data fuel path key v with
      | none =>
        rw [turn] at result
        cases result
      | some r =>
        cases r with
        | error e =>
          rw [turn] at result
          cases result
        | ok v' =>
          rw [turn] at result
          have after := ih result
          by_cases reference : search '(' ')' v = none
          · rw [expand_ok_of_none reference turn, NameTree.setAt_self value] at after
            exact after
          · intro q k
            have step : (data.setAt path key v').shapeAt q k = _ := shapeAt_setAt_value value
            by_cases here : q = path ∧ k = key
            · rw [if_pos here] at step
              have before : data.shapeAt q k = some (some v) := by
                rw [here.1, here.2]
                exact shapeAt_of_value value
              rcases after q k with same | ⟨w, w', there, now, -⟩
              · exact .inr ⟨v, v', before, same.trans step, reference⟩
              · exact .inr ⟨v, w', before, now, reference⟩
            · rw [if_neg here] at step
              rcases after q k with same | ⟨w, w', there, now, open'⟩
              · exact .inl (same.trans step)
              · exact .inr ⟨w, w', step ▸ there, now, open'⟩

theorem Keeps.valueAt_none (keeps : Keeps data d) (none : data.valueAt q k = Option.none) : d.valueAt q k = Option.none := by
  rw [← NameTree.shapeAt_join] at none ⊢
  rcases keeps q k with same | ⟨v, v', before, -⟩
  · rw [same, none]
  · rw [before] at none
    cases none

theorem Keeps.valueAt_some (keeps : Keeps data d) (value : data.valueAt q k = some v) (closed : search '(' ')' v = none) :
    d.valueAt q k = some v := by
  rcases keeps q k with same | ⟨w, w', before, -, open'⟩
  · rw [← NameTree.shapeAt_join] at value ⊢
    rw [same, value]
  · rw [shapeAt_of_value value] at before
    cases before
    exact absurd closed open'

/-! ## Where a reference is -/

variable {opening closing : Char} {text before varname after : Text}

def HasReference (opening closing : Char) (text : Text) : Prop :=
  ∃ before varname after, text = before ++ '$' :: opening :: (varname ++ closing :: after)

theorem splitLast_eq_some (split : splitLast closing text = some (varname, after)) :
    text = varname ++ closing :: after ∧ closing ∉ after := by
  have noSplit {text : Text} (none : splitLast closing text = none) : closing ∉ text := by
    induction text with
    | nil => exact List.not_mem_nil
    | cons c text ih =>
      rw [splitLast] at none
      split at none
      · cases none
      · rename_i later
        split_ifs at none with here
        exact List.not_mem_cons_of_ne_of_not_mem (Ne.symm here) (ih later)
  induction text generalizing varname with
  | nil => cases split
  | cons c text ih =>
    rw [splitLast] at split
    split at split
    · rename_i varname' after' later
      cases split
      obtain ⟨eq, last⟩ := ih later
      exact ⟨congrArg (c :: ·) eq, last⟩
    · rename_i later
      split_ifs at split with here
      cases split
      exact ⟨by rw [here]; rfl, noSplit later⟩

theorem referenceHere_eq_some (reference : referenceHere opening closing text = some (varname, after)) :
    text = '$' :: opening :: (varname ++ closing :: after) ∧ closing ∉ after := by
  unfold referenceHere at reference
  split at reference
  · rename_i c text
    split_ifs at reference with opens
    obtain ⟨eq, last⟩ := splitLast_eq_some reference
    exact ⟨by rw [opens, eq], last⟩
  · cases reference

theorem referenceIn_eq_some (reference : referenceIn opening closing text = some (before, varname, after)) :
    text = before ++ '$' :: opening :: (varname ++ closing :: after) ∧ closing ∉ after := by
  induction text generalizing before with
  | nil => cases reference
  | cons c text ih =>
    rw [referenceIn] at reference
    split at reference
    · rename_i before' r later
      cases reference
      obtain ⟨eq, last⟩ := ih later
      exact ⟨congrArg (c :: ·) eq, last⟩
    · obtain ⟨r, here, eq⟩ := Option.map_eq_some_iff.mp reference
      cases eq
      exact referenceHere_eq_some here

theorem search_eq_some (reference : search opening closing text = some (before, varname, after)) :
    ∃ rest, text = before ++ '$' :: opening :: (varname ++ closing :: rest) := by
  rw [search] at reference
  split_ifs at reference with last
  · obtain ⟨eq, -⟩ := referenceIn_eq_some reference
    obtain ⟨body, rfl⟩ := List.getLast?_eq_some_iff.mp last
    rw [List.dropLast_concat] at eq
    refine ⟨after ++ ['\n'], ?_⟩
    rw [eq]
    simp
  · exact ⟨after, (referenceIn_eq_some reference).1⟩

theorem hasReference_of_search (reference : search opening closing text = some (before, varname, after)) :
    HasReference opening closing text := by
  obtain ⟨rest, eq⟩ := search_eq_some reference
  exact ⟨before, varname, rest, eq⟩

theorem search_eq_none (closed : ¬HasReference opening closing text) : search opening closing text = none :=
  Option.eq_none_iff_forall_ne_some.mpr fun _ reference => closed (hasReference_of_search reference)

theorem splitLast_isSome (there : closing ∈ text) : (splitLast closing text).isSome := by
  induction text with
  | nil => cases there
  | cons c text ih =>
    rw [splitLast]
    split
    · rfl
    · rename_i none
      rcases List.mem_cons.mp there with here | later
      · rw [if_pos here.symm]
        rfl
      · rw [none] at ih
        cases ih later

theorem referenceIn_isSome (has : HasReference opening closing text) : (referenceIn opening closing text).isSome := by
  obtain ⟨before, varname, after, rfl⟩ := has
  induction before with
  | nil =>
    have here : (referenceHere opening closing ('$' :: opening :: (varname ++ closing :: after))).isSome := by
      rw [referenceHere, if_pos rfl]
      exact splitLast_isSome (by simp)
    rw [List.nil_append, referenceIn]
    split
    · rfl
    · rwa [Option.isSome_map]
  | cons c before ih =>
    rw [List.cons_append, referenceIn]
    split
    · rfl
    · rename_i none
      rw [none] at ih
      cases ih

theorem noReference_of_search (noNewline : '\n' ∉ text) (none : search opening closing text = none) :
    ¬HasReference opening closing text := by
  intro has
  have other : text.getLast? ≠ some '\n' := fun last => noNewline (List.mem_of_getLast? last)
  rw [search, if_neg other, if_neg noNewline] at none
  have found := referenceIn_isSome has
  rw [none] at found
  cases found

theorem HasReference.of_infix {text' : Text} (has : HasReference opening closing text) (part : text <:+: text') :
    HasReference opening closing text' := by
  obtain ⟨before, varname, after, rfl⟩ := has
  obtain ⟨s, t, rfl⟩ := part
  exact ⟨s ++ before, varname, after ++ t, by simp⟩

end CadoNfs.Cadofactor.CadoParams

/-!
# The lines of a parameter file

What `parseline` makes of a key, an equal sign and a value that are put on one line.
-/

namespace CadoNfs.Cadofactor.CadoParams
open Lib

structure Clean (text : Text) : Prop where
  noHash : '#' ∉ text
  stripped : strip text = text

structure CleanKey (key : Text) : Prop extends Clean key where
  noEquals : '=' ∉ key

variable {remove : Char → Bool} {c : Char} {a l w key value text : Text}

theorem dropWhile_cons_right (keeps : remove c = false) :
    (l ++ c :: w).dropWhile remove = l.dropWhile remove ++ c :: w := by
  rw [List.dropWhile_append]
  split_ifs with all
  · rw [List.dropWhile_cons_of_neg (by simp [keeps]), List.isEmpty_iff.mp all]
    rfl
  · rfl

theorem rdropWhile_cons_left (keeps : remove c = false) :
    (l ++ c :: w).rdropWhile remove = l ++ c :: w.rdropWhile remove := by
  have reversed : (l ++ c :: w).reverse = w.reverse ++ c :: l.reverse := by simp
  rw [List.rdropWhile, List.rdropWhile, reversed, dropWhile_cons_right keeps]
  simp

theorem stripOf_around (keeps : remove c = false) :
    stripOf remove (l ++ c :: w) = l.dropWhile remove ++ c :: w.rdropWhile remove := by
  rw [stripOf, dropWhile_cons_right keeps, rdropWhile_cons_left keeps]

theorem stripOf_infix (remove : Char → Bool) (text : Text) : stripOf remove text <:+: text :=
  (List.rdropWhile_prefix remove _).isInfix.trans (List.dropWhile_suffix remove).isInfix

theorem dropWhile_stripOf (remove : Char → Bool) (text : Text) :
    (stripOf remove text).dropWhile remove = stripOf remove text := by
  rw [stripOf]
  cases start : text.dropWhile remove with
  | nil => rfl
  | cons c rest =>
    have keeps : remove c = false := by
      have first := List.head?_dropWhile_not remove text
      rw [start] at first
      simpa using first
    have whole := rdropWhile_cons_left (l := []) (w := rest) keeps
    rw [List.nil_append, List.nil_append] at whole
    rw [whole, List.dropWhile_cons_of_neg (by simp [keeps])]

theorem stripOf_stripOf (remove : Char → Bool) (text : Text) : stripOf remove (stripOf remove text) = stripOf remove text := by
  rw [stripOf, dropWhile_stripOf]
  exact List.rdropWhile_idempotent remove _

theorem strip_strip (text : Text) : strip (strip text) = strip text := stripOf_stripOf isSpace text

theorem dropWhile_of_stripped (stripped : strip text = text) : text.dropWhile isSpace = text := by
  rw [← stripped]
  exact dropWhile_stripOf isSpace text

theorem rdropWhile_of_stripped (stripped : strip text = text) : text.rdropWhile isSpace = text := by
  rw [strip, stripOf, dropWhile_of_stripped stripped] at stripped
  exact stripped

theorem isSpace_newline {c : Char} (newline : c = '\n') : isSpace c = true := by
  rw [newline]
  decide

theorem dropWhile_newline (text : Text) : (text.dropWhile (· = '\n')).dropWhile isSpace = text.dropWhile isSpace := by
  induction text with
  | nil => rfl
  | cons c text ih =>
    rw [List.dropWhile_cons]
    by_cases newline : c = '\n'
    · rw [if_pos (decide_eq_true newline), List.dropWhile_cons_of_pos (isSpace_newline newline), ih]
    · rw [if_neg (mt of_decide_eq_true newline)]

theorem rdropWhile_newline (stripped : strip text = text) : text.rdropWhile (· = '\n') = text := by
  rw [List.rdropWhile_eq_self_iff]
  intro nonempty newline
  have last := List.rdropWhile_eq_self_iff.mp (rdropWhile_of_stripped stripped) nonempty
  exact last (isSpace_newline (of_decide_eq_true newline))

def valueOfLine (w : Text) : Text :=
  strip (((w.rdropWhile (· = '\n')).takeWhile (· ≠ '#')).rdropWhile isSpace)

theorem valueOfLine_infix (w : Text) : valueOfLine w <:+: w :=
  ( stripOf_infix isSpace _).trans ((List.rdropWhile_prefix isSpace _).isInfix.trans
    ((List.takeWhile_prefix _).isInfix.trans (List.rdropWhile_prefix _ _).isInfix))

theorem clean_valueOfLine (w : Text) : Clean (valueOfLine w) := by
  refine ⟨fun hash => ?_, strip_strip _⟩
  have part : valueOfLine w <:+: (w.rdropWhile (· = '\n')).takeWhile (· ≠ '#') :=
    ( stripOf_infix isSpace _).trans (List.rdropWhile_prefix isSpace _).isInfix
  have other := List.mem_takeWhile_imp (part.subset hash)
  simp at other

theorem valueOfLine_eq (clean : Clean w) : valueOfLine w = w := by
  have whole : w.takeWhile (· ≠ '#') = w :=
    List.takeWhile_eq_self_iff.mpr fun c among => decide_eq_true fun eq => clean.noHash (eq ▸ among)
  rw [valueOfLine, rdropWhile_newline clean.stripped, whole, rdropWhile_of_stripped clean.stripped, clean.stripped]

theorem parseline_line (noEquals : '=' ∉ a) (noHash : '#' ∉ a) :
    parseline (stripOf (· = '\n') (a ++ '=' :: w)) = .ok (some (strip a, valueOfLine w)) := by
  have part : a.dropWhile (· = '\n') <:+: a := (List.dropWhile_suffix _).isInfix
  have comment : (a.dropWhile (· = '\n') ++ '=' :: w.rdropWhile (· = '\n')).takeWhile (· ≠ '#') =
      a.dropWhile (· = '\n') ++ '=' :: (w.rdropWhile (· = '\n')).takeWhile (· ≠ '#') := by
    have front : ∀ c ∈ a.dropWhile (· = '\n'), decide (c ≠ '#') = true := fun c among =>
      decide_eq_true fun eq => noHash (eq ▸ part.subset among)
    rw [List.takeWhile_append_of_pos front, List.takeWhile_cons_of_pos (by decide)]
  have blanks : strip (a.dropWhile (· = '\n') ++ '=' :: (w.rdropWhile (· = '\n')).takeWhile (· ≠ '#')) =
      a.dropWhile isSpace ++ '=' :: ((w.rdropWhile (· = '\n')).takeWhile (· ≠ '#')).rdropWhile isSpace := by
    rw [strip, stripOf_around (by decide), dropWhile_newline]
  have front : ∀ c ∈ a.dropWhile isSpace, decide (c ≠ '=') = true := fun c among =>
    decide_eq_true fun eq => noEquals (eq ▸ (List.dropWhile_suffix _).subset among)
  have again : strip (a.dropWhile isSpace) = strip a := by
    rw [strip, strip, stripOf, stripOf, List.dropWhile_idempotent]
  rw [stripOf_around (by decide), parseline, comment, blanks]
  rw [if_neg (by simp), if_neg (by simp), List.takeWhile_append_of_pos front, List.dropWhile_append_of_pos front,
    List.takeWhile_cons_of_neg (by decide), List.dropWhile_cons_of_neg (by decide), List.append_nil, again]
  rfl

theorem parseline_clean (cleanKey : CleanKey key) (clean : Clean value) :
    parseline (stripOf (· = '\n') (key ++ '=' :: value)) = .ok (some (key, value)) := by
  rw [parseline_line cleanKey.noEquals cleanKey.noHash, cleanKey.stripped, valueOfLine_eq clean]

theorem parseline_result (read : parseline l = .ok (some (key, value))) : CleanKey key ∧ Clean value := by
  rw [parseline] at read
  split_ifs at read
  · cases read
  have pair := Option.some.inj (Except.ok.inj read)
  obtain rfl : _ = key := congrArg Prod.fst pair
  obtain rfl : _ = value := congrArg Prod.snd pair
  have noHash {text : Text} (part : text <:+: strip (l.takeWhile (· ≠ '#'))) : '#' ∉ text := fun hash => by
    have other := List.mem_takeWhile_imp (( stripOf_infix isSpace _).subset (part.subset hash))
    simp at other
  have front : strip ((strip (l.takeWhile (· ≠ '#'))).takeWhile (· ≠ '=')) <:+:
      (strip (l.takeWhile (· ≠ '#'))).takeWhile (· ≠ '=') := stripOf_infix isSpace _
  refine ⟨⟨⟨noHash (front.trans (List.takeWhile_prefix _).isInfix), strip_strip _⟩, fun equals => ?_⟩, noHash ?_,
    strip_strip _⟩
  · have other := List.mem_takeWhile_imp (front.subset equals)
    simp at other
  · exact ( stripOf_infix isSpace _).trans ((List.tail_suffix _).isInfix.trans (List.dropWhile_suffix _).isInfix)

theorem parseline_comment (noEquals : '=' ∉ a) (hash : '#' ∈ a) :
    parseline (stripOf (· = '\n') (a ++ '=' :: w)) ≠ .ok (some (key, value)) := by
  have kept : '#' ∈ a.dropWhile (· = '\n') := by
    rw [← List.takeWhile_append_dropWhile (p := (· = '\n')) (l := a)] at hash
    refine (List.mem_append.mp hash).resolve_left fun newline => ?_
    have same := List.mem_takeWhile_imp newline
    simp at same
  obtain ⟨front, rest, split, first⟩ := List.eq_append_cons_of_mem kept
  have before : (a.dropWhile (· = '\n') ++ '=' :: w.rdropWhile (· = '\n')).takeWhile (· ≠ '#') = front := by
    have all : ∀ c ∈ front, decide (c ≠ '#') = true := fun c among => decide_eq_true fun eq => first (eq ▸ among)
    rw [split, List.append_assoc, List.cons_append, List.takeWhile_append_of_pos all,
      List.takeWhile_cons_of_neg (by decide), List.append_nil]
  have part : strip front <:+: a := by
    refine ( stripOf_infix isSpace front).trans (List.IsInfix.trans ?_ (List.dropWhile_suffix (· = '\n')).isInfix)
    rw [split]
    exact (List.prefix_append front _).isInfix
  rw [stripOf_around (by decide), parseline, before]
  split_ifs with empty there
  · exact nofun
  · exact fun _ => noEquals (part.subset there)
  · exact nofun

theorem parseline_key_infix {key' : Text}
    (read : parseline (stripOf (· = '\n') (key ++ '=' :: text)) = .ok (some (key', value))) : key' <:+: key := by
  obtain ⟨front, w, line, noEquals, part⟩ : ∃ front w, key ++ '=' :: text = front ++ '=' :: w ∧ '=' ∉ front ∧ front <:+: key := by
    by_cases equals : '=' ∈ key
    · obtain ⟨front, rest, rfl, first⟩ := List.eq_append_cons_of_mem equals
      exact ⟨front, rest ++ '=' :: text, by simp, first, (List.prefix_append _ _).isInfix⟩
    · exact ⟨key, text, rfl, equals, List.infix_refl key⟩
  rw [line] at read
  by_cases hash : '#' ∈ front
  · exact absurd read (parseline_comment noEquals hash)
  · rw [parseline_line noEquals hash] at read
    cases read
    exact ( stripOf_infix isSpace front).trans part

theorem parseline_same_key (read : parseline (stripOf (· = '\n') (key ++ '=' :: text)) = .ok (some (key, value))) :
    value <:+: text := by
  obtain ⟨cleanKey, -⟩ := parseline_result read
  rw [parseline_line cleanKey.noEquals cleanKey.noHash] at read
  obtain rfl : valueOfLine text = value := congrArg Prod.snd (Option.some.inj (Except.ok.inj read))
  exact valueOfLine_infix text

end CadoNfs.Cadofactor.CadoParams
