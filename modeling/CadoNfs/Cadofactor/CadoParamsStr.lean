import CadoNfs.Cadofactor.CadoParamsReplace
import CadoNfs.Cadofactor.CadoParamsReferences

/-!
# Parameters printed and read back

`__str__` of `cadofactor/cadoparams.py`.
-/

namespace CadoNfs.Cadofactor.CadoParams
open Lib Relation

abbrev Item := List Text × Text × Text

def listing (path : List Text) (values : List (Text × Text)) (subs : List (Text × List Item)) : List Item :=
  (values.insertionSort (·.1 ≤ ·.1)).map (path, ·) ++ (subs.insertionSort (·.1 ≤ ·.1)).flatMap Prod.snd

def parts : Dict → List Text → List (Text × Text) × List (Text × List Item)
  | .nil, _ => ([], [])
  | .value key v rest, path => ((key, v) :: (parts rest path).1, (parts rest path).2)
  | .sub key dic rest, path =>
    let below := parts dic (path ++ [key])
    ((parts rest path).1, (key, listing (path ++ [key]) below.1 below.2) :: (parts rest path).2)

def recurseIter (source : Dict) (path : List Text) : List Item := listing path (parts source path).1 (parts source path).2

def lineOf (item : Item) : Text := join (item.1 ++ [item.2.1]) ++ [' ', '=', ' '] ++ item.2.2

def str (data : Dict) : Text := ['\n'].intercalate ((recurseIter data []).map lineOf)

variable {data d : Dict} {path q : List Text} {key k v w : Text} {item : Item}

theorem mem_listing {values : List (Text × Text)} {subs : List (Text × List Item)} :
    item ∈ listing path values subs ↔ (∃ entry ∈ values, item = (path, entry)) ∨ ∃ sub ∈ subs, item ∈ sub.2 := by
  simp only [listing, List.mem_append, List.mem_map, List.mem_flatMap, List.mem_insertionSort, eq_comm]

theorem mem_recurseIter (distinct : data.Distinct) (path : List Text) :
    item ∈ recurseIter data path ↔ ∃ q, item.1 = path ++ q ∧ data.valueAt q item.2.1 = some item.2.2 := by
  obtain ⟨p, k, v⟩ := item
  induction data generalizing path with
  | nil =>
    rw [recurseIter, mem_listing]
    refine iff_of_false (fun there => ?_) fun ⟨q, _, value⟩ => nomatch (valueAt_empty q k).symm.trans value
    rcases there with ⟨_, none, -⟩ | ⟨_, none, -⟩
    · cases none
    · cases none
  | value key v' rest ih =>
    have later := ih distinct.2 path
    rw [recurseIter, mem_listing] at later ⊢
    simp only [NameTree.valueAt_value distinct.1, parts, List.exists_mem_cons_iff, or_assoc, later, and_or_left, exists_or]
    refine or_congr_left ?_
    constructor
    · intro here
      cases here
      exact ⟨[], (List.append_nil _).symm, rfl, rfl, rfl⟩
    · rintro ⟨_, eq, rfl, same, same'⟩
      rw [eq, same, same', List.append_nil]
  | sub key dic rest ihDic ih =>
    have below := ihDic distinct.2.1 (path ++ [key])
    have later := ih distinct.2.2 path
    rw [recurseIter] at below
    rw [recurseIter, mem_listing] at later ⊢
    simp only [NameTree.valueAt_sub distinct.1, parts, List.exists_mem_cons_iff, below, and_or_left, exists_or]
    rw [or_left_comm, later]
    refine or_congr_left ?_
    constructor
    · rintro ⟨q, eq, value⟩
      exact ⟨key :: q, by rw [eq, List.append_assoc]; rfl, q, rfl, value⟩
    · rintro ⟨_, eq, q, rfl, value⟩
      exact ⟨q, by rw [eq, List.append_assoc]; rfl, value⟩

/-! ## Trees that are reached -/

def setSimple (environ : List (Text × Text)) (fuel : ℕ) (data : Dict) (key value : Text) : Option (Except Failure Dict) :=
  readparams environ fuel data [key ++ '=' :: value]

inductive Reached : Dict → Prop
  | empty : Reached .nil
  | readparams {data d : Dict} (environ : List (Text × Text)) (fuel : ℕ) (lines : List Text) (reached : Reached data)
      (result : readparams environ fuel data lines = some (.ok d)) : Reached d
  | setSimple {data d : Dict} (environ : List (Text × Text)) (fuel : ℕ) (key value : Text) (reached : Reached data)
      (result : setSimple environ fuel data key value = some (.ok d)) : Reached d
  | setIfUnset {data d : Dict} (environ : List (Text × Text)) (fuel : ℕ) (key : Text) (value : PyValue) (v : Option Text)
      (reached : Reached data) (result : setIfUnset environ fuel data key value = some (.ok (d, v))) : Reached d
  | unset {data d : Dict} (key : Text) (reached : Reached data) (result : unset data key = .ok d) : Reached d
  | replace {data d : Dict} (environ : List (Text × Text)) (fuel : ℕ) (key : Text) (value : PyValue) (reached : Reached data)
      (result : replace environ fuel data key value = some (.ok d)) : Reached d

structure Sound (data : Dict) : Prop where
  distinct : data.Distinct
  keys : ∀ q k v, data.valueAt q k = some v → ∃ key, CleanKey key ∧ pathOf key = q ∧ baseOf key = k
  resolved : Resolved data

variable {environ : List (Text × Text)} {fuel : ℕ} {lines : List Text} {rest : List (List Text × Text)} {value : PyValue}

theorem distinct_insertAt (distinct : data.Distinct) (inserted : insertAt data path key v = .ok d) : d.Distinct := by
  induction path generalizing data d with
  | nil =>
    rw [insertAt] at inserted
    split at inserted
    · cases inserted
    · cases inserted
      exact distinct.put trivial
  | cons segment path ih =>
    rw [insertAt_cons] at inserted
    split_ifs at inserted
    have child : ((data.sub? segment).getD .nil).Distinct := by
      cases below : data.sub? segment with
      | none => trivial
      | some dic => exact distinct.of_sub below
    cases below : insertAt ((data.sub? segment).getD .nil) path key v with
    | error e =>
      rw [below] at inserted
      cases inserted
    | ok dic =>
      rw [below] at inserted
      cases inserted
      exact distinct.put (e := .sub dic) (ih child below)

theorem distinct_insertLines (distinct : data.Distinct) (result : insertLines environ fuel data lines = some (.ok d)) :
    d.Distinct := by
  induction lines generalizing data with
  | nil =>
    cases result
    exact distinct
  | cons line lines ih =>
    rcases insertLines_cases result with ⟨e, other, -⟩ | ⟨-, rest⟩ | ⟨_, _, _, _, -, -, inserted, rest⟩
    · cases other
    · exact ih distinct rest
    · exact ih (distinct_insertAt distinct inserted) rest

theorem distinct_substReferences (distinct : data.Distinct) (result : substReferences fuel data rest = some (.ok d)) :
    d.Distinct := by
  induction rest generalizing data with
  | nil =>
    cases result
    exact distinct
  | cons place rest ih =>
    obtain ⟨path, key⟩ := place
    rw [substReferences] at result
    cases value : data.valueAt path key with
    | none =>
      rw [value] at result
      exact ih distinct result
    | some v =>
      rw [value] at result
      dsimp only at result
      split at result
      · cases result
      · cases result
      · exact ih (distinct.update fun n distinct => distinct.put (e := .value _) trivial) result

theorem Sound.readparams (sound : Sound data) (result : readparams environ fuel data lines = some (.ok d)) : Sound d := by
  have resolved := resolved_readparams result
  obtain ⟨d', inserted, replaced⟩ := readparams_ok result
  have follows := (substReferences_follows replaced).1
  refine ⟨distinct_substReferences (distinct_insertLines sound.distinct inserted) replaced, fun q k w here => ?_, resolved⟩
  have there : d'.valueAt q k ≠ none := fun absent => by
    rw [(follows q k).1 absent] at here
    cases here
  obtain ⟨v, value⟩ := Option.ne_none_iff_exists'.mp there
  rcases insertLines_ok inserted q k with same | ⟨_, -, line, -, key, value, parsed, path, base, -, -⟩
  · exact sound.keys q k v (same ▸ value)
  · exact ⟨key, (parseline_result parsed).1, path, base⟩

theorem Sound.unset (sound : Sound data) (result : unset data key = .ok d) : Sound d := by
  have erased : d = data ∨ ∃ path, d = data.eraseAt path (baseOf key) := by
    by_cases seen : Seen data (baseOf key) (pathOf key)
    · rw [unset_seen seen] at result
      split_ifs at result
      exact .inr ⟨_, (Except.ok.inj result).symm⟩
    · rw [unset_unseen seen] at result
      exact .inl (Except.ok.inj result).symm
  rcases erased with rfl | ⟨path, rfl⟩
  · exact sound
  · refine ⟨sound.distinct.update fun n distinct => distinct.erase _, fun q k v there => ?_, fun q k v there => ?_⟩
    · exact sound.keys q k v (NameTree.valueAt_of_eraseAt there)
    · exact sound.resolved q k v (NameTree.valueAt_of_eraseAt there)

theorem Sound.setIfUnset {v : Option Text} (sound : Sound data)
    (result : setIfUnset environ fuel data key value = some (.ok (d, v))) : Sound d := by
  have converted {data' : Dict} {w : Option Text} (result : convertOneType data' value w = .ok (d, v)) : data' = d := by
    rw [convertOneType] at result
    split_ifs at result
    exact congrArg Prod.fst (Except.ok.inj result)
  rw [CadoParams.setIfUnset] at result
  split_ifs at result
  · split at result
    · cases result
    · cases result
    · rename_i read
      exact converted (Option.some.inj result) ▸ sound.readparams read
  · exact converted (Option.some.inj result) ▸ sound

theorem sound_of_reached (reached : Reached data) : Sound data := by
  induction reached with
  | empty => exact ⟨trivial, fun q k v there => (nomatch (valueAt_empty q k).symm.trans there), resolved_nil⟩
  | readparams environ fuel lines _ result ih => exact ih.readparams result
  | setSimple environ fuel key value _ result ih => exact ih.readparams result
  | setIfUnset environ fuel key value v _ result ih => exact ih.setIfUnset result
  | unset key _ result ih => exact ih.unset result
  | replace environ fuel key value _ result ih =>
    rw [replace] at result
    split at result
    · cases result
    · rename_i u removed
      obtain ⟨r, set, same⟩ := Option.map_eq_some_iff.mp result
      cases r with
      | error e => cases same
      | ok found =>
        obtain ⟨d', v⟩ := found
        cases same
        exact (ih.unset removed).setIfUnset set

def shown (v : Text) : Text := valueOfLine (' ' :: v)

theorem rdropWhile_concat_keeps {remove : Char → Bool} {c : Char} (l : Text) (keeps : remove c = false) :
    (l ++ [c]).rdropWhile remove = l ++ [c] := List.rdropWhile_concat_neg remove l c (by rw [keeps]; exact Bool.false_ne_true)

theorem shown_clean (clean : Clean v) : shown v = v := by
  rcases List.eq_nil_or_concat v with rfl | ⟨l, c, rfl⟩
  · rfl
  · rw [List.concat_eq_append] at clean ⊢
    have last : isSpace c = false := by
      have kept := List.rdropWhile_eq_self_iff.mp (rdropWhile_of_stripped clean.stripped) (by simp)
      rw [List.getLast_append_singleton] at kept
      exact Bool.not_eq_true _ ▸ kept
    have noNewline : decide (c = '\n') = false := decide_eq_false fun newline => by
      rw [isSpace_newline newline] at last
      cases last
    have whole : (' ' :: (l ++ [c])).takeWhile (· ≠ '#') = ' ' :: (l ++ [c]) := by
      refine List.takeWhile_eq_self_iff.mpr fun c' among => decide_eq_true fun eq => ?_
      rcases List.mem_cons.mp among with blank | inside
      · rw [eq] at blank
        exact absurd blank (by decide)
      · exact clean.noHash (eq ▸ inside)
    have front : strip (' ' :: (l ++ [c])) = strip (l ++ [c]) := by
      rw [strip, strip, stripOf, stripOf, List.dropWhile_cons_of_pos (by decide)]
    rw [shown, valueOfLine, ← List.cons_append, rdropWhile_concat_keeps _ noNewline, List.cons_append, whole, ← List.cons_append,
      rdropWhile_concat_keeps _ last, List.cons_append, front, clean.stripped]

theorem shown_eq_iff : shown v = v ↔ Clean v := ⟨fun same => same ▸ clean_valueOfLine _, shown_clean⟩

theorem strip_blank (stripped : strip key = key) : strip (key ++ [' ']) = key := by
  have start := dropWhile_of_stripped stripped
  rw [strip, stripOf, List.dropWhile_append, start]
  split_ifs with empty
  · rw [List.isEmpty_iff.mp empty]
    rfl
  · rw [List.rdropWhile_concat_pos _ _ _ (by decide)]
    exact rdropWhile_of_stripped stripped

theorem hasReference_of_shown {opening closing : Char} (has : HasReference opening closing (shown v)) :
    HasReference opening closing v := by
  obtain ⟨before, varname, after, eq⟩ := has.of_infix ( valueOfLine_infix (' ' :: v))
  cases before with
  | nil => exact absurd (List.cons.inj eq).1 (by decide)
  | cons c before => exact ⟨before, varname, after, (List.cons.inj eq).2⟩

theorem parseline_lineOf (cleanKey : CleanKey key) (path : pathOf key = q) (base : baseOf key = k) :
    parseline (stripOf (· = '\n') (lineOf (q, k, v))) = .ok (some (key, shown v)) := by
  have whole : lineOf (q, k, v) = (key ++ [' ']) ++ '=' :: ' ' :: v := by
    rw [lineOf, ← path, ← base, join_pathOf]
    simp
  have blank {c : Char} (noKey : c ∉ key) (other : c ≠ ' ') : c ∉ key ++ [' '] := by
    rw [List.mem_append, not_or]
    exact ⟨noKey, fun same => other (List.mem_singleton.mp same)⟩
  rw [whole, parseline_line (blank cleanKey.noEquals (by decide)) (blank cleanKey.noHash (by decide)),
    strip_blank cleanKey.stripped]
  rfl

theorem shapeAt_insertAt_sub (inserted : insertAt data path key v = .ok d) (isSub : d.shapeAt q k = some none) :
    data.shapeAt q k = some none ∨ q ++ [k] <+: path := by
  induction path generalizing data d q with
  | nil =>
    rw [insertAt] at inserted
    split at inserted
    · cases inserted
    · cases inserted
      refine .inl ?_
      have noSub : (data.put key (.value v)).sub? key = none := by
        rw [NameTree.sub?, NameTree.get?_put_self]
        rfl
      cases q with
      | nil =>
        have there := NameTree.shape_eq_sub.mp isSub
        by_cases same : k = key
        · rw [same, noSub] at there
          cases there
        · rw [NameTree.sub?_put_ne (Ne.symm same)] at there
          exact NameTree.shape_eq_sub.mpr there
      | cons k' q =>
        rw [NameTree.shapeAt_cons] at isSub ⊢
        by_cases same : k' = key
        · rw [same, noSub] at isSub
          cases isSub
        · rwa [NameTree.sub?_put_ne (Ne.symm same)] at isSub
  | cons segment path ih =>
    rw [insertAt_cons] at inserted
    split_ifs at inserted
    cases below : insertAt ((data.sub? segment).getD .nil) path key v with
    | error e =>
      rw [below] at inserted
      cases inserted
    | ok dic =>
      rw [below] at inserted
      cases inserted
      cases q with
      | nil =>
        by_cases same : k = segment
        · exact .inr (List.cons_prefix_cons.mpr ⟨same, List.nil_prefix⟩)
        · have there := NameTree.shape_eq_sub.mp isSub
          rw [NameTree.sub?_put_ne (Ne.symm same)] at there
          exact .inl (NameTree.shape_eq_sub.mpr there)
      | cons k' q =>
        rw [NameTree.shapeAt_cons] at isSub
        by_cases same : k' = segment
        · rw [same, NameTree.sub?_put_self, Option.bind_some] at isSub
          rcases ih below isSub with before | onTheWay
          · exact .inl (by rw [same, ← shapeAt_child]; exact before)
          · exact .inr (List.cons_prefix_cons.mpr ⟨same, onTheWay⟩)
        · rw [NameTree.sub?_put_ne (Ne.symm same)] at isSub
          exact .inl (by rwa [NameTree.shapeAt_cons])

structure Partial (data d : Dict) : Prop where
  values : ∀ q k w, d.valueAt q k = some w → ∃ v, data.valueAt q k = some v ∧ w = shown v
  subs : ∀ q k, d.shapeAt q k = some none → data.shapeAt q k = some none

theorem Partial.insertAt (part : Partial data d) (value : data.valueAt q k = some v) :
    ∃ d', insertAt d q k (shown v) = .ok d' ∧ Partial data d' ∧ d'.valueAt q k = some (shown v) ∧
      ∀ q' k', d.valueAt q' k' ≠ none → d'.valueAt q' k' ≠ none := by
  have free : (∀ p k', p ++ [k'] <+: q → d.valueAt p k' = none) ∧ d.shapeAt q k ≠ some none := by
    refine ⟨fun p k' pre => ?_, fun isSub => ?_⟩
    · have isSub := NameTree.shapeAt_of_valueAt value pre
      by_contra there
      obtain ⟨w, there⟩ := Option.ne_none_iff_exists'.mp there
      obtain ⟨v', here, -⟩ := part.values p k' w there
      rw [shapeAt_of_value here] at isSub
      cases isSub
    · have isSub := part.subs q k isSub
      rw [shapeAt_of_value value] at isSub
      cases isSub
  obtain ⟨d', inserted⟩ := (insertAt_ok_iff d q k (shown v)).mpr free
  have after (q' : List Text) (k' : Text) : d'.valueAt q' k' = if q' = q ∧ k' = k then some (shown v) else d.valueAt q' k' :=
    valueAt_insertAt inserted
  refine ⟨d', inserted, ⟨fun q' k' w there => ?_, fun q' k' isSub => ?_⟩, (after q k).trans (if_pos ⟨rfl, rfl⟩), fun q' k' there => ?_⟩
  · rw [after] at there
    split_ifs at there with here
    · obtain ⟨rfl, rfl⟩ := here
      exact ⟨v, value, (Option.some.inj there).symm⟩
    · exact part.values q' k' w there
  · rcases shapeAt_insertAt_sub inserted isSub with before | onTheWay
    · exact part.subs q' k' before
    · exact NameTree.shapeAt_of_valueAt value onTheWay
  · rw [after]
    split_ifs
    · exact Option.some_ne_none _
    · exact there

variable (environ fuel) in
theorem insertLines_lineOf (sound : Sound data) {items : List Item}
    (listed : ∀ item ∈ items, data.valueAt item.1 item.2.1 = some item.2.2)
    (closed : ∀ item ∈ items, search '{' '}' (shown item.2.2) = none) (part : Partial data d) :
    ∃ d', insertLines environ (fuel + 1) d (items.map lineOf) = some (.ok d') ∧ Partial data d' ∧
      (∀ q k, d.valueAt q k ≠ none → d'.valueAt q k ≠ none) ∧ ∀ item ∈ items, d'.valueAt item.1 item.2.1 ≠ none := by
  induction items generalizing d with
  | nil => exact ⟨d, rfl, part, fun _ _ => id, nofun⟩
  | cons item items ih =>
    obtain ⟨q, k, v⟩ := item
    have value : data.valueAt q k = some v := listed _ (.head _)
    obtain ⟨key, cleanKey, path, base⟩ := sound.keys q k v value
    obtain ⟨d₁, inserted, part₁, here, kept⟩ := part.insertAt value
    obtain ⟨d', rest, part', kept', all⟩ := ih (fun item among => listed item (.tail _ among))
      (fun item among => closed item (.tail _ among)) part₁
    refine ⟨d', ?_, part', fun q k there => kept' q k (kept q k there), fun item among => ?_⟩
    · rw [List.map_cons, insertLines, parseline_lineOf cleanKey path base]
      dsimp only
      rw [substEnvVar, expand_none (closed _ (.head _))]
      dsimp only
      rw [insertkey, path, base, inserted]
      exact rest
    · rcases List.mem_cons.mp among with rfl | later
      · exact kept' q k (by rw [here]; exact Option.some_ne_none _)
      · exact all item later

theorem closed_of_insertLines (sound : Sound data) {items : List Item}
    (listed : ∀ item ∈ items, data.valueAt item.1 item.2.1 = some item.2.2)
    (unknown : ∀ item ∈ items, ∀ before name after, search '{' '}' (shown item.2.2) = some (before, name, after) →
      environ.lookup name = none)
    {d' : Dict} (result : insertLines environ fuel d (items.map lineOf) = some (.ok d')) :
    ∀ item ∈ items, search '{' '}' (shown item.2.2) = none := by
  induction items generalizing d with
  | nil => exact nofun
  | cons item items ih =>
    obtain ⟨q, k, v⟩ := item
    obtain ⟨key, cleanKey, path, base⟩ := sound.keys q k v (listed _ (.head _))
    have later {d : Dict} := ih (d := d) (fun item among => listed item (.tail _ among))
      (fun item among => unknown item (.tail _ among))
    have parsed := parseline_lineOf (v := v) cleanKey path base
    rw [List.map_cons] at result
    rcases insertLines_cases result with ⟨e, other, -⟩ | ⟨empty, -⟩ | ⟨key', value, w, d₁, parsed', turn, -, rest⟩
    · cases other
    · rw [parsed] at empty
      cases empty
    · obtain ⟨rfl, rfl⟩ : key = key' ∧ shown v = value := by
        simpa using parsed.symm.trans parsed'
      intro item among
      rcases List.mem_cons.mp among with rfl | among
      · by_contra some
        obtain ⟨⟨before, name, after⟩, found⟩ := Option.ne_none_iff_exists'.mp some
        have noValue := unknown _ (.head _) before name after found
        cases fuel with
        | zero => cases turn
        | succ fuel =>
          rw [substEnvVar, expand, found] at turn
          dsimp only at turn
          rw [lookupVariable, noValue] at turn
          cases turn
      · exact later rest item among

def RoundTrips (environ : List (Text × Text)) (data : Dict) : Prop :=
  ∃ fuel d, readparams environ fuel .nil ((str data).splitOn '\n') = some (.ok d) ∧ ∀ q k, d.valueAt q k = data.valueAt q k

def OneLine (data : Dict) : Prop :=
  ∀ q k v, data.valueAt q k = some v → '\n' ∉ join (q ++ [k]) ∧ '\n' ∉ v

structure Printable (data : Dict) : Prop where
  oneLine : OneLine data
  clean : ∀ q k v, data.valueAt q k = some v → Clean v
  noVariable : ∀ q k v, data.valueAt q k = some v → ¬HasReference '{' '}' v

def UnknownVariables (environ : List (Text × Text)) (data : Dict) : Prop :=
  ∀ q k v, data.valueAt q k = some v → ∀ before name after, search '{' '}' (shown v) = some (before, name, after) →
    environ.lookup name = none

theorem mem_items (sound : Sound data) : item ∈ recurseIter data [] ↔ data.valueAt item.1 item.2.1 = some item.2.2 := by
  rw [mem_recurseIter sound.distinct]
  constructor
  · rintro ⟨q, path, value⟩
    rwa [path, List.nil_append]
  · exact fun value => ⟨item.1, (List.nil_append _).symm, value⟩

theorem insertLines_str (sound : Sound data) (oneLine : OneLine data) :
    insertLines environ fuel .nil ((str data).splitOn '\n') =
      insertLines environ fuel .nil ((recurseIter data []).map lineOf) := by
  by_cases empty : recurseIter data [] = []
  · rw [str, empty]
    rfl
  · rw [str, List.splitOn_intercalate '\n' (fun line among newline => ?_) (by simpa using empty)]
    obtain ⟨⟨q, k, v⟩, listed, rfl⟩ := List.mem_map.mp among
    have noNewline := oneLine q k v ((mem_items sound).mp listed)
    rw [lineOf, List.mem_append, List.mem_append] at newline
    rcases newline with (inKey | between) | inValue
    · exact noNewline.1 inKey
    · exact absurd between (by decide)
    · exact noNewline.2 inValue

theorem partial_nil (data : Dict) : Partial data .nil := by
  refine ⟨fun q k w there => ?_, fun q k isSub => ?_⟩
  · rw [valueAt_empty] at there
    cases there
  · cases q with
    | nil => cases isSub
    | cons k' q =>
      rw [NameTree.shapeAt_cons] at isSub
      cases isSub

theorem Partial.valueAt {d : Dict} (part : Partial data d) (all : ∀ q k v, data.valueAt q k = some v → d.valueAt q k ≠ none)
    (q : List Text) (k : Text) : d.valueAt q k = (data.valueAt q k).map shown := by
  cases value : data.valueAt q k with
  | none =>
    by_contra there
    obtain ⟨w, there⟩ := Option.ne_none_iff_exists'.mp there
    obtain ⟨v, here, -⟩ := part.values q k w there
    rw [value] at here
    cases here
  | some v =>
    obtain ⟨w, there⟩ := Option.ne_none_iff_exists'.mp (all q k v value)
    obtain ⟨v', here, rfl⟩ := part.values q k w there
    rw [there, Option.some.inj (value.symm.trans here)]
    rfl

variable (environ fuel) in
theorem readparams_str (sound : Sound data) (oneLine : OneLine data)
    (closed : ∀ q k v, data.valueAt q k = some v → search '{' '}' (shown v) = none) :
    ∃ d, readparams environ (fuel + 1) .nil ((str data).splitOn '\n') = some (.ok d) ∧
      ∀ q k, d.valueAt q k = (data.valueAt q k).map shown := by
  obtain ⟨d, result, part, -, all⟩ := insertLines_lineOf environ fuel sound
    (fun item (listed : item ∈ recurseIter data []) => (mem_items sound).mp listed)
    (fun item listed => closed _ _ _ ((mem_items sound).mp listed)) (partial_nil data)
  have values := part.valueAt fun q k v value => all (q, k, v) ((mem_items sound).mpr value)
  have resolved : Resolved d := by
    intro q k w there
    rw [values] at there
    obtain ⟨v, value, rfl⟩ := Option.map_eq_some_iff.mp there
    have none := noReference_of_search (oneLine q k v value).2 (sound.resolved q k v value)
    exact search_eq_none fun has => none (hasReference_of_shown has)
  refine ⟨d, ?_, values⟩
  rw [readparams, insertLines_str sound oneLine, result]
  exact substReferences_resolved resolved _

/-- Every tree that is printable is read back. If a tree of keys and values on one line, with no variable that is known, is
read back then it is printable. -/
theorem roundTrips_iff_printable (environ : List (Text × Text)) (data : Dict) (reached : Reached data) :
    (Printable data → RoundTrips environ data) ∧
      (OneLine data → UnknownVariables environ data → (RoundTrips environ data ↔ Printable data)) := by
  have sound := sound_of_reached reached
  have back (printable : Printable data) : RoundTrips environ data := by
    have same {q : List Text} {k v : Text} (value : data.valueAt q k = some v) := shown_clean (printable.clean q k v value)
    obtain ⟨d, result, values⟩ := readparams_str environ 0 sound printable.oneLine fun q k v value => by
      rw [same value]
      exact search_eq_none (printable.noVariable q k v value)
    refine ⟨1, d, result, fun q k => ?_⟩
    rw [values]
    cases value : data.valueAt q k with
    | none => rfl
    | some v => rw [Option.map_some, same value]
  refine ⟨back, fun oneLine unknown => ⟨fun ⟨fuel, d, result, values⟩ => ?_, back⟩⟩
  obtain ⟨d', inserted, -⟩ := readparams_ok result
  rw [insertLines_str sound oneLine] at inserted
  have listed (item : Item) (among : item ∈ recurseIter data []) := (mem_items sound).mp among
  have closed := closed_of_insertLines sound listed (fun item among => unknown _ _ _ (listed item among)) inserted
  have closed (q : List Text) (k v : Text) (value : data.valueAt q k = some v) : search '{' '}' (shown v) = none :=
    closed (q, k, v) ((mem_items sound).mpr value)
  obtain ⟨d₁, result₁, values₁⟩ := readparams_str environ fuel sound oneLine closed
  rw [readparams_add result 1] at result₁
  obtain rfl : d = d₁ := Except.ok.inj (Option.some.inj result₁)
  have same (q : List Text) (k v : Text) (value : data.valueAt q k = some v) : shown v = v := by
    have read := (values₁ q k).symm.trans (values q k)
    rw [value] at read
    exact Option.some.inj read
  refine ⟨oneLine, fun q k v value => shown_eq_iff.mp (same q k v value), fun q k v value => ?_⟩
  refine noReference_of_search (oneLine q k v value).2 ?_
  rw [← same q k v value]
  exact closed q k v value

def nested : Dict := .sub ['b'] (.value ['a'] ['1'] .nil) .nil

theorem reached_nested : Reached nested := .readparams [] 1 [['b', '.', 'a', '=', '1']] .empty rfl

theorem roundTrips_nested : Printable nested ∧ RoundTrips [] nested := by
  have printable : Printable nested := by
    have only (q : List Text) (k v : Text) (value : nested.valueAt q k = some v) :
        q = [['b']] ∧ k = ['a'] ∧ v = ['1'] := by
      rcases (NameTree.valueAt_sub rfl).mp value with ⟨q', rfl, inside⟩ | there
      · rcases (NameTree.valueAt_value rfl).mp inside with ⟨rfl, here⟩ | there
        · exact ⟨rfl, here⟩
        · rw [valueAt_empty] at there
          cases there
      · rw [valueAt_empty] at there
        cases there
    refine ⟨fun q k v value => ?_, fun q k v value => ?_, fun q k v value => ?_⟩
    · obtain ⟨rfl, rfl, rfl⟩ := only q k v value
      exact ⟨by decide, by decide⟩
    · obtain ⟨rfl, rfl, rfl⟩ := only q k v value
      exact ⟨by decide, rfl⟩
    · obtain ⟨rfl, rfl, rfl⟩ := only q k v value
      exact noReference_of_search (by decide) rfl
  exact ⟨printable, (roundTrips_iff_printable [] _ reached_nested).1 printable⟩

theorem roundTrips_blank : ∃ d, Reached d ∧ ∀ environ, ¬RoundTrips environ d := by
  refine ⟨.value ['e'] [] (.value ['b'] ['x', ' '] .nil), ?_, ?_⟩
  · exact .readparams [] 2 [['e', '='], ['b', '=', 'x', ' ', '$', '(', 'e', ')']] .empty rfl
  · rintro environ ⟨fuel, d, result, values⟩
    have read : readparams environ (fuel + 1) .nil
        ((str (.value ['e'] [] (.value ['b'] ['x', ' '] .nil))).splitOn '\n') =
          some (.ok (.value ['b'] ['x'] (.value ['e'] [] .nil))) := rfl
    rw [readparams_add result 1] at read
    cases read
    exact absurd (values [] ['b']) (by decide)

end CadoNfs.Cadofactor.CadoParams
