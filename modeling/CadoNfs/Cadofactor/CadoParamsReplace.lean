import CadoNfs.Cadofactor.CadoParamsRead
import CadoNfs.Cadofactor.WuNames

/-!
# Changing one parameter

`unset`, `set_if_unset` and `replace` of `cadofactor/cadoparams.py`.
-/

namespace CadoNfs.Cadofactor.CadoParams
open Lib WuNames

inductive EditFailure where
  | noKey (base : Text)
  | read (e : Failure)
  | notConvertible (v : Option Text)
  deriving DecidableEq

def deleteFound (base : Text) (d : Dict) (found : Bool) : Except EditFailure Dict :=
  if found then
    if (d.get? base).isSome then .ok (d.erase base) else .error (.noKey base)
  else .ok d

def unsetLoop (base : Text) : Dict → Bool → List Text → Except EditFailure Dict
  | d, found, [] => deleteFound base d found
  | d, found, node :: path =>
    match d.get? node with
    | some (.sub dic) => (unsetLoop base dic (found || (dic.get? base).isSome) path).map fun dic => d.put node (.sub dic)
    | _ => deleteFound base d found

def unset (data : Dict) (key : Text) : Except EditFailure Dict :=
  unsetLoop (baseOf key) data (data.get? (baseOf key)).isSome (pathOf key)

/-- A value: its text, and what its type can be made from, at least from its own text. -/
structure PyValue where
  text : Text
  converts : Option Text → Bool
  own : converts (some text)

def convertOneType (data : Dict) (value : PyValue) (v : Option Text) : Except EditFailure (Dict × Option Text) :=
  if value.converts v then .ok (data, v) else .error (.notConvertible v)

def setIfUnset (environ : List (Text × Text)) (fuel : ℕ) (data : Dict) (key : Text) (value : PyValue) :
    Option (Except EditFailure (Dict × Option Text)) :=
  let s := rsplit '.' 1 key
  let base := s.getLastD []
  let path := s.dropLast
  let v := myparams data [base] path
  if v.length = 0 then
    match readparams environ fuel data [key ++ '=' :: value.text] with
    | none => none
    | some (.error e) => some (.error (.read e))
    | some (.ok data) => some (convertOneType data value (((myparams data [base] path).lookup base).map Prod.fst))
  else some (convertOneType data value ((v.lookup base).map Prod.fst))

def replace (environ : List (Text × Text)) (fuel : ℕ) (data : Dict) (key : Text) (value : PyValue) :
    Option (Except EditFailure Dict) :=
  match unset data key with
  | .error e => some (.error e)
  | .ok data => (setIfUnset environ fuel data key value).map fun result => result.map Prod.fst

def lookup (data : Dict) (key : Text) : Option Text :=
  let s := rsplit '.' 1 key
  ((myparams data [s.getLastD []] s.dropLast).lookup (s.getLastD [])).map Prod.fst

variable {data d : Dict} {base node key key' : Text} {path p q : List Text} {found : Bool}

theorem join_concat (nonempty : p ≠ []) : join (p ++ [base]) = join p ++ '.' :: base := by
  induction p with
  | nil => exact absurd rfl nonempty
  | cons k p ih =>
    by_cases last : p = []
    · subst last
      simp [join]
    · rw [join, List.cons_append, List.intercalate_cons_of_ne_nil (by simp)]
      have rest := ih last
      rw [join] at rest
      rw [rest, join, join, List.intercalate_cons_of_ne_nil last]
      simp

theorem rsplit_key (key : Text) :
    rsplit '.' 1 key = if pathOf key = [] then [key] else [join (pathOf key), baseOf key] := by
  have noPeriod := baseOf_noPeriod key
  by_cases none : pathOf key = []
  · have whole : baseOf key = key := by
      have joined := join_pathOf key
      rwa [none, List.nil_append, join, List.intercalate_singleton] at joined
    have all : ∀ c ∈ key.reverse, decide (c ≠ '.') = true := fun c among =>
      decide_eq_true fun eq => noPeriod (whole.symm ▸ eq ▸ List.mem_reverse.mp among)
    rw [if_pos none, rsplit, List.dropWhile_eq_nil_iff.mpr all]
  · have split : rsplit '.' 1 (join (pathOf key) ++ '.' :: baseOf key) = _ := rsplit_append 0 (join (pathOf key)) noPeriod
    rw [← join_concat none, join_pathOf] at split
    rw [if_neg none, split]
    rfl

theorem rsplit_base (key : Text) : (rsplit '.' 1 key).getLastD [] = baseOf key := by
  rw [rsplit_key]
  split_ifs with none
  · have joined := join_pathOf key
    rw [none, List.nil_append, join, List.intercalate_singleton] at joined
    exact joined.symm
  · rfl

theorem splitPath_rsplit (key : Text) : splitPath (rsplit '.' 1 key).dropLast = splitPath (pathOf key) := by
  rw [rsplit_key]
  split_ifs with none
  · rw [none]
    rfl
  · rw [splitPath, splitPath]
    exact congrArg (List.splitOn '.') List.intercalate_singleton

theorem lookup_eq (data : Dict) (key : Text) :
    lookup data key = (data.inherited (baseOf key) (splitPath (pathOf key))).map Prod.snd := by
  rw [lookup, rsplit_base, myparams_lookup, splitPath_rsplit, Option.map_map]
  rfl

/-! ## The walk of `unset` -/

def reach : Dict → List Text → List Text
  | _, [] => []
  | d, node :: path =>
    match d.sub? node with
    | none => []
    | some dic => node :: reach dic path

theorem reach_prefix (d : Dict) (path : List Text) : reach d path <+: path := by
  induction path generalizing d with
  | nil => exact List.nil_prefix
  | cons node path ih =>
    rw [reach]
    cases d.sub? node with
    | none => exact List.nil_prefix
    | some dic => exact List.cons_prefix_cons.mpr ⟨rfl, ih dic⟩

theorem prefix_reach (pre : q <+: path) (there : (d.node q).isSome) : q <+: reach d path := by
  induction path generalizing d q with
  | nil =>
    rw [List.prefix_nil.mp pre]
    exact List.nil_prefix
  | cons node path ih =>
    rcases List.prefix_cons_iff.mp pre with rfl | ⟨q, rfl, rest⟩
    · exact List.nil_prefix
    · rw [NameTree.node] at there
      rw [reach]
      cases child : d.sub? node with
      | none =>
        rw [child] at there
        cases there
      | some dic =>
        rw [child] at there
        exact List.cons_prefix_cons.mpr ⟨rfl, ih rest there⟩

theorem node_of_shapeAt (there : d.shapeAt q base ≠ none) : (d.node q).isSome := by
  rw [Option.isSome_iff_ne_none]
  intro none
  rw [NameTree.shapeAt, none] at there
  exact there rfl

def Seen (data : Dict) (base : Text) (path : List Text) : Prop := ∃ q, q <+: path ∧ data.shapeAt q base ≠ none

theorem get?_isSome_iff : (d.get? base).isSome ↔ d.shapeAt [] base ≠ none := by
  rw [Option.isSome_iff_ne_none]
  exact not_congr NameTree.shape_eq_none.symm

def SeenBelow (d : Dict) (base : Text) (path : List Text) : Prop :=
  ∃ q, q ≠ [] ∧ q <+: path ∧ d.shapeAt q base ≠ none

theorem seenBelow_cons : SeenBelow d base (node :: path) ↔
    ∃ dic, d.sub? node = some dic ∧ (dic.shapeAt [] base ≠ none ∨ SeenBelow dic base path) := by
  constructor
  · rintro ⟨q, nonempty, pre, there⟩
    obtain ⟨k, q, rfl⟩ := List.exists_cons_of_ne_nil nonempty
    obtain ⟨rfl, rest⟩ := List.cons_prefix_cons.mp pre
    rw [NameTree.shapeAt_cons] at there
    cases child : d.sub? k with
    | none =>
      rw [child] at there
      exact absurd rfl there
    | some dic =>
      rw [child, Option.bind_some] at there
      by_cases here : q = []
      · exact ⟨dic, rfl, .inl (here ▸ there)⟩
      · exact ⟨dic, rfl, .inr ⟨q, here, rest, there⟩⟩
  · rintro ⟨dic, child, there | ⟨q, -, rest, there⟩⟩
    · refine ⟨[node], nofun, List.cons_prefix_cons.mpr ⟨rfl, List.nil_prefix⟩, ?_⟩
      rwa [NameTree.shapeAt_cons, child]
    · refine ⟨node :: q, nofun, List.cons_prefix_cons.mpr ⟨rfl, rest⟩, ?_⟩
      rwa [NameTree.shapeAt_cons, child]

theorem deleteFound_eq : deleteFound base d true =
    if d.shapeAt [] base ≠ none then .ok (d.eraseAt [] base) else .error (.noKey base) := by
  rw [deleteFound, if_pos rfl]
  exact if_congr get?_isSome_iff rfl rfl

theorem unsetLoop_seen (seen : found = true ∨ SeenBelow d base path) : unsetLoop base d found path =
    if d.shapeAt (reach d path) base ≠ none then .ok (d.eraseAt (reach d path) base) else .error (.noKey base) := by
  induction path generalizing d found with
  | nil =>
    have root : found = true := seen.resolve_right fun ⟨q, nonempty, pre, _⟩ => nonempty (List.prefix_nil.mp pre)
    rw [root, unsetLoop, reach]
    exact deleteFound_eq
  | cons node path ih =>
    rw [reach]
    cases child : d.sub? node with
    | none =>
      have root : found = true := seen.resolve_right fun below => by
        obtain ⟨dic, there, -⟩ := seenBelow_cons.mp below
        rw [child] at there
        cases there
      have stops : unsetLoop base d true (node :: path) = deleteFound base d true := by
        rw [unsetLoop]
        split
        · rename_i dic entry
          rw [NameTree.get?_eq_sub, child] at entry
          cases entry
        · rfl
      rw [root, stops]
      exact deleteFound_eq
    | some dic =>
      have later : (found || (dic.get? base).isSome) = true ∨ SeenBelow dic base path := by
        rcases seen with root | below
        · exact .inl (by rw [root]; rfl)
        · obtain ⟨dic', there, here⟩ := seenBelow_cons.mp below
          obtain rfl : dic = dic' := Option.some.inj (child.symm.trans there)
          exact here.imp_left fun here => by rw [get?_isSome_iff.mpr here, Bool.or_true]
      have shapes : d.shapeAt (node :: reach dic path) base = dic.shapeAt (reach dic path) base := by
        rw [NameTree.shapeAt_cons, child, Option.bind_some]
      have erased : d.eraseAt (node :: reach dic path) base = d.put node (.sub (dic.eraseAt (reach dic path) base)) := by
        rw [NameTree.eraseAt, NameTree.update, child]
        rfl
      rw [unsetLoop, NameTree.get?_eq_sub.mpr child]
      dsimp only
      rw [ih later, shapes, erased]
      split_ifs
      · rfl
      · rfl

theorem unsetLoop_unseen (unseen : ¬SeenBelow d base path) : unsetLoop base d false path = .ok d := by
  induction path generalizing d with
  | nil => rfl
  | cons node path ih =>
    rw [unsetLoop]
    split
    · rename_i dic entry
      have child := NameTree.get?_eq_sub.mp entry
      have below : ¬SeenBelow dic base path := fun below => unseen (seenBelow_cons.mpr ⟨dic, child, .inr below⟩)
      have here : (dic.get? base).isSome = false := by
        rw [Bool.eq_false_iff]
        exact fun here => unseen (seenBelow_cons.mpr ⟨dic, child, .inl (get?_isSome_iff.mp here)⟩)
      rw [here, Bool.or_false, ih below]
      exact congrArg Except.ok (NameTree.put_self entry)
    · rfl

theorem seen_iff : Seen d base path ↔ (d.get? base).isSome ∨ SeenBelow d base path := by
  rw [get?_isSome_iff]
  constructor
  · rintro ⟨q, pre, there⟩
    by_cases root : q = []
    · exact .inl (root ▸ there)
    · exact .inr ⟨q, root, pre, there⟩
  · rintro (there | ⟨q, -, pre, there⟩)
    · exact ⟨[], List.nil_prefix, there⟩
    · exact ⟨q, pre, there⟩

theorem unset_seen (seen : Seen d (baseOf key) (pathOf key)) : unset d key =
    if d.shapeAt (reach d (pathOf key)) (baseOf key) ≠ none then .ok (d.eraseAt (reach d (pathOf key)) (baseOf key))
    else .error (.noKey (baseOf key)) := unsetLoop_seen (seen_iff.mp seen)

theorem unset_unseen (unseen : ¬Seen d (baseOf key) (pathOf key)) : unset d key = .ok d := by
  rw [seen_iff, not_or, Bool.not_eq_true] at unseen
  rw [unset, unseen.1]
  exact unsetLoop_unseen unseen.2

/-! ## When only the entry itself is deleted -/

def UnsetsOnly (data : Dict) (key : Text) : Prop :=
  ∃ d, unset data key = .ok d ∧ ∀ q k, ¬(q = pathOf key ∧ k = baseOf key) → d.shapeAt q k = data.shapeAt q k

/-- The parameter is set at its node, or its name is at no node of the path. -/
def Settled (data : Dict) (key : Text) : Prop :=
  (data.valueAt (pathOf key) (baseOf key)).isSome ∨ ¬Seen data (baseOf key) (pathOf key)

theorem shapeAt_of_noSub (noSub : data.shapeAt q base ≠ some none) (there : data.shapeAt q base ≠ none) :
    (data.valueAt q base).isSome := by
  rw [← NameTree.shapeAt_join]
  cases shape : data.shapeAt q base with
  | none => exact absurd shape there
  | some v =>
    cases v with
    | none => exact absurd shape noSub
    | some v => rfl

theorem unset_settled (noSub : data.shapeAt (pathOf key) (baseOf key) ≠ some none) (settled : Settled data key) :
    ∃ d, unset data key = .ok d ∧ ∀ q k,
      d.shapeAt q k = if q = pathOf key ∧ k = baseOf key then none else data.shapeAt q k := by
  by_cases seen : Seen data (baseOf key) (pathOf key)
  · obtain ⟨v, value⟩ := Option.isSome_iff_exists.mp (settled.resolve_right fun unseen => unseen seen)
    have there : data.shapeAt (pathOf key) (baseOf key) ≠ none := by
      rw [shapeAt_of_value value]
      exact nofun
    have whole : reach data (pathOf key) = pathOf key := ( reach_prefix data _).eq_of_length_le
      (prefix_reach (List.prefix_refl _) (node_of_shapeAt there)).length_le
    refine ⟨_, ?_, fun q k => NameTree.shapeAt_eraseAt noSub⟩
    rw [unset_seen seen, whole, if_pos there]
  · refine ⟨data, unset_unseen seen, fun q k => ?_⟩
    split_ifs with same
    · rw [same.1, same.2]
      exact not_not.mp fun there => seen ⟨_, List.prefix_refl _, there⟩
    · rfl

theorem unsetsOnly_iff (noSub : data.shapeAt (pathOf key) (baseOf key) ≠ some none) :
    UnsetsOnly data key ↔ Settled data key := by
  constructor
  · rintro ⟨d, ok, same⟩
    by_cases seen : Seen data (baseOf key) (pathOf key)
    · rw [unset_seen seen] at ok
      split_ifs at ok with there
      obtain rfl := Except.ok.inj ok
      by_cases whole : reach data (pathOf key) = pathOf key
      · rw [whole] at there
        exact .inl (shapeAt_of_noSub noSub there)
      · have gone := same (reach data (pathOf key)) (baseOf key) fun both => whole both.1
        rw [NameTree.shapeAt_eraseAt_self] at gone
        exact absurd gone.symm there
    · exact .inr seen
  · intro settled
    obtain ⟨d, ok, shapes⟩ := unset_settled noSub settled
    exact ⟨d, ok, fun q k other => (shapes q k).trans (if_neg other)⟩

/-! ## When a value is replaced -/

def Outside (key key' : Text) : Prop := ¬(baseOf key' = baseOf key ∧ pathOf key <+: splitPath (pathOf key'))

def Replaces (environ : List (Text × Text)) (data : Dict) (key : Text) (value : PyValue) : Prop :=
  ∃ fuel d, replace environ fuel data key value = some (.ok d) ∧ lookup d key = some value.text ∧
    ∀ key', Outside key key' → lookup d key' = lookup data key'

def above (data : Dict) (key : Text) : Option Text :=
  if pathOf key = [] then data.valueAt [[]] (baseOf key)
  else (data.inherited (baseOf key) (pathOf key).dropLast).map Prod.snd

def Free (data : Dict) (path : List Text) : Prop := ∀ p k, p ++ [k] <+: path → data.valueAt p k = none

structure Replaceable (data : Dict) (key text : Text) : Prop where
  settled : Settled data key
  value : above data key = some text ∨ above data key = none ∧ CleanKey key ∧ Clean text ∧ Free data (pathOf key)

def NoReference (text : Text) : Prop := ¬HasReference '(' ')' text ∧ ¬HasReference '{' '}' text

theorem prefix_splitPath (key : Text) : pathOf key <+: splitPath (pathOf key) := by
  rw [splitPath_pathOf]
  split_ifs with none
  · rw [none]
    exact List.nil_prefix
  · exact List.prefix_refl _

theorem lookup_congr (same : ∀ q, q <+: splitPath (pathOf key) → d.valueAt q (baseOf key) = data.valueAt q (baseOf key)) :
    lookup d key = lookup data key := by
  rw [lookup_eq, lookup_eq, NameTree.inherited_congr same]

theorem lookup_eq_none : lookup data key = none ↔ ∀ q, q <+: splitPath (pathOf key) → data.valueAt q (baseOf key) = none := by
  rw [lookup_eq, Option.map_eq_none_iff]
  exact NameTree.inherited_eq_none

def SameBut (data d : Dict) (path : List Text) (base : Text) (v : Option Text) : Prop :=
  ∀ q k, d.valueAt q k = if q = path ∧ k = base then v else data.valueAt q k

section Removed

variable {u : Dict}

theorem SameBut.outside {v : Option Text} (same : SameBut data u (pathOf key) (baseOf key) v) (outside : Outside key key') :
    lookup u key' = lookup data key' := by
  refine lookup_congr fun q pre => ?_
  rw [same q (baseOf key'), if_neg]
  rintro ⟨rfl, base⟩
  exact outside ⟨base, pre⟩

theorem lookup_removed (same : SameBut data u (pathOf key) (baseOf key) none) : lookup u key = above data key := by
  have own : u.valueAt (pathOf key) (baseOf key) = none := by rw [same, if_pos ⟨rfl, rfl⟩]
  rw [lookup_eq, above, splitPath_pathOf]
  split_ifs with none
  · have other : u.valueAt [[]] (baseOf key) = data.valueAt [[]] (baseOf key) := by
      rw [same, if_neg]
      rw [none]
      exact fun both => List.cons_ne_nil _ _ both.1
    have step : u.inherited (baseOf key) ([] ++ [[]]) = _ := NameTree.inherited_concat
    have root : u.inherited (baseOf key) [] = Option.none := by
      rw [NameTree.inherited_eq_none]
      intro q pre
      rw [List.prefix_nil.mp pre, ← none]
      exact own
    rw [List.nil_append, root, Option.or_none, other] at step
    rw [step, Option.map_map]
    exact Option.map_id'
  · obtain ⟨before, last, split⟩ := List.eq_nil_or_concat (pathOf key) |>.resolve_left none
    have step : u.inherited (baseOf key) (before ++ [last]) = _ := NameTree.inherited_concat
    rw [List.concat_eq_append] at split
    rw [← split, own, Option.map_none, Option.none_or] at step
    rw [step, split, List.dropLast_concat]
    refine congrArg (Option.map Prod.snd) (NameTree.inherited_congr fun q pre => ?_)
    rw [same, if_neg]
    rintro ⟨rfl, -⟩
    have short := pre.length_le
    rw [split] at short
    simp at short

end Removed

section Line

variable {environ : List (Text × Text)} {fuel : ℕ} {line v text : Text} {u : Dict}

theorem readparams_line (read : readparams environ fuel u [line] = some (.ok d)) :
    (∃ key' v v' d', parseline (stripOf (· = '\n') line) = .ok (some (key', v)) ∧
      substEnvVar environ fuel key' v = some (.ok v') ∧ insertkey u key' v' = .ok d' ∧ Keeps d' d) ∨ Keeps u d := by
  rw [readparams, insertLines] at read
  cases parsed : parseline (stripOf (· = '\n') line) with
  | error e =>
    rw [parsed] at read
    cases read
  | ok pair =>
    rw [parsed] at read
    cases pair with
    | none => exact .inr (keeps_substReferences read)
    | some pair =>
      obtain ⟨key', v⟩ := pair
      dsimp only at read
      cases substituted : substEnvVar environ fuel key' v with
      | none =>
        rw [substituted] at read
        cases read
      | some result =>
        cases result with
        | error e =>
          rw [substituted] at read
          cases read
        | ok v' =>
          rw [substituted] at read
          dsimp only at read
          cases inserted : insertkey u key' v' with
          | error e =>
            rw [inserted] at read
            cases read
          | ok d' =>
            rw [inserted] at read
            exact .inl ⟨key', v, v', d', rfl, substituted, inserted, keeps_substReferences read⟩

theorem Keeps.same_of_resolved (keeps : Keeps u d) (resolved : Resolved u) (q : List Text) (k : Text) :
    d.valueAt q k = u.valueAt q k := by
  cases value : u.valueAt q k with
  | none => exact keeps.valueAt_none value
  | some v => exact keeps.valueAt_some value (resolved q k v value)

theorem sameBut_inserted {d' : Dict} (resolved : Resolved u) (inserted : insertkey u key v = .ok d') (keeps : Keeps d' d) :
    ∃ v', SameBut u d (pathOf key) (baseOf key) (some v') ∧ (search '(' ')' v = none → v' = v) := by
  have after (q : List Text) (k : Text) := valueAt_insertAt (q := q) (k := k) inserted
  have own : d'.valueAt (pathOf key) (baseOf key) = some v := by rw [after, if_pos ⟨rfl, rfl⟩]
  have kept : ∃ v', d.valueAt (pathOf key) (baseOf key) = some v' ∧ (search '(' ')' v = none → v' = v) := by
    rcases keeps (pathOf key) (baseOf key) with same | ⟨w, w', before, now, reference⟩
    · refine ⟨v, ?_, fun _ => rfl⟩
      rw [← NameTree.shapeAt_join, same, NameTree.shapeAt_join]
      exact own
    · rw [shapeAt_of_value own] at before
      cases before
      refine ⟨w', ?_, fun none => absurd none reference⟩
      rw [← NameTree.shapeAt_join, now]
      rfl
  obtain ⟨v', here, closed⟩ := kept
  refine ⟨v', fun q k => ?_, closed⟩
  split_ifs with same
  · rw [same.1, same.2]
    exact here
  · have before := after q k
    rw [if_neg same] at before
    cases value : u.valueAt q k with
    | none => exact keeps.valueAt_none (before.trans value)
    | some w => exact keeps.valueAt_some (before.trans value) (resolved q k w value)

theorem exists_absent (d : Dict) (n : ℕ) : ∃ s : Text, n ≤ s.length ∧ '.' ∉ s ∧ d.sub? s = none := by
  have bound : ∃ b, ∀ key : Text, b < key.length → d.get? key = none := by
    induction d with
    | nil => exact ⟨0, fun _ _ => rfl⟩
    | value k v rest ih =>
      obtain ⟨b, none⟩ := ih
      refine ⟨max k.length b, fun key long => ?_⟩
      rw [NameTree.get?, if_neg, none key (lt_of_le_of_lt (le_max_right _ _) long)]
      rintro rfl
      exact absurd long (Nat.not_lt.mpr (le_max_left _ _))
    | sub k tree rest _ ih =>
      obtain ⟨b, none⟩ := ih
      refine ⟨max k.length b, fun key long => ?_⟩
      rw [NameTree.get?, if_neg, none key (lt_of_le_of_lt (le_max_right _ _) long)]
      rintro rfl
      exact absurd long (Nat.not_lt.mpr (le_max_left _ _))
  obtain ⟨b, none⟩ := bound
  refine ⟨List.replicate (max n (b + 1)) 'x', ?_, fun period => ?_, ?_⟩
  · rw [List.length_replicate]
    exact le_max_left _ _
  · exact absurd (List.eq_of_mem_replicate period) (by decide)
  · refine (NameTree.get?_eq_none.mp (none _ ?_)).2
    rw [List.length_replicate]
    exact lt_of_lt_of_le (Nat.lt_succ_self b) (le_max_right _ _)

theorem exists_outside (u : Dict) (key : Text) (proper : p <+: pathOf key) (other : p ≠ pathOf key) :
    ∃ key', baseOf key' = baseOf key ∧ Outside key key' ∧ p <+: splitPath (pathOf key') ∧
      ∀ q, q <+: splitPath (pathOf key') → q <+: p ∨ u.node q = none := by
  obtain ⟨s, long, noPeriod, absent⟩ := exists_absent ((u.node p).getD .nil) ((pathOf key).flatten.length + 1)
  have segments : Segments (p ++ [s]) := fun segment among => by
    rcases List.mem_append.mp among with before | last
    · exact (segments_pathOf key).of_isPrefix proper segment before
    · exact List.mem_singleton.mp last ▸ noPeriod
  have split := splitOn_join segments (baseOf_noPeriod key)
  have path : pathOf (join (p ++ [s] ++ [baseOf key])) = p ++ [s] := by
    rw [pathOf, split, List.dropLast_concat]
  have base : baseOf (join (p ++ [s] ++ [baseOf key])) = baseOf key := by
    rw [baseOf, split, List.getLastD_concat]
  have nodes : splitPath (pathOf (join (p ++ [s] ++ [baseOf key]))) = p ++ [s] := by
    rw [splitPath_pathOf, path, if_neg (by simp)]
  refine ⟨join (p ++ [s] ++ [baseOf key]), base, ?_, ?_, fun q pre => ?_⟩
  · rintro ⟨-, within⟩
    rw [nodes] at within
    rcases List.prefix_concat_iff.mp within with whole | short
    · have among : s ∈ pathOf key := by
        rw [whole]
        exact List.mem_append_right _ (.head _)
      have short := (List.sublist_flatten_of_mem among).length_le
      omega
    · exact other (proper.eq_of_length_le short.length_le)
  · rw [nodes]
    exact List.prefix_append p [s]
  · rw [nodes] at pre
    rcases List.prefix_concat_iff.mp pre with whole | short
    · right
      rw [whole, NameTree.node_append]
      cases node : u.node p with
      | none => rfl
      | some d =>
        rw [node, Option.getD_some] at absent
        rw [Option.bind_some, NameTree.node, absent]
        rfl
    · exact .inl short

end Line

/-! ## The exact condition -/

section Exact

variable {environ : List (Text × Text)} {fuel : ℕ} {u : Dict} {value : PyValue}

theorem sameBut_of_shapes (shapes : ∀ q k, u.shapeAt q k = if q = path ∧ k = base then none else data.shapeAt q k) :
    SameBut data u path base none := by
  intro q k
  rw [← NameTree.shapeAt_join, shapes]
  split_ifs
  · rfl
  · exact NameTree.shapeAt_join data q k

theorem resolved_removed (resolved : Resolved data) (same : SameBut data u path base none) : Resolved u := by
  intro q k v here
  rw [same] at here
  split_ifs at here
  exact resolved q k v here

theorem setIfUnset_found {v : Text} (found : lookup u key = some v) :
    setIfUnset environ fuel u key value = some (convertOneType u value (some v)) := by
  have there : (myparams u [baseOf key] (rsplit '.' 1 key).dropLast).length ≠ 0 := by
    intro none
    rw [lookup, rsplit_base, List.length_eq_zero_iff.mp none] at found
    cases found
  have same : ((myparams u [baseOf key] (rsplit '.' 1 key).dropLast).lookup (baseOf key)).map Prod.fst = some v := by
    rw [← found, lookup, rsplit_base]
  rw [setIfUnset, rsplit_base, if_neg there, same]

theorem setIfUnset_missing (missing : lookup u key = none) : setIfUnset environ fuel u key value =
    match readparams environ fuel u [key ++ '=' :: value.text] with
    | none => none
    | some (.error e) => some (.error (.read e))
    | some (.ok data) => some (convertOneType data value (lookup data key)) := by
  have empty : (myparams u [baseOf key] (rsplit '.' 1 key).dropLast).length = 0 := by
    rw [lookup_eq, Option.map_eq_none_iff] at missing
    rw [myparams_single, splitPath_rsplit, missing]
    rfl
  have same (data : Dict) : ((myparams data [baseOf key] (rsplit '.' 1 key).dropLast).lookup (baseOf key)).map Prod.fst =
      lookup data key := by rw [lookup, rsplit_base]
  rw [setIfUnset, rsplit_base, if_pos empty]
  simp only [same]

theorem replace_eq (ok : unset data key = .ok u) :
    replace environ fuel data key value = (setIfUnset environ fuel u key value).map fun result => result.map Prod.fst := by
  rw [replace, ok]

theorem read_clean (resolved : Resolved u) (noReference : NoReference value.text) (missing : lookup u key = none)
    (read : readparams environ fuel u [key ++ '=' :: value.text] = some (.ok d)) (found : lookup d key = some value.text)
    (outside : ∀ key', Outside key key' → lookup d key' = lookup u key') :
    CleanKey key ∧ Clean value.text ∧ Free u (pathOf key) := by
  have before := lookup_eq_none.mp missing
  rcases readparams_line read with ⟨key', v, v', d', parsed, substituted, inserted, keeps⟩ | keeps
  · obtain ⟨v'', same, closed⟩ := sameBut_inserted resolved inserted keeps
    rw [lookup_eq, Option.map_eq_some_iff] at found
    obtain ⟨⟨p, w⟩, inherited, text⟩ := found
    obtain ⟨pre, here, -⟩ := NameTree.inherited_eq_some.mp inherited
    rw [same] at here
    split_ifs at here with place
    · obtain ⟨rfl, base⟩ := place
      have part := parseline_key_infix parsed
      have path : pathOf key' = pathOf key := by
        by_contra other
        rw [splitPath_pathOf] at pre
        split_ifs at pre with none
        · rcases List.prefix_cons_iff.mp pre with root | ⟨q, unnamed, rest⟩
          · exact other (root.trans none.symm)
          · obtain rfl := List.prefix_nil.mp rest
            have joined := join_pathOf key'
            have alone := join_pathOf key
            rw [unnamed, ← base] at joined
            rw [none, List.nil_append, join, List.intercalate_singleton] at alone
            have period : '.' ∈ key' := by
              rw [← joined, join_concat (by simp)]
              simp
            exact baseOf_noPeriod key (alone.symm ▸ part.subset period)
        · obtain ⟨far, farBase, out, way, nodes⟩ := exists_outside u key pre other
          have missingFar : lookup u far = Option.none := by
            rw [lookup_eq_none]
            intro q within
            rcases nodes q within with short | absent
            · rw [farBase]
              exact before q (short.trans (pre.trans (prefix_splitPath key)))
            · rw [NameTree.valueAt, absent]
              rfl
          have foundFar : lookup d far ≠ Option.none := by
            rw [Ne, lookup_eq_none]
            intro all
            have own := all (pathOf key') way
            rw [farBase, same, if_pos ⟨rfl, base⟩] at own
            cases own
          exact foundFar ((outside far out).trans missingFar)
      have sameKey : key' = key := by rw [← join_pathOf key', ← join_pathOf key, path, base]
      subst sameKey
      obtain ⟨cleanKey, clean⟩ := parseline_result parsed
      have piece := parseline_same_key parsed
      have noVariable : search '{' '}' v = none := search_eq_none fun has => noReference.2 (has.of_infix piece)
      have noName : search '(' ')' v = none := search_eq_none fun has => noReference.1 (has.of_infix piece)
      obtain rfl := expand_ok_of_none noVariable substituted
      have whole : v' = value.text := by
        rw [← text, ← closed noName]
        exact Option.some.inj here
      have way := (insertAt_ok_iff u (pathOf key') (baseOf key') v').mp ⟨d', inserted⟩
      exact ⟨cleanKey, whole ▸ clean, way.1⟩
    · rw [before p pre] at here
      cases here
  · have same : lookup d key = lookup u key := lookup_congr fun q _ => keeps.same_of_resolved resolved q (baseOf key)
    rw [same, missing] at found
    cases found

variable (environ) in
theorem read_value (resolved : Resolved u) (noReference : NoReference value.text) (cleanKey : CleanKey key)
    (clean : Clean value.text) (free : Free u (pathOf key)) (noSub : u.shapeAt (pathOf key) (baseOf key) ≠ some none) :
    ∃ d, readparams environ 1 u [key ++ '=' :: value.text] = some (.ok d) ∧
      SameBut u d (pathOf key) (baseOf key) (some value.text) := by
  obtain ⟨d, inserted⟩ := (insertAt_ok_iff u (pathOf key) (baseOf key) value.text).mpr ⟨free, noSub⟩
  have same : SameBut u d (pathOf key) (baseOf key) (some value.text) := fun q k => valueAt_insertAt inserted
  have noVariable : search '{' '}' value.text = none := search_eq_none noReference.2
  have after : Resolved d := by
    intro q k v here
    rw [same] at here
    split_ifs at here
    · cases here
      exact search_eq_none noReference.1
    · exact resolved q k v here
  refine ⟨d, ?_, same⟩
  rw [readparams, insertLines, parseline_clean cleanKey clean]
  dsimp only
  rw [substEnvVar, expand_none noVariable]
  dsimp only
  rw [show insertkey u key value.text = .ok d from inserted]
  exact substReferences_resolved after _

theorem free_congr (same : SameBut data u (pathOf key) (baseOf key) none) : Free u (pathOf key) ↔ Free data (pathOf key) := by
  refine forall_congr' fun p => forall_congr' fun k => imp_congr_right fun pre => ?_
  rw [same, if_neg]
  rintro ⟨rfl, -⟩
  have short := pre.length_le
  simp at short

end Exact

/-- `unset` and `replace` do what they are for exactly for the keys and values that are replaceable. -/
theorem replaces_iff (environ : List (Text × Text)) (data : Dict) (key : Text) (value : PyValue) (resolved : Resolved data)
    (noSub : data.subAt (pathOf key) (baseOf key) = none) (noReference : NoReference value.text) :
    UnsetsOnly data key ∧ Replaces environ data key value ↔ Replaceable data key value.text := by
  have noDict : data.shapeAt (pathOf key) (baseOf key) ≠ some none := by
    rw [NameTree.shapeAt]
    rw [NameTree.subAt] at noSub
    cases node : data.node (pathOf key) with
    | none => exact (Option.some_ne_none _).symm
    | some d =>
      rw [node, Option.bind_some] at noSub
      rw [Option.bind_some, Ne, NameTree.shape_eq_sub, noSub]
      exact Bool.false_ne_true
  rw [unsetsOnly_iff noDict]
  constructor
  · rintro ⟨settled, fuel, d, ok, found, outside⟩
    obtain ⟨u, unset, shapes⟩ := unset_settled noDict settled
    have same := sameBut_of_shapes shapes
    refine ⟨settled, ?_⟩
    rw [replace_eq unset] at ok
    obtain ⟨result, set, result_ok⟩ := Option.map_eq_some_iff.mp ok
    rw [← lookup_removed same]
    cases missing : lookup u key with
    | some v =>
      rw [setIfUnset_found missing, convertOneType] at set
      split_ifs at set
      · cases set
        cases result_ok
        rw [← missing]
        exact .inl found
      · cases set
        cases result_ok
    | none =>
      rw [setIfUnset_missing missing] at set
      cases read : readparams environ fuel u [key ++ '=' :: value.text] with
      | none =>
        rw [read] at set
        cases set
      | some r =>
        cases r with
        | error e =>
          rw [read] at set
          cases set
          cases result_ok
        | ok d' =>
          rw [read] at set
          dsimp only at set
          rw [convertOneType] at set
          split_ifs at set
          · cases set
            cases result_ok
            have clean := read_clean (resolved_removed resolved same) noReference missing read found fun key' out =>
              (outside key' out).trans (same.outside out).symm
            exact .inr ⟨rfl, clean.1, clean.2.1, (free_congr same).mp clean.2.2⟩
          · cases set
            cases result_ok
  · rintro ⟨settled, fresh⟩
    obtain ⟨u, unset, shapes⟩ := unset_settled noDict settled
    have same := sameBut_of_shapes shapes
    refine ⟨settled, ?_⟩
    rw [← lookup_removed same] at fresh
    rcases fresh with inherits | ⟨missing, cleanKey, clean, free⟩
    · refine ⟨0, u, ?_, inherits, fun key' out => same.outside out⟩
      rw [replace_eq unset, setIfUnset_found inherits, convertOneType, if_pos value.own]
      rfl
    · have noSubAfter : u.shapeAt (pathOf key) (baseOf key) ≠ some none := by
        rw [shapes, if_pos ⟨rfl, rfl⟩]
        exact (Option.some_ne_none _).symm
      obtain ⟨d, read, set⟩ := read_value environ (resolved_removed resolved same) noReference cleanKey clean
        ((free_congr same).mpr free) noSubAfter
      have found : lookup d key = some value.text := by
        have before := lookup_eq_none.mp missing
        rw [lookup_eq, Option.map_eq_some_iff]
        refine ⟨(pathOf key, value.text), NameTree.inherited_eq_some.mpr ⟨prefix_splitPath key, ?_, fun q pre longer => ?_⟩, rfl⟩
        · rw [set, if_pos ⟨rfl, rfl⟩]
        · rw [set, if_neg, before q pre]
          rintro ⟨rfl, -⟩
          exact lt_irrefl _ longer
      refine ⟨1, d, ?_, found, fun key' out => ?_⟩
      · rw [replace_eq unset, setIfUnset_missing missing, read]
        dsimp only
        rw [found, convertOneType, if_pos value.own]
        rfl
      · rw [← same.outside out]
        refine lookup_congr fun q pre => ?_
        rw [set, if_neg]
        rintro ⟨rfl, base⟩
        exact out ⟨base, pre⟩

def textOf (text : Text) : PyValue := ⟨text, fun _ => true, rfl⟩

theorem resolved_value {key v : Text} {rest : Dict} (closed : search '(' ')' v = none) (resolved : Resolved rest) :
    Resolved (.value key v rest) := by
  intro path k w value
  cases path with
  | nil =>
    rw [NameTree.valueAt_nil, NameTree.value?, NameTree.get?] at value
    split_ifs at value
    · cases value
      exact closed
    · exact resolved [] k w value
  | cons node path =>
    refine resolved (node :: path) k w ?_
    rw [NameTree.valueAt_cons, NameTree.sub?, NameTree.get?] at value
    rw [NameTree.valueAt_cons, NameTree.sub?]
    split_ifs at value
    · cases value
    · exact value

theorem resolved_sub {key : Text} {dic rest : Dict} (below : Resolved dic) (resolved : Resolved rest) :
    Resolved (.sub key dic rest) := by
  intro path k w value
  cases path with
  | nil =>
    rw [NameTree.valueAt_nil, NameTree.value?, NameTree.get?] at value
    split_ifs at value
    · cases value
    · exact resolved [] k w value
  | cons node path =>
    rw [NameTree.valueAt_cons, NameTree.sub?, NameTree.get?] at value
    split_ifs at value
    · exact below path k w value
    · refine resolved (node :: path) k w ?_
      rw [NameTree.valueAt_cons, NameTree.sub?]
      exact value

theorem resolved_nil : Resolved .nil := fun path k _ value => nomatch (valueAt_empty path k).symm.trans value

theorem noReference_of_noDollar {text : Text} (none : '$' ∉ text) : NoReference text := by
  constructor
  · rintro ⟨before, varname, after, rfl⟩
    exact none (by simp)
  · rintro ⟨before, varname, after, rfl⟩
    exact none (by simp)

theorem replaces_sub : UnsetsOnly (.sub ['f', 'o', 'o'] (.value ['a'] ['3'] .nil) .nil) ['f', 'o', 'o', '.', 'a'] ∧
    Replaces [] (.sub ['f', 'o', 'o'] (.value ['a'] ['3'] .nil) .nil) ['f', 'o', 'o', '.', 'a'] (textOf ['5']) := by
  refine (replaces_iff _ _ _ _ (resolved_sub (resolved_value (by decide) resolved_nil) resolved_nil) (by decide)
    (noReference_of_noDollar (by decide))).mpr ⟨.inl (by decide), .inr ⟨by decide, ⟨⟨by decide, by decide⟩, by decide⟩,
    ⟨by decide, by decide⟩, fun p k pre => ?_⟩⟩
  obtain rfl : p = [] := by
    have short := pre.length_le
    rw [List.length_append, List.length_singleton] at short
    exact List.eq_nil_of_length_eq_zero (Nat.le_zero.mp (Nat.le_of_succ_le_succ short))
  obtain rfl : k = ['f', 'o', 'o'] := (List.cons_prefix_cons.mp pre).1
  decide

/-- `a = 1`, `foo.b = 2`: `unset('foo.a')` sees the name at the root and deletes it from the other node. -/
theorem unset_missing : ¬∀ (environ : List (Text × Text)) (data : Dict) (key : Text) (value : PyValue), Resolved data →
    data.subAt (pathOf key) (baseOf key) = none → NoReference value.text → UnsetsOnly data key ∧ Replaces environ data key value := by
  intro all
  obtain ⟨d, ok, -⟩ := (all [] (.value ['a'] ['1'] (.sub ['f', 'o', 'o'] (.value ['b'] ['2'] .nil) .nil))
    ['f', 'o', 'o', '.', 'a'] (textOf ['5'])
    (resolved_value (by decide) (resolved_sub (resolved_value (by decide) resolved_nil) resolved_nil)) (by decide)
    (noReference_of_noDollar (by decide))).1
  have raised : unset (.value ['a'] ['1'] (.sub ['f', 'o', 'o'] (.value ['b'] ['2'] .nil) .nil)) ['f', 'o', 'o', '.', 'a'] =
      .error (.noKey ['a']) := by rfl
  rw [raised] at ok
  cases ok

end CadoNfs.Cadofactor.CadoParams
