import CadoNfs.Cadofactor.Wudb
import CadoNfs.Lib.Dict
import CadoNfs.Lib.NameTree

/-!
# Parameters

`Parameters` of `cadofactor/cadoparams.py`: dictionaries in dictionaries, the keys of a parameter separated by
periods.
-/

namespace CadoNfs.Cadofactor.CadoParams
open Lib

abbrev Dict := NameTree Text Text

def join (path : List Text) : Text := ['.'].intercalate path

def baseOf (key : Text) : Text := (key.splitOn '.').getLastD []

def pathOf (key : Text) : List Text := (key.splitOn '.').dropLast

theorem splitOn_ne_nil (key : Text) : key.splitOn '.' ≠ [] := List.splitOn_ne_nil '.' key

theorem pathOf_append (key : Text) : pathOf key ++ [baseOf key] = key.splitOn '.' := by
  rw [pathOf, baseOf, List.getLastD_eq_getLast?, List.getLast?_eq_some_getLast (splitOn_ne_nil key), Option.getD_some]
  exact List.dropLast_append_getLast _

theorem not_mem_of_mem_splitOn {key segment : Text} (among : segment ∈ key.splitOn '.') : '.' ∉ segment := by
  induction key generalizing segment with
  | nil =>
    rw [List.splitOn_nil, List.mem_singleton] at among
    rw [among]
    exact List.not_mem_nil
  | cons c key ih =>
    obtain ⟨first, rest, split⟩ := List.exists_cons_of_ne_nil (splitOn_ne_nil key)
    rw [List.splitOn_cons_eq_if_modifyHead, split] at among
    rw [split] at ih
    split_ifs at among with period
    · rcases List.mem_cons.mp among with rfl | later
      · exact List.not_mem_nil
      · exact ih later
    · rcases List.mem_cons.mp among with rfl | later
      · rw [List.mem_cons, not_or]
        exact ⟨fun eq => period (by simpa using eq.symm), ih (.head _)⟩
      · exact ih (.tail _ later)

theorem join_pathOf (key : Text) : join (pathOf key ++ [baseOf key]) = key := by
  rw [pathOf_append, join]
  exact List.intercalate_splitOn '.'

variable {base : Text} {path p q : List Text}

def Segments (path : List Text) : Prop := ∀ segment ∈ path, '.' ∉ segment

theorem splitOn_join (segments : Segments p) (noPeriod : '.' ∉ base) : (join (p ++ [base])).splitOn '.' = p ++ [base] := by
  refine List.splitOn_intercalate '.' (fun segment among => ?_) (by simp)
  rcases List.mem_append.mp among with before | last
  · exact segments segment before
  · exact List.mem_singleton.mp last ▸ noPeriod

theorem name_inj (left : Segments p) (right : Segments q) (noPeriod : '.' ∉ base) :
    join (p ++ [base]) = join (q ++ [base]) ↔ p = q := by
  constructor
  · intro eq
    have segments := congrArg (List.splitOn '.') eq
    rw [splitOn_join left noPeriod, splitOn_join right noPeriod] at segments
    exact List.append_cancel_right segments
  · exact fun eq => eq ▸ rfl

theorem segments_pathOf (key : Text) : Segments (pathOf key) := fun _ among =>
  not_mem_of_mem_splitOn (pathOf_append key ▸ List.mem_append_left _ among)

theorem baseOf_noPeriod (key : Text) : '.' ∉ baseOf key :=
  not_mem_of_mem_splitOn (pathOf_append key ▸ List.mem_append_right _ (.head _))

theorem Segments.of_isPrefix (segments : Segments path) (pre : p <+: path) : Segments p := fun _ among =>
  segments _ (pre.subset among)

def extractFromNodeByKeys (data : Dict) (path keys : List Text) : List (Text × Text) :=
  match data.node path with
  | none => []
  | some source => dictFrom (keys.filterMap fun key => (source.value? key).map (key, ·))

abbrev Result := List (Text × Text × List Text)

def extractStep (data : Dict) (keys splitpath : List Text) (i : ℕ) (result : Result) : Result :=
  let newkeys := keys.filter fun key => result.lookup key = none
  let update := extractFromNodeByKeys data (splitpath.take i) newkeys
  update.foldl (fun result e => dictSet result e.1 (e.2, splitpath.take i)) result

def extractLoop (data : Dict) (keys splitpath : List Text) : ℕ → Result → Result
  | 0, result => extractStep data keys splitpath 0 result
  | i + 1, result => extractLoop data keys splitpath i (extractStep data keys splitpath (i + 1) result)

def myparams (data : Dict) (keys path : List Text) : Result :=
  let splitpath := (join path).splitOn '.'
  extractLoop data keys splitpath splitpath.length []

def locateLoop (base : Text) : Dict → List Text → Option (List Text) → List Text → Option (List Text)
  | _, _, found, [] => found
  | d, pp, found, node :: path =>
    match d.get? node with
    | some (.sub d) =>
      let pp := pp ++ [node]
      match d.get? base with
      | some (.sub _) => found
      | some (.value _) => locateLoop base d pp (some pp) path
      | none => locateLoop base d pp found path
    | _ => found

def locate (data : Dict) (key : Text) : Option Text :=
  let found := if (data.get? (baseOf key)).isSome then some [] else none
  (locateLoop (baseOf key) data [] found (pathOf key)).map fun found => join (found ++ [baseOf key])

/-! ## What `myparams` finds -/

def splitPath (path : List Text) : List Text := (join path).splitOn '.'

variable {data : Dict} {splitpath : List Text} {i : ℕ}

theorem splitPath_pathOf (key : Text) : splitPath (pathOf key) = if pathOf key = [] then [[]] else pathOf key := by
  by_cases none : pathOf key = []
  · rw [if_pos none, splitPath, none]
    rfl
  · rw [if_neg none, splitPath]
    refine List.splitOn_intercalate '.' (fun segment among => ?_) none
    exact not_mem_of_mem_splitOn (pathOf_append key ▸ List.mem_append_left _ among)

theorem extractStep_first (i : ℕ) : extractStep data [base] splitpath i [] =
    match data.valueAt (splitpath.take i) base with
    | none => []
    | some v => [(base, v, splitpath.take i)] := by
  have wanted : ([base].filter fun key => ([] : Result).lookup key = none) = [base] := rfl
  rw [extractStep, wanted, extractFromNodeByKeys, NameTree.valueAt]
  cases data.node (splitpath.take i) with
  | none => rfl
  | some source =>
    dsimp only [Option.bind_some]
    rw [List.filterMap_cons, List.filterMap_nil]
    cases source.value? base with
    | none => rfl
    | some v => rfl

theorem extractStep_found (i : ℕ) {result : Result} (known : result.lookup base ≠ none) :
    extractStep data [base] splitpath i result = result := by
  have wanted : ([base].filter fun key => result.lookup key = none) = [] := by simp [known]
  rw [extractStep, wanted, extractFromNodeByKeys]
  cases data.node (splitpath.take i) with
  | none => rfl
  | some source => rfl

theorem extractLoop_found (i : ℕ) {result : Result} (known : result.lookup base ≠ none) :
    extractLoop data [base] splitpath i result = result := by
  induction i with
  | zero => exact extractStep_found 0 known
  | succ i ih => rw [extractLoop, extractStep_found (i + 1) known, ih]

theorem extractLoop_first (le : i ≤ splitpath.length) : extractLoop data [base] splitpath i [] =
    ((data.inherited base (splitpath.take i)).map fun found => (base, found.2, found.1)).toList := by
  induction i with
  | zero =>
    rw [extractLoop, extractStep_first, List.take_zero, NameTree.inherited, NameTree.valueAt_nil]
    cases data.value? base with
    | none => rfl
    | some v => rfl
  | succ i ih =>
    have segment : splitpath.take (i + 1) = splitpath.take i ++ [splitpath[i]] := (List.take_append_getElem (by omega)).symm
    rw [extractLoop, extractStep_first]
    cases value : data.valueAt (splitpath.take (i + 1)) base with
    | none =>
      dsimp only
      rw [ih (by omega), segment, NameTree.inherited_concat, ← segment, value]
      rfl
    | some v =>
      have known : [(base, v, splitpath.take (i + 1))].lookup base = some (v, splitpath.take (i + 1)) :=
        List.lookup_cons_self
      dsimp only
      rw [extractLoop_found i (by rw [known]; exact Option.some_ne_none _), segment, NameTree.inherited_concat, ← segment, value]
      rfl

theorem myparams_single (data : Dict) (base : Text) (path : List Text) : myparams data [base] path =
    ((data.inherited base (splitPath path)).map fun found => (base, found.2, found.1)).toList := by
  have loop : extractLoop data [base] (splitPath path) _ [] = _ := extractLoop_first (le_refl (splitPath path).length)
  rwa [List.take_length] at loop

theorem myparams_lookup (data : Dict) (base : Text) (path : List Text) : (myparams data [base] path).lookup base =
    (data.inherited base (splitPath path)).map fun found => (found.2, found.1) := by
  rw [myparams_single]
  cases data.inherited base (splitPath path) with
  | none => rfl
  | some found => exact List.lookup_cons_self

end CadoNfs.Cadofactor.CadoParams
