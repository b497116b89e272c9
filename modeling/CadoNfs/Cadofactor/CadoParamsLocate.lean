import CadoNfs.Cadofactor.CadoParams

/-!
# Where a parameter is set

`locate` walks down from the root, `myparams` up from the node of the key. They agree unless a dictionary has the name
that is looked for.
-/

namespace CadoNfs.Cadofactor.CadoParams
open Lib

def nearest (data : Dict) (key : Text) : Option Text :=
  (data.inherited (baseOf key) (pathOf key)).map fun found => join (found.1 ++ [baseOf key])

def provider (data : Dict) (key : Text) : Option Text :=
  ((myparams data [baseOf key] (pathOf key)).lookup (baseOf key)).map fun found => join (found.2 ++ [baseOf key])

structure Unobstructed (data : Dict) (base : Text) (path : List Text) : Prop where
  below : ∀ p q, p ≠ [] → p <+: q → q <+: path → (data.subAt p base).isSome → data.valueAt q base = none
  root : (data.sub? base).isSome → ∃ p, p <+: path ∧ (data.valueAt p base).isSome
  unnamed : path = [] → data.valueAt [[]] base = none

def locatedBelow (base : Text) : Dict → List Text → Option (List Text)
  | _, [] => none
  | d, node :: path =>
    match d.get? node with
    | some (.sub d) =>
      match d.get? base with
      | some (.sub _) => none
      | some (.value _) => some (node :: (locatedBelow base d path).getD [])
      | none => (locatedBelow base d path).map (node :: ·)
    | _ => none

def nearestBelow (base : Text) : Dict → List Text → Option (List Text)
  | _, [] => none
  | d, node :: path => (d.sub? node).bind fun d => ((d.inherited base path).map Prod.fst).map (node :: ·)

variable {data d : Dict} {base node : Text} {path p q pp : List Text} {found : Option (List Text)}

theorem locateLoop_eq (base : Text) (d : Dict) (pp : List Text) (found : Option (List Text)) (path : List Text) :
    locateLoop base d pp found path = ((locatedBelow base d path).map (pp ++ ·)).or found := by
  induction path generalizing d pp found with
  | nil => rfl
  | cons node path ih =>
    rw [locateLoop, locatedBelow]
    cases d.get? node with
    | none => rfl
    | some e =>
      cases e with
      | value v => rfl
      | sub d =>
        dsimp only
        cases d.get? base with
        | none =>
          dsimp only
          rw [ih, Option.map_map]
          congr 2
          funext q
          exact List.append_assoc ..
        | some e =>
          cases e with
          | sub d' => rfl
          | value v =>
            dsimp only
            rw [ih]
            cases locatedBelow base d path with
            | none => rfl
            | some q => exact congrArg some (List.append_assoc ..)

theorem inherited_below (base : Text) (d : Dict) (path : List Text) : (d.inherited base path).map Prod.fst =
    (nearestBelow base d path).or ((d.value? base).map fun _ => []) := by
  cases path with
  | nil =>
    rw [NameTree.inherited, Option.map_map]
    rfl
  | cons node path =>
    rw [NameTree.inherited, nearestBelow]
    cases d.sub? node with
    | none =>
      cases d.value? base with
      | none => rfl
      | some v => rfl
    | some d' =>
      dsimp only [Option.bind_some]
      cases d'.inherited base path with
      | some found => rfl
      | none =>
        cases d.value? base with
        | none => rfl
        | some v => rfl

def Clear (base : Text) (d : Dict) (path : List Text) : Prop :=
  ∀ p q, p ≠ [] → p <+: q → q <+: path → (d.subAt p base).isSome → d.valueAt q base = none

theorem clear_cons (child : d.sub? node = some data) : Clear base d (node :: path) ↔
    ((data.sub? base).isSome → ∀ q, q <+: path → data.valueAt q base = none) ∧ Clear base data path := by
  have value (q : List Text) : d.valueAt (node :: q) base = data.valueAt q base := by
    rw [NameTree.valueAt_cons, child, Option.bind_some]
  have sub (p : List Text) : d.subAt (node :: p) base = data.subAt p base := by
    rw [NameTree.subAt_cons, child, Option.bind_some]
  constructor
  · intro clear
    constructor
    · intro here q pre
      rw [← value]
      exact clear [node] (node :: q) nofun (List.cons_prefix_cons.mpr ⟨rfl, List.nil_prefix⟩)
        (List.cons_prefix_cons.mpr ⟨rfl, pre⟩) (by rwa [sub])
    · intro p q _ le pre isSub
      rw [← value]
      exact clear (node :: p) (node :: q) nofun (List.cons_prefix_cons.mpr ⟨rfl, le⟩)
        (List.cons_prefix_cons.mpr ⟨rfl, pre⟩) (by rwa [sub])
  · rintro ⟨here, clear⟩ p q nonempty le pre isSub
    obtain ⟨k, p, rfl⟩ := List.exists_cons_of_ne_nil nonempty
    obtain ⟨q, rfl⟩ : ∃ q', q = k :: q' := by
      obtain ⟨r, rfl⟩ := le
      exact ⟨p ++ r, rfl⟩
    obtain ⟨rfl, rest⟩ := List.cons_prefix_cons.mp pre
    rw [sub] at isSub
    rw [value]
    cases p with
    | nil => exact here isSub q rest
    | cons k' p => exact clear (k' :: p) q nofun (List.cons_prefix_cons.mp le).2 rest isSub

theorem locatedBelow_cons : locatedBelow base d (node :: path) = (d.sub? node).bind fun d =>
    if (d.sub? base).isSome then none
    else if (d.value? base).isSome then some (node :: (locatedBelow base d path).getD [])
    else (locatedBelow base d path).map (node :: ·) := by
  rw [locatedBelow, NameTree.sub?]
  cases d.get? node with
  | none => rfl
  | some e =>
    cases e with
    | value v => rfl
    | sub d =>
      dsimp only [Option.bind_some, NameTree.Entry.sub?]
      rw [NameTree.sub?, NameTree.value?]
      cases d.get? base with
      | none => rfl
      | some e =>
        cases e with
        | value v => rfl
        | sub d' => rfl

theorem nearestBelow_cons : nearestBelow base d (node :: path) = (d.sub? node).bind fun d =>
    ((nearestBelow base d path).or ((d.value? base).map fun _ => [])).map (node :: ·) := by
  rw [nearestBelow]
  congr 1
  funext d
  rw [inherited_below]

theorem nearestBelow_ne_nil (base : Text) (d : Dict) (path : List Text) : nearestBelow base d path ≠ some [] := by
  cases path with
  | nil => exact nofun
  | cons node path =>
    rw [nearestBelow]
    intro here
    obtain ⟨d', -, found⟩ := Option.bind_eq_some_iff.mp here
    obtain ⟨q, -, eq⟩ := Option.map_eq_some_iff.mp found
    cases eq

theorem locatedBelow_ne_nil (base : Text) (d : Dict) (path : List Text) : locatedBelow base d path ≠ some [] := by
  cases path with
  | nil => exact nofun
  | cons node path =>
    rw [locatedBelow_cons]
    intro here
    obtain ⟨d', -, found⟩ := Option.bind_eq_some_iff.mp here
    split_ifs at found
    · exact absurd (Option.some.inj found) (List.cons_ne_nil _ _)
    · obtain ⟨q, -, eq⟩ := Option.map_eq_some_iff.mp found
      cases eq

theorem getD_inj {a b : Option (List Text)} (left : a ≠ some []) (right : b ≠ some []) :
    a.getD [] = b.getD [] ↔ a = b := by
  cases a with
  | none =>
    cases b with
    | none => exact iff_of_true rfl rfl
    | some q => exact iff_of_false (fun eq => right (congrArg some eq.symm)) nofun
  | some p =>
    cases b with
    | none => exact iff_of_false (fun eq => left (congrArg some eq)) nofun
    | some q => simp

theorem nearestBelow_eq_none : nearestBelow base d path = none ↔ ∀ q, q ≠ [] → q <+: path → d.valueAt q base = none := by
  cases path with
  | nil => exact iff_of_true rfl fun q nonempty pre => absurd (List.prefix_nil.mp pre) nonempty
  | cons node path =>
    rw [nearestBelow, Option.bind_eq_none_iff]
    constructor
    · intro none q nonempty pre
      rcases List.prefix_cons_iff.mp pre with rfl | ⟨q, rfl, rest⟩
      · exact absurd rfl nonempty
      · rw [NameTree.valueAt_cons, Option.bind_eq_none_iff]
        intro d' child
        have below := none d' child
        rw [Option.map_map, Option.map_eq_none_iff] at below
        exact NameTree.inherited_eq_none.mp below q rest
    · intro all d' child
      rw [Option.map_map, Option.map_eq_none_iff]
      refine NameTree.inherited_eq_none.mpr fun q pre => ?_
      have here := all (node :: q) nofun (List.cons_prefix_cons.mpr ⟨rfl, pre⟩)
      rwa [NameTree.valueAt_cons, child] at here

theorem locatedBelow_eq_iff (base : Text) (d : Dict) (path : List Text) :
    locatedBelow base d path = nearestBelow base d path ↔ Clear base d path := by
  induction path generalizing d with
  | nil =>
    refine iff_of_true rfl fun p q nonempty le pre => ?_
    rw [List.prefix_nil.mp pre, List.prefix_nil] at le
    exact absurd le nonempty
  | cons node path ih =>
    rw [locatedBelow_cons, nearestBelow_cons]
    cases child : d.sub? node with
    | none =>
      refine iff_of_true rfl fun p q nonempty le pre _ => ?_
      obtain ⟨r, rfl⟩ := le
      obtain ⟨k, p, rfl⟩ := List.exists_cons_of_ne_nil nonempty
      obtain ⟨rfl, -⟩ := List.cons_prefix_cons.mp pre
      rw [List.cons_append, NameTree.valueAt_cons, child]
      rfl
    | some data =>
      rw [clear_cons child, Option.bind_some, Option.bind_some]
      cases isSub : data.sub? base with
      | some tree =>
        have noValue := NameTree.value?_eq_none_of_sub isSub
        have none_iff : none = (nearestBelow base data path).map (node :: ·) ↔ ∀ q, q <+: path → data.valueAt q base = none := by
          rw [eq_comm, Option.map_eq_none_iff, nearestBelow_eq_none]
          constructor
          · intro all q pre
            by_cases empty : q = []
            · rw [empty]
              exact noValue
            · exact all q empty pre
          · exact fun all q _ pre => all q pre
        rw [if_pos Option.isSome_some, noValue, Option.map_none, Option.or_none, none_iff]
        exact ⟨fun all => ⟨fun _ => all, fun p q _ _ pre _ => all q pre⟩, fun both => both.1 rfl⟩
      | none =>
        have first : (((none : Option Dict).isSome → ∀ q, q <+: path → data.valueAt q base = none) ∧ Clear base data path) ↔
            Clear base data path := and_iff_right nofun
        rw [if_neg (by exact nofun), first, ← ih]
        cases data.value? base with
        | none =>
          rw [if_neg (by exact nofun), Option.map_none, Option.or_none]
          exact (Option.map_injective (List.cons_injective)).eq_iff
        | some v =>
          have side : ((nearestBelow base data path).or (some [])).map (node :: ·) =
              some (node :: (nearestBelow base data path).getD []) := by
            cases nearestBelow base data path with
            | none => rfl
            | some q => rfl
          rw [if_pos Option.isSome_some, Option.map_some, side, Option.some.injEq, List.cons.injEq, and_iff_right rfl]
          exact getD_inj (locatedBelow_ne_nil base data path) (nearestBelow_ne_nil base data path)

def located (data : Dict) (base : Text) (path : List Text) : Option (List Text) :=
  locateLoop base data [] (if (data.get? base).isSome then some [] else none) path

theorem located_eq_iff (data : Dict) (base : Text) (path : List Text) :
    located data base path = (data.inherited base path).map Prod.fst ↔
      Clear base data path ∧ ((data.sub? base).isSome → ∃ p, p <+: path ∧ (data.valueAt p base).isSome) := by
  have fromRoot : (data.get? base).isSome ↔ (data.value? base).isSome ∨ (data.sub? base).isSome := by
    rw [← not_iff_not, not_or, Option.not_isSome_iff_eq_none, Option.not_isSome_iff_eq_none,
      Option.not_isSome_iff_eq_none]
    exact NameTree.get?_eq_none
  have provided : (∃ p, p <+: path ∧ (data.valueAt p base).isSome) ↔ (data.inherited base path).map Prod.fst ≠ none := by
    rw [Ne, Option.map_eq_none_iff, NameTree.inherited_eq_none]
    push Not
    simp only [Option.isSome_iff_ne_none]
  have walk : located data base path =
      (locatedBelow base data path).or (if (data.get? base).isSome then some [] else none) := by
    rw [located, locateLoop_eq]
    congr 1
    exact Option.map_id'
  rw [provided, walk, inherited_below, ← locatedBelow_eq_iff]
  have left := locatedBelow_ne_nil base data path
  have right := nearestBelow_ne_nil base data path
  cases below : nearestBelow base data path with
  | some q =>
    refine Iff.trans ?_ (and_iff_left fun _ => Option.some_ne_none _).symm
    cases locatedBelow base data path with
    | some p => rfl
    | none =>
      refine iff_of_false (fun eq => ?_) (Option.some_ne_none _).symm
      rw [Option.none_or, Option.some_or] at eq
      split_ifs at eq
      rw [below, ← eq] at right
      exact right rfl
  | none =>
    cases walked : locatedBelow base data path with
    | some p =>
      refine iff_of_false (fun eq => ?_) fun both => Option.some_ne_none _ both.1
      rw [Option.none_or, Option.some_or] at eq
      obtain ⟨v, -, empty⟩ := Option.map_eq_some_iff.mp eq.symm
      exact left (walked.trans (congrArg some empty.symm))
    | none =>
      rw [and_iff_right rfl, Option.none_or, Option.none_or]
      cases value : data.value? base with
      | some v =>
        rw [if_pos (fromRoot.mpr (.inl (value ▸ rfl)))]
        exact iff_of_true rfl fun _ => Option.some_ne_none _
      | none =>
        rw [value] at fromRoot
        simp [fromRoot]

theorem locatedBelow_prefix (found : locatedBelow base d path = some p) : p <+: path := by
  induction path generalizing d p with
  | nil => cases found
  | cons node path ih =>
    rw [locatedBelow_cons] at found
    obtain ⟨d', -, found⟩ := Option.bind_eq_some_iff.mp found
    split_ifs at found
    · obtain rfl := Option.some.inj found
      refine List.cons_prefix_cons.mpr ⟨rfl, ?_⟩
      cases below : locatedBelow base d' path with
      | none => exact List.nil_prefix
      | some q => exact ih below
    · obtain ⟨q, below, rfl⟩ := Option.map_eq_some_iff.mp found
      exact List.cons_prefix_cons.mpr ⟨rfl, ih below⟩

theorem located_prefix (found : located data base path = some p) : p <+: path := by
  rw [located, locateLoop_eq, Option.or_eq_some_iff, Option.map_eq_some_iff] at found
  rcases found with ⟨q, below, rfl⟩ | ⟨-, root⟩
  · exact locatedBelow_prefix below
  · split_ifs at root
    obtain rfl := Option.some.inj root
    exact List.nil_prefix

theorem map_name_inj {a b : Option (List Text)} (left : ∀ p ∈ a, Segments p) (right : ∀ p ∈ b, Segments p)
    (noPeriod : '.' ∉ base) :
    a.map (fun p => join (p ++ [base])) = b.map (fun p => join (p ++ [base])) ↔ a = b := by
  cases a with
  | none =>
    cases b with
    | none => exact iff_of_true rfl rfl
    | some q => exact iff_of_false nofun nofun
  | some p =>
    cases b with
    | none => exact iff_of_false nofun nofun
    | some q =>
      rw [Option.map_some, Option.map_some, Option.some.injEq, Option.some.injEq]
      exact name_inj (left p rfl) (right q rfl) noPeriod

theorem inherited_unnamed : (data.inherited base []).map Prod.fst = (data.inherited base [[]]).map Prod.fst ↔
    data.valueAt [[]] base = none := by
  have step : data.inherited base ([] ++ [[]]) = _ := NameTree.inherited_concat
  rw [List.nil_append] at step
  rw [step]
  cases data.valueAt [[]] base with
  | none => exact iff_of_true rfl rfl
  | some v =>
    refine iff_of_false (fun eq => ?_) nofun
    rw [NameTree.inherited, Option.map_map] at eq
    obtain ⟨v', -, root⟩ := Option.map_eq_some_iff.mp eq
    cases root

/-- `locate` gives the name of the deepest value, which is the one that `myparams` takes, exactly if no dictionary is in
the way. -/
theorem locate_eq_provider_iff (data : Dict) (key : Text) :
    locate data key = nearest data key ∧ locate data key = provider data key ↔
      Unobstructed data (baseOf key) (pathOf key) := by
  have noPeriod := baseOf_noPeriod key
  have segments := segments_pathOf key
  have nodes (path : List Text) (segments : Segments path) :
      ∀ p ∈ (data.inherited (baseOf key) path).map Prod.fst, Segments p := by
    intro p found
    obtain ⟨⟨_, v⟩, inherited, rfl⟩ := Option.map_eq_some_iff.mp found
    exact segments.of_isPrefix (NameTree.inherited_eq_some.mp inherited).1
  have locate_eq : locate data key =
      (located data (baseOf key) (pathOf key)).map fun p => join (p ++ [baseOf key]) := rfl
  have nearest_eq : nearest data key =
      ((data.inherited (baseOf key) (pathOf key)).map Prod.fst).map fun p => join (p ++ [baseOf key]) := by
    rw [nearest, Option.map_map]
    rfl
  have provider_eq : provider data key =
      ((data.inherited (baseOf key) (splitPath (pathOf key))).map Prod.fst).map fun p => join (p ++ [baseOf key]) := by
    rw [provider, myparams_lookup, Option.map_map, Option.map_map]
    rfl
  have walk : locate data key = nearest data key ↔ Clear (baseOf key) data (pathOf key) ∧
      ((data.sub? (baseOf key)).isSome → ∃ p, p <+: pathOf key ∧ (data.valueAt p (baseOf key)).isSome) := by
    rw [locate_eq, nearest_eq, map_name_inj (fun p found => segments.of_isPrefix ( located_prefix found))
      (nodes _ segments) noPeriod]
    exact located_eq_iff data (baseOf key) (pathOf key)
  have same : nearest data key = provider data key ↔ (pathOf key = [] → data.valueAt [[]] (baseOf key) = none) := by
    have splitSegments : Segments (splitPath (pathOf key)) := fun _ among => not_mem_of_mem_splitOn among
    rw [nearest_eq, provider_eq, map_name_inj (nodes _ segments) (nodes _ splitSegments) noPeriod, splitPath_pathOf]
    by_cases none : pathOf key = []
    · rw [if_pos none, none, inherited_unnamed]
      exact ⟨fun value _ => value, fun value => value rfl⟩
    · rw [if_neg none]
      exact iff_of_true rfl fun eq => absurd eq none
  constructor
  · rintro ⟨down, up⟩
    obtain ⟨below, root⟩ := walk.mp down
    exact ⟨below, root, same.mp (down.symm.trans up)⟩
  · intro clear
    have down := walk.mpr ⟨clear.below, clear.root⟩
    exact ⟨down, down.trans (same.mpr clear.unnamed)⟩

theorem locate_sub : ¬∀ (data : Dict) (key : Text),
    locate data key = nearest data key ∧ locate data key = provider data key := by
  intro all
  have both := all (.sub ['b', 'a', 'r'] (.value ['a'] ['1'] .nil) .nil) ['b', 'a', 'r']
  exact absurd both.1 (by decide)

end CadoNfs.Cadofactor.CadoParams
