import Mathlib

/-!
# Trees of names

Dictionaries whose entries are values or again dictionaries.
-/

namespace CadoNfs.Lib

inductive NameTree (K V : Type*) where
  | nil
  | value (key : K) (v : V) (rest : NameTree K V)
  | sub (key : K) (tree rest : NameTree K V)

inductive NameTree.Entry (K V : Type*) where
  | value (v : V)
  | sub (tree : NameTree K V)

namespace NameTree

variable {K V : Type*} [DecidableEq K]

def get? : NameTree K V → K → Option (Entry K V)
  | nil, _ => none
  | value k v rest, key => if k = key then some (.value v) else rest.get? key
  | sub k tree rest, key => if k = key then some (.sub tree) else rest.get? key

omit [DecidableEq K] in
def cons (key : K) : Entry K V → NameTree K V → NameTree K V
  | .value v, rest => value key v rest
  | .sub tree, rest => sub key tree rest

def put : NameTree K V → K → Entry K V → NameTree K V
  | nil, key, e => cons key e nil
  | value k v rest, key, e => if k = key then cons key e rest else value k v (rest.put key e)
  | sub k tree rest, key, e => if k = key then cons key e rest else sub k tree (rest.put key e)

def erase : NameTree K V → K → NameTree K V
  | nil, _ => nil
  | value k v rest, key => if k = key then rest.erase key else value k v (rest.erase key)
  | sub k tree rest, key => if k = key then rest.erase key else sub k tree (rest.erase key)

def Entry.value? : Entry K V → Option V
  | value v => some v
  | sub _ => none

def Entry.sub? : Entry K V → Option (NameTree K V)
  | value _ => none
  | sub tree => some tree

def value? (t : NameTree K V) (key : K) : Option V := (t.get? key).bind Entry.value?

def sub? (t : NameTree K V) (key : K) : Option (NameTree K V) := (t.get? key).bind Entry.sub?

def node : NameTree K V → List K → Option (NameTree K V)
  | t, [] => some t
  | t, k :: path => (t.sub? k).bind (node · path)

def valueAt (t : NameTree K V) (path : List K) (key : K) : Option V := (t.node path).bind (value? · key)

def subAt (t : NameTree K V) (path : List K) (key : K) : Option (NameTree K V) := (t.node path).bind (sub? · key)

def shape (t : NameTree K V) (key : K) : Option (Option V) := (t.get? key).map Entry.value?

def shapeAt (t : NameTree K V) (path : List K) (key : K) : Option (Option V) := (t.node path).bind (shape · key)

def update (f : NameTree K V → NameTree K V) : NameTree K V → List K → NameTree K V
  | t, [] => f t
  | t, k :: path =>
    match t.sub? k with
    | none => t
    | some tree => t.put k (.sub (update f tree path))

def setAt (t : NameTree K V) (path : List K) (key : K) (v : V) : NameTree K V := t.update (·.put key (.value v)) path

def eraseAt (t : NameTree K V) (path : List K) (key : K) : NameTree K V := t.update (·.erase key) path

def inherited (key : K) : NameTree K V → List K → Option (List K × V)
  | t, [] => (t.value? key).map ([], ·)
  | t, k :: path =>
    (((t.sub? k).bind (inherited key · path)).map fun found => (k :: found.1, found.2)).or ((t.value? key).map ([], ·))

variable {t tree : NameTree K V} {k key : K} {path p q : List K} {v : V} {e : Entry K V}

@[simp] theorem get?_cons_self : (cons key e t).get? key = some e := by
  cases e with
  | value v => exact if_pos rfl
  | sub tree => exact if_pos rfl

theorem get?_cons_ne (other : k ≠ key) : (cons k e t).get? key = t.get? key := by
  cases e with
  | value v => exact if_neg other
  | sub tree => exact if_neg other

@[simp] theorem get?_put_self : (t.put key e).get? key = some e := by
  induction t with
  | nil => exact get?_cons_self
  | value k v rest ih =>
    rw [put]
    split_ifs with same
    · exact get?_cons_self
    · rw [get?, if_neg same, ih]
  | sub k tree rest _ ih =>
    rw [put]
    split_ifs with same
    · exact get?_cons_self
    · rw [get?, if_neg same, ih]

theorem get?_put_ne (other : key ≠ k) : (t.put key e).get? k = t.get? k := by
  induction t with
  | nil => exact get?_cons_ne other
  | value k' v rest ih =>
    rw [put]
    split_ifs with same
    · rw [get?_cons_ne other, get?, if_neg fun eq => other (same.symm.trans eq)]
    · rw [get?, get?, ih]
  | sub k' tree rest _ ih =>
    rw [put]
    split_ifs with same
    · rw [get?_cons_ne other, get?, if_neg fun eq => other (same.symm.trans eq)]
    · rw [get?, get?, ih]

@[simp] theorem get?_erase_self : (t.erase key).get? key = none := by
  induction t with
  | nil => rfl
  | value k v rest ih =>
    rw [erase]
    split_ifs with same
    · exact ih
    · rw [get?, if_neg same, ih]
  | sub k tree rest _ ih =>
    rw [erase]
    split_ifs with same
    · exact ih
    · rw [get?, if_neg same, ih]

theorem get?_erase_ne (other : key ≠ k) : (t.erase key).get? k = t.get? k := by
  induction t with
  | nil => rfl
  | value k' v rest ih =>
    rw [erase]
    split_ifs with same
    · rw [ih, get?, if_neg fun eq => other (same.symm.trans eq)]
    · rw [get?, get?, ih]
  | sub k' tree rest _ ih =>
    rw [erase]
    split_ifs with same
    · rw [ih, get?, if_neg fun eq => other (same.symm.trans eq)]
    · rw [get?, get?, ih]

theorem get?_eq_value : t.get? key = some (.value v) ↔ t.value? key = some v := by
  rw [value?]
  cases t.get? key with
  | none => exact iff_of_false nofun nofun
  | some e =>
    cases e with
    | value v' => simp [Entry.value?]
    | sub tree => simp [Entry.value?]

theorem get?_eq_sub : t.get? key = some (.sub tree) ↔ t.sub? key = some tree := by
  rw [sub?]
  cases t.get? key with
  | none => exact iff_of_false nofun nofun
  | some e =>
    cases e with
    | value v' => simp [Entry.sub?]
    | sub tree => simp [Entry.sub?]

theorem get?_eq_none : t.get? key = none ↔ t.value? key = none ∧ t.sub? key = none := by
  rw [value?, sub?]
  cases t.get? key with
  | none => exact iff_of_true rfl ⟨rfl, rfl⟩
  | some e =>
    cases e with
    | value v' => simp [Entry.value?]
    | sub tree => simp [Entry.sub?]

theorem value?_eq_none_of_sub (isSub : t.sub? key = some tree) : t.value? key = none := by
  rw [value?, get?_eq_sub.mpr isSub]
  rfl

theorem sub?_eq_none_of_value (isValue : t.value? key = some v) : t.sub? key = none := by
  rw [sub?, get?_eq_value.mpr isValue]
  rfl

@[simp] theorem valueAt_nil : t.valueAt [] key = t.value? key := rfl

@[simp] theorem subAt_nil : t.subAt [] key = t.sub? key := rfl

theorem valueAt_cons : t.valueAt (k :: path) key = (t.sub? k).bind (valueAt · path key) := Option.bind_assoc ..

theorem subAt_cons : t.subAt (k :: path) key = (t.sub? k).bind (subAt · path key) := Option.bind_assoc ..

theorem node_append : t.node (p ++ q) = (t.node p).bind (node · q) := by
  induction p generalizing t with
  | nil => rfl
  | cons k p ih =>
    rw [List.cons_append, node, node, Option.bind_assoc]
    exact congrArg _ (funext fun t => ih)

theorem shape_join (t : NameTree K V) (key : K) : (t.shape key).join = t.value? key := by
  rw [shape, value?]
  cases t.get? key with
  | none => rfl
  | some e => rfl

theorem shape_eq_sub : t.shape key = some none ↔ (t.sub? key).isSome := by
  rw [shape, sub?]
  cases t.get? key with
  | none => exact iff_of_false nofun nofun
  | some e =>
    cases e with
    | value v => exact iff_of_false nofun nofun
    | sub tree => exact iff_of_true rfl rfl

theorem shape_eq_none : t.shape key = none ↔ t.get? key = none := Option.map_eq_none_iff

theorem shapeAt_join (t : NameTree K V) (path : List K) (key : K) : (t.shapeAt path key).join = t.valueAt path key := by
  rw [shapeAt, valueAt]
  cases t.node path with
  | none => rfl
  | some d => exact shape_join d key

theorem shapeAt_cons : t.shapeAt (k :: path) key = (t.sub? k).bind (shapeAt · path key) := Option.bind_assoc ..

theorem sub?_put_self : (t.put key (.sub tree)).sub? key = some tree := get?_eq_sub.mp get?_put_self

theorem sub?_put_ne (other : key ≠ k) : (t.put key e).sub? k = t.sub? k := by
  rw [sub?, get?_put_ne other]
  rfl

theorem put_self (there : t.get? key = some e) : t.put key e = t := by
  induction t with
  | nil => cases there
  | value k v rest ih =>
    rw [get?] at there
    rw [put]
    split_ifs at there ⊢ with same
    · cases there
      rw [← same]
      rfl
    · rw [ih there]
  | sub k tree rest _ ih =>
    rw [get?] at there
    rw [put]
    split_ifs at there ⊢ with same
    · cases there
      rw [← same]
      rfl
    · rw [ih there]

variable {f : NameTree K V → NameTree K V}

theorem shapeAt_update (other : ∀ n k, k ≠ key → (f n).get? k = n.get? k)
    (noSub : ∀ n, t.node path = some n → n.sub? key = none ∧ (f n).sub? key = none) :
    (t.update f path).shapeAt q k =
      if q = path ∧ k = key then (t.node path).bind fun n => (f n).shape key else t.shapeAt q k := by
  induction path generalizing t q with
  | nil =>
    rw [update]
    cases q with
    | nil =>
      by_cases same : k = key
      · rw [if_pos ⟨rfl, same⟩, same]
        rfl
      · rw [if_neg fun both => same both.2]
        exact congrArg (Option.map Entry.value?) (other t k same)
    | cons k' q =>
      rw [if_neg (fun both => nomatch both.1), shapeAt_cons, shapeAt_cons]
      by_cases same : k' = key
      · rw [same, (noSub t rfl).1, (noSub t rfl).2]
      · rw [sub?, sub?, other t k' same]
  | cons k₀ path ih =>
    rw [update]
    cases child : t.sub? k₀ with
    | none =>
      dsimp only
      rw [node, child, Option.bind_none, Option.bind_none]
      split_ifs with same
      · rw [same.1, shapeAt_cons, child, Option.bind_none]
      · rfl
    | some tree =>
      have nodes : t.node (k₀ :: path) = tree.node path := by rw [node, child, Option.bind_some]
      dsimp only
      rw [nodes]
      cases q with
      | nil =>
        rw [if_neg fun both => nomatch both.1]
        by_cases same : k = k₀
        · have before : t.shape k₀ = some none := shape_eq_sub.mpr (child ▸ rfl)
          have after : (t.put k₀ (.sub (update f tree path))).shape k₀ = some none := by
            rw [shape_eq_sub, sub?_put_self]
            rfl
          rw [same]
          exact after.trans before.symm
        · exact congrArg (Option.map Entry.value?) (get?_put_ne (Ne.symm same))
      | cons k' q =>
        rw [shapeAt_cons, shapeAt_cons]
        by_cases same : k' = k₀
        · rw [same, sub?_put_self, child, Option.bind_some, Option.bind_some, ih fun n here => noSub n (nodes.trans here)]
          simp only [List.cons.injEq, true_and]
        · rw [sub?_put_ne (Ne.symm same), if_neg fun both => same (List.cons.inj both.1).1]

theorem shapeAt_setAt (there : (t.node path).isSome) (noSub : t.shapeAt path key ≠ some none) :
    (t.setAt path key v).shapeAt q k = if q = path ∧ k = key then some (some v) else t.shapeAt q k := by
  obtain ⟨n, here⟩ := Option.isSome_iff_exists.mp there
  rw [setAt, shapeAt_update (fun n k other => get?_put_ne (Ne.symm other)) fun n' here' => ?_]
  · rw [here, Option.bind_some, shape, get?_put_self]
    rfl
  · rw [shapeAt, here', Option.bind_some, Ne, shape_eq_sub, Option.not_isSome_iff_eq_none] at noSub
    exact ⟨noSub, by rw [sub?, get?_put_self]; rfl⟩

theorem shapeAt_eraseAt (noSub : t.shapeAt path key ≠ some none) :
    (t.eraseAt path key).shapeAt q k = if q = path ∧ k = key then none else t.shapeAt q k := by
  rw [eraseAt, shapeAt_update (fun n k other => get?_erase_ne (Ne.symm other)) fun n here => ?_]
  · congr 1
    rw [Option.bind_eq_none_iff]
    intro n _
    rw [shape, get?_erase_self]
    rfl
  · rw [shapeAt, here, Option.bind_some, Ne, shape_eq_sub, Option.not_isSome_iff_eq_none] at noSub
    exact ⟨noSub, by rw [sub?, get?_erase_self]; rfl⟩

theorem shapeAt_eraseAt_self : (t.eraseAt path key).shapeAt path key = none := by
  rw [eraseAt]
  induction path generalizing t with
  | nil =>
    rw [update]
    exact congrArg (Option.map Entry.value?) get?_erase_self
  | cons k path ih =>
    rw [update]
    cases child : t.sub? k with
    | none =>
      dsimp only
      rw [shapeAt_cons, child]
      rfl
    | some tree =>
      dsimp only
      rw [shapeAt_cons, sub?_put_self]
      exact ih

theorem setAt_self (there : t.valueAt path key = some v) : t.setAt path key v = t := by
  rw [setAt]
  induction path generalizing t with
  | nil => exact put_self (get?_eq_value.mpr there)
  | cons k path ih =>
    rw [valueAt_cons] at there
    obtain ⟨tree, child, there⟩ := Option.bind_eq_some_iff.mp there
    rw [update, child]
    dsimp only
    rw [ih there]
    exact put_self (get?_eq_sub.mpr child)

theorem valueAt_of_eraseAt {w : V} (there : (t.eraseAt path key).valueAt q k = some w) : t.valueAt q k = some w := by
  rw [eraseAt] at there
  induction path generalizing t q with
  | nil =>
    rw [update] at there
    cases q with
    | nil =>
      by_cases same : k = key
      · rw [valueAt_nil, value?, same, get?_erase_self] at there
        cases there
      · rwa [valueAt_nil, value?, get?_erase_ne (Ne.symm same)] at there
    | cons k' q =>
      by_cases same : k' = key
      · rw [valueAt_cons, sub?, same, get?_erase_self] at there
        cases there
      · rwa [valueAt_cons, sub?, get?_erase_ne (Ne.symm same), ← sub?, ← valueAt_cons] at there
  | cons k₀ path ih =>
    rw [update] at there
    cases child : t.sub? k₀ with
    | none => rwa [child] at there
    | some tree =>
      rw [child] at there
      dsimp only at there
      cases q with
      | nil =>
        by_cases same : k = k₀
        · rw [valueAt_nil, same, value?_eq_none_of_sub sub?_put_self] at there
          cases there
        · rwa [valueAt_nil, value?, get?_put_ne (Ne.symm same)] at there
      | cons k' q =>
        rw [valueAt_cons] at there ⊢
        by_cases same : k' = k₀
        · rw [same, sub?_put_self, Option.bind_some] at there
          rw [same, child]
          exact ih there
        · rwa [sub?_put_ne (Ne.symm same)] at there

theorem shapeAt_of_valueAt {w : V} (there : t.valueAt path key = some w) (pre : p ++ [k] <+: path) :
    t.shapeAt p k = some none := by
  induction p generalizing t path with
  | nil =>
    obtain ⟨rest, rfl⟩ := pre
    rw [List.nil_append, List.singleton_append, valueAt_cons] at there
    obtain ⟨tree, child, -⟩ := Option.bind_eq_some_iff.mp there
    exact shape_eq_sub.mpr (child ▸ rfl)
  | cons k' p ih =>
    obtain ⟨rest, rfl⟩ := pre
    rw [List.append_assoc, List.cons_append, valueAt_cons] at there
    obtain ⟨tree, child, below⟩ := Option.bind_eq_some_iff.mp there
    rw [shapeAt_cons, child]
    exact ih below ⟨rest, by rw [List.append_assoc]⟩

def Distinct : NameTree K V → Prop
  | nil => True
  | value k _ rest => rest.get? k = none ∧ Distinct rest
  | sub k tree rest => rest.get? k = none ∧ Distinct tree ∧ Distinct rest

def Entry.Distinct : Entry K V → Prop
  | value _ => True
  | sub tree => tree.Distinct

theorem distinct_cons : (cons key e t).Distinct ↔ t.get? key = none ∧ e.Distinct ∧ t.Distinct := by
  cases e with
  | value v => exact and_congr_right fun _ => (iff_of_eq (true_and _)).symm
  | sub tree => exact Iff.rfl

theorem Distinct.put (distinct : t.Distinct) (inside : e.Distinct) : (t.put key e).Distinct := by
  induction t with
  | nil => exact distinct_cons.mpr ⟨rfl, inside, trivial⟩
  | value k v rest ih =>
    rw [NameTree.put]
    split_ifs with same
    · exact distinct_cons.mpr ⟨same ▸ distinct.1, inside, distinct.2⟩
    · exact ⟨(get?_put_ne (Ne.symm same)).trans distinct.1, ih distinct.2⟩
  | sub k tree rest _ ih =>
    rw [NameTree.put]
    split_ifs with same
    · exact distinct_cons.mpr ⟨same ▸ distinct.1, inside, distinct.2.2⟩
    · exact ⟨(get?_put_ne (Ne.symm same)).trans distinct.1, distinct.2.1, ih distinct.2.2⟩

theorem Distinct.erase (distinct : t.Distinct) (key : K) : (t.erase key).Distinct := by
  induction t with
  | nil => trivial
  | value k v rest ih =>
    rw [NameTree.erase]
    split_ifs with same
    · exact ih distinct.2
    · exact ⟨(get?_erase_ne (Ne.symm same)).trans distinct.1, ih distinct.2⟩
  | sub k tree rest _ ih =>
    rw [NameTree.erase]
    split_ifs with same
    · exact ih distinct.2.2
    · exact ⟨(get?_erase_ne (Ne.symm same)).trans distinct.1, distinct.2.1, ih distinct.2.2⟩

theorem Distinct.of_sub (distinct : t.Distinct) (child : t.sub? k = some tree) : tree.Distinct := by
  rw [← get?_eq_sub] at child
  induction t with
  | nil => cases child
  | value k' v rest ih =>
    rw [get?] at child
    split_ifs at child
    · cases child
    · exact ih distinct.2 child
  | sub k' tree' rest _ ih =>
    rw [get?] at child
    split_ifs at child
    · cases child
      exact distinct.2.1
    · exact ih distinct.2.2 child

theorem Distinct.update (distinct : t.Distinct) (keeps : ∀ n : NameTree K V, n.Distinct → (f n).Distinct) :
    (t.update f path).Distinct := by
  induction path generalizing t with
  | nil => exact keeps t distinct
  | cons k path ih =>
    rw [NameTree.update]
    split
    · exact distinct
    · rename_i tree child
      exact distinct.put (ih (distinct.of_sub child))

theorem valueAt_value {rest : NameTree K V} {w : V} (fresh : rest.get? k = none) :
    (value k v rest).valueAt q key = some w ↔ q = [] ∧ key = k ∧ w = v ∨ rest.valueAt q key = some w := by
  cases q with
  | nil =>
    rw [valueAt_nil, valueAt_nil, value?, value?, get?]
    split_ifs with same
    · subst same
      rw [fresh]
      constructor
      · intro there
        cases there
        exact .inl ⟨rfl, rfl, rfl⟩
      · rintro (⟨-, -, rfl⟩ | there)
        · rfl
        · cases there
    · exact ⟨.inr, fun there => there.resolve_left fun here => same here.2.1.symm⟩
  | cons k' q =>
    rw [valueAt_cons, valueAt_cons, sub?, sub?, get?]
    split_ifs with same
    · subst same
      rw [fresh]
      exact iff_of_false nofun fun there => there.elim (fun here => nomatch here.1) nofun
    · exact ⟨.inr, fun there => there.resolve_left fun here => nomatch here.1⟩

theorem valueAt_sub {rest : NameTree K V} {w : V} (fresh : rest.get? k = none) :
    (sub k tree rest).valueAt q key = some w ↔
      (∃ q', q = k :: q' ∧ tree.valueAt q' key = some w) ∨ rest.valueAt q key = some w := by
  cases q with
  | nil =>
    rw [valueAt_nil, valueAt_nil, value?, value?, get?]
    split_ifs with same
    · subst same
      rw [fresh]
      exact iff_of_false nofun fun there => there.elim (fun ⟨_, here, _⟩ => nomatch here) nofun
    · exact ⟨.inr, fun there => there.resolve_left fun ⟨_, here, _⟩ => nomatch here⟩
  | cons k' q =>
    rw [valueAt_cons, valueAt_cons, sub?, sub?, get?]
    split_ifs with same
    · subst same
      rw [fresh]
      constructor
      · exact fun there => .inl ⟨q, rfl, there⟩
      · rintro (⟨q', eq, there⟩ | there)
        · obtain rfl := (List.cons.inj eq).2
          exact there
        · cases there
    · exact ⟨.inr, fun there => there.resolve_left fun ⟨_, eq, _⟩ => same (List.cons.inj eq).1.symm⟩

/-! ## The deepest value -/

theorem inherited_eq_none : t.inherited key path = none ↔ ∀ q, q <+: path → t.valueAt q key = none := by
  induction path generalizing t with
  | nil =>
    rw [inherited, Option.map_eq_none_iff]
    constructor
    · intro none q pre
      rw [List.prefix_nil.mp pre]
      exact none
    · exact fun all => all [] (List.prefix_refl [])
  | cons k path ih =>
    rw [inherited, Option.or_eq_none_iff, Option.map_eq_none_iff, Option.map_eq_none_iff, Option.bind_eq_none_iff]
    constructor
    · rintro ⟨below, none⟩ q pre
      rcases List.prefix_cons_iff.mp pre with rfl | ⟨q, rfl, rest⟩
      · exact none
      · rw [valueAt_cons, Option.bind_eq_none_iff]
        exact fun tree isSub => ih.mp (below tree isSub) q rest
    · intro all
      refine ⟨fun tree isSub => ih.mpr fun q pre => ?_, all [] (List.nil_prefix)⟩
      have here := all (k :: q) (List.cons_prefix_cons.mpr ⟨rfl, pre⟩)
      rwa [valueAt_cons, isSub] at here

theorem inherited_eq_some : t.inherited key path = some (p, v) ↔
    p <+: path ∧ t.valueAt p key = some v ∧ ∀ q, q <+: path → p.length < q.length → t.valueAt q key = none := by
  induction path generalizing t p with
  | nil =>
    rw [inherited, Option.map_eq_some_iff]
    constructor
    · rintro ⟨v', here, ⟨⟩⟩
      refine ⟨List.prefix_refl [], here, fun q pre longer => ?_⟩
      rw [List.prefix_nil.mp pre] at longer
      exact absurd longer (lt_irrefl _)
    · rintro ⟨pre, here, -⟩
      obtain rfl := List.prefix_nil.mp pre
      exact ⟨v, here, rfl⟩
  | cons k path ih =>
    rw [inherited, Option.or_eq_some_iff, Option.map_eq_some_iff, Option.map_eq_none_iff, Option.map_eq_some_iff]
    constructor
    · rintro (⟨⟨p, v'⟩, below, ⟨⟩⟩ | ⟨none, v', here, ⟨⟩⟩)
      · obtain ⟨tree, isSub, below⟩ := Option.bind_eq_some_iff.mp below
        obtain ⟨pre, value, deepest⟩ := ih.mp below
        refine ⟨List.cons_prefix_cons.mpr ⟨rfl, pre⟩, by rw [valueAt_cons, isSub]; exact value, fun q pre longer => ?_⟩
        rcases List.prefix_cons_iff.mp pre with rfl | ⟨q, rfl, rest⟩
        · cases longer
        · rw [valueAt_cons, isSub]
          exact deepest q rest (Nat.lt_of_succ_lt_succ longer)
      · refine ⟨List.nil_prefix, here, fun q pre longer => ?_⟩
        rcases List.prefix_cons_iff.mp pre with rfl | ⟨q, rfl, rest⟩
        · cases longer
        · rw [valueAt_cons, Option.bind_eq_none_iff]
          exact fun tree isSub => inherited_eq_none.mp (Option.bind_eq_none_iff.mp none tree isSub) q rest
    · rintro ⟨pre, value, deepest⟩
      rcases List.prefix_cons_iff.mp pre with rfl | ⟨p, rfl, rest⟩
      · refine .inr ⟨Option.bind_eq_none_iff.mpr fun tree isSub => inherited_eq_none.mpr fun q pre => ?_, v, value, rfl⟩
        have below := deepest (k :: q) (List.cons_prefix_cons.mpr ⟨rfl, pre⟩) (Nat.succ_pos _)
        rwa [valueAt_cons, isSub] at below
      · rw [valueAt_cons] at value
        obtain ⟨tree, isSub, value⟩ := Option.bind_eq_some_iff.mp value
        refine .inl ⟨(p, v), Option.bind_eq_some_iff.mpr ⟨tree, isSub, ih.mpr ⟨rest, value, fun q pre longer => ?_⟩⟩, rfl⟩
        have below := deepest (k :: q) (List.cons_prefix_cons.mpr ⟨rfl, pre⟩) (Nat.succ_lt_succ longer)
        rwa [valueAt_cons, isSub] at below

theorem inherited_concat : t.inherited key (path ++ [k]) =
    ((t.valueAt (path ++ [k]) key).map (path ++ [k], ·)).or (t.inherited key path) := by
  induction path generalizing t with
  | nil =>
    simp only [List.nil_append, inherited, valueAt_cons]
    cases t.sub? k with
    | none => rfl
    | some tree =>
      rw [Option.bind_some, Option.bind_some, valueAt_nil, Option.map_map]
      rfl
  | cons k' path ih =>
    rw [List.cons_append, inherited, inherited, valueAt_cons]
    cases t.sub? k' with
    | none => rfl
    | some tree =>
      rw [Option.bind_some, Option.bind_some, Option.bind_some, ih]
      cases tree.valueAt (path ++ [k]) key with
      | none => rfl
      | some v => rfl

theorem inherited_congr {t' : NameTree K V} (same : ∀ q, q <+: path → t.valueAt q key = t'.valueAt q key) :
    t.inherited key path = t'.inherited key path := by
  refine Option.ext fun found => ?_
  obtain ⟨p, v⟩ := found
  change t.inherited key path = some (p, v) ↔ t'.inherited key path = some (p, v)
  rw [inherited_eq_some, inherited_eq_some]
  refine and_congr_right fun pre => and_congr (by rw [same p pre]) ?_
  exact forall_congr' fun q => imp_congr_right fun pre => by rw [same q pre]

end NameTree

end CadoNfs.Lib
