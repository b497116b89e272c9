import CadoNfs.Utils.GaloisIndex

/-!
# The orbits of the indices

The groups of `compute_action_on_index` over a whole table: every index is given an index of its orbit.
-/

namespace CadoNfs.Utils.Galois
open Lib Function

def Movable (tab : Renumber) (x : PRSide) : Prop := x.p ≠ 0 ∧ (tab.isBad x).1 = 0

instance (tab : Renumber) (x : PRSide) : Decidable (Movable tab x) := inferInstanceAs (Decidable (_ ∧ _))

def SameOrbit (g : GaloisAction) (tab : Renumber) (i j : ℕ) : Prop :=
  ∃ x y, tab.pRFromIndex i = .ok x ∧ tab.pRFromIndex j = .ok y ∧ Movable tab x ∧ Movable tab y ∧
    x.p = y.p ∧ x.side = y.side ∧ Reaches (g.apply · x.p) x.r y.r

structure Reads (w : ℕ) (tab : Renumber) (ideal : ℕ → PRSide) : Prop where
  size : tab.aboveAll = tab.aboveBad + tab.flatData.length
  read : ∀ i < tab.aboveAll, tab.deref w i = .ok (ideal i)
  index : ∀ i < tab.aboveAll, tab.pRFromIndex i = .ok (ideal i)
  range : ∀ i x, tab.pRFromIndex i = .ok x → i < tab.aboveAll
  movable : ∀ i j, i ≤ j → j < tab.aboveAll → Movable tab (ideal i) → Movable tab (ideal j)
  sorted : ∀ i j, i < j → j < tab.aboveAll → Movable tab (ideal i) → (ideal i).p < (ideal j).p ∨
    (ideal i).p = (ideal j).p ∧ (ideal i).side ≤ (ideal j).side
  distinct : ∀ i j, i < j → j < tab.aboveAll → Movable tab (ideal i) → ideal i ≠ ideal j
  root : ∀ i < tab.aboveAll, Movable tab (ideal i) → (ideal i).r ≤ (ideal i).p
  prime : ∀ i < tab.aboveAll, Movable tab (ideal i) → (ideal i).p.Prime ∧ (ideal i).p < 2 ^ 64
  fixed : ∀ i < tab.aboveBad, ¬Movable tab (ideal i)

structure ActsOn (g : GaloisAction) (tab : Renumber) : Prop where
  stable : ∀ i x, tab.pRFromIndex i = .ok x → Movable tab x →
    ∃ j, tab.pRFromIndex j = .ok { x with r := g.apply x.r x.p } ∧ Movable tab { x with r := g.apply x.r x.p }
  coprime : ∀ i x, tab.pRFromIndex i = .ok x → Movable tab x → ¬(x.p : ℤ) ∣ g.sigma.det

def NoShortOrbit (g : GaloisAction) (tab : Renumber) : Prop :=
  ∀ i x, tab.pRFromIndex i = .ok x → Movable tab x → ¬(g = some .autom6_1 ∧ x.p = 2)

section
variable {g : GaloisAction} {w : ℕ} {tab : Renumber} {ideal : ℕ → PRSide} {i j : ℕ} {sigma sigma' : List ℕ}

theorem Reads.sameOrbit_iff (reads : Reads w tab ideal) : SameOrbit g tab i j ↔
    i < tab.aboveAll ∧ j < tab.aboveAll ∧ Movable tab (ideal i) ∧ Movable tab (ideal j) ∧
      (ideal i).p = (ideal j).p ∧ (ideal i).side = (ideal j).side ∧
      Reaches (g.apply · (ideal i).p) (ideal i).r (ideal j).r := by
  constructor
  · rintro ⟨x, y, first, second, rest⟩
    have inside := reads.range i x first
    have inside' := reads.range j y second
    rw [reads.index i inside, Except.ok.injEq] at first
    rw [reads.index j inside', Except.ok.injEq] at second
    subst first second
    exact ⟨inside, inside', rest⟩
  · rintro ⟨inside, inside', rest⟩
    exact ⟨ideal i, ideal j, reads.index i inside, reads.index j inside', rest⟩

theorem Reads.length (reads : Reads w tab ideal) (acts : ActsOn g tab) (noShort : NoShortOrbit g tab)
    (inside : i < tab.aboveAll) (movable : Movable tab (ideal i)) :
    minimalPeriod (g.apply · (ideal i).p) (ideal i).r = 1 ∨
      minimalPeriod (g.apply · (ideal i).p) (ideal i).r = g.order := by
  obtain ⟨prime, bits⟩ := reads.prime i inside movable
  have coprime := acts.coprime i _ (reads.index i inside) movable
  have : Fact (ideal i).p.Prime := ⟨prime⟩
  obtain ⟨x, rep⟩ := exists_represents (reads.root i inside movable)
  have length := period_gl (det_ne_zero coprime) bits x
  rwa [if_neg (noShort i _ (reads.index i inside) movable), ← minimalPeriod_apply bits (det_ne_zero coprime) rep] at length

/-! ## The group above a prime -/

def groupOf (ideal : ℕ → PRSide) (a b : ℕ) : List (ℕ × ℕ) := (List.Ico a b).map fun j => ((ideal j).r, j)

theorem mem_groupOf {a b : ℕ} {e : ℕ × ℕ} : e ∈ groupOf ideal a b ↔ ∃ j, a ≤ j ∧ j < b ∧ ((ideal j).r, j) = e := by
  simp only [groupOf, List.mem_map, List.Ico.mem, and_assoc]

theorem sameP_iff {x y : PRSide} : PRSide.sameP x y = true ↔ x.p = y.p ∧ x.side = y.side := by
  rw [PRSide.sameP, decide_eq_true_iff]

theorem Reads.root_inj (reads : Reads w tab ideal) (movable : Movable tab (ideal i)) {a : ℕ} (le : i ≤ a) (le' : i ≤ j)
    (inside : a < tab.aboveAll) (inside' : j < tab.aboveAll) (same : (ideal a).p = (ideal j).p)
    (side : (ideal a).side = (ideal j).side) (root : (ideal a).r = (ideal j).r) : a = j := by
  have eq : ideal a = ideal j := PRSide.ext same root side
  rcases lt_trichotomy a j with less | eq' | more
  · exact absurd eq (reads.distinct a j less inside' (reads.movable i a le inside movable))
  · exact eq'
  · exact absurd eq.symm (reads.distinct j a more inside (reads.movable i j le' inside' movable))

theorem lookup_eq_none {m : List (ℕ × ℕ)} {r : ℕ} (absent : ∀ e ∈ m, e.1 ≠ r) : m.lookup r = none := by
  rw [List.lookup_eq_none_iff]
  exact fun e among => bne_iff_ne.mpr (absent e among).symm

theorem emplace_groupOf (reads : Reads w tab ideal) {a : ℕ} (movable : Movable tab (ideal a)) (le : a ≤ i)
    (inside : i < tab.aboveAll) (group : ∀ j, a ≤ j → j ≤ i → PRSide.sameP (ideal j) (ideal a) = true) :
    emplace (groupOf ideal a i) (ideal i).r i = groupOf ideal a (i + 1) := by
  have absent : (groupOf ideal a i).lookup (ideal i).r = none := by
    refine lookup_eq_none fun e among root => ?_
    obtain ⟨j, le', less, rfl⟩ := mem_groupOf.mp among
    obtain ⟨prime, side⟩ := sameP_iff.mp (group j le' less.le)
    obtain ⟨prime', side'⟩ := sameP_iff.mp (group i le le_rfl)
    exact less.ne (reads.root_inj movable le' le (less.trans inside) inside (prime.trans prime'.symm)
      (side.trans side'.symm) root)
  rw [emplace, absent, groupOf, groupOf, List.Ico.succ_top le, List.map_append]
  rfl

theorem collect_ok (reads : Reads w tab ideal) {a : ℕ} (left : ℕ) (movable : Movable tab (ideal a)) (le : a ≤ i)
    (distance : i + 1 + left = tab.aboveAll) (group : ∀ j, a ≤ j → j ≤ i → PRSide.sameP (ideal j) (ideal a) = true) :
    ∃ b, collect w tab (ideal a) left (ideal i) i (groupOf ideal a i) = .ok (groupOf ideal a b, b) ∧ i < b ∧
      b ≤ tab.aboveAll ∧ (∀ j, a ≤ j → j < b → PRSide.sameP (ideal j) (ideal a) = true) ∧
      (b < tab.aboveAll → PRSide.sameP (ideal b) (ideal a) = false) := by
  have here : ∀ j, a ≤ j → j < i + 1 → PRSide.sameP (ideal j) (ideal a) = true := fun j le' less =>
    group j le' (Nat.le_of_lt_succ less)
  have added := emplace_groupOf reads movable le (by omega) group
  induction left generalizing i with
  | zero =>
    refine ⟨i + 1, ?_, Nat.lt_succ_self i, by omega, here, fun more => absurd more (by omega)⟩
    rw [collect, added]
  | succ left ih =>
    have read := reads.read (i + 1) (by omega)
    by_cases same : PRSide.sameP (ideal (i + 1)) (ideal a) = true
    · have group' : ∀ j, a ≤ j → j ≤ i + 1 → PRSide.sameP (ideal j) (ideal a) = true := by
        intro j le' less
        rcases less.eq_or_lt with rfl | before
        · exact same
        · exact here j le' before
      obtain ⟨b, run, less, rest⟩ := ih (i := i + 1) (by omega) (by omega) group'
        (fun j le' less => group' j le' (Nat.le_of_lt_succ less))
        (emplace_groupOf reads movable (by omega) (by omega) group')
      refine ⟨b, ?_, (Nat.lt_succ_self i).trans less, rest⟩
      rw [collect, added, read]
      simp only [bind, Except.bind, if_pos same]
      exact run
    · refine ⟨i + 1, ?_, Nat.lt_succ_self i, by omega, here, fun _ => Bool.eq_false_iff.mpr same⟩
      rw [collect, added, read]
      simp only [bind, Except.bind, if_neg same]
      rfl

structure Handled (g : GaloisAction) (tab : Renumber) (ideal : ℕ → PRSide) (a b : ℕ) (sigma sigma' : List ℕ) : Prop where
  length : sigma'.length = sigma.length
  fixed : ∀ j, a ≤ j → j < b → ¬Movable tab (ideal j) → sigma'[j]? = some j
  moved : ∀ j, a ≤ j → j < b → Movable tab (ideal j) → ∃ k, SameOrbit g tab j k ∧ sigma'[j]? = some k
  same : ∀ j k, a ≤ j → j < b → SameOrbit g tab j k → a ≤ k ∧ k < b ∧ sigma'[j]? = sigma'[k]?
  other : ∀ j, j < a ∨ b ≤ j → sigma'[j]? = sigma[j]?

def Kept (g : GaloisAction) (tab : Renumber) (ideal : ℕ → PRSide) (sigma : List ℕ) (j : ℕ) : Prop :=
  Movable tab (ideal j) ∧ sigma[j]? = some j ∧ minimalPeriod (g.apply · (ideal j).p) (ideal j).r = g.order

open Classical in
noncomputable def nbKeptIn (g : GaloisAction) (tab : Renumber) (ideal : ℕ → PRSide) (sigma : List ℕ) (a b : ℕ) : ℕ :=
  ((Finset.Ico a b).filter (Kept g tab ideal sigma)).card

section
variable {a b c : ℕ} {tau : List ℕ}

theorem nbKeptIn_append (le : a ≤ b) (le' : b ≤ c) (same : ∀ j, a ≤ j → j < b → tau[j]? = sigma[j]?) :
    nbKeptIn g tab ideal tau a c = nbKeptIn g tab ideal sigma a b + nbKeptIn g tab ideal tau b c := by
  classical
  have first : (Finset.Ico a b).filter (Kept g tab ideal tau) = (Finset.Ico a b).filter (Kept g tab ideal sigma) := by
    refine Finset.filter_congr fun j inside => ?_
    obtain ⟨above, below⟩ := Finset.mem_Ico.mp inside
    rw [Kept, Kept, same j above below]
  unfold nbKeptIn
  rw [← Finset.Ico_union_Ico_eq_Ico le le', Finset.filter_union, Finset.card_union_of_disjoint
    (Finset.disjoint_filter_filter (Finset.Ico_disjoint_Ico_consecutive a b c)), first]

theorem Handled.append (le : a ≤ b) (le' : b ≤ c) (first : Handled g tab ideal a b sigma sigma')
    (second : Handled g tab ideal b c sigma' tau) : Handled g tab ideal a c sigma tau := by
  refine ⟨second.length.trans first.length, fun j above below notMovable => ?_, fun j above below movable => ?_,
    fun j k above below orbit => ?_, fun j outside => ?_⟩
  · by_cases early : j < b
    · rw [second.other j (.inl early)]
      exact first.fixed j above early notMovable
    · exact second.fixed j (not_lt.mp early) below notMovable
  · by_cases early : j < b
    · rw [second.other j (.inl early)]
      exact first.moved j above early movable
    · exact second.moved j (not_lt.mp early) below movable
  · by_cases early : j < b
    · obtain ⟨above', early', same⟩ := first.same j k above early orbit
      rw [second.other j (.inl early), second.other k (.inl early')]
      exact ⟨above', early'.trans_le le', same⟩
    · obtain ⟨late, below', same⟩ := second.same j k (not_lt.mp early) below orbit
      exact ⟨le.trans late, below', same⟩
  · rw [second.other j (outside.imp_left fun before => before.trans_le le),
      first.other j (outside.imp_right fun after => le'.trans after)]

theorem Handled.nil (a : ℕ) (sigma : List ℕ) : Handled g tab ideal a a sigma sigma :=
  ⟨rfl, fun _ above below => absurd above below.not_ge, fun _ above below => absurd above below.not_ge,
    fun _ _ above below => absurd above below.not_ge, fun _ _ => rfl⟩

theorem Handled.step (reads : Reads w tab ideal) (inside : i < sigma.length) (notMovable : ¬Movable tab (ideal i)) :
    Handled g tab ideal i (i + 1) sigma (sigma.set i i) := by
  have only {j : ℕ} (above : i ≤ j) (below : j < i + 1) : j = i := by omega
  refine ⟨List.length_set .., fun j above below _ => ?_, fun j above below movable => ?_,
    fun j k above below orbit => ?_, fun j outside => List.getElem?_set_ne (by omega)⟩
  · rw [only above below, List.getElem?_set_self inside]
  · exact absurd (only above below ▸ movable) notMovable
  · exact absurd (only above below ▸ (reads.sameOrbit_iff.mp orbit).2.2.1) notMovable

end

structure IsGroup (tab : Renumber) (ideal : ℕ → PRSide) (i b : ℕ) : Prop where
  movable : Movable tab (ideal i)
  less : i < b
  le : b ≤ tab.aboveAll
  same : ∀ j, i ≤ j → j < b → PRSide.sameP (ideal j) (ideal i) = true
  complete : ∀ j < tab.aboveAll, Movable tab (ideal j) → PRSide.sameP (ideal j) (ideal i) = true → i ≤ j ∧ j < b

def placeIn (m : List (ℕ × ℕ)) (r : ℕ) : ℕ := (m.lookup r).getD 0

def rootsOf (ideal : ℕ → PRSide) (a b : ℕ) : Finset ℕ := (Finset.Ico a b).image fun j => (ideal j).r

theorem mem_rootsOf {a b u : ℕ} : u ∈ rootsOf ideal a b ↔ ∃ j, a ≤ j ∧ j < b ∧ (ideal j).r = u := by
  simp only [rootsOf, Finset.mem_image, Finset.mem_Ico, and_assoc]

namespace IsGroup

variable {b k : ℕ} (isGroup : IsGroup tab ideal i b) (reads : Reads w tab ideal)
include isGroup

theorem prime (above : i ≤ j) (below : j < b) : (ideal j).p = (ideal i).p :=
  (sameP_iff.mp (isGroup.same j above below)).1

theorem side (above : i ≤ j) (below : j < b) : (ideal j).side = (ideal i).side :=
  (sameP_iff.mp (isGroup.same j above below)).2

include reads

theorem movables (above : i ≤ j) (below : j < b) : Movable tab (ideal j) :=
  reads.movable i j above (below.trans_le isGroup.le) isGroup.movable

theorem root_inj (above : i ≤ j) (below : j < b) (above' : i ≤ k) (below' : k < b)
    (root : (ideal j).r = (ideal k).r) : j = k :=
  reads.root_inj isGroup.movable above above' (below.trans_le isGroup.le) (below'.trans_le isGroup.le)
    ((isGroup.prime above below).trans (isGroup.prime above' below').symm)
    ((isGroup.side above below).trans (isGroup.side above' below').symm) root

theorem nodup : ((groupOf ideal i b).map Prod.fst).Nodup := by
  rw [groupOf, List.map_map]
  refine (List.Ico.nodup i b).map_on fun j inside k inside' root => ?_
  rw [List.Ico.mem] at inside inside'
  exact isGroup.root_inj reads inside.1 inside.2 inside'.1 inside'.2 root

theorem lookup (above : i ≤ j) (below : j < b) : (groupOf ideal i b).lookup (ideal j).r = some j :=
  lookup_of_mem (isGroup.nodup reads) (e := ((ideal j).r, j)) (mem_groupOf.mpr ⟨j, above, below, rfl⟩)

theorem placeIn_root (above : i ≤ j) (below : j < b) : placeIn (groupOf ideal i b) (ideal j).r = j := by
  rw [placeIn, isGroup.lookup reads above below]
  rfl

theorem placeIn_injective : Set.InjOn (placeIn (groupOf ideal i b)) (rootsOf ideal i b) := by
  intro u inside v inside' same
  obtain ⟨j, above, below, rfl⟩ := mem_rootsOf.mp inside
  obtain ⟨k, above', below', rfl⟩ := mem_rootsOf.mp inside'
  rw [isGroup.placeIn_root reads above below, isGroup.placeIn_root reads above' below'] at same
  rw [same]

theorem grouped {elts : List (ℕ × ℕ)} (permuted : elts.Perm (groupOf ideal i b)) :
    Grouped (rootsOf ideal i b) (placeIn (groupOf ideal i b)) (groupOf ideal i b) elts := by
  refine ⟨fun u inside => ?_, fun u inside => ?_, fun e among _ => ?_, ?_⟩
  · obtain ⟨j, above, below, rfl⟩ := mem_rootsOf.mp inside
    rw [isGroup.lookup reads above below, isGroup.placeIn_root reads above below]
  · obtain ⟨j, above, below, rfl⟩ := mem_rootsOf.mp inside
    exact List.mem_map_of_mem (f := Prod.fst) (permuted.mem_iff.mpr (mem_groupOf.mpr ⟨j, above, below, rfl⟩))
  · obtain ⟨j, above, below, rfl⟩ := mem_groupOf.mp (permuted.mem_iff.mp among)
    exact ⟨mem_rootsOf.mpr ⟨j, above, below, rfl⟩, (isGroup.placeIn_root reads above below).symm⟩
  · exact (permuted.map Prod.fst).nodup_iff.mpr (isGroup.nodup reads)

variable (acts : ActsOn g tab)
include acts

theorem next (above : i ≤ j) (below : j < b) :
    ∃ k, i ≤ k ∧ k < b ∧ (ideal k).r = g.apply (ideal j).r (ideal i).p := by
  obtain ⟨k, index, movable⟩ := acts.stable j _ (reads.index j (below.trans_le isGroup.le))
    (isGroup.movables reads above below)
  have inside := reads.range k _ index
  rw [reads.index k inside, Except.ok.injEq] at index
  have group : PRSide.sameP (ideal k) (ideal i) = true := by
    rw [index]
    exact sameP_iff.mpr ⟨isGroup.prime above below, isGroup.side above below⟩
  obtain ⟨above', below'⟩ := isGroup.complete k inside (index ▸ movable) group
  exact ⟨k, above', below', by rw [index, ← isGroup.prime above below]⟩

theorem stable : StableSet (g.apply · (ideal i).p) (rootsOf ideal i b) := by
  have inside := isGroup.less.trans_le isGroup.le
  obtain ⟨prime, bits⟩ := reads.prime i inside isGroup.movable
  have coprime := acts.coprime i _ (reads.index i inside) isGroup.movable
  have : Fact (ideal i).p.Prime := ⟨prime⟩
  refine ⟨fun u inside => ?_, (apply_bijOn bits (det_ne_zero coprime)).injOn.mono fun u inside => ?_⟩
  · obtain ⟨j, above, below, rfl⟩ := mem_rootsOf.mp inside
    exact mem_rootsOf.mpr (isGroup.next reads acts above below)
  · obtain ⟨j, above, below, rfl⟩ := mem_rootsOf.mp inside
    have root := reads.root j (below.trans_le isGroup.le) (isGroup.movables reads above below)
    rwa [isGroup.prime above below] at root

theorem lengths (noShort : NoShortOrbit g tab) {u : ℕ} (inside : u ∈ rootsOf ideal i b) :
    minimalPeriod (g.apply · (ideal i).p) u = 1 ∨ minimalPeriod (g.apply · (ideal i).p) u = g.order := by
  obtain ⟨j, above, below, rfl⟩ := mem_rootsOf.mp inside
  rw [← isGroup.prime above below]
  exact reads.length acts noShort (below.trans_le isGroup.le) (isGroup.movables reads above below)

omit acts in
theorem sameOrbit (above : i ≤ j) (below : j < b) (above' : i ≤ k) (below' : k < b)
    (reaches : Reaches (g.apply · (ideal i).p) (ideal j).r (ideal k).r) : SameOrbit g tab j k := by
  have prime := isGroup.prime above below
  refine reads.sameOrbit_iff.mpr ⟨below.trans_le isGroup.le, below'.trans_le isGroup.le,
    isGroup.movables reads above below, isGroup.movables reads above' below',
    prime.trans (isGroup.prime above' below').symm,
    (isGroup.side above below).trans (isGroup.side above' below').symm, ?_⟩
  rwa [prime]

omit acts in
theorem of_sameOrbit (above : i ≤ j) (below : j < b) (orbit : SameOrbit g tab j k) :
    i ≤ k ∧ k < b ∧ Reaches (g.apply · (ideal i).p) (ideal j).r (ideal k).r := by
  obtain ⟨-, inside, -, movable, prime, side, reaches⟩ := reads.sameOrbit_iff.mp orbit
  rw [isGroup.prime above below] at reaches
  have group : PRSide.sameP (ideal k) (ideal i) = true :=
    sameP_iff.mpr ⟨prime.symm.trans (isGroup.prime above below), side.symm.trans (isGroup.side above below)⟩
  obtain ⟨above', below'⟩ := isGroup.complete k inside movable group
  exact ⟨above', below', reaches⟩

omit acts in
theorem nbKept_eq : nbKept (g.apply · (ideal i).p) g.order (rootsOf ideal i b) (placeIn (groupOf ideal i b)) sigma =
    nbKeptIn g tab ideal sigma i b := by
  classical
  have injective : Set.InjOn (fun j => (ideal j).r) (Finset.Ico i b : Set ℕ) := by
    intro j inside k inside' root
    rw [Finset.coe_Ico, Set.mem_Ico] at inside inside'
    exact isGroup.root_inj reads inside.1 inside.2 inside'.1 inside'.2 root
  have kept : (Finset.Ico i b).filter (Kept g tab ideal sigma) = (Finset.Ico i b).filter fun j =>
      sigma[placeIn (groupOf ideal i b) (ideal j).r]? = some (placeIn (groupOf ideal i b) (ideal j).r) ∧
        minimalPeriod (g.apply · (ideal i).p) (ideal j).r = g.order := by
    refine Finset.filter_congr fun j inside => ?_
    obtain ⟨above, below⟩ := Finset.mem_Ico.mp inside
    rw [Kept, isGroup.placeIn_root reads above below, isGroup.prime above below]
    exact and_iff_right (isGroup.movables reads above below)
  rw [nbKeptIn, kept, nbKept, rootsOf, Finset.filter_image]
  exact Finset.card_image_of_injOn (injective.mono (Finset.coe_subset.mpr (Finset.filter_subset _ _)))

end IsGroup

theorem IsGroup.handled {b : ℕ} {elts : List (ℕ × ℕ)} (isGroup : IsGroup tab ideal i b) (reads : Reads w tab ideal)
    (acts : ActsOn g tab) (noShort : NoShortOrbit g tab) (permuted : elts.Perm (groupOf ideal i b))
    (length : sigma.length = tab.aboveAll) (norbits : ℕ) :
    ∃ sigma', groupOrbits g (ideal i) elts (groupOf ideal i b) sigma norbits =
        .ok (sigma', norbits + nbKeptIn g tab ideal sigma' i b) ∧ Handled g tab ideal i b sigma sigma' := by
  have root {u : ℕ} (inside : u ∈ rootsOf ideal i b) : ∃ j, i ≤ j ∧ j < b ∧ (ideal j).r = u ∧
      placeIn (groupOf ideal i b) u = j := by
    obtain ⟨j, above, below, rfl⟩ := mem_rootsOf.mp inside
    exact ⟨j, above, below, rfl, isGroup.placeIn_root reads above below⟩
  obtain ⟨sigma', run, chosen⟩ := groupOrbits_ok (isGroup.stable reads acts) (isGroup.placeIn_injective reads)
    (fun u inside => isGroup.lengths reads acts noShort inside)
    (fun u inside => by
      obtain ⟨j, -, below, -, place⟩ := root inside
      rw [place, length]
      exact below.trans_le isGroup.le)
    (isGroup.grouped reads permuted) norbits
  refine ⟨sigma', ?_, ⟨chosen.length, fun j above below notMovable => ?_, fun j above below _ => ?_,
    fun j k above below orbit => ?_, fun j outside => ?_⟩⟩
  · rw [run, isGroup.nbKept_eq reads]
  · exact absurd (isGroup.movables reads above below) notMovable
  · obtain ⟨v, inside, reaches, written⟩ := chosen.chosen _ (mem_rootsOf.mpr ⟨j, above, below, rfl⟩)
    obtain ⟨k, above', below', rfl, place⟩ := root inside
    rw [place, isGroup.placeIn_root reads above below] at written
    exact ⟨k, isGroup.sameOrbit reads above below above' below' reaches, written⟩
  · obtain ⟨above', below', reaches⟩ := isGroup.of_sameOrbit reads above below orbit
    have same := chosen.same _ (mem_rootsOf.mpr ⟨j, above, below, rfl⟩) _ reaches
    rw [isGroup.placeIn_root reads above below, isGroup.placeIn_root reads above' below'] at same
    exact ⟨above', below', same⟩
  · refine chosen.other j fun u inside place => ?_
    obtain ⟨k, above, below, -, place'⟩ := root inside
    omega

def Starts (tab : Renumber) (ideal : ℕ → PRSide) (i : ℕ) : Prop :=
  i < tab.aboveAll → ∀ j < i, Movable tab (ideal j) → PRSide.sameP (ideal j) (ideal i) = false

theorem Reads.between (reads : Reads w tab ideal) {a b c : ℕ} (movable : Movable tab (ideal a)) (le : a ≤ b) (le' : b ≤ c)
    (inside : c < tab.aboveAll) (same : PRSide.sameP (ideal a) (ideal c) = true) :
    PRSide.sameP (ideal b) (ideal a) = true := by
  rw [sameP_iff] at same ⊢
  rcases le.eq_or_lt with rfl | less
  · exact ⟨rfl, rfl⟩
  rcases le'.eq_or_lt with rfl | less'
  · exact ⟨same.1.symm, same.2.symm⟩
  have first := reads.sorted a b less (less'.trans inside) movable
  have second := reads.sorted b c less' inside (reads.movable a b le (less'.trans inside) movable)
  omega

theorem sameP_comm (x y : PRSide) : PRSide.sameP x y = PRSide.sameP y x := by
  rw [Bool.eq_iff_iff, sameP_iff, sameP_iff, eq_comm, @eq_comm _ x.side]

theorem Starts.isGroup (starts : Starts tab ideal i) (reads : Reads w tab ideal) {b : ℕ} (movable : Movable tab (ideal i))
    (less : i < b) (le : b ≤ tab.aboveAll) (same : ∀ j, i ≤ j → j < b → PRSide.sameP (ideal j) (ideal i) = true)
    (ends : b < tab.aboveAll → PRSide.sameP (ideal b) (ideal i) = false) : IsGroup tab ideal i b := by
  refine ⟨movable, less, le, same, fun j inside movable' group => ⟨?_, ?_⟩⟩
  · by_contra before
    rw [starts (less.trans_le le) j (not_le.mp before) movable'] at group
    cases group
  · by_contra after
    have further := reads.between movable less.le (not_lt.mp after) inside (sameP_comm _ _ ▸ group)
    rw [ends ((not_lt.mp after).trans_lt inside)] at further
    cases further

theorem Starts.next (starts : Starts tab ideal i) (reads : Reads w tab ideal) {b : ℕ} (isGroup : IsGroup tab ideal i b)
    (ends : b < tab.aboveAll → PRSide.sameP (ideal b) (ideal i) = false) : Starts tab ideal b := by
  intro inside j before movable
  rw [Bool.eq_false_iff]
  intro same
  by_cases early : j < i
  · have group := reads.between movable early.le isGroup.less.le inside same
    rw [sameP_comm, starts (isGroup.less.trans_le isGroup.le) j early movable] at group
    cases group
  · obtain ⟨prime, side⟩ := sameP_iff.mp same
    have group : PRSide.sameP (ideal b) (ideal i) = true :=
      sameP_iff.mpr ⟨prime.symm.trans (isGroup.prime (not_lt.mp early) before),
        side.symm.trans (isGroup.side (not_lt.mp early) before)⟩
    rw [ends inside] at group
    cases group

theorem Starts.step (reads : Reads w tab ideal) (inside : i < tab.aboveAll) (notMovable : ¬Movable tab (ideal i)) :
    Starts tab ideal (i + 1) := by
  intro _ j before movable
  exact absurd (reads.movable j i (Nat.le_of_lt_succ before) inside movable) notMovable

theorem nbKeptIn_self (a : ℕ) : nbKeptIn g tab ideal sigma a a = 0 := by
  rw [nbKeptIn, Finset.Ico_self, Finset.filter_empty, Finset.card_empty]

theorem nbKeptIn_succ (notMovable : ¬Movable tab (ideal i)) : nbKeptIn g tab ideal sigma i (i + 1) = 0 := by
  classical
  rw [nbKeptIn, Finset.card_eq_zero, Finset.filter_eq_empty_iff]
  intro j between kept
  obtain ⟨above, below⟩ := Finset.mem_Ico.mp between
  obtain rfl : j = i := by omega
  exact notMovable kept.1

theorem actionLoop_ok (reads : Reads w tab ideal) (acts : ActsOn g tab) (noShort : NoShortOrbit g tab)
    {order : ℕ → List (ℕ × ℕ) → List (ℕ × ℕ)} (permutes : ∀ i l, (order i l).Perm l) (left : ℕ) (within : i ≤ tab.aboveAll)
    (enough : tab.aboveAll ≤ i + left)
    (starts : Starts tab ideal i) (length : sigma.length = tab.aboveAll) (norbits : ℕ) :
    ∃ sigma', actionLoop g w tab order left i sigma norbits =
        .ok (sigma', norbits + nbKeptIn g tab ideal sigma' i tab.aboveAll) ∧
      Handled g tab ideal i tab.aboveAll sigma sigma' := by
  induction left generalizing i sigma norbits with
  | zero =>
    obtain rfl : i = tab.aboveAll := by omega
    exact ⟨sigma, by rw [nbKeptIn_self]; rfl, Handled.nil _ _⟩
  | succ left ih =>
    rcases within.eq_or_lt with rfl | inside
    · refine ⟨sigma, ?_, Handled.nil _ _⟩
      rw [actionLoop, if_pos reads.size, nbKeptIn_self]
      rfl
    have notLast : i ≠ tab.aboveBad + tab.flatData.length := by
      rw [← reads.size]
      exact inside.ne
    by_cases movable : Movable tab (ideal i)
    · have first (j : ℕ) (above : i ≤ j) (le : j ≤ i) : PRSide.sameP (ideal j) (ideal i) = true := by
        obtain rfl : j = i := le_antisymm le above
        exact sameP_iff.mpr ⟨rfl, rfl⟩
      obtain ⟨b, collected, less, le, same, ends⟩ := collect_ok reads (tab.aboveBad + tab.flatData.length - (i + 1))
        movable le_rfl (by rw [reads.size] at inside ⊢; omega) first
      have isGroup := starts.isGroup reads movable less le same ends
      obtain ⟨sigma₁, orbits, group⟩ := isGroup.handled reads acts noShort (permutes i (groupOf ideal i b)) length norbits
      obtain ⟨sigma', run, rest⟩ := ih le (by omega) (starts.next reads isGroup ends) (group.length.trans length)
        (norbits + nbKeptIn g tab ideal sigma₁ i b)
      refine ⟨sigma', ?_, group.append less.le le rest⟩
      rw [nbKeptIn_append less.le le fun j _ below => rest.other j (.inl below), ← Nat.add_assoc, ← run, actionLoop,
        if_neg notLast, reads.read i inside]
      have empty : groupOf ideal i i = [] := by rw [groupOf, List.Ico.self_empty]; rfl
      rw [empty] at collected
      simp only [Except.mapError, bind, Except.bind, if_neg movable.1, if_neg (not_not.mpr movable.2), collected, orbits]
    · have placed : Handled g tab ideal i (i + 1) sigma (sigma.set i i) := Handled.step reads (length ▸ inside) movable
      obtain ⟨sigma', run, rest⟩ := ih inside (by omega) (Starts.step reads inside movable)
        (placed.length.trans length) norbits
      refine ⟨sigma', ?_, placed.append (Nat.le_succ i) inside rest⟩
      rw [nbKeptIn_append (Nat.le_succ i) inside fun j _ below => rest.other j (.inl below), nbKeptIn_succ movable, Nat.zero_add, ← run,
        actionLoop, if_neg notLast, reads.read i inside]
      simp only [Except.mapError, bind, Except.bind]
      split_ifs with column bad
      · rfl
      · rfl
      · exact absurd ⟨column, not_not.mp bad⟩ movable

end

end CadoNfs.Utils.Galois
