import CadoNfs.Lib.Dict
import CadoNfs.Lib.Orbits
import CadoNfs.Utils.GaloisApply
import CadoNfs.Utils.RenumberIndex

/-!
# The action on the indices

`compute_action_on_index` of `src/utils/galois_action.cpp`. The ideals above the same prime on the same side are collected
in a hash map, and the orbits are erased from it while it is iterated over. The order of this iteration is a parameter.
-/

namespace CadoNfs.Utils.Galois
open Lib

inductive ActionFailure
  | table (e : CorruptedTable)
  | wrongOrbitComputation (p r side sigmaR : ℕ)
  | wrongOrbitSize (p r side n : ℕ)
  deriving DecidableEq

def PRSide.sameP (x y : PRSide) : Bool := x.p = y.p ∧ x.side = y.side

section
variable (g : GaloisAction) (id0 : PRSide)

-- `emplace` does not replace.
def emplace (indexOfR : List (ℕ × ℕ)) (r i : ℕ) : List (ℕ × ℕ) :=
  if (indexOfR.lookup r).isSome then indexOfR else indexOfR ++ [(r, i)]

/-- The loop on `n`. Every turn erases an element of the map, so that there are at most as many as it has. -/
def walkOrbit (r0 i0 : ℕ) : ℕ → List (ℕ × ℕ) → List ℕ → ℕ → ℕ → Except ActionFailure (List (ℕ × ℕ) × List ℕ × ℕ)
  | turns, indexOfR, sigma, sigmaR, n =>
    if sigmaR = r0 then .ok (indexOfR, sigma, n)
    else match turns, indexOfR.lookup sigmaR with
      | turns + 1, some i =>
        walkOrbit r0 i0 turns (indexOfR.filter (·.1 ≠ sigmaR)) (sigma.set i i0) (g.apply sigmaR id0.p) (n + 1)
      | _, _ => .error (.wrongOrbitComputation id0.p r0 id0.side sigmaR)

/-- The loop over the map, over its elements as they were at the start. Those that are erased are not met. -/
def groupOrbits : List (ℕ × ℕ) → List (ℕ × ℕ) → List ℕ → ℕ → Except ActionFailure (List ℕ × ℕ)
  | [], _, sigma, norbits => .ok (sigma, norbits)
  | (r0, i0) :: elts, indexOfR, sigma, norbits =>
    if (indexOfR.lookup r0).isNone then groupOrbits elts indexOfR sigma norbits
    else do
      let (indexOfR, sigma, n) ←
        walkOrbit g id0 r0 i0 indexOfR.length indexOfR (sigma.set i0 i0) (g.apply r0 id0.p) 1
      if n ≠ 1 ∧ n ≠ g.order then throw (.wrongOrbitSize id0.p r0 id0.side n)
      groupOrbits elts indexOfR sigma (norbits + if n = g.order then 1 else 0)

end

section
variable (g : GaloisAction) (w : ℕ) (tab : Renumber)

def collect (id0 : PRSide) : ℕ → PRSide → ℕ → List (ℕ × ℕ) → Except CorruptedTable (List (ℕ × ℕ) × ℕ)
  | 0, idc, i, indexOfR => .ok (emplace indexOfR idc.r i, i + 1)
  | left + 1, idc, i, indexOfR => do
    let next ← tab.deref w (i + 1)
    if PRSide.sameP next id0 then collect id0 left next (i + 1) (emplace indexOfR idc.r i)
    else return (emplace indexOfR idc.r i, i + 1)

/-- The main loop. A turn passes at least one of the `left` indices before `end()`. The order of the elements of a map
may depend on anything, such as where the map is built. -/
def actionLoop (order : ℕ → List (ℕ × ℕ) → List (ℕ × ℕ)) :
    ℕ → ℕ → List ℕ → ℕ → Except ActionFailure (List ℕ × ℕ)
  | 0, _, sigma, norbits => .ok (sigma, norbits)
  | left + 1, i, sigma, norbits =>
    if i = tab.aboveBad + tab.flatData.length then .ok (sigma, norbits)
    else do
      let x ← (tab.deref w i).mapError .table
      if x.p = 0 then actionLoop order left (i + 1) (sigma.set i i) norbits
      else if (tab.isBad x).1 ≠ 0 then actionLoop order left (i + 1) (sigma.set i i) norbits
      else
        let (indexOfR, next) ←
          (collect w tab x (tab.aboveBad + tab.flatData.length - (i + 1)) x i []).mapError .table
        let (sigma, norbits) ← groupOrbits g x (order i indexOfR) indexOfR sigma norbits
        actionLoop order left next sigma norbits

def computeActionOnIndex (order : ℕ → List (ℕ × ℕ) → List (ℕ × ℕ)) (sigma : List ℕ) : Except ActionFailure (List ℕ × ℕ) :=
  let size := tab.aboveAll
  actionLoop g w tab order (tab.aboveBad + tab.flatData.length) 0
    (sigma.take size ++ List.replicate (size - sigma.length) 0) 0

end

open Function

theorem lookup_filter_ne {m : List (ℕ × ℕ)} (s r : ℕ) :
    (m.filter (·.1 ≠ s)).lookup r = if r = s then none else m.lookup r := by
  induction m with
  | nil => simp
  | cons e m ih =>
    by_cases erased : e.1 = s
    · rw [List.filter_cons_of_neg (by simpa using erased), ih, List.lookup_cons, erased]
      split_ifs with same
      · rfl
      · rw [beq_false_of_ne same]
    · rw [List.filter_cons_of_pos (by simpa using erased), List.lookup_cons, List.lookup_cons, ih]
      split_ifs with same
      · rw [beq_false_of_ne (same.trans_ne (Ne.symm erased))]
      · rfl

def Ahead (f : ℕ → ℕ) (x n y : ℕ) : Prop := ∃ j, n ≤ j ∧ j < minimalPeriod f x ∧ f^[j] x = y

structure Erased (gone : ℕ → Prop) (m m' : List (ℕ × ℕ)) : Prop where
  erased : ∀ r, gone r → m'.lookup r = none
  kept : ∀ r, ¬gone r → m'.lookup r = m.lookup r

structure Written (place : ℕ → ℕ) (gone : ℕ → Prop) (i0 : ℕ) (sigma sigma' : List ℕ) : Prop where
  length : sigma'.length = sigma.length
  written : ∀ r, gone r → sigma'[place r]? = some i0
  other : ∀ i, (∀ r, gone r → place r ≠ i) → sigma'[i]? = sigma[i]?

section
variable {f : ℕ → ℕ} {x y n : ℕ}

theorem ahead_iff (less : n < minimalPeriod f x) : Ahead f x n y ↔ y = f^[n] x ∨ Ahead f x (n + 1) y := by
  constructor
  · rintro ⟨j, le, below, rfl⟩
    rcases le.eq_or_lt with rfl | later
    · exact .inl rfl
    · exact .inr ⟨j, later, below, rfl⟩
  · rintro (rfl | ⟨j, later, below, rfl⟩)
    · exact ⟨n, le_rfl, less, rfl⟩
    · exact ⟨j, (Nat.le_succ n).trans later, below, rfl⟩

theorem Ahead.ne (ahead : Ahead f x (n + 1) y) : y ≠ f^[n] x := by
  obtain ⟨j, later, below, rfl⟩ := ahead
  intro same
  have eq := iterate_injOn_Iio_minimalPeriod below ((Nat.lt_of_succ_le later).trans below) same
  omega

theorem ahead_one (periodic : x ∈ periodicPts f) : Ahead f x 1 y ↔ Reaches f x y ∧ y ≠ x := by
  constructor
  · rintro ⟨j, positive, below, rfl⟩
    exact ⟨⟨j, rfl⟩, iterate_ne_of_lt positive below⟩
  · rintro ⟨reaches, other⟩
    exact reaches.exists_pos periodic other

end

variable {g : GaloisAction} {id0 : PRSide} {r0 i0 n turns : ℕ} {m elts : List (ℕ × ℕ)} {sigma : List ℕ} {place : ℕ → ℕ}

theorem walkOrbit_next {sigmaR i : ℕ} (away : sigmaR ≠ r0) (found : m.lookup sigmaR = some i) :
    walkOrbit g id0 r0 i0 (turns + 1) m sigma sigmaR n =
      walkOrbit g id0 r0 i0 turns (m.filter (·.1 ≠ sigmaR)) (sigma.set i i0) (g.apply sigmaR id0.p) (n + 1) := by
  rw [walkOrbit.eq_def]
  simp only [if_neg away, found]

theorem walkOrbit_back : ∃ m' sigma',
    walkOrbit g id0 r0 i0 turns m sigma ((g.apply · id0.p)^[minimalPeriod (g.apply · id0.p) r0] r0)
        (minimalPeriod (g.apply · id0.p) r0) = .ok (m', sigma', minimalPeriod (g.apply · id0.p) r0) ∧
      Erased (Ahead (g.apply · id0.p) r0 (minimalPeriod (g.apply · id0.p) r0)) m m' ∧
      Written place (Ahead (g.apply · id0.p) r0 (minimalPeriod (g.apply · id0.p) r0)) i0 sigma sigma' := by
  have nothing (r : ℕ) : ¬Ahead (g.apply · id0.p) r0 (minimalPeriod (g.apply · id0.p) r0) r := by
    rintro ⟨j, le, below, -⟩
    omega
  refine ⟨m, sigma, ?_, ⟨fun r ahead => absurd ahead (nothing r), fun _ _ => rfl⟩,
    ⟨rfl, fun r ahead => absurd ahead (nothing r), fun _ _ => rfl⟩⟩
  rw [iterate_minimalPeriod]
  unfold walkOrbit
  exact if_pos rfl

variable (i0 turns) in
theorem walkOrbit_ok (started : 1 ≤ n) (early : n ≤ minimalPeriod (g.apply · id0.p) r0)
    (enough : minimalPeriod (g.apply · id0.p) r0 ≤ n + turns)
    (present : ∀ r, Ahead (g.apply · id0.p) r0 n r → m.lookup r = some (place r) ∧ place r < sigma.length) :
    ∃ m' sigma', walkOrbit g id0 r0 i0 turns m sigma ((g.apply · id0.p)^[n] r0) n =
        .ok (m', sigma', minimalPeriod (g.apply · id0.p) r0) ∧
      Erased (Ahead (g.apply · id0.p) r0 n) m m' ∧ Written place (Ahead (g.apply · id0.p) r0 n) i0 sigma sigma' := by
  induction turns generalizing n m sigma with
  | zero =>
    obtain rfl : n = minimalPeriod (g.apply · id0.p) r0 := by omega
    exact walkOrbit_back
  | succ turns ih =>
    rcases early.eq_or_lt with rfl | less
    · exact walkOrbit_back
    obtain ⟨found, inside⟩ := present _ ⟨n, le_rfl, less, rfl⟩
    have later (r : ℕ) (ahead : Ahead (g.apply · id0.p) r0 (n + 1) r) :
        (m.filter (·.1 ≠ (g.apply · id0.p)^[n] r0)).lookup r = some (place r) ∧
          place r < (sigma.set (place ((g.apply · id0.p)^[n] r0)) i0).length := by
      rw [lookup_filter_ne, if_neg ahead.ne, List.length_set]
      exact present r ((ahead_iff less).mpr (.inr ahead))
    obtain ⟨m', sigma', rest, erased, written⟩ := ih (Nat.le_add_left 1 n) less (by omega) later
    refine ⟨m', sigma', ?_, ⟨fun r ahead => ?_, fun r notAhead => ?_⟩, ⟨?_, fun r ahead => ?_, fun i away => ?_⟩⟩
    · rw [walkOrbit_next (iterate_ne_of_lt started less) found, ← rest, iterate_succ_apply']
    · by_cases ahead' : Ahead (g.apply · id0.p) r0 (n + 1) r
      · exact erased.erased r ahead'
      · rw [erased.kept r ahead', lookup_filter_ne, if_pos (((ahead_iff less).mp ahead).resolve_right ahead')]
    · rw [ahead_iff less, not_or] at notAhead
      rw [erased.kept r notAhead.2, lookup_filter_ne, if_neg notAhead.1]
    · rw [written.length, List.length_set]
    · by_cases again : ∃ r', Ahead (g.apply · id0.p) r0 (n + 1) r' ∧ place r' = place r
      · obtain ⟨r', ahead', same⟩ := again
        rw [← same]
        exact written.written r' ahead'
      · have first : r = (g.apply · id0.p)^[n] r0 :=
          ((ahead_iff less).mp ahead).resolve_right fun ahead' => again ⟨r, ahead', rfl⟩
        rw [written.other _ fun r' ahead' same => again ⟨r', ahead', same⟩, first, List.getElem?_set_self inside]
    · rw [written.other i fun r ahead => away r ((ahead_iff less).mpr (.inr ahead)),
        List.getElem?_set_ne (away _ ⟨n, le_rfl, less, rfl⟩)]

/-! ## The orbits above a prime -/

structure Chosen (f : ℕ → ℕ) (U : Finset ℕ) (place : ℕ → ℕ) (sigma sigma' : List ℕ) : Prop where
  length : sigma'.length = sigma.length
  chosen : ∀ u ∈ U, ∃ v ∈ U, Reaches f u v ∧ sigma'[place u]? = some (place v)
  same : ∀ u ∈ U, ∀ v, Reaches f u v → sigma'[place u]? = sigma'[place v]?
  other : ∀ i, (∀ u ∈ U, place u ≠ i) → sigma'[i]? = sigma[i]?

noncomputable def nbKept (f : ℕ → ℕ) (k : ℕ) (U : Finset ℕ) (place : ℕ → ℕ) (sigma : List ℕ) : ℕ :=
  (U.filter fun u => sigma[place u]? = some (place u) ∧ minimalPeriod f u = k).card

structure Grouped (U : Finset ℕ) (place : ℕ → ℕ) (m elts : List (ℕ × ℕ)) : Prop where
  present : ∀ u ∈ U, m.lookup u = some (place u)
  listed : ∀ u ∈ U, u ∈ elts.map Prod.fst
  only : ∀ e ∈ elts, m.lookup e.1 ≠ none → e.1 ∈ U ∧ e.2 = place e.1
  nodup : (elts.map Prod.fst).Nodup

section
variable {f : ℕ → ℕ} {U : Finset ℕ} {m' : List (ℕ × ℕ)} {k : ℕ} {sigma' : List ℕ}

theorem period_le (stable : StableSet f U) (member : r0 ∈ U) (present : ∀ u ∈ U, m.lookup u = some (place u)) :
    minimalPeriod f r0 ≤ m.length := by
  have inside : (Finset.range (minimalPeriod f r0)).image (f^[·] r0) ⊆ (m.map Prod.fst).toFinset := by
    intro u image
    obtain ⟨j, -, rfl⟩ := Finset.mem_image.mp image
    have found := present _ (stable.reaches member ⟨j, rfl⟩)
    exact List.mem_toFinset.mpr (List.mem_map_of_mem (mem_of_lookup found))
  have injective : Set.InjOn (f^[·] r0) (Finset.range (minimalPeriod f r0)) := by
    rw [Finset.coe_range]
    exact iterate_injOn_Iio_minimalPeriod
  calc minimalPeriod f r0 = ((Finset.range (minimalPeriod f r0)).image (f^[·] r0)).card := by
        rw [Finset.card_image_of_injOn injective, Finset.card_range]
    _ ≤ (m.map Prod.fst).toFinset.card := Finset.card_le_card inside
    _ ≤ (m.map Prod.fst).length := List.toFinset_card_le _
    _ = m.length := List.length_map _

open Classical in
theorem Grouped.remove (grouped : Grouped U place m ((r0, i0) :: elts)) (stable : StableSet f U) (member : r0 ∈ U)
    (erased : Erased (Ahead f r0 1) m m') : Grouped (U.filter fun v => ¬Reaches f r0 v) place m' elts := by
  have periodic := stable.periodic member
  obtain ⟨new, nodup⟩ := List.nodup_cons.mp grouped.nodup
  refine ⟨fun u inside => ?_, fun u inside => ?_, fun e among found => ?_, nodup⟩
  · obtain ⟨inside, outside⟩ := Finset.mem_filter.mp inside
    rw [erased.kept u fun ahead => outside ((ahead_one periodic).mp ahead).1]
    exact grouped.present u inside
  · obtain ⟨inside, outside⟩ := Finset.mem_filter.mp inside
    rcases List.mem_cons.mp (grouped.listed u inside) with rfl | later
    · exact absurd (Reaches.refl f _) outside
    · exact later
  · have notAhead : ¬Ahead f r0 1 e.1 := fun ahead => found (erased.erased e.1 ahead)
    rw [erased.kept e.1 notAhead] at found
    obtain ⟨inside, index⟩ := grouped.only e (.tail _ among) found
    refine ⟨Finset.mem_filter.mpr ⟨inside, fun reached => notAhead ?_⟩, index⟩
    have later := List.mem_map_of_mem (f := Prod.fst) among
    exact (ahead_one periodic).mpr ⟨reached, fun same => new (same ▸ later)⟩

theorem Written.orbit (stable : StableSet f U) (injective : Set.InjOn place U) (member : r0 ∈ U)
    (bound : place r0 < sigma.length)
    (written : Written place (Ahead f r0 1) (place r0) (sigma.set (place r0) (place r0)) sigma') {u : ℕ}
    (reached : Reaches f r0 u) : sigma'[place u]? = some (place r0) := by
  have periodic := stable.periodic member
  by_cases self : u = r0
  · subst self
    rw [written.other, List.getElem?_set_self bound]
    intro r ahead same
    obtain ⟨reached, other⟩ := (ahead_one periodic).mp ahead
    exact other (injective (stable.reaches member reached) member same)
  · exact written.written u ((ahead_one periodic).mpr ⟨reached, self⟩)

open Classical in
theorem nbKept_remove {sigma : List ℕ} (injective : Set.InjOn place U) (member : r0 ∈ U)
    (orbit : ∀ u, Reaches f r0 u → sigma[place u]? = some (place r0)) :
    nbKept f k U place sigma =
      (if minimalPeriod f r0 = k then 1 else 0) + nbKept f k (U.filter fun v => ¬Reaches f r0 v) place sigma := by
  have first : ((U.filter fun u => sigma[place u]? = some (place u) ∧ minimalPeriod f u = k).filter
      fun u => Reaches f r0 u) = if minimalPeriod f r0 = k then {r0} else ∅ := by
    ext u
    rw [Finset.mem_filter, Finset.mem_filter]
    constructor
    · rintro ⟨⟨inside, kept, length⟩, reached⟩
      rw [orbit u reached, Option.some.injEq] at kept
      obtain rfl := injective member inside kept
      rw [if_pos length]
      exact Finset.mem_singleton_self _
    · split_ifs with length
      · intro self
        obtain rfl := Finset.mem_singleton.mp self
        exact ⟨⟨member, orbit u (Reaches.refl f u), length⟩, Reaches.refl f u⟩
      · exact fun none => absurd none (Finset.notMem_empty u)
  unfold nbKept
  rw [← Finset.card_filter_add_card_filter_not fun u => Reaches f r0 u, first, Finset.filter_comm]
  split_ifs <;> rfl

end

theorem groupOrbits_ok {U : Finset ℕ} (stable : StableSet (g.apply · id0.p) U) (injective : Set.InjOn place U)
    (lengths : ∀ u ∈ U, minimalPeriod (g.apply · id0.p) u = 1 ∨ minimalPeriod (g.apply · id0.p) u = g.order)
    (bound : ∀ u ∈ U, place u < sigma.length) (grouped : Grouped U place m elts) (norbits : ℕ) :
    ∃ sigma', groupOrbits g id0 elts m sigma norbits =
        .ok (sigma', norbits + nbKept (g.apply · id0.p) g.order U place sigma') ∧
      Chosen (g.apply · id0.p) U place sigma sigma' := by
  classical
  induction elts generalizing U m sigma norbits with
  | nil =>
    have empty : U = ∅ := Finset.eq_empty_of_forall_notMem fun u inside => by cases grouped.listed u inside
    subst empty
    exact ⟨sigma, rfl, ⟨rfl, nofun, nofun, fun _ _ => rfl⟩⟩
  | cons e elts ih =>
    obtain ⟨r0, i0⟩ := e
    by_cases absent : m.lookup r0 = none
    · have other (u : ℕ) (inside : u ∈ U) : u ≠ r0 := by
        rintro rfl
        rw [grouped.present u inside] at absent
        cases absent
      have rest : Grouped U place m elts := by
        refine ⟨grouped.present, fun u inside => ?_, fun e among => grouped.only e (.tail _ among),
          (List.nodup_cons.mp grouped.nodup).2⟩
        exact (List.mem_cons.mp (grouped.listed u inside)).resolve_left (other u inside)
      obtain ⟨sigma', run, chosen⟩ := ih stable injective lengths bound rest norbits
      refine ⟨sigma', ?_, chosen⟩
      rw [groupOrbits, if_pos (by rw [absent]; rfl)]
      exact run
    · obtain ⟨member, index⟩ : r0 ∈ U ∧ i0 = place r0 := grouped.only _ (.head _) absent
      subst index
      have periodic := stable.periodic member
      have positive := minimalPeriod_pos_of_mem_periodicPts periodic
      have ahead (r : ℕ) (ahead : Ahead (g.apply · id0.p) r0 1 r) : m.lookup r = some (place r) ∧
          place r < (sigma.set (place r0) (place r0)).length := by
        have inside := stable.reaches member ((ahead_one periodic).mp ahead).1
        rw [List.length_set]
        exact ⟨grouped.present r inside, bound r inside⟩
      obtain ⟨m', sigma₁, walked, erased, written⟩ := walkOrbit_ok (place r0) m.length le_rfl positive
        ((period_le stable member grouped.present).trans (Nat.le_add_left _ _)) ahead
      have subset : U.filter (fun v => ¬Reaches (g.apply · id0.p) r0 v) ⊆ U := Finset.filter_subset _ _
      have length : sigma₁.length = sigma.length := written.length.trans (List.length_set ..)
      obtain ⟨sigma', run, chosen⟩ := ih (stable.remove r0)
        (injective.mono (Finset.coe_subset.mpr subset)) (fun u inside => lengths u (subset inside))
        (fun u inside => (bound u (subset inside)).trans_eq length.symm) (grouped.remove stable member erased)
        (norbits + if minimalPeriod (g.apply · id0.p) r0 = g.order then 1 else 0)
      have orbit (u : ℕ) (reached : Reaches (g.apply · id0.p) r0 u) : sigma'[place u]? = some (place r0) := by
        rw [chosen.other (place u), written.orbit stable injective member (bound r0 member) reached]
        intro v inside same
        obtain ⟨inside, outside⟩ := Finset.mem_filter.mp inside
        exact outside (injective inside (stable.reaches member reached) same ▸ reached)
      refine ⟨sigma', ?_, ⟨chosen.length.trans length, fun u inside => ?_, fun u inside v reaches => ?_, fun i away => ?_⟩⟩
      · have walked : walkOrbit g id0 r0 (place r0) m.length m (sigma.set (place r0) (place r0)) (g.apply r0 id0.p) 1 =
          .ok (m', sigma₁, minimalPeriod (g.apply · id0.p) r0) := walked
        have fine : ¬(minimalPeriod (g.apply · id0.p) r0 ≠ 1 ∧ minimalPeriod (g.apply · id0.p) r0 ≠ g.order) := by
          have := lengths r0 member
          tauto
        rw [groupOrbits, if_neg (by simpa using absent), walked]
        simp only [bind, Except.bind, if_neg fine]
        rw [nbKept_remove injective member orbit, ← Nat.add_assoc]
        exact run
      · by_cases reached : Reaches (g.apply · id0.p) r0 u
        · exact ⟨r0, member, reached.symm periodic, orbit u reached⟩
        · obtain ⟨v, inside', reaches, kept⟩ := chosen.chosen u (Finset.mem_filter.mpr ⟨inside, reached⟩)
          exact ⟨v, subset inside', reaches, kept⟩
      · by_cases reached : Reaches (g.apply · id0.p) r0 u
        · rw [orbit u reached, orbit v (reached.trans reaches)]
        · exact chosen.same u (Finset.mem_filter.mpr ⟨inside, reached⟩) v reaches
      · rw [chosen.other i fun u inside => away u (subset inside), written.other i fun r ahead => ?_,
          List.getElem?_set_ne (away r0 member)]
        exact away r (stable.reaches member ((ahead_one periodic).mp ahead).1)

end CadoNfs.Utils.Galois
