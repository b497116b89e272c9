import CadoNfs.Ecm.SmoothnessTest
import CadoNfs.Lib.Passes

/-!
# Batch smoothness detection

`find_smooth` of `sieve/ecm/batch.cpp`. One side is tested after the other; a cofactor 0 means that a
candidate is not tested on that side.
-/

namespace CadoNfs.Ecm
open Lib

@[ext] structure CofacCandidate (nsides : ℕ) where
  a : ℤ
  b : ℕ
  cofactor : Vector ℕ nsides
  deriving DecidableEq

structure Batch (nsides : ℕ) where
  batchP : Vector ℤ nsides
  batchlpb : Vector ℕ nsides
  lpb : Vector ℕ nsides
  batchmfb : Vector ℕ nsides

def firstSmoothnessTestSide (nsides : ℕ) : ℕ := if nsides = 2 then 1 else 0

variable {nsides : ℕ}

def testSide (xside : Fin nsides) : Fin nsides where
  val := xside ^^^ firstSmoothnessTestSide nsides
  isLt := by
    unfold firstSmoothnessTestSide
    split_ifs with two
    · subst two
      revert xside
      decide
    · rw [Nat.xor_zero]
      exact xside.isLt

variable (probabPrime : ℕ → Bool) (batch : Batch nsides)

def accepts (side : Fin nsides) (c : ℕ) : Bool :=
  let B := 2 ^ batch.batchlpb[side]
  let L := 2 ^ batch.lpb[side]
  let M := 2 ^ batch.batchmfb[side]
  let BB := B * B
  c == 1 || c ≤ L || (BB ≤ c && c ≤ M && !probabPrime c)

def keepSmooth (accept : ℕ → Bool) (drop : Bool) (side : Fin nsides) :
    List (CofacCandidate nsides) → List ℕ → Except Failure (List (CofacCandidate nsides))
  | [], _ => .ok []
  | x :: l, jt =>
    if x.cofactor[side] = 0 then return x :: (← keepSmooth accept drop side l jt)
    else match jt with
      | [] => .error .pastEnd
      | c :: jt =>
        if accept c then return x :: (← keepSmooth accept drop side l jt)
        else if drop then keepSmooth accept drop side l jt
        else return { x with cofactor := x.cofactor.set side 0 } :: (← keepSmooth accept drop side l jt)

def smoothOnSide (xside : Fin nsides) (l : List (CofacCandidate nsides)) :
    Except Failure (List (CofacCandidate nsides)) := do
  let side := testSide xside
  let temp := (l.map fun x => x.cofactor[side]).filter (· ≠ 0)
  let temp ← smoothnessTest temp batch.batchP[side]
  keepSmooth (accepts probabPrime batch side) (xside.val = 0 || nsides = 2) side l temp

def findSmooth (l : List (CofacCandidate nsides)) : Except Failure (List (CofacCandidate nsides)) :=
  (List.finRange nsides).foldlM (fun l xside => smoothOnSide probabPrime batch xside l) l

def Passes (side : Fin nsides) (x : CofacCandidate nsides) : Prop :=
  x.cofactor[side] = 0 ∨
    accepts probabPrime batch side (x.cofactor[side] / smoothPart batch.batchP[side] x.cofactor[side])

instance (side : Fin nsides) (x : CofacCandidate nsides) : Decidable (Passes probabPrime batch side x) :=
  inferInstanceAs (Decidable (_ ∨ _))

-- A candidate that fails on a side goes, unless the side is marked as not tested.
def sideStep (drop : Bool) (side : Fin nsides) (x : CofacCandidate nsides) : Option (CofacCandidate nsides) :=
  if Passes probabPrime batch side x then some x
  else if drop then none
  else some { x with cofactor := x.cofactor.set side 0 }

def markFailed (sides : List (Fin nsides)) (x : CofacCandidate nsides) : CofacCandidate nsides where
  a := x.a
  b := x.b
  cofactor := Vector.ofFn fun side =>
    if side ∈ sides ∧ ¬ Passes probabPrime batch side x then 0 else x.cofactor[side]

variable {probabPrime batch}

theorem keepSmooth_eq {drop : Bool} {side : Fin nsides} (l : List (CofacCandidate nsides)) :
    keepSmooth (accepts probabPrime batch side) drop side l
      (((l.map fun x => x.cofactor[side]).filter (· ≠ 0)).map fun r => r / smoothPart batch.batchP[side] r) =
      .ok (l.filterMap (sideStep probabPrime batch drop side)) := by
  induction l with
  | nil => rfl
  | cons x l ih =>
    rw [List.map_cons]
    by_cases zero : x.cofactor[side] = 0
    · have pass : Passes probabPrime batch side x := .inl zero
      rw [List.filter_cons_of_neg (by simpa using zero), List.filterMap_cons, sideStep, if_pos pass]
      unfold keepSmooth
      rw [if_pos zero, ih]
      rfl
    · rw [List.filter_cons_of_pos (by simpa using zero), List.map_cons, List.filterMap_cons, sideStep]
      unfold keepSmooth
      rw [if_neg zero]
      have tested : Passes probabPrime batch side x ↔ accepts probabPrime batch side
          (x.cofactor[side] / smoothPart batch.batchP[side] x.cofactor[side]) = true := or_iff_right zero
      simp only [tested, ih]
      split_ifs <;> rfl

def dropsOn (side : Fin nsides) : Bool := side.val = 0 || nsides = 2

theorem dropsOn_testSide (xside : Fin nsides) : (xside.val = 0 || nsides = 2) = dropsOn (testSide xside) := by
  by_cases two : nsides = 2
  · simp [dropsOn, two]
  · simp [dropsOn, two, testSide, firstSmoothnessTestSide]

theorem smoothOnSide_eq {xside : Fin nsides} {l : List (CofacCandidate nsides)}
    (few : batch.batchP[testSide xside] = 1 ∨ l.length ≤ 2 ^ 31) :
    smoothOnSide probabPrime batch xside l =
      .ok (l.filterMap (sideStep probabPrime batch (dropsOn (testSide xside)) (testSide xside))) := by
  have pos : ∀ r ∈ (l.map fun x => x.cofactor[testSide xside]).filter (· ≠ 0), 0 < r := by
    intro r member
    simpa [Nat.pos_iff_ne_zero] using (List.mem_filter.mp member).2
  have short : ((l.map fun x => x.cofactor[testSide xside]).filter (· ≠ 0)).length ≤ l.length :=
    (List.length_filter_le _ _).trans_eq (List.length_map _)
  have divided := smoothnessTest_eq pos (few.imp_right short.trans)
  rw [smoothOnSide, divided, dropsOn_testSide]
  exact keepSmooth_eq l

theorem passes_congr {side : Fin nsides} {x y : CofacCandidate nsides}
    (same : x.cofactor[side] = y.cofactor[side]) :
    Passes probabPrime batch side x ↔ Passes probabPrime batch side y := by
  rw [Passes, Passes, same]

theorem markFailed_nil (x : CofacCandidate nsides) : markFailed probabPrime batch [] x = x := by
  ext
  · rfl
  · rfl
  · simp [markFailed]

theorem markFailed_cons_of_passes {side : Fin nsides} {sides : List (Fin nsides)} {x : CofacCandidate nsides}
    (pass : Passes probabPrime batch side x) :
    markFailed probabPrime batch (side :: sides) x = markFailed probabPrime batch sides x := by
  have same : ∀ other : Fin nsides, (other ∈ side :: sides ∧ ¬ Passes probabPrime batch other x) ↔
      (other ∈ sides ∧ ¬ Passes probabPrime batch other x) := by
    intro other
    rw [List.mem_cons]
    refine and_congr_left fun fail => or_iff_right ?_
    rintro rfl
    exact fail pass
  simp only [markFailed, same]

theorem markFailed_cons_of_fails {side : Fin nsides} {sides : List (Fin nsides)} (fresh : side ∉ sides)
    {x : CofacCandidate nsides} (fail : ¬ Passes probabPrime batch side x) :
    markFailed probabPrime batch (side :: sides) x =
      markFailed probabPrime batch sides { x with cofactor := x.cofactor.set side 0 } := by
  ext i h
  · rfl
  · rfl
  · by_cases here : (side : ℕ) = i
    · have eq : (⟨i, h⟩ : Fin nsides) = side := Fin.ext here.symm
      simp [markFailed, eq, fresh, fail, here]
    · have ne : (⟨i, h⟩ : Fin nsides) ≠ side := fun eq => here (congrArg Fin.val eq).symm
      have same : Passes probabPrime batch ⟨i, h⟩ { x with cofactor := x.cofactor.set side 0 } ↔
          Passes probabPrime batch ⟨i, h⟩ x := passes_congr (Vector.getElem_set_ne side.isLt h here)
      simp [markFailed, ne, same, Vector.getElem_set_ne side.isLt h here]

theorem foldlM_sideStep {drop : Fin nsides → Bool} {sides : List (Fin nsides)} (nodup : sides.Nodup)
    (x : CofacCandidate nsides) :
    sides.foldlM (fun x side => sideStep probabPrime batch (drop side) side x) x =
      if ∀ side ∈ sides, drop side = true → Passes probabPrime batch side x then
        some (markFailed probabPrime batch sides x) else none := by
  induction sides generalizing x with
  | nil =>
    rw [markFailed_nil, if_pos (by simp)]
    rfl
  | cons side sides ih =>
    obtain ⟨fresh, nodup⟩ := List.nodup_cons.mp nodup
    rw [List.foldlM_cons, sideStep]
    simp only [List.forall_mem_cons]
    by_cases pass : Passes probabPrime batch side x
    · rw [if_pos pass, markFailed_cons_of_passes pass]
      simp only [pass, implies_true, true_and]
      exact ih nodup x
    rw [if_neg pass]
    by_cases dropped : drop side = true
    · rw [if_pos dropped, if_neg fun all => pass (all.1 dropped)]
      rfl
    · have others : ∀ other ∈ sides,
          (Passes probabPrime batch other { x with cofactor := x.cofactor.set side 0 } ↔
            Passes probabPrime batch other x) := by
        intro other member
        refine passes_congr (Vector.getElem_set_ne side.isLt other.isLt fun eq => fresh ?_)
        rwa [Fin.ext eq]
      have marked := ih nodup { x with cofactor := x.cofactor.set side 0 }
      rw [if_neg dropped, markFailed_cons_of_fails fresh pass]
      simp only [dropped, Bool.false_eq_true, false_implies, true_and]
      refine marked.trans (if_congr ?_ rfl rfl)
      exact forall₂_congr fun other member => imp_congr_right fun _ => others other member

theorem testSide_surjective : Function.Surjective (@testSide nsides) := by
  refine Finite.surjective_of_injective fun x y eq => Fin.ext ?_
  have cancel : x.val ^^^ firstSmoothnessTestSide nsides = y.val ^^^ firstSmoothnessTestSide nsides :=
    congrArg Fin.val eq
  exact Nat.xor_left_injective cancel

theorem mem_testSides (side : Fin nsides) : side ∈ (List.finRange nsides).map testSide := by
  obtain ⟨xside, rfl⟩ := testSide_surjective side
  exact List.mem_map_of_mem (List.mem_finRange xside)

theorem findSmooth_spec {l : List (CofacCandidate nsides)}
    (few : ∀ P ∈ batch.batchP, P = 1 ∨ l.length ≤ 2 ^ 31) :
    findSmooth probabPrime batch l =
      .ok ((l.filter fun x => ∀ side : Fin nsides, dropsOn side = true →
        Passes probabPrime batch side x).map (markFailed probabPrime batch (List.finRange nsides))) := by
  have nodup : ((List.finRange nsides).map testSide).Nodup :=
    (List.nodup_finRange nsides).map (Finite.injective_iff_surjective.mpr testSide_surjective)
  have passes : findSmooth probabPrime batch l = .ok (l.filterMap fun x => (List.finRange nsides).foldlM
      (fun x xside => sideStep probabPrime batch (dropsOn (testSide xside)) (testSide xside) x) x) :=
    foldlM_filterMap fun xside _ m shorter =>
      smoothOnSide_eq ((few _ (Vector.getElem_mem _)).imp_right shorter.trans)
  rw [passes, ← List.filterMap_eq_map, List.filterMap_filter]
  congr 1
  refine List.filterMap_congr fun x _ => ?_
  have marks : ((List.finRange nsides).map testSide).foldlM
      (fun x side => sideStep probabPrime batch (dropsOn side) side x) x = _ := foldlM_sideStep nodup x
  rw [List.foldlM_map] at marks
  rw [marks]
  simp [mem_testSides, markFailed]

theorem markFailed_of_passes {sides : List (Fin nsides)} {x : CofacCandidate nsides}
    (pass : ∀ side ∈ sides, Passes probabPrime batch side x) : markFailed probabPrime batch sides x = x := by
  induction sides with
  | nil => exact markFailed_nil x
  | cons side sides ih =>
    rw [List.forall_mem_cons] at pass
    rw [markFailed_cons_of_passes pass.1, ih pass.2]

/-- With two sides or fewer the candidates that fail on a side go. With more sides only those that fail on side 0
do. -/
theorem findSmooth_eq (probabPrime : ℕ → Bool) (batch : Batch nsides) (l : List (CofacCandidate nsides))
    (few : ∀ P ∈ batch.batchP, P = 1 ∨ l.length ≤ 2 ^ 31) :
    (nsides ≤ 2 → findSmooth probabPrime batch l =
      .ok (l.filter fun x => ∀ side, Passes probabPrime batch side x)) ∧
    (2 < nsides → findSmooth probabPrime batch l =
      .ok ((l.filter fun x => ∀ side : Fin nsides, side.val = 0 → Passes probabPrime batch side x).map
        (markFailed probabPrime batch (List.finRange nsides)))) := by
  constructor
  · intro two
    have all : ∀ side : Fin nsides, dropsOn side = true := by
      intro side
      simp only [dropsOn, Bool.or_eq_true, decide_eq_true_eq]
      omega
    rw [findSmooth_spec few]
    simp only [all, forall_const]
    congr 1
    conv_rhs => rw [← List.map_id (l.filter _)]
    refine List.map_congr_left fun x member => markFailed_of_passes fun side _ => ?_
    exact of_decide_eq_true (List.mem_filter.mp member).2 side
  · intro three
    rw [findSmooth_spec few]
    have more : nsides ≠ 2 := by omega
    simp [dropsOn, more]

def threeCandidates : List (CofacCandidate 2) :=
  [⟨1, 2, #v[1, 35]⟩, ⟨3, 2, #v[4, 77]⟩, ⟨5, 2, #v[6, 0]⟩]

theorem findSmooth_eq_three :
    (2 ≤ 2 → findSmooth (fun c => c.Prime) ⟨#v[6, 35], #v[3, 3], #v[3, 3], #v[6, 6]⟩ threeCandidates =
      .ok (threeCandidates.filter fun x => ∀ side,
        Passes (fun c => c.Prime) ⟨#v[6, 35], #v[3, 3], #v[3, 3], #v[6, 6]⟩ side x)) ∧
    (2 < 2 → findSmooth (fun c => c.Prime) ⟨#v[6, 35], #v[3, 3], #v[3, 3], #v[6, 6]⟩ threeCandidates =
      .ok ((threeCandidates.filter fun x => ∀ side : Fin 2, side.val = 0 →
        Passes (fun c => c.Prime) ⟨#v[6, 35], #v[3, 3], #v[3, 3], #v[6, 6]⟩ side x).map
        (markFailed (fun c => c.Prime) ⟨#v[6, 35], #v[3, 3], #v[3, 3], #v[6, 6]⟩ (List.finRange 2)))) :=
  findSmooth_eq (fun c => c.Prime) ⟨#v[6, 35], #v[3, 3], #v[3, 3], #v[6, 6]⟩ threeCandidates
    fun _ _ => .inr (by decide)

theorem findSmooth_keeps : ¬ ∀ (nsides : ℕ) (probabPrime : ℕ → Bool) (batch : Batch nsides)
    (l : List (CofacCandidate nsides)), l.length ≤ 2 ^ 31 →
    findSmooth probabPrime batch l = .ok (l.filter fun x => ∀ side, Passes probabPrime batch side x) := by
  intro always
  have claim := always 3 (fun c => c.Prime) ⟨#v[1, 1, 1], #v[2, 2, 2], #v[3, 3, 3], #v[4, 4, 4]⟩
    [⟨1, 1, #v[1, 1000, 1]⟩] (by decide)
  rw [findSmooth_spec fun P _ => .inr (by decide)] at claim
  simp [Passes, accepts, smoothPart_one, dropsOn, Fin.forall_fin_succ] at claim

end CadoNfs.Ecm
