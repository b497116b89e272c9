import Mathlib.Data.List.Count
import Mathlib.Tactic.IntervalCases
import CadoNfs.Lib.Marking

/-!
# The relations that wanted logarithms need

`compute_needed_rels` of `filter/reconstructlog.cpp`: which logarithm comes from which relation, and the count of the
relations that the wanted ones need.
-/

namespace CadoNfs.Filter.NeededRels
open Lib.Marking Relation

inductive State
  | unknown
  | knownFromLogfile
  | reconstructed
  deriving DecidableEq

abbrev NodeDep : Type := State × ℕ

structure ComputeNeededRels where
  G : List NodeDep
  rows : List (List ℕ)

namespace ComputeNeededRels

variable (M : ComputeNeededRels)

def node (h : ℕ) : NodeDep := M.G.getD h (.unknown, 0)

def row (i : ℕ) : List ℕ := M.rows.getD i []

structure Sound : Prop where
  relnum_lt : ∀ h, (M.node h).1 = .reconstructed → (M.node h).2 < M.rows.length
  row : ∀ h, (M.node h).1 = .reconstructed → ∀ hh ∈ M.row (M.node h).2, (M.node hh).1 = .reconstructed
  not_known : ∀ i, ∀ hh ∈ M.row i, (M.node hh).1 ≠ .knownFromLogfile

/-! ## The dependency graph -/

def setLogAlreadyKnown (known : List Bool) : List NodeDep :=
  known.map fun k => if k then (.knownFromLogfile, 0) else (.unknown, 0)

def start (known : List Bool) (rels : List (List ℕ)) : ComputeNeededRels where
  G := setLogAlreadyKnown known
  rows := rels.map (List.filter fun h => ((setLogAlreadyKnown known).getD h (.unknown, 0)).1 = .unknown)

def markNodeReconstructed (h i : ℕ) : ComputeNeededRels := { M with G := M.G.set h (.reconstructed, i) }

def chunkTurn (s : ComputeNeededRels × List Bool) (i : ℕ) : ComputeNeededRels × List Bool :=
  let (M, notYetUsed) := s
  if notYetUsed.getD i false then
    let unknown := (M.row i).filter fun hh => (M.node hh).1 = .unknown
    if unknown.length ≤ 1 then
      (if unknown.length = 1 then M.markNodeReconstructed (unknown.getLastD 0) i else M, notYetUsed.set i false)
    else s
  else s

def chunk (s : ComputeNeededRels × List Bool) : ComputeNeededRels × List Bool :=
  (List.range s.1.rows.length).foldl chunkTurn s

def dependencies (known : List Bool) (rels : List (List ℕ)) (iters : ℕ) : ComputeNeededRels :=
  (chunk^[iters] (start known rels, List.replicate rels.length true)).1

/-! ## The wanted logarithms -/

inductive Stop
  | fuel
  | cannotBeReconstructed (h : ℕ)
  | indexTooLarge
  | assertion
  deriving DecidableEq

def rowTurn (call : ℕ → List Bool → Except Stop (ℕ × List Bool)) (r : ℕ × List Bool) (hh : ℕ) :
    Except Stop (ℕ × List Bool) :=
  if r.2.getD (M.node hh).2 false then .ok r else (call hh r.2).map fun s => (r.1 + s.1, s.2)

def neededRelsFromIndex : ℕ → ℕ → List Bool → Except Stop (ℕ × List Bool)
  | 0, _, _ => .error .fuel
  | fuel + 1, h, neededRels =>
    let (s, relnum) := M.node h
    match s with
    | .unknown => .error (.cannotBeReconstructed h)
    | .knownFromLogfile => .ok (0, neededRels)
    | .reconstructed => (M.row relnum).foldlM (M.rowTurn (neededRelsFromIndex fuel)) (1, neededRels.set relnum true)

def wantedTurn (fuel : ℕ) (r : ℕ × List Bool) (h : ℕ) : Except Stop (ℕ × List Bool) :=
  if M.G.length ≤ h then .error .indexTooLarge
  else (M.neededRelsFromIndex fuel h r.2).map fun s => (r.1 + s.1, s.2)

def necessary (fuel : ℕ) (wanted : List ℕ) : Except Stop (ℕ × List Bool) :=
  wanted.foldlM (M.wantedTurn fuel) (0, List.replicate M.rows.length false)

def processInput (fuel : ℕ) (wanted : List ℕ) : Except Stop (List Bool) := do
  let (nrelsNecessary, neededRels) ← M.necessary fuel wanted
  if nrelsNecessary = neededRels.count true then return neededRels else .error .assertion

/-! ## The graph is sound -/

variable {M}

theorem Sound.start (known : List Bool) (rels : List (List ℕ)) : (start known rels).Sound := by
  have never (h : ℕ) : ((ComputeNeededRels.start known rels).node h).1 ≠ .reconstructed := by
    rw [node, ComputeNeededRels.start, setLogAlreadyKnown, List.getD_eq_getElem?_getD, List.getElem?_map]
    cases known[h]? with
    | none => exact nofun
    | some k => cases k <;> exact nofun
  refine ⟨fun h reconstructed => absurd reconstructed (never h), fun h reconstructed => absurd reconstructed (never h), ?_⟩
  intro i h member
  rw [ComputeNeededRels.row, ComputeNeededRels.start, List.getD_eq_getElem?_getD, List.getElem?_map] at member
  cases rel : rels[i]? with
  | none =>
    rw [rel] at member
    cases member
  | some rel =>
    rw [rel] at member
    obtain ⟨-, unknown⟩ := List.mem_filter.mp member
    rw [decide_eq_true_eq] at unknown
    rw [node, ComputeNeededRels.start, unknown]
    exact nofun

theorem node_markNodeReconstructed (h i hh : ℕ) : (M.markNodeReconstructed h i).node hh =
    if hh = h ∧ h < M.G.length then (.reconstructed, i) else M.node hh := by
  rw [node, node, markNodeReconstructed, List.getD_eq_getElem?_getD, List.getElem?_set]
  by_cases here : h = hh
  · subst here
    by_cases inside : h < M.G.length
    · simp [inside]
    · rw [if_pos rfl, if_neg inside, if_neg fun both => inside both.2, List.getD_eq_getElem?_getD,
        List.getElem?_eq_none (not_lt.mp inside)]
  · rw [if_neg here, if_neg fun both => here both.1.symm, List.getD_eq_getElem?_getD]

theorem Sound.mark (sound : M.Sound) {h i : ℕ} (lt : i < M.rows.length)
    (single : (M.row i).filter (fun hh => (M.node hh).1 = .unknown) = [h]) : (M.markNodeReconstructed h i).Sound := by
  have later {hh : ℕ} (reconstructed : (M.node hh).1 = .reconstructed) :
      ((M.markNodeReconstructed h i).node hh).1 = .reconstructed := by
    rw [node_markNodeReconstructed]
    split
    · rfl
    · exact reconstructed
  refine ⟨fun hh reconstructed => ?_, fun hh reconstructed k member => ?_, fun j hh member => ?_⟩
  · rw [node_markNodeReconstructed] at reconstructed ⊢
    by_cases here : hh = h ∧ h < M.G.length
    · rw [if_pos here]
      exact lt
    · rw [if_neg here] at reconstructed ⊢
      exact sound.relnum_lt hh reconstructed
  · rw [node_markNodeReconstructed] at reconstructed member
    split at reconstructed
    · next here =>
      rw [if_pos here] at member
      have filtered : k ∈ (M.row i).filter (fun hh => (M.node hh).1 = .unknown) ↔ (M.node k).1 = .unknown := by
        rw [List.mem_filter, decide_eq_true_eq]
        exact and_iff_right member
      rw [single, List.mem_singleton] at filtered
      cases state : (M.node k).1 with
      | unknown =>
        rw [node_markNodeReconstructed, if_pos ⟨filtered.mpr state, here.2⟩]
      | knownFromLogfile => exact absurd state (sound.not_known i k member)
      | reconstructed => exact later state
    · next other =>
      rw [if_neg other] at member
      exact later (sound.row hh reconstructed k member)
  · rw [node_markNodeReconstructed]
    split
    · exact nofun
    · exact sound.not_known j hh member

theorem Sound.chunkTurn {s : ComputeNeededRels × List Bool} (sound : s.1.Sound) {i : ℕ} (lt : i < s.1.rows.length) :
    (chunkTurn s i).1.Sound ∧ (ComputeNeededRels.chunkTurn s i).1.rows = s.1.rows := by
  rw [ComputeNeededRels.chunkTurn]
  split
  · dsimp only
    split
    · by_cases one : ((s.1.row i).filter fun hh => (s.1.node hh).1 = .unknown).length = 1
      · obtain ⟨h, single⟩ := List.length_eq_one_iff.mp one
        simp only [single, List.length_singleton, if_true]
        exact ⟨sound.mark lt single, rfl⟩
      · simp only [if_neg one]
        exact ⟨sound, trivial⟩
    · exact ⟨sound, rfl⟩
  · exact ⟨sound, rfl⟩

theorem Sound.chunk {s : ComputeNeededRels × List Bool} (sound : s.1.Sound) : (chunk s).1.Sound := by
  have turns (l : List ℕ) (s : ComputeNeededRels × List Bool) (sound : s.1.Sound) (inside : ∀ i ∈ l, i < s.1.rows.length) :
      (l.foldl ComputeNeededRels.chunkTurn s).1.Sound := by
    induction l generalizing s with
    | nil => exact sound
    | cons i l ih =>
      obtain ⟨first, inside⟩ := List.forall_mem_cons.mp inside
      obtain ⟨turn, rows⟩ := sound.chunkTurn first
      exact ih _ turn fun j member => (inside j member).trans_eq (congrArg List.length rows.symm)
  exact turns _ s sound fun i member => List.mem_range.mp member

theorem sound_dependencies (known : List Bool) (rels : List (List ℕ)) (iters : ℕ) : (dependencies known rels iters).Sound := by
  rw [dependencies]
  induction iters with
  | zero => exact Sound.start known rels
  | succ iters ih =>
    rw [Function.iterate_succ_apply']
    exact ih.chunk

/-! ## One wanted logarithm -/

def Depends (M : ComputeNeededRels) (i j : ℕ) : Prop := ∃ hh ∈ M.row i, (M.node hh).2 = j

def marked (neededRels : List Bool) : Set ℕ := {i | neededRels.getD i false = true}

theorem mem_marked {neededRels : List Bool} {i : ℕ} : i ∈ marked neededRels ↔ neededRels.getD i false = true := Iff.rfl

variable {neededRels : List Bool} {i : ℕ}

theorem marked_set (lt : i < neededRels.length) : marked (neededRels.set i true) = insert i (marked neededRels) := by
  ext j
  rw [Set.mem_insert_iff, mem_marked, mem_marked, List.getD_eq_getElem?_getD, List.getElem?_set]
  by_cases here : i = j
  · simp [here, here ▸ lt]
  · rw [if_neg here, List.getD_eq_getElem?_getD, or_iff_right (Ne.symm here)]

theorem count_set (lt : i < neededRels.length) : (neededRels.set i true).count true +
    (if neededRels.getD i false then 1 else 0) = neededRels.count true + 1 := by
  induction neededRels generalizing i with
  | nil => cases lt
  | cons b neededRels ih =>
    cases i with
    | zero => cases b <;> simp
    | succ i =>
      have rest := ih (Nat.lt_of_succ_lt_succ lt)
      rw [List.set_cons_succ, List.getD_cons_succ, List.count_cons, List.count_cons]
      omega

structure Adds (M : ComputeNeededRels) (i nadded : ℕ) (before after : List Bool) : Prop where
  length : after.length = before.length
  search : Search M.Depends i (marked before) (marked after)
  count : after.count true + (if before.getD i false then 1 else 0) = before.count true + nadded

theorem neededRelsFromIndex_reconstructed (fuel : ℕ) {h : ℕ} (reconstructed : (M.node h).1 = .reconstructed) :
    M.neededRelsFromIndex (fuel + 1) h neededRels = (M.row (M.node h).2).foldlM
      (M.rowTurn (M.neededRelsFromIndex fuel)) (1, neededRels.set (M.node h).2 true) := by
  rw [neededRelsFromIndex]
  cases node : M.node h with
  | mk s relnum =>
    rw [node] at reconstructed
    cases reconstructed
    rfl

theorem rowLoop (fuel : ℕ) (calls : ∀ hh (neededRels : List Bool), (M.node hh).1 = .reconstructed →
      neededRels.length = M.rows.length → neededRels.getD (M.node hh).2 false = false →
      neededRels.length ≤ neededRels.count true + fuel →
      ∃ nadded after, M.neededRelsFromIndex fuel hh neededRels = .ok (nadded, after) ∧
        Adds M (M.node hh).2 nadded neededRels after)
    (row : List ℕ) (reconstructed : ∀ hh ∈ row, (M.node hh).1 = .reconstructed) (nadded : ℕ)
    (length : neededRels.length = M.rows.length) (enough : neededRels.length ≤ neededRels.count true + fuel) :
    ∃ sum after, row.foldlM (M.rowTurn (M.neededRelsFromIndex fuel)) (nadded, neededRels) = Except.ok (sum, after) ∧
      after.length = neededRels.length ∧
      Lib.Marking.Grows M.Depends (fun j => ∃ hh ∈ row, (M.node hh).2 = j) (marked neededRels) (marked after) ∧
      (∀ hh ∈ row, (M.node hh).2 ∈ marked after) ∧ after.count true + nadded = neededRels.count true + sum := by
  induction row generalizing nadded neededRels with
  | nil => exact ⟨nadded, neededRels, rfl, rfl, .refl _ _, nofun, rfl⟩
  | cons hh row ih =>
    obtain ⟨first, later⟩ := List.forall_mem_cons.mp reconstructed
    rw [List.foldlM_cons]
    by_cases old : neededRels.getD (M.node hh).2 false = true
    · obtain ⟨sum, after, run, same, grows, all, count⟩ := ih later nadded length enough
      rw [rowTurn, if_pos old]
      refine ⟨sum, after, run, same, grows.mono fun j ⟨hh, member, here⟩ => ⟨hh, .tail _ member, here⟩, ?_, count⟩
      exact List.forall_mem_cons.mpr ⟨grows.subset old, all⟩
    · obtain ⟨n, middle, call, adds⟩ := calls hh neededRels first length (Bool.eq_false_of_not_eq_true old) enough
      have more := adds.count
      rw [if_neg old] at more
      obtain ⟨sum, after, run, same, grows, all, count⟩ := ih later (nadded + n) (adds.length.trans length) (by
        rw [adds.length]
        omega)
      rw [rowTurn, if_neg old, call]
      refine ⟨sum, after, run, same.trans adds.length, ?_, ?_, by omega⟩
      · have here := adds.search.toGrows.mono fun j (this : j = (M.node hh).2) =>
          (⟨hh, List.mem_cons_self, this.symm⟩ : ∃ k ∈ hh :: row, (M.node k).2 = j)
        exact here.trans (grows.mono fun j ⟨hh, member, here⟩ => ⟨hh, .tail _ member, here⟩)
      · exact List.forall_mem_cons.mpr ⟨grows.subset adds.search.root, all⟩

/-- The search from a column that can be reconstructed: enough fuel returns, and the count is too large by one if and only
if the relation was marked before. -/
theorem Sound.adds (sound : M.Sound) (fuel : ℕ) {h : ℕ} (reconstructed : (M.node h).1 = .reconstructed)
    (length : neededRels.length = M.rows.length)
    (enough : neededRels.length + (if neededRels.getD (M.node h).2 false then 1 else 0) ≤
      neededRels.count true + fuel) :
    ∃ nadded after, M.neededRelsFromIndex fuel h neededRels = .ok (nadded, after) ∧
      Adds M (M.node h).2 nadded neededRels after := by
  induction fuel generalizing h neededRels with
  | zero =>
    have inside := (sound.relnum_lt h reconstructed).trans_eq length.symm
    have most : (neededRels.set (M.node h).2 true).count true ≤ (neededRels.set (M.node h).2 true).length :=
      List.count_le_length
    have count := count_set inside
    rw [List.length_set] at most
    omega
  | succ fuel ih =>
    have inside := (sound.relnum_lt h reconstructed).trans_eq length.symm
    have count := count_set inside
    obtain ⟨sum, after, run, same, grows, all, total⟩ := rowLoop fuel
      (fun hh neededRels reconstructed length fresh enough => ih reconstructed length (by rw [fresh]; exact enough))
      (M.row (M.node h).2) (sound.row h reconstructed) 1
      (show (neededRels.set (M.node h).2 true).length = M.rows.length from (List.length_set ..).trans length) (by
        rw [List.length_set]
        omega)
    rw [marked_set inside] at grows
    refine ⟨sum, after, (neededRelsFromIndex_reconstructed fuel reconstructed).trans run, ?_, ?_, ?_⟩
    · exact same.trans (List.length_set ..)
    · exact .of_successors grows fun l ⟨hh, member, here⟩ => here ▸ all hh member
    · omega

/-! ## All wanted logarithms -/

def Needs (M : ComputeNeededRels) (h h' : ℕ) : Prop :=
  (M.node h).1 = .reconstructed ∧ (M.node h').1 = .reconstructed ∧
    ReflTransGen M.Depends (M.node h).2 (M.node h').2

def Computable (M : ComputeNeededRels) (wanted : List ℕ) : Prop :=
  ∀ h ∈ wanted, h < M.G.length ∧ (M.node h).1 ≠ .unknown

def Fresh (M : ComputeNeededRels) (wanted : List ℕ) (neededRels : List Bool) : Prop :=
  ∀ h ∈ wanted, (M.node h).1 = .reconstructed → (M.node h).2 ∉ marked neededRels

theorem neededRelsFromIndex_known (fuel : ℕ) {h : ℕ} (known : (M.node h).1 = .knownFromLogfile) :
    M.neededRelsFromIndex (fuel + 1) h neededRels = .ok (0, neededRels) := by
  rw [neededRelsFromIndex]
  cases node : M.node h with
  | mk s relnum =>
    rw [node] at known
    cases known
    rfl

theorem Adds.fresh_iff {i nadded : ℕ} {after : List Bool} (adds : Adds M i nadded neededRels after)
    (closed : Closed M.Depends (marked neededRels)) {h : ℕ} (reconstructed : (M.node h).1 = .reconstructed)
    (here : (M.node h).2 = i) (wanted : List ℕ) :
    Fresh M wanted after ↔ Fresh M wanted neededRels ∧ ∀ h' ∈ wanted, ¬Needs M h h' := by
  have marks (j : ℕ) := adds.search.mem_iff (k := j) closed
  constructor
  · intro fresh
    refine ⟨fun h' member reconstructed' old => fresh h' member reconstructed' ((marks _).mpr (.inl old)), ?_⟩
    rintro h' member ⟨-, reconstructed', path⟩
    exact fresh h' member reconstructed' ((marks _).mpr (.inr (here ▸ path)))
  · rintro ⟨fresh, apart⟩ h' member reconstructed' added
    rcases (marks _).mp added with old | path
    · exact fresh h' member reconstructed' old
    · exact apart h' member ⟨reconstructed, reconstructed', here.symm ▸ path⟩

/-- The loop over wanted columns: the sum is never less than the count, and equal if and only if no column needs a relation
that was marked before its turn. -/
theorem Sound.wantedLoop (sound : M.Sound) {fuel : ℕ} (enough : M.rows.length < fuel) (wanted : List ℕ)
    (computable : Computable M wanted) (sum : ℕ) (length : neededRels.length = M.rows.length)
    (closed : Closed M.Depends (marked neededRels)) :
    ∃ total after, wanted.foldlM (M.wantedTurn fuel) (sum, neededRels) = .ok (total, after) ∧
      after.count true + sum ≤ neededRels.count true + total ∧
      (after.count true + sum = neededRels.count true + total ↔
        Fresh M wanted neededRels ∧ wanted.Pairwise fun h h' => ¬Needs M h h') := by
  induction wanted generalizing sum neededRels with
  | nil => exact ⟨sum, neededRels, rfl, le_rfl, iff_of_true rfl ⟨nofun, .nil⟩⟩
  | cons h wanted ih =>
    obtain ⟨⟨inside, notUnknown⟩, later⟩ := List.forall_mem_cons.mp computable
    rw [List.foldlM_cons, wantedTurn, if_neg (not_le.mpr inside)]
    cases state : (M.node h).1 with
    | unknown => exact absurd state notUnknown
    | knownFromLogfile =>
      obtain ⟨fuel, rfl⟩ := Nat.exists_eq_succ_of_ne_zero (Nat.ne_of_gt (Nat.zero_lt_of_lt enough))
      obtain ⟨total, after, run, le, iff⟩ := ih later (sum + 0) length closed
      refine ⟨total, after, ?_, le, ?_⟩
      · rw [neededRelsFromIndex_known fuel state]
        exact run
      · have other (reconstructed : (M.node h).1 = .reconstructed) : False := nomatch state.symm.trans reconstructed
        rw [Nat.add_zero] at iff
        rw [iff, List.pairwise_cons, Fresh, Fresh, List.forall_mem_cons]
        exact ⟨fun ⟨fresh, apart⟩ => ⟨⟨fun reconstructed => (other reconstructed).elim, fresh⟩,
          fun h' _ needs => other needs.1, apart⟩, fun ⟨⟨_, fresh⟩, _, apart⟩ => ⟨fresh, apart⟩⟩
    | reconstructed =>
      have most : neededRels.count true ≤ neededRels.length := List.count_le_length
      obtain ⟨n, middle, call, adds⟩ := sound.adds fuel state length (by
        split <;> omega)
      obtain ⟨total, after, run, le, iff⟩ := ih later (sum + n) (adds.length.trans length) (closed.search adds.search)
      have count := adds.count
      refine ⟨total, after, ?_, by omega, ?_⟩
      · rw [call]
        exact run
      · rw [adds.fresh_iff closed state rfl] at iff
        rw [Fresh, List.forall_mem_cons, List.pairwise_cons]
        by_cases old : neededRels.getD (M.node h).2 false = true
        · rw [if_pos old] at count
          exact iff_of_false (by omega) fun ⟨⟨fresh, _⟩, _⟩ => fresh state old
        · rw [if_neg old] at count
          have same : after.count true + sum = neededRels.count true + total ↔
              after.count true + (sum + n) = middle.count true + total := by omega
          rw [same, iff]
          exact ⟨fun ⟨⟨fresh, apart⟩, rest⟩ => ⟨⟨fun _ => old, fresh⟩, apart, rest⟩,
            fun ⟨⟨_, fresh⟩, apart, rest⟩ => ⟨⟨fresh, apart⟩, rest⟩⟩

theorem marked_replicate (n : ℕ) : marked (List.replicate n false) = ∅ := by
  ext i
  rw [mem_marked, List.getD_eq_getElem?_getD, List.getElem?_replicate]
  by_cases inside : i < n <;> simp [inside]

/-- The sum is the number of the relations that are marked, and the assertion holds, if and only if no wanted column is
among those that an earlier one, or the same one before, is computed from. -/
theorem processInput_iff (M : ComputeNeededRels) (sound : M.Sound) (fuel : ℕ) (enough : M.rows.length < fuel)
    (wanted : List ℕ) (computable : Computable M wanted) : ∃ total after, M.necessary fuel wanted = .ok (total, after) ∧
      (total = after.count true ↔ wanted.Pairwise fun h h' => ¬Needs M h h') ∧
      (M.processInput fuel wanted = .ok after ↔ wanted.Pairwise fun h h' => ¬Needs M h h') := by
  have closed : Closed M.Depends (marked (List.replicate M.rows.length false)) := by
    rw [marked_replicate]
    exact fun _ member => member.elim
  have fresh : Fresh M wanted (List.replicate M.rows.length false) := by
    intro h _ _
    rw [marked_replicate]
    exact id
  have none : (List.replicate M.rows.length false).count true = 0 := List.count_eq_zero.mpr fun member =>
    Bool.false_ne_true (List.eq_of_mem_replicate member).symm
  obtain ⟨total, after, run, -, iff⟩ := sound.wantedLoop enough wanted computable 0 List.length_replicate closed
  rw [none, Nat.zero_add, Nat.add_zero, eq_comm, and_iff_right fresh] at iff
  refine ⟨total, after, run, iff, ?_⟩
  rw [← iff, processInput, show M.necessary fuel wanted = _ from run]
  by_cases same : total = after.count true
  · exact iff_of_true (if_pos same) same
  · refine iff_of_false (fun returned => ?_) same
    cases (if_neg same).symm.trans returned

/-! ## A column that depends on another one -/

def twoRels : ComputeNeededRels := dependencies [true, false, false] [[0, 1], [1, 2]] 2

theorem computable_twoRels (wanted : List ℕ) (small : ∀ h ∈ wanted, h < 3) : Computable twoRels wanted := by
  intro h member
  have lt := small h member
  refine ⟨lt, ?_⟩
  interval_cases h <;> decide

theorem processInput_inOrder : twoRels.processInput 3 [1, 2] = .ok [true, true] := by
  obtain ⟨total, after, run, iff, returned⟩ := processInput_iff twoRels (sound_dependencies ..) 3 (by decide) [1, 2]
    (computable_twoRels _ (by decide))
  have here : twoRels.necessary 3 [1, 2] = .ok (2, [true, true]) := by decide
  cases run.symm.trans here
  exact returned.mpr (iff.mp rfl)

/-- There are no cycles, and yet the assertion fails for a column after one that depends on it. -/
theorem processInput_dependent : (∀ h, (twoRels.node h).1 = .reconstructed → ∀ hh ∈ twoRels.row (twoRels.node h).2, hh ≤ h) ∧
    Computable twoRels [2, 1] ∧ twoRels.processInput 3 [2, 1] = .error .assertion := by
  refine ⟨fun h reconstructed => ?_, computable_twoRels _ (by decide), by decide⟩
  rcases lt_or_ge h 3 with lt | ge
  · interval_cases h
    · cases reconstructed
    · decide
    · decide
  · rw [node, List.getD_eq_getElem?_getD, List.getElem?_eq_none (show twoRels.G.length ≤ h from ge)] at reconstructed
    cases reconstructed

end ComputeNeededRels

end CadoNfs.Filter.NeededRels
