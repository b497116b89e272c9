import CadoNfs.Filter.MergeLoop
import CadoNfs.Filter.Replay

/-!
# Replay repeats merge

The history is written thread after thread, so that the merges of a pass are replayed in another order than they were
executed in.
-/

namespace CadoNfs.Filter
open Lib Typerow

variable {α : Type} {n : Nat}

/-! ## The history of a pass -/

section
variable [Typerow α]

def mergeLines (label : Nat → Option Index) (rows : Rows α) (c : Candidate) : List (List Char) :=
  (reportedOps (mergeDo rows c)).map fun op => op.line (label c.pivot)

omit [Typerow α] in
def Pc.unwritten (label : Nat → Option Index) : Pc α → List (List Char)
  | exec c _ todo => (reportedOps todo).map fun op => op.line (label c.pivot)
  | _ => []

def startedBy (started : List (Fin n × Candidate)) (t : Fin n) : List (Fin n × Candidate) :=
  (started.filter fun m => m.1 = t).reverse

def Logged (label : Nat → Option Index) (rows : Rows α) (s : ApplyState α n) : Prop :=
  ∀ t, s.buffers t ++ (s.pc t).unwritten label =
    (startedBy s.started t).flatMap fun m => mergeLines label rows m.2

theorem Logged.keep {label : Nat → Option Index} {rows : Rows α} {s s' : ApplyState α n}
    (logged : Logged label rows s) {t : Fin n} {pc : Pc α} (started : s'.started = s.started)
    (buffers : s'.buffers = s.buffers) (pcs : s'.pc = Function.update s.pc t pc)
    (same : pc.unwritten label = (s.pc t).unwritten label) : Logged label rows s' := by
  intro u
  rw [buffers, pcs, started]
  by_cases eq : u = t
  · subst eq
    rw [Function.update_self, same]
    exact logged u
  · rw [Function.update_of_ne eq]
    exact logged u

theorem Quiet.unwritten {label : Nat → Option Index} {s : ApplyState α n} {pc pc' : Pc α}
    (change : Quiet s pc pc') : pc'.unwritten label = pc.unwritten label := by
  cases change with
  | @begin c instr todo cur start =>
    cases instr with
    | report ops => cases start
    | add t s => rfl
    | remove i => rfl
  | _ => rfl

theorem Logged.enter {label : Nat → Option Index} {rows : Rows α} {s : ApplyState α n}
    (logged : Logged label rows s) {t : Fin n} {c : Candidate}
    (agree : AgreeOn c.ind s.rows rows) (quiet : (s.pc t).unwritten label = []) :
    Logged label rows (s.enter t c) := by
  intro u
  have before := logged u
  by_cases eq : u = t
  · subst eq
    rw [quiet, List.append_nil] at before
    have lines : (reportedOps (mergeDo s.rows c)).map (fun op => op.line (label c.pivot)) =
        mergeLines label rows c := by rw [mergeDo_congr agree, mergeLines]
    simp [ApplyState.enter, Pc.unwritten, startedBy, before, lines]
  · simpa [ApplyState.enter, startedBy, eq, Ne.symm eq] using before

variable [NeZero n] {label : Nat → Option Index} {L : List Candidate} {rows : Rows α}

theorem Logged.move {s s' : ApplyState α n} {a : Act n} (logged : Logged label rows s)
    (inv : PassInv rows L s) (move : Move label L s a s') : Logged label rows s' := by
  have entering {t : Fin n} {c : Candidate} (entered : s'.started = (t, c) :: s.started) :
      AgreeOn c.ind s.rows rows := (move.entering inv entered).2.2
  cases move with
  | take parallel idle next => exact logged.keep rfl rfl rfl (by simp [idle, Pc.unwritten])
  | quiet change => exact logged.keep rfl rfl rfl change.unwritten
  | reserve at_ next free => exact logged.keep rfl rfl rfl (by simp [at_, Pc.unwritten])
  | enter at_ all => exact logged.enter (entering rfl) (by simp [at_, Pc.unwritten])
  | @report t c ops todo at_ =>
    intro u
    have before := logged u
    by_cases eq : u = t
    · subst eq
      rw [at_] at before
      simpa [ApplyState.bufferAdd, Pc.unwritten, reportedOps] using before
    · simpa [ApplyState.bufferAdd, eq] using before
  | update at_ => exact logged.keep rfl rfl rfl (by simp [at_, Pc.unwritten])
  | store at_ => exact logged.keep rfl rfl rfl (by simp [at_, Pc.unwritten])
  | finish at_ => exact logged.keep rfl rfl rfl (by simp [at_, Pc.unwritten, reportedOps])
  | join parallel empty idle enough => exact logged
  | @fallback c rest parallel empty idle zero first =>
    have joined : Logged label rows { s with serial := true } := logged
    exact joined.enter (entering rfl) (by simp [Pc.isIdle_iff.mp (idle 0), Pc.unwritten])

theorem Reach.logged {wt : Nat → Nat} {Q : ApplyState α n → Act n → Bool} {s : ApplyState α n}
    (reach : Reach label L Q (.init n rows wt L) s) : Logged label rows s := by
  induction reach with
  | start =>
    intro t
    simp [ApplyState.init, Pc.unwritten, startedBy]
  | step before _ run ih => exact ih.move before.passInv (step_move run)

def flushed (started : List (Fin n × Candidate)) : List Candidate :=
  ((List.finRange n).flatMap (startedBy started)).map Prod.snd

omit [NeZero n] in
theorem mem_flushed {started : List (Fin n × Candidate)} {c : Candidate} :
    c ∈ flushed started ↔ ∃ m ∈ started, m.2 = c := by
  simp [flushed, startedBy]

omit [NeZero n] in
theorem flush_eq {s : ApplyState α n} (logged : Logged label rows s) (done : s.finished) :
    (List.finRange n).flatMap s.buffers = (flushed s.started).flatMap (mergeLines label rows) := by
  have buffers : s.buffers = fun t => (startedBy s.started t).flatMap fun m =>
      mergeLines label rows m.2 := by
    funext t
    simpa [Pc.isIdle_iff.mp (done.2 t), Pc.unwritten] using logged t
  rw [buffers, flushed, List.flatMap_map, List.flatMap_assoc]

omit [Typerow α] [NeZero n] in
theorem flushed_disjoint {s : ApplyState α n} (reserved : Reserved s) :
    (flushed s.started).Pairwise fun c c' => c.ind.Disjoint c'.ind := by
  unfold flushed
  rw [List.pairwise_map, List.pairwise_flatMap]
  constructor
  · intro t _
    have apart := reserved.startedApart.filter fun m : Fin n × Candidate => decide (m.1 = t)
    exact List.pairwise_reverse.mpr (apart.imp fun disjoint => disjoint.symm)
  · refine (List.nodup_finRange n).imp fun {t u} ne m hm m' hm' => ?_
    simp only [startedBy, List.mem_reverse, List.mem_filter, decide_eq_true_eq] at hm hm'
    refine reserved.disjoint hm.1 hm'.1 fun eq => ne ?_
    rw [← hm.2, ← hm'.2, eq]

end

/-! ## The order of the merges does not matter -/

section
variable [Typerow α]

def execMerges (rows now : Rows α) : List Candidate → Option (Rows α)
  | [] => some now
  | c :: cs => (execRows c.pivot now (mergeDo rows c)).bind fun next => execMerges rows next cs

theorem execMerges_disjoint {rows final now : Rows α} {cs : List Candidate}
    (apart : cs.Pairwise fun c c' => c.ind.Disjoint c'.ind)
    (alone : ∀ c ∈ cs, ∃ after, execRows c.pivot rows (mergeDo rows c) = some after ∧
      AgreeOn c.ind final after)
    (fresh : ∀ c ∈ cs, AgreeOn c.ind now rows)
    (others : ∀ i, (∀ c ∈ cs, i ∉ c.ind) → now i = final i) :
    execMerges rows now cs = some final := by
  induction cs generalizing now with
  | nil => exact congrArg some (funext fun i => others i (by simp))
  | cons c cs ih =>
    obtain ⟨disjoint, tail⟩ := List.pairwise_cons.mp apart
    obtain ⟨after, run, agree⟩ := alone c (by simp)
    have within := mergeDo_within rows c
    have here := execRows_agree (j := c.pivot) within (fresh c (by simp))
    rw [run] at here
    obtain ⟨next, stepped⟩ : ∃ next, execRows c.pivot now (mergeDo rows c) = some next := by
      cases stepped : execRows c.pivot now (mergeDo rows c) with
      | none => simp [stepped] at here
      | some next => exact ⟨next, rfl⟩
    rw [stepped] at here
    cases here with
    | some same =>
      rw [execMerges, stepped]
      apply ih tail (fun c' member => alone c' (.tail _ member))
      · intro c' member i hi
        rw [execRows_frame within stepped fun own => disjoint c' member own hi]
        exact fresh c' (.tail _ member) i hi
      · intro i outside
        by_cases own : i ∈ c.ind
        · exact (same i own).trans (agree i own).symm
        · rw [execRows_frame within stepped own]
          refine others i fun c' member => ?_
          rcases List.mem_cons.mp member with rfl | later
          · exact own
          · exact outside c' later

theorem PassInv.execMerges [NeZero n] {rows : Rows α} {L : List Candidate} {s : ApplyState α n}
    (inv : PassInv rows L s) (done : s.finished) :
    execMerges rows rows (flushed s.started) = some s.rows := by
  refine execMerges_disjoint (flushed_disjoint inv.reserved) (fun c member => ?_)
    (fun _ _ _ _ => rfl) fun i outside => ?_
  · obtain ⟨m, started, rfl⟩ := mem_flushed.mp member
    have effect := inv.outcome.effect m started
    rw [Pc.isIdle_iff.mp (done.2 m.1)] at effect
    cases effect with
    | done other run agree => exact ⟨_, run, agree⟩
  · exact (inv.outcome.untouched i fun m started => outside _ (mem_flushed.mpr ⟨m, started, rfl⟩)).symm

theorem reportedOps_append (p q : List RowInstr) :
    reportedOps (p ++ q) = reportedOps p ++ reportedOps q := by
  induction p with
  | nil => rfl
  | cons instr p ih =>
    cases instr with
    | report ops => simp [reportedOps, ih]
    | add t s => simpa [reportedOps] using ih
    | remove i => simpa [reportedOps] using ih

theorem reportedOps_addFatherToSons (ind : List Nat) (edges : List (Nat × Nat)) :
    reportedOps (addFatherToSons ind edges) = [] := by
  unfold addFatherToSons
  induction edges.reverse with
  | nil => rfl
  | cons edge edges ih => simpa [reportedOps] using ih

theorem toIndex_toNat {i : Nat} (small : i < 2 ^ 31) : (toIndex i).toNat = i := by
  unfold toIndex
  rw [BitVec.toNat_ofNat]
  omega

theorem getD_small {ind : List Nat} (small : ∀ i ∈ ind, i < 2 ^ 31) (i : Nat) :
    ind.getD i 0 < 2 ^ 31 := by
  rcases lt_or_ge i ind.length with inside | outside
  · exact small _ (getD_mem inside)
  · rw [List.getD_eq_default _ _ outside]
    norm_num

theorem reportedOps_small {rows : Rows α} {c : Candidate} (small : ∀ i ∈ c.ind, i < 2 ^ 31)
    {op : RowOp} (member : op ∈ reportedOps (mergeDo rows c)) :
    op.source.toNat < 2 ^ 31 ∧ ∀ t ∈ op.targets, t.toNat < 2 ^ 31 := by
  have index (i : Nat) : (toIndex (c.ind.getD i 0)).toNat < 2 ^ 31 :=
    (toIndex_toNat (getD_small small i)).symm ▸ getD_small small i
  unfold mergeDo at member
  split_ifs at member with single
  · obtain rfl := List.mem_singleton.mp member
    exact ⟨index 0, by simp [RowOp.targets]⟩
  · rw [reportedOps_append, reportedOps_addFatherToSons] at member
    simp only [reportedOps, List.append_nil, List.nil_append, historyOps, List.mem_reverse] at member
    obtain ⟨i, _, rfl⟩ := List.mem_mapIdx.mp member
    split_ifs
    · exact ⟨index _, by simpa only [RowOp.targets, List.forall_mem_singleton] using index _⟩
    · exact ⟨index _, by simpa only [RowOp.targets, List.forall_mem_singleton] using index _⟩

theorem historyOps_cons (ind : List Nat) (edge : Nat × Nat) (edges : List (Nat × Nat)) :
    historyOps ind (edge :: edges) =
      (edges.reverse.map fun e => RowOp.kept (toIndex (ind.getD e.1 0)) (toIndex (ind.getD e.2 0))) ++
        [RowOp.destroyed (toIndex (ind.getD edge.1 0)) (toIndex (ind.getD edge.2 0))] := by
  rw [historyOps, List.mapIdx_cons, if_pos rfl, List.reverse_cons, List.map_reverse]
  congr 2
  exact List.ext_getElem (by simp) (by simp)

-- The tree grows from vertex 0, so that the first edge, whose line comes last, has source 0.
theorem historyOps_program {ind : List Nat} {edge : Nat × Nat} {edges : List (Nat × Nat)}
    (small : ∀ i, ind.getD i 0 < 2 ^ 31) (root : edge.1 = 0) :
    (historyOps ind (edge :: edges)).flatMap RowOp.program =
      addFatherToSons ind (edge :: edges) ++ [RowInstr.remove (ind.getD 0 0)] := by
  have back (i : Nat) : (toIndex (ind.getD i 0)).toNat = ind.getD i 0 := toIndex_toNat (small i)
  have kept : (edges.reverse.map fun e => RowOp.kept (toIndex (ind.getD e.1 0))
      (toIndex (ind.getD e.2 0))).flatMap RowOp.program = addFatherToSons ind edges := by
    unfold addFatherToSons
    induction edges.reverse with
    | nil => rfl
    | cons e es ih =>
      rw [List.map_cons, List.flatMap_cons, ih, RowOp.program, back, back]
      rfl
  rw [historyOps_cons, List.flatMap_append, kept, List.flatMap_singleton, RowOp.program, back, back,
    root]
  simp [addFatherToSons, root]

theorem mergeDo_program {rows now final : Rows α} {c : Candidate} (small : ∀ i ∈ c.ind, i < 2 ^ 31)
    (run : execRows c.pivot now (mergeDo rows c) = some final) :
    execRows c.pivot now ((reportedOps (mergeDo rows c)).flatMap RowOp.program) = some final := by
  have bound := getD_small small
  unfold mergeDo at run ⊢
  split_ifs at run ⊢ with single
  · simp only [reportedOps, List.append_nil, List.flatMap_singleton, RowOp.program,
      toIndex_toNat (bound 0)]
    exact run
  · obtain ⟨grows, targets⟩ := minimalSpanningTree_spec c.ind.length
      (fillRowAddMatrix rows c.ind c.pivot)
    rw [reportedOps_append, reportedOps_addFatherToSons]
    cases tree : mergeTree rows c with
    | nil =>
      have positive := List.length_pos_iff.mpr c.nonempty
      have count := targets.length_eq
      rw [← mergeTree, tree] at count
      simp at count
      omega
    | cons edge edges =>
      rw [← mergeTree, tree] at grows
      have root : edge.1 = 0 := List.mem_singleton.mp grows.1
      rw [tree, execRows_append] at run
      simp only [reportedOps, List.append_nil, List.nil_append]
      rw [historyOps_program bound root, execRows_append]
      exact run

end

/-! ## The same rows under two numberings -/

structure Mirrors (known : Nat → Prop) (φ : Nat → Nat) (skip : Nat) (M R : Rows Nat) : Prop where
  left : SortedRows M
  right : SortedRows R
  known : ∀ i j, Contains M i j → known j
  rows : ∀ i, (M i).map (List.map φ) = (R i).map (List.filter (skip ≤ ·))

variable {known : Nat → Prop} {φ : Nat → Nat} {skip : Nat}

theorem addCells_mirror (strict : ∀ j k, known j → known k → j < k → φ j < φ k)
    {r1 r2 q1 q2 : List Nat} (left1 : r1.Pairwise (· < ·)) (left2 : r2.Pairwise (· < ·))
    (right1 : q1.Pairwise (· < ·)) (right2 : q2.Pairwise (· < ·)) (known1 : ∀ j ∈ r1, known j)
    (known2 : ∀ j ∈ r2, known j) (same1 : r1.map φ = q1.filter (skip ≤ ·))
    (same2 : r2.map φ = q2.filter (skip ≤ ·)) :
    (addCells r1 r2).map φ = (addCells q1 q2).filter (skip ≤ ·) := by
  have injective {j k : Nat} (hj : known j) (hk : known k) (eq : φ j = φ k) : j = k := by
    rcases lt_trichotomy j k with lt | same | gt
    · exact absurd eq (strict j k hj hk lt).ne
    · exact same
    · exact absurd eq.symm (strict k j hk hj gt).ne
  have image {r q : List Nat} (all : ∀ k ∈ r, known k) (same : r.map φ = q.filter (skip ≤ ·))
      {j : Nat} (hj : known j) : j ∈ r ↔ φ j ∈ q ∧ skip ≤ φ j := by
    calc j ∈ r ↔ φ j ∈ r.map φ := by
          refine ⟨List.mem_map_of_mem, fun member => ?_⟩
          obtain ⟨k, hk, eq⟩ := List.mem_map.mp member
          exact injective (all k hk) hj eq ▸ hk
      _ ↔ φ j ∈ q ∧ skip ≤ φ j := by rw [same, List.mem_filter, decide_eq_true_eq]
  have inside {j : Nat} (member : j ∈ addCells r1 r2) : known j := by
    rcases (mem_addCells left1 left2).mp member with ⟨own, _⟩ | ⟨own, _⟩
    · exact known1 j own
    · exact known2 j own
  have sorted : ((addCells r1 r2).map φ).Pairwise (· < ·) :=
    List.pairwise_map.mpr ((addCells_sorted left1 left2).imp_of_mem fun hj hk =>
      strict _ _ (inside hj) (inside hk))
  have source {r q : List Nat} (all : ∀ k ∈ r, known k) (same : r.map φ = q.filter (skip ≤ ·))
      {x : Nat} (member : x ∈ q) (le : skip ≤ x) : ∃ j ∈ r, known j ∧ φ j = x := by
    have mapped : x ∈ r.map φ := by
      rw [same]
      exact List.mem_filter.mpr ⟨member, decide_eq_true le⟩
    obtain ⟨j, hj, eq⟩ := List.mem_map.mp mapped
    exact ⟨j, hj, all j hj, eq⟩
  refine sorted.eq_of_mem_iff ((addCells_sorted right1 right2).filter _) fun {x} => ?_
  rw [List.mem_map, List.mem_filter, mem_addCells right1 right2, decide_eq_true_eq]
  constructor
  · rintro ⟨j, member, rfl⟩
    have hj := inside member
    rw [mem_addCells left1 left2, image known1 same1 hj, image known2 same2 hj] at member
    tauto
  · rintro ⟨one, le⟩
    obtain ⟨j, hj, rfl⟩ : ∃ j, known j ∧ φ j = x := by
      rcases one with ⟨own, _⟩ | ⟨own, _⟩
      · obtain ⟨j, _, hj, eq⟩ := source known1 same1 own le
        exact ⟨j, hj, eq⟩
      · obtain ⟨j, _, hj, eq⟩ := source known2 same2 own le
        exact ⟨j, hj, eq⟩
    refine ⟨j, ?_, rfl⟩
    rw [mem_addCells left1 left2, image known1 same1 hj, image known2 same2 hj]
    tauto

theorem Mirrors.row {M R : Rows Nat} (mirrors : Mirrors known φ skip M R) {i : Nat} {row : List Nat}
    (live : M i = some row) :
    ∃ full, R i = some full ∧ row.map φ = full.filter (skip ≤ ·) ∧ row.Pairwise (· < ·) ∧
      full.Pairwise (· < ·) ∧ ∀ j ∈ row, known j := by
  have same := mirrors.rows i
  rw [live, Option.map_some] at same
  obtain ⟨full, value, eq⟩ := Option.map_eq_some_iff.mp same.symm
  refine ⟨full, value, eq.symm, mirrors.left i row live, mirrors.right i full value, fun j member => ?_⟩
  exact mirrors.known i j ⟨row, live, (columns_nat row).symm ▸ member⟩

theorem Mirrors.update {M R : Rows Nat} (mirrors : Mirrors known φ skip M R) (i : Nat)
    {row full : Option (List Nat)} (left : ∀ r, row = some r → RowSorted r)
    (right : ∀ r, full = some r → RowSorted r) (covered : ∀ r, row = some r → ∀ j ∈ r, known j)
    (same : row.map (List.map φ) = full.map (List.filter (skip ≤ ·))) :
    Mirrors known φ skip (Function.update M i row) (Function.update R i full) := by
  refine ⟨mirrors.left.update left, mirrors.right.update right, fun k j contains => ?_, fun k => ?_⟩
  · obtain ⟨r, live, member⟩ := contains
    rw [columns_nat] at member
    by_cases eq : k = i
    · subst eq
      exact covered r (by simpa using live) j member
    · exact mirrors.known k j ⟨r, by simpa [eq] using live, (columns_nat r).symm ▸ member⟩
  · by_cases eq : k = i
    · subst eq
      simpa using same
    · simpa [eq] using mirrors.rows k

theorem Mirrors.exec (strict : ∀ j k, known j → known k → j < k → φ j < φ k) {M M' R : Rows Nat}
    (mirrors : Mirrors known φ skip M R) {j : Nat} {instr : RowInstr}
    (run : instr.exec j M = some M') : ∃ R', instr.exec j R = some R' ∧ Mirrors known φ skip M' R' := by
  cases instr with
  | add t s =>
    obtain ⟨r1, live1, run⟩ := Option.bind_eq_some_iff.mp run
    obtain ⟨r2, live2, run⟩ := Option.bind_eq_some_iff.mp run
    obtain ⟨q1, value1, same1, left1, right1, known1⟩ := mirrors.row live1
    obtain ⟨q2, value2, same2, left2, right2, known2⟩ := mirrors.row live2
    obtain ⟨ops, sum⟩ := addRow_nat j r1 r2
    obtain ⟨ops', sum'⟩ := addRow_nat j q1 q2
    rw [sum] at run
    cases run
    refine ⟨Function.update R t (some (addCells q1 q2)),
      by simp [RowInstr.exec, value1, value2, sum'], mirrors.update t ?_ ?_ ?_ ?_⟩
    · rintro _ ⟨⟩
      exact addCells_sorted left1 left2
    · rintro _ ⟨⟩
      exact addCells_sorted right1 right2
    · rintro _ ⟨⟩ k member
      rcases (mem_addCells left1 left2).mp member with ⟨own, _⟩ | ⟨own, _⟩
      · exact known1 k own
      · exact known2 k own
    · exact congrArg some
        (addCells_mirror strict left1 left2 right1 right2 known1 known2 same1 same2)
  | report ops => exact ⟨R, rfl, by cases run; exact mirrors⟩
  | remove i =>
    obtain ⟨row, live, rfl⟩ := Option.map_eq_some_iff.mp run
    obtain ⟨full, value, _⟩ := mirrors.row live
    exact ⟨Function.update R i none, by simp [RowInstr.exec, value],
      mirrors.update i (by simp) (by simp) (by simp) rfl⟩

theorem Mirrors.execRows (strict : ∀ j k, known j → known k → j < k → φ j < φ k) {M M' R : Rows Nat}
    (mirrors : Mirrors known φ skip M R) {j : Nat} {program : List RowInstr}
    (run : execRows j M program = some M') :
    ∃ R', execRows j R program = some R' ∧ Mirrors known φ skip M' R' := by
  induction program generalizing M R with
  | nil =>
    cases run
    exact ⟨R, rfl, mirrors⟩
  | cons instr program ih =>
    obtain ⟨next, first, rest⟩ := Option.bind_eq_some_iff.mp run
    obtain ⟨next', first', same⟩ := mirrors.exec strict first
    obtain ⟨R', rest', final⟩ := ih same rest
    exact ⟨R', by rw [execRows_cons, first', Option.bind_some, rest'], final⟩

theorem Mirrors.replay (strict : ∀ j k, known j → known k → j < k → φ j < φ k)
    (label : Nat → Option Index) {rows M M' : Rows Nat} {s : ReplayState Nat Nat}
    (mirrors : Mirrors known φ skip M s.rows) {cs : List Candidate}
    (small : ∀ c ∈ cs, ∀ i ∈ c.ind, i < 2 ^ 31) (run : execMerges rows M cs = some M') :
    ∃ s', replay addRowsUpdateIndex s (cs.flatMap (mergeLines label rows)) = some s' ∧
      Mirrors known φ skip M' s'.rows := by
  induction cs generalizing M s with
  | nil =>
    cases run
    exact ⟨s, rfl, mirrors⟩
  | cons c cs ih =>
    obtain ⟨next, first, rest⟩ := Option.bind_eq_some_iff.mp run
    obtain ⟨next', first', same⟩ := mirrors.execRows strict first
    obtain ⟨s', replayed, rfl⟩ := replay_program (fun op => reportedOps_small (small c (by simp)))
      (mergeDo_program (small c (by simp)) first') (label c.pivot)
    obtain ⟨s'', replayed', final⟩ :=
      ih same (fun c' member => small c' (.tail _ member)) rest
    refine ⟨s'', ?_, final⟩
    rw [List.flatMap_cons, mergeLines, replay_append _ replayed, replayed']

def inUse (rows : Rows Nat) (j : Nat) : Prop := ∃ i, Contains rows i j

def defaultMergeSkip : Nat := 32

def bury (skip : Nat) (rows : Rows Nat) : Rows Nat := fun i => (rows i).map (List.filter (skip ≤ ·))

def Replayed (skip : Nat) (first : ReplayState Nat Nat) (st : MergeState Nat) : Prop :=
  ∃ s, replay addRowsUpdateIndex first st.history = some s ∧
    Mirrors (inUse st.mat.rows) (st.mat.p.getD id) skip st.mat.rows s.rows ∧
    ∀ j k, inUse st.mat.rows j → inUse st.mat.rows k → j < k →
      st.mat.p.getD id j < st.mat.p.getD id k

theorem Replayed.recompress {first : ReplayState Nat Nat} {st : MergeState Nat}
    {chunks : List (List Nat)} (replayed : Replayed skip first st) (sound : Sound st.mat)
    (schedule : chunks.flatten = List.range st.mat.ncols) :
    Replayed skip first (st.recompress chunks) := by
  obtain ⟨s, run, mirrors, strict⟩ := replayed
  have renumbered := recompress_renumbered schedule (fun _ _ => sound.covered) st.jmin
  obtain ⟨ideals, some_, back⟩ := renumbered.ideals
  have value : (st.recompress chunks).mat.p.getD id = ideals := by
    rw [MergeState.recompress, some_, Option.getD_some]
  have old {k : Nat} (used : inUse (st.recompress chunks).mat.rows k) :
      ∃ j, inUse st.mat.rows j ∧ (j < st.mat.ncols ∧ nonempty st.mat.wt j) ∧
        st.mat.newIndex chunks j = k := by
    obtain ⟨i, contains⟩ := used
    obtain ⟨j, was, eq⟩ := contains_renumberRow.mp contains
    exact ⟨j, ⟨i, was⟩, sound.covered was, eq⟩
  refine ⟨s, run, ⟨(sound.recompress schedule).sorted, mirrors.right, fun i j contains => ⟨i, contains⟩,
    fun i => ?_⟩, ?_⟩
  · rw [value, ← mirrors.rows i]
    cases live : st.mat.rows i with
    | none => simp [renumbered.rows, MergeState.recompress, live]
    | some row =>
      have same : (renumberRow (st.mat.newIndex chunks) row).map ideals =
          row.map (st.mat.p.getD id) := by
        rw [renumberRow, List.map_map]
        refine List.map_congr_left fun j member => ?_
        obtain ⟨bound, kept⟩ := sound.covered ⟨row, live, (columns_nat row).symm ▸ member⟩
        exact back j bound kept
      simp [renumbered.rows, MergeState.recompress, live, same]
  · intro j' k' usedj usedk lt
    obtain ⟨j, hj, ⟨boundj, keptj⟩, rfl⟩ := old usedj
    obtain ⟨k, hk, ⟨boundk, keptk⟩, rfl⟩ := old usedk
    rw [value, back j boundj keptj, back k boundk keptk]
    refine strict j k hj hk ?_
    by_contra ge
    rcases (not_lt.mp ge).lt_or_eq with gt | eq
    · exact absurd (renumbered.strictMono k boundk j boundj keptk keptj gt) lt.not_gt
    · exact absurd lt (eq ▸ lt_irrefl _)

variable [NeZero n]

theorem Replayed.pass {first : ReplayState Nat Nat} {st : MergeState Nat} {R L : List Candidate}
    {Q : ApplyState Nat n → Act n → Bool} {s : ApplyState Nat n} (replayed : Replayed skip first st)
    (sound : Sound st.mat) (small : st.mat.nrows ≤ 2 ^ 31) (pass : Pass Q st R L s) :
    Replayed skip first (st.afterPass L s) := by
  obtain ⟨before, run, mirrors, strict⟩ := replayed
  have inv := pass.reach.passInv
  have indices : ∀ c ∈ flushed s.started, ∀ i ∈ c.ind, i < 2 ^ 31 := by
    intro c member i hi
    obtain ⟨m, started, rfl⟩ := mem_flushed.mp member
    obtain ⟨row, live, _⟩ := ((pass.exact sound (inv.fromList.started m started)).1.2 i).mp hi
    by_contra large
    simp [sound.bounded i (small.trans (not_lt.mp large))] at live
  obtain ⟨after, again, mirrors'⟩ :=
    mirrors.replay strict st.label indices (inv.execMerges pass.done)
  have fewer {j : Nat} (used : inUse s.rows j) : inUse st.mat.rows j := by
    obtain ⟨i, contains⟩ := used
    rcases inv.confined.stored i j contains with own | ⟨m, _, _, k, _, source⟩
    · exact ⟨i, own⟩
    · exact ⟨k, source⟩
  refine ⟨after, ?_, ⟨mirrors'.left, mirrors'.right, fun i j contains => ⟨i, contains⟩,
    mirrors'.rows⟩, fun j k hj hk => strict j k (fewer hj) (fewer hk)⟩
  rw [MergeState.afterPass, flush_eq pass.reach.logged pass.done, replay_append _ run, again]

theorem MergeRun.replayed {mat : FilterMatrix Nat} {point : Point} {st : MergeState Nat}
    {first : ReplayState Nat Nat} (run : MergeRun (n := n) keepsWeights mat point st)
    (sound : Sound mat) (small : mat.nrows ≤ 2 ^ 31) (start : Replayed skip first (.init mat)) :
    Replayed skip first st ∧ st.mat.nrows = mat.nrows := by
  induction run with
  | start => exact ⟨start, rfl⟩
  | recompress before schedule ih =>
    exact ⟨ih.1.recompress (before.sound (fun _ _ => id) sound).1 schedule, ih.2⟩
  | keep before renumbered ih => exact ih
  | pass before pass ih =>
    exact ⟨ih.1.pass (before.sound (fun _ _ => id) sound).1 (ih.2 ▸ small) pass, ih.2⟩

omit [NeZero n] in
theorem contains_bury {rows : Rows Nat} {i j : Nat} :
    Contains (bury skip rows) i j ↔ Contains rows i j ∧ skip ≤ j := by
  unfold Contains bury
  cases rows i <;> simp [columns_nat]

omit [NeZero n] in
theorem bury_sorted {rows : Rows Nat} (sorted : SortedRows rows) : SortedRows (bury skip rows) := by
  intro i row live
  obtain ⟨full, value, rfl⟩ := Option.map_eq_some_iff.mp live
  exact (sorted i full value).filter _

/-- In every run that loses no weight update `replay` ends with the live rows of `merge`; their columns from `skip`
on are its columns. -/
theorem replay_correct {Q : ApplyState Nat n → Act n → Bool}
    (lossless : Q = keepsWeights ∨ Q = oneAtATime) {nrows ncols skip : Nat} {rows : Rows Nat}
    {wt : Nat → Nat} (small : nrows ≤ 2 ^ 31) (sorted : SortedRows rows)
    (bounded : ∀ i, nrows ≤ i → rows i = none) (columns : ∀ i j, Contains rows i j → j < ncols)
    (exact : ∀ j, wt j ≤ mergeLevelMax → wt j = weight nrows (bury skip rows) j)
    (counters : ∀ j, wt j ≤ 255) (beyond : ∀ j, ncols ≤ j → wt j = 0) {point : Point}
    {st : MergeState Nat} (run : MergeRun Q (.weighed nrows ncols (bury skip rows) wt) point st)
    (indexData : Option (Nat → List Nat)) :
    ∃ s, replay addRowsUpdateIndex ⟨rows, indexData⟩ st.history = some s ∧
      (∀ i, (s.rows i).isSome = (st.mat.rows i).isSome) ∧
      ∀ i, (s.rows i).map (List.filter (skip ≤ ·)) =
        (st.mat.rows i).map (List.map (st.mat.p.getD id)) := by
  have keeps : MergeRun (n := n) keepsWeights (.weighed nrows ncols (bury skip rows) wt) point st := by
    rcases lossless with rfl | rfl
    · exact run
    · exact run.of_oneAtATime
  have sound : Sound (.weighed nrows ncols (bury skip rows) wt) :=
    .weighed (bury_sorted sorted) (fun i outside => by simp [bury, bounded i outside])
      (fun i j contains => columns i j (contains_bury.mp contains).1) exact counters beyond
  have start : Replayed skip ⟨rows, indexData⟩ (.init (.weighed nrows ncols (bury skip rows) wt)) := by
    refine ⟨_, rfl, ⟨bury_sorted sorted, sorted, fun i j contains => ⟨i, contains⟩, fun i => ?_⟩,
      fun _ _ _ _ => id⟩
    simp [MergeState.init, FilterMatrix.weighed, bury]
  obtain ⟨⟨s, replayed, mirrors, _⟩, _⟩ := keeps.replayed sound small start
  refine ⟨s, replayed, fun i => ?_, fun i => (mirrors.rows i).symm⟩
  have same := congrArg Option.isSome (mirrors.rows i)
  rw [Option.isSome_map, Option.isSome_map] at same
  exact same.symm

theorem replay_correct_pair :
    let rows : Rows Nat := rowTable [[0, 1, 2], [0, 1, 3]]
    ∃ st : MergeState Nat,
      MergeRun (n := 1) keepsWeights (.weighed 2 4 (bury 1 rows) (weight 2 (bury 1 rows))) .call st ∧
      st.mat.rows 1 = some [1, 2] ∧
      ∃ s, replay addRowsUpdateIndex ⟨rows, none⟩ st.history = some s ∧
        (∀ i, (s.rows i).isSome = (st.mat.rows i).isSome) ∧
        ∀ i, (s.rows i).map (List.filter (1 ≤ ·)) =
          (st.mat.rows i).map (List.map (st.mat.p.getD id)) := by
  intro rows
  let mat : FilterMatrix Nat := .weighed 2 4 (bury 1 rows) (weight 2 (bury 1 rows))
  let st := (MergeState.init mat).recompress [List.range 4]
  let R : List Candidate := [⟨0, [0, 1], by simp⟩, ⟨1, [0], by simp⟩, ⟨2, [1], by simp⟩]
  let L : List Candidate := [⟨0, [0, 1], by simp⟩]
  let acts : List (Act 1) := Act.take 0 0 :: List.replicate 20 (Act.run 0) ++ [Act.join]
  have ends : ((ApplyState.init 1 st.mat.rows st.mat.wt L).steps st.label L keepsWeights acts).any
      fun s => decide (s.finished ∧ s.rows 1 = some [1, 2]) := by decide +kernel
  have called : MergeRun (n := 1) keepsWeights mat .head st :=
    .recompress .start (by simp [MergeState.init, mat, FilterMatrix.weighed])
  have computed : ComputeR st.mat (st.jmin st.cwmax) st.cwmax R := by decide +kernel
  obtain ⟨s, passed, value⟩ :=
    called.pass_of_steps computed (List.singleton_subperm_iff.mpr (.head _)) ends
  have columns : ∀ i j, Contains rows i j → j < 4 := rowTable_columns (by decide)
  have bounded (i : Nat) (outside : 2 ≤ i) : rows i = none := rowTable_bounded outside
  have buried (i : Nat) (outside : 2 ≤ i) : bury 1 rows i = none :=
    Option.map_eq_none_iff.mpr (bounded i outside)
  exact ⟨_, passed, value, replay_correct (.inl rfl) (by norm_num) (rowTable_sorted (by decide)) bounded
    columns (fun _ _ => rfl) (fun j => (weight_le 2 _ j).trans (by norm_num))
    (fun j high => (weight_eq_zero_iff buried).mpr fun i contains =>
      (columns i j (contains_bury.mp contains).1).not_ge high) passed none⟩

theorem replay_buried : ¬ ∀ (n nrows ncols : Nat) [NeZero n] (rows : Rows Nat) (wt : Nat → Nat)
    (point : Point) (st : MergeState Nat), nrows < 2 ^ 31 → SortedRows rows →
    (∀ i, nrows ≤ i → rows i = none) → (∀ i j, Contains rows i j → j < ncols) →
    (∀ j, wt j = weight nrows (bury defaultMergeSkip rows) j) → nrows ≤ 255 →
    MergeRun (n := n) keepsWeights (.weighed nrows ncols (bury defaultMergeSkip rows) wt) point st →
    ∃ s, replay addRowsUpdateIndex ⟨rows, none⟩ st.history = some s ∧
      ∀ i, s.rows i = (st.mat.rows i).map (List.map (st.mat.p.getD id)) := by
  intro same
  obtain ⟨s, run, equal⟩ := same 1 1 1 (rowTable [[0]]) _ .call _ (by norm_num)
    (rowTable_sorted (by decide)) (fun _ outside => rowTable_bounded (by simpa using outside))
    (rowTable_columns (by decide))
    (fun _ => rfl) (by norm_num) .start
  cases run
  exact absurd (equal 0) (by decide)

end CadoNfs.Filter
