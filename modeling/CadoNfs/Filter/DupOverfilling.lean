import CadoNfs.Lib.LinearProbing
import CadoNfs.Lib.Double

/-!
# The hash table of dup2

`filter/dup2.cpp`: a relation leaves the upper half of the hash of its `(a, b)` in a table of 32-bit words, in which 0
stands for an empty cell.
-/

namespace CadoNfs.Filter.Dup2
open CadoNfs.Lib CadoNfs.Lib.LinearProbing CadoNfs.Lib.Ring

def caDup2 : ℕ := 271828182845904523

def cbDup2 : ℕ := 577215664901532889

inductive AbPair
  | int64 (a b : BitVec 64)
  | mpz (a b : ℤ)
  deriving DecidableEq, Repr

def computeHash : AbPair → BitVec 64
  | .int64 a b => .ofNat 64 caDup2 * a + .ofNat 64 cbDup2 * b
  | .mpz a b =>
    let r := a * caDup2 + b * cbDup2
    .ofInt 64 (r.sign * (r.natAbs % (2 ^ 64 - 1) : ℕ))

def tag (rel : AbPair) : BitVec 32 := (computeHash rel >>> 32).setWidth 32

def home (K : ℕ) (rel : AbPair) : ℕ := (computeHash rel).toNat % K

structure Insertion where
  i : ℕ
  passed : ℕ
  isDup : Bool
  deriving DecidableEq, Repr

/-- `none` when the loop does not end. -/
def insertRelationInDupHashtable (H : List (BitVec 32)) (rel : AbPair) : Option (List (BitVec 32) × Insertion) :=
  (probe H 0 (tag rel) H.length (home H.length rel)).map fun (i, passed) =>
    (H.set i (tag rel), ⟨i, passed, H[i]? = some (tag rel)⟩)

def insertRelations (H : List (BitVec 32)) : List AbPair → Option (List (BitVec 32) × List Insertion)
  | [] => some (H, [])
  | rel :: rels => (insertRelationInDupHashtable H rel).bind fun (H, report) =>
    (insertRelations H rels).map fun (H, reports) => (H, report :: reports)

variable {H H' : List (BitVec 32)} {rel : AbPair} {report : Insertion}

theorem home_lt (nonempty : 0 < H.length) (rel : AbPair) : home H.length rel < H.length :=
  Nat.mod_lt _ nonempty

theorem insert_eq_some_iff (nonempty : 0 < H.length) : insertRelationInDupHashtable H rel = some (H', report) ↔
    report.passed < H.length ∧ Ends H 0 (tag rel) (home H.length rel) report.passed ∧
      report.i = cell H.length (home H.length rel) report.passed ∧
      report.isDup = decide (H[report.i]? = some (tag rel)) ∧ H' = H.set report.i (tag rel) := by
  have inside := home_lt nonempty rel
  rw [insertRelationInDupHashtable, Option.map_eq_some_iff]
  constructor
  · rintro ⟨⟨i, passed⟩, found, same⟩
    cases same
    obtain ⟨place, less, ends⟩ := (probe_iff inside le_rfl).mp found
    exact ⟨less, ends, place, rfl, rfl⟩
  · rintro ⟨less, ends, place, dup, rfl⟩
    obtain ⟨i, passed, isDup⟩ := report
    obtain rfl : isDup = decide (H[i]? = some (tag rel)) := dup
    exact ⟨(i, passed), (probe_iff inside le_rfl).mpr ⟨place, less, ends⟩, rfl⟩

theorem insert_eq_none_iff (nonempty : 0 < H.length) :
    insertRelationInDupHashtable H rel = none ↔ 0 ∉ H ∧ tag rel ∉ H := by
  rw [insertRelationInDupHashtable, Option.map_eq_none_iff, probe_eq_none_iff (home_lt nonempty rel)]

theorem isDup_of_tag_eq_zero (nonempty : 0 < H.length) (ran : insertRelationInDupHashtable H rel = some (H', report))
    (zero : tag rel = 0) : report.isDup = true := by
  obtain ⟨-, ends, place, dup, -⟩ := (insert_eq_some_iff nonempty).mp ran
  rw [dup, decide_eq_true_eq, place, zero]
  have stop := ends.stop
  rwa [zero, or_self] at stop

/-! ## Tables filled by relations -/

structure Filled (K : ℕ) (past : List (AbPair × Insertion)) (H : List (BitVec 32)) : Prop where
  length : H.length = K
  origin : ∀ (i : ℕ) (x : BitVec 32), H[i]? = some x → x ≠ 0 → ∃ e ∈ past, e.2.i = i ∧ tag e.1 = x
  reached : ∀ e ∈ past, tag e.1 ≠ 0 → Reaches H 0 (tag e.1) (home K e.1)
  stored : ∀ e ∈ past, e.2.isDup = false → tag e.1 ≠ 0 ∧ H[e.2.i]? = some (tag e.1)

theorem filled_replicate (K : ℕ) : Filled K [] (List.replicate K 0) where
  length := List.length_replicate
  origin := by
    intro i x held nonzero
    exact absurd (List.eq_of_mem_replicate (List.mem_of_getElem? held)) nonzero
  reached := nofun
  stored := nofun

variable {K : ℕ} {past : List (AbPair × Insertion)}

theorem Filled.insert (filled : Filled K past H) (nonempty : 0 < K)
    (ran : insertRelationInDupHashtable H rel = some (H', report)) :
    Keeps 0 H H' ∧ Filled K (past ++ [(rel, report)]) H' := by
  obtain rfl := filled.length
  obtain ⟨less, ends, place, dup, rfl⟩ := (insert_eq_some_iff nonempty).mp ran
  have inside := home_lt nonempty rel
  have keeps : Keeps 0 H (H.set report.i (tag rel)) := by
    rw [place]
    exact ends.keeps_set
  have within : report.i < H.length := by
    rw [place]
    exact cell_lt inside less.le
  have here : (H.set report.i (tag rel))[report.i]? = some (tag rel) := List.getElem?_set_self within
  refine ⟨keeps, keeps.length, fun i x held nonzero => ?_, fun e member nonzero => ?_, fun e member fresh => ?_⟩
  · by_cases same : i = report.i
    · subst same
      rw [here] at held
      exact ⟨_, List.mem_append_right _ (.head _), rfl, Option.some.inj held⟩
    · rw [List.getElem?_set_ne (Ne.symm same)] at held
      obtain ⟨e, member, there⟩ := filled.origin i x held nonzero
      exact ⟨e, List.mem_append_left _ member, there⟩
  · rcases List.mem_append.mp member with earlier | last
    · exact (filled.reached e earlier nonzero).keeps keeps (home_lt nonempty e.1) nonzero
    · obtain rfl := List.mem_singleton.mp last
      rw [place]
      exact ends.reaches_set inside less
  · rcases List.mem_append.mp member with earlier | last
    · obtain ⟨nonzero, held⟩ := filled.stored e earlier fresh
      exact ⟨nonzero, keeps.kept _ _ held nonzero⟩
    · obtain rfl := List.mem_singleton.mp last
      refine ⟨fun zero => ?_, here⟩
      rw [isDup_of_tag_eq_zero nonempty ran zero] at fresh
      cases fresh

theorem insertRelations_invariant {P : List (AbPair × Insertion) → List (BitVec 32) → Prop}
    (step : ∀ {past H H' rel report}, P past H → insertRelationInDupHashtable H rel = some (H', report) →
      P (past ++ [(rel, report)]) H') {rels : List AbPair} {reports : List Insertion} (holds : P past H)
    (ran : insertRelations H rels = some (H', reports)) :
    reports.length = rels.length ∧ P (past ++ rels.zip reports) H' := by
  induction rels generalizing past H reports with
  | nil =>
    cases ran
    exact ⟨rfl, by rwa [List.zip_nil_left, List.append_nil]⟩
  | cons rel rels ih =>
    obtain ⟨⟨H₁, report⟩, first, rest⟩ := Option.bind_eq_some_iff.mp ran
    obtain ⟨⟨H₂, later⟩, others, same⟩ := Option.map_eq_some_iff.mp rest
    cases same
    obtain ⟨length, after⟩ := ih (step holds first) others
    refine ⟨congrArg (· + 1) length, ?_⟩
    rwa [List.append_assoc] at after

theorem Filled.insertAll {rels : List AbPair} {reports : List Insertion} (filled : Filled K past H) (nonempty : 0 < K)
    (ran : insertRelations H rels = some (H', reports)) :
    reports.length = rels.length ∧ Filled K (past ++ rels.zip reports) H' :=
  insertRelations_invariant (fun filled ran => (filled.insert nonempty ran).2) filled ran

def OnProbePath (H : List (BitVec 32)) (rel : AbPair) (i : ℕ) : Prop :=
  ∃ n < H.length, i = (home H.length rel + n) % H.length ∧
    ∀ m < n, H[(home H.length rel + m) % H.length]? ≠ some 0

theorem cell_eq_mod {size head n : ℕ} (inside : head < size) (less : n < size) :
    cell size head n = (head + n) % size := by
  unfold cell
  split_ifs with below
  · exact (Nat.mod_eq_of_lt below).symm
  · rw [Nat.mod_eq_sub_mod (not_lt.mp below), Nat.mod_eq_of_lt (by omega)]

theorem insertRelation_reports {rels : List AbPair} {reports : List Insertion}
    (ran : insertRelations (List.replicate K 0) rels = some (H, reports)) (room : 0 ∈ H) (rel : AbPair) :
    ∃ H' report, insertRelationInDupHashtable H rel = some (H', report) ∧
      (rel ∈ rels → report.isDup = true) ∧
      (report.isDup = true → tag rel = 0 ∨
        ∃ e ∈ rels.zip reports, tag e.1 = tag rel ∧ e.2.i = report.i ∧ OnProbePath H rel report.i) ∧
      (∀ e ∈ rels.zip reports, e.2.isDup = false → H'[e.2.i]? = some (tag e.1)) ∧
      ∀ (i : ℕ) (x : BitVec 32), H[i]? = some x → x ≠ 0 → H'[i]? = some x := by
  have positive : 0 < K := by
    rcases Nat.eq_zero_or_pos K with rfl | positive
    · cases rels with
      | nil =>
        cases ran
        cases room
      | cons rel rels =>
        rw [insertRelations, insertRelationInDupHashtable] at ran
        cases ran
    · exact positive
  obtain ⟨length, filled⟩ := (filled_replicate K).insertAll positive ran
  rw [List.nil_append] at filled
  have nonempty : 0 < H.length := by rwa [filled.length]
  cases inserted : insertRelationInDupHashtable H rel with
  | none => exact absurd room ((insert_eq_none_iff nonempty).mp inserted).1
  | some result =>
    obtain ⟨H', report⟩ := result
    obtain ⟨less, ends, place, dup, -⟩ := (insert_eq_some_iff nonempty).mp inserted
    obtain ⟨keeps, after⟩ := filled.insert positive inserted
    have inside := home_lt nonempty rel
    refine ⟨H', report, rfl, fun seen => ?_, fun duplicate => ?_, fun e member fresh => ?_, keeps.kept⟩
    · by_cases zero : tag rel = 0
      · exact isDup_of_tag_eq_zero nonempty inserted zero
      · obtain ⟨k, bound, rfl⟩ := List.getElem_of_mem seen
        have member : (rels[k], reports[k]) ∈ rels.zip reports := by
          rw [← List.getElem_zip (h := by rw [List.length_zip]; omega)]
          exact List.getElem_mem _
        have reaches := filled.reached _ member zero
        rw [← filled.length] at reaches
        rw [dup, decide_eq_true_eq, place]
        exact reaches.found ends
    · by_cases zero : tag rel = 0
      · exact .inl zero
      · rw [dup, decide_eq_true_eq] at duplicate
        obtain ⟨e, member, there, same⟩ := filled.origin _ _ duplicate zero
        refine .inr ⟨e, member, same, there, report.passed, less, ?_, fun m before => ?_⟩
        · rw [place, cell_eq_mod inside less]
        · rw [← cell_eq_mod inside (by omega)]
          exact (ends.passed m before).1
    · exact (after.stored e (List.mem_append_left _ member) fresh).2

theorem insertRelation_reports_three : ∃ H' report,
    insertRelationInDupHashtable [0, 0, 197683425] (.int64 1 1) = some (H', report) ∧ report.isDup = true := by
  have ran : insertRelations (List.replicate 3 0) [.int64 1 1] = some ([0, 0, 197683425], [⟨2, 0, false⟩]) := by decide
  obtain ⟨H', report, inserted, duplicate, -⟩ := insertRelation_reports ran (by decide) (.int64 1 1)
  exact ⟨H', report, inserted, duplicate (by decide)⟩

end CadoNfs.Filter.Dup2

/-!
# Overfilling the hash table of dup2

`check_overfilling` of `filter/dup2.cpp`, and the two ways to process a relation.
-/

namespace CadoNfs.Filter.Dup2
open CadoNfs.Lib CadoNfs.Lib.LinearProbing CadoNfs.Lib.Ring

structure Progress where
  H : List (BitVec 32)
  cost : ℚ
  factor : ℚ
  nrelsTot : ℕ
  ndupTot : ℕ
  deriving DecidableEq

inductive Outcome
  | running (s : Progress)
  | exited
  | hangs
  deriving DecidableEq

-- The table has `K = uint64_nextprime(100 + nrels_expected + nrels_expected / 5)` cells.
def start (K : ℕ) : Progress := ⟨List.replicate K 0, 0, 1, 0, 0⟩

def localCost (passed : ℕ) : ℚ := (fun c => double (c + 1))^[passed] 0

def doubleRatio (t u : ℕ) : ℚ := if u = 0 then 0 else double (double t / double u)

namespace Progress

def nodup (s : Progress) : ℕ := s.nrelsTot - s.ndupTot

def costly (s : Progress) : Prop := double (s.factor * double s.nodup) ≤ s.cost

instance (s : Progress) : Decidable s.costly := inferInstanceAs (Decidable (_ ≤ _))

def checkOverfilling (s : Progress) : Outcome :=
  if s.costly then
    if 99 ≤ double (100 * doubleRatio s.nodup s.H.length) then .exited
    else .running { s with factor := double (s.factor + 1) }
  else .running s

def inserted (s : Progress) (H : List (BitVec 32)) (report : Insertion) : Progress :=
  { s with H := H, cost := double (s.cost + localCost report.passed), nrelsTot := s.nrelsTot + 1 }

def hashRenumberedRelation (s : Progress) (rel : AbPair) : Outcome :=
  (insertRelationInDupHashtable s.H rel).elim .hangs fun (H, report) => (s.inserted H report).checkOverfilling

def threadDup2 (s : Progress) (rel : AbPair) : Outcome :=
  (insertRelationInDupHashtable s.H rel).elim .hangs fun (H, report) =>
    let s := s.inserted H report
    if report.isDup then .running { s with ndupTot := s.ndupTot + 1 } else s.checkOverfilling

end Progress

inductive Source
  | renumbered
  | new
  deriving DecidableEq

def processRelation (s : Progress) : Source × AbPair → Outcome
  | (.renumbered, rel) => s.hashRenumberedRelation rel
  | (.new, rel) => s.threadDup2 rel

def Outcome.andThen : Outcome → Source × AbPair → Outcome
  | .running s, rel => processRelation s rel
  | .exited, _ => .exited
  | .hangs, _ => .hangs

def process (s : Progress) (rels : List (Source × AbPair)) : Outcome := rels.foldl Outcome.andThen (.running s)

def NeverFull (K : ℕ) (rels : List (Source × AbPair)) : Prop :=
  ∀ done, done <+: rels → process (start K) done ≠ .hangs ∧ ∀ s, process (start K) done = .running s → 0 ∈ s.H

/-- With one empty cell left, `n` cells away, a relation that is new finds the check due. -/
def Meets (s : Progress) (rel : AbPair) : Prop :=
  ∀ n < s.H.length, s.H.count 0 = 1 → tag rel ≠ 0 → s.H[cell s.H.length (home s.H.length rel) n]? = some 0 →
    Ends s.H 0 (tag rel) (home s.H.length rel) n →
    double (s.factor * double (s.nodup + 1 : ℕ)) ≤ double (s.cost + localCost n)

/-! ## The check of a full table -/

theorem full_le_doubleRatio {nodup K : ℕ} (positive : 0 < K) (le : K ≤ nodup) :
    99 ≤ double (100 * doubleRatio nodup K) := by
  have cells : (1 : ℚ) ≤ K := by exact_mod_cast positive
  have more : (K : ℚ) ≤ nodup := by exact_mod_cast le
  obtain ⟨low, -⟩ := double_between (x := nodup) (by linarith)
  obtain ⟨lowK, high⟩ := double_between (x := K) (by linarith)
  have positiveK : (0 : ℚ) < double K := by linarith
  have ratio : (999 / 1000 : ℚ) ≤ double nodup / double K := by
    rw [le_div_iff₀ positiveK]
    linarith
  obtain ⟨lowRatio, -⟩ := double_between (x := double nodup / double K) (by linarith)
  obtain ⟨lowPercent, -⟩ := double_between (x := 100 * double (double nodup / double K)) (by linarith)
  rw [doubleRatio, if_neg positive.ne']
  linarith

structure Counted (K : ℕ) (s : Progress) : Prop where
  length : s.H.length = K
  le : s.ndupTot ≤ s.nrelsTot
  used : K ≤ s.nodup + s.H.count 0

theorem counted_start (K : ℕ) : Counted K (start K) where
  length := List.length_replicate
  le := le_rfl
  used := by
    rw [start, List.count_replicate_self]
    exact Nat.le_add_left _ _

variable {K : ℕ} {s s' : Progress} {rel : AbPair} {H : List (BitVec 32)} {report : Insertion}

theorem count_insert (nonempty : 0 < s.H.length) (ran : insertRelationInDupHashtable s.H rel = some (H, report)) :
    H.length = s.H.length ∧ s.H.count 0 ≤ H.count 0 + 1 ∧ (report.isDup = true → H.count 0 = s.H.count 0) ∧
      (report.isDup = false → H.count 0 + 1 = s.H.count 0) := by
  obtain ⟨less, ends, place, dup, rfl⟩ := (insert_eq_some_iff nonempty).mp ran
  have within : report.i < s.H.length := by
    rw [place]
    exact cell_lt (home_lt nonempty rel) less.le
  have held : s.H[report.i]? = some s.H[report.i] := List.getElem?_eq_getElem within
  have stop : s.H[report.i] = 0 ∨ s.H[report.i] = tag rel := by
    have stop := ends.stop
    rw [← place, held] at stop
    exact stop.imp Option.some.inj Option.some.inj
  have counted := List.count_set (a := tag rel) (b := 0) within
  have present : s.H[report.i] = 0 → 0 < s.H.count 0 := fun zero =>
    List.count_pos_iff.mpr (zero ▸ List.getElem_mem within)
  have dup' : report.isDup = true ↔ s.H[report.i] = tag rel := by
    rw [dup, decide_eq_true_eq, held, Option.some.injEq]
  refine ⟨List.length_set, ?_, fun duplicate => ?_, fun fresh => ?_⟩
  · rw [counted]
    split_ifs <;> omega
  · rw [dup'] at duplicate
    rw [counted, duplicate]
    by_cases zero : tag rel = 0
    · have := present (duplicate.trans zero)
      simp only [zero, beq_self_eq_true, if_true]
      omega
    · simp only [beq_iff_eq, zero, if_false, Nat.sub_zero, Nat.add_zero]
  · rw [← Bool.not_eq_true, dup'] at fresh
    have zero := stop.resolve_right fresh
    have := present zero
    rw [zero] at fresh
    rw [counted, zero]
    simp only [beq_self_eq_true, if_true, beq_iff_eq, Ne.symm fresh, if_false]
    omega

theorem checkOverfilling_cases (s : Progress) :
    s.checkOverfilling = .exited ∧ s.costly ∨
      ∃ factor, s.checkOverfilling = .running { s with factor := factor } ∧
        (s.costly → ¬ 99 ≤ double (100 * doubleRatio s.nodup s.H.length)) := by
  unfold Progress.checkOverfilling
  split_ifs with due full
  · exact .inl ⟨rfl, due⟩
  · exact .inr ⟨_, rfl, fun _ => full⟩
  · exact .inr ⟨s.factor, rfl, fun absurd' => absurd absurd' due⟩

theorem checkOverfilling_spec (counted : Counted K s) (positive : 0 < K) :
    s.checkOverfilling = .exited ∧ s.costly ∨
      ∃ s', s.checkOverfilling = .running s' ∧ Counted K s' ∧ s'.H = s.H ∧ (0 ∉ s.H → ¬ s.costly) := by
  rcases checkOverfilling_cases s with exits | ⟨factor, goes, below⟩
  · exact .inl exits
  · refine .inr ⟨_, goes, ⟨counted.length, counted.le, counted.used⟩, rfl, fun full due => below due ?_⟩
    have used := counted.used
    rw [List.count_eq_zero_of_not_mem full] at used
    rw [counted.length]
    exact full_le_doubleRatio positive used

theorem processRelation_counted (counted : Counted K s) (positive : 0 < K) {src : Source}
    (ran : insertRelationInDupHashtable s.H rel = some (H, report)) :
    processRelation s (src, rel) = .exited ∧ (s.inserted H report).costly ∨
      ∃ s', processRelation s (src, rel) = .running s' ∧ Counted K s' ∧ s'.H = H ∧
        (report.isDup = false → 0 ∉ H → ¬ (s.inserted H report).costly) := by
  have nonempty : 0 < s.H.length := by rwa [counted.length]
  obtain ⟨length, less, same, one⟩ := count_insert nonempty ran
  have le := counted.le
  have used := counted.used
  unfold Progress.nodup at used
  have after : Counted K (s.inserted H report) := by
    refine ⟨length.trans counted.length, le.trans (Nat.le_succ _), ?_⟩
    show K ≤ s.nrelsTot + 1 - s.ndupTot + H.count 0
    omega
  cases src with
  | renumbered =>
    rw [processRelation, Progress.hashRenumberedRelation, ran]
    rcases checkOverfilling_spec after positive with exits | ⟨s', goes, counted', table, due⟩
    · exact .inl exits
    · exact .inr ⟨s', goes, counted', table, fun _ => due⟩
  | new =>
    rw [processRelation, Progress.threadDup2, ran]
    cases dup : report.isDup with
    | true =>
      refine .inr ⟨{ s.inserted H report with ndupTot := s.ndupTot + 1 }, ?_, ⟨after.length, ?_, ?_⟩, rfl, nofun⟩
      · simp only [Option.elim_some, dup, if_true]
        rfl
      · exact Nat.succ_le_succ le
      · show K ≤ s.nrelsTot + 1 - (s.ndupTot + 1) + H.count 0
        rw [same dup]
        omega
    | false =>
      rcases checkOverfilling_spec after positive with exits | ⟨s', goes, counted', table, due⟩
      · exact .inl ⟨by simpa [dup] using exits.1, exits.2⟩
      · exact .inr ⟨s', by simpa [dup] using goes, counted', table, fun _ => due⟩

theorem processRelation_room (counted : Counted K s) (positive : 0 < K) (room : 0 ∈ s.H) (src : Source)
    (rel : AbPair) :
    (processRelation s (src, rel) = .exited ∧ Meets s rel) ∨
      ∃ s', processRelation s (src, rel) = .running s' ∧ Counted K s' ∧ (0 ∈ s'.H ↔ Meets s rel) := by
  have nonempty : 0 < s.H.length := by rwa [counted.length]
  have inside := home_lt nonempty rel
  cases ran : insertRelationInDupHashtable s.H rel with
  | none => exact absurd room ((insert_eq_none_iff nonempty).mp ran).1
  | some result =>
    obtain ⟨H, report⟩ := result
    obtain ⟨length, less, same, one⟩ := count_insert nonempty ran
    obtain ⟨bound, ends, place, dup, -⟩ := (insert_eq_some_iff nonempty).mp ran
    have some_room : 0 < s.H.count 0 := List.count_pos_iff.mpr room
    have succ : (s.inserted H report).nodup = s.nodup + 1 := Nat.succ_sub counted.le
    have condition : Meets s rel ↔ (H.count 0 = 0 → (s.inserted H report).costly) := by
      unfold Progress.costly
      rw [succ]
      constructor
      · intro meets full
        have fresh : report.isDup = false := by
          by_contra duplicate
          have := same (Bool.eq_true_of_not_eq_false duplicate)
          omega
        have missed : s.H[report.i]? ≠ some (tag rel) := by
          rw [dup, decide_eq_false_iff_not] at fresh
          exact fresh
        have free : s.H[report.i]? = some 0 := by
          rw [place] at missed ⊢
          exact ends.stop.resolve_right missed
        have single := one fresh
        rw [place] at free
        refine meets report.passed bound (by omega) (fun zero => missed ?_) free ends
        rw [place, free, zero]
      · intro due n within single nonzero free reached
        obtain rfl := ends.unique reached
        apply due
        have fresh : report.isDup = false := by
          rw [dup, decide_eq_false_iff_not, place, free]
          exact fun same => nonzero (Option.some.inj same).symm
        have := one fresh
        omega
    rcases (processRelation_counted counted positive ran : processRelation s (src, rel) = .exited ∧ _ ∨ _) with
      ⟨exits, due⟩ | ⟨s', goes, counted', table, due⟩
    · exact .inl ⟨exits, condition.mpr fun _ => due⟩
    · refine .inr ⟨s', goes, counted', ?_⟩
      rw [table, condition, ← List.count_pos_iff]
      constructor
      · intro left full
        omega
      · intro meets
        by_contra full
        have empty : H.count 0 = 0 := by omega
        have fresh : report.isDup = false := by
          by_contra duplicate
          have := same (Bool.eq_true_of_not_eq_false duplicate)
          omega
        exact due fresh (fun member => full (List.count_pos_iff.mpr member)) (meets empty)

theorem process_append (s : Progress) (done : List (Source × AbPair)) (e : Source × AbPair) :
    process s (done ++ [e]) = (process s done).andThen e := by
  rw [process, List.foldl_append]
  rfl

theorem counted_of_neverFull (positive : 0 < K) {done : List (Source × AbPair)} (never : NeverFull K done)
    (ran : process (start K) done = .running s) : Counted K s ∧ 0 ∈ s.H := by
  refine ⟨?_, (never done (List.prefix_refl done)).2 s ran⟩
  induction done using List.reverseRecOn generalizing s with
  | nil =>
    cases ran
    exact counted_start K
  | append_singleton done e ih =>
    have never' : NeverFull K done := fun done' before => never done' (before.trans (List.prefix_append _ _))
    rw [process_append] at ran
    cases before : process (start K) done with
    | exited => rw [before] at ran; cases ran
    | hangs => rw [before] at ran; cases ran
    | running s₀ =>
      rw [before] at ran
      have counted := ih never' before
      have room := (never' done (List.prefix_refl done)).2 s₀ before
      rcases processRelation_room counted positive room e.1 e.2 with ⟨exits, -⟩ | ⟨s', goes, counted', -⟩
      · rw [Outcome.andThen, exits] at ran
        cases ran
      · rw [Outcome.andThen, goes] at ran
        cases ran
        exact counted'

theorem neverFull_append (positive : 0 < K) {done : List (Source × AbPair)} {e : Source × AbPair} :
    NeverFull K (done ++ [e]) ↔ NeverFull K done ∧ ∀ s, process (start K) done = .running s → Meets s e.2 := by
  constructor
  · intro never
    have never' : NeverFull K done := fun done' before => never done' (before.trans (List.prefix_append _ _))
    refine ⟨never', fun s ran => ?_⟩
    obtain ⟨counted, room⟩ := counted_of_neverFull positive never' ran
    rcases processRelation_room counted positive room e.1 e.2 with ⟨-, meets⟩ | ⟨s', goes, -, left⟩
    · exact meets
    · have last := process_append (start K) done e
      rw [ran, Outcome.andThen, goes] at last
      exact left.mp ((never _ (List.prefix_refl _)).2 s' last)
  · rintro ⟨never, meets⟩ done' before
    rcases List.prefix_concat_iff.mp before with rfl | earlier
    · rw [process_append]
      cases ran : process (start K) done with
      | exited => exact ⟨nofun, nofun⟩
      | hangs => exact absurd ran (never done (List.prefix_refl done)).1
      | running s =>
        obtain ⟨counted, room⟩ := counted_of_neverFull positive never ran
        rw [Outcome.andThen]
        rcases processRelation_room counted positive room e.1 e.2 with ⟨exits, -⟩ | ⟨s', goes, -, left⟩
        · rw [exits]
          exact ⟨nofun, nofun⟩
        · rw [goes]
          refine ⟨nofun, ?_⟩
          rintro _ ⟨⟩
          exact left.mpr (meets s ran)
    · exact never done' earlier

/-- The table never fills up exactly when, before every relation, the relation meets the condition. -/
theorem neverFull_iff (positive : 0 < K) (rels : List (Source × AbPair)) : NeverFull K rels ↔
    ∀ done e, done ++ [e] <+: rels → ∀ s, process (start K) done = .running s → Meets s e.2 := by
  induction rels using List.reverseRecOn with
  | nil =>
    refine iff_of_true (fun done before => ?_) fun done e before => ?_
    · obtain rfl := List.prefix_nil.mp before
      refine ⟨nofun, ?_⟩
      rintro _ ⟨⟩
      exact List.mem_replicate.mpr ⟨positive.ne', rfl⟩
    · exact absurd (List.prefix_nil.mp before) (by simp)
  | append_singleton rels last ih =>
    rw [neverFull_append positive, ih]
    constructor
    · rintro ⟨earlier, meets⟩ done e before s ran
      rcases List.prefix_concat_iff.mp before with same | before
      · obtain ⟨rfl, one⟩ := List.append_inj' same rfl
        cases one
        exact meets s ran
      · exact earlier done e before s ran
    · intro all
      exact ⟨fun done e before => all done e (before.trans (List.prefix_append _ _)),
        all rels last (List.prefix_refl _)⟩

theorem neverFull_iff_one : NeverFull 107 [(.new, .int64 1 1)] ↔
    ∀ done e, done ++ [e] <+: [(Source.new, AbPair.int64 1 1)] → ∀ s, process (start 107) done = .running s →
      Meets s e.2 :=
  neverFull_iff (by decide) _

/-- For `nrels = 3` the table has 107 cells. These 107 relations go to one cell each at no cost; the next relation is
never inserted. -/
theorem neverFull_fails : ¬ ∀ K rels, 0 < K → NeverFull K rels := by
  intro always
  have hangs : process (start 107) ((List.range' 1 65 ++ List.range' 85 42 ++ [66]).map fun a =>
      (.new, .int64 (.ofNat 64 a) 1)) = .hangs := by decide +kernel
  exact (always 107 _ (by decide) _ (List.prefix_refl _)).1 hangs

/-! ## The relations kept -/

variable {H' : List (BitVec 32)} {past : List (AbPair × Insertion)}

def kept (past : List (AbPair × Insertion)) : List (AbPair × Insertion) := past.filter (!·.2.isDup)

structure Kept (K : ℕ) (past : List (AbPair × Insertion)) (H : List (BitVec 32)) : Prop where
  filled : Filled K past H
  relations : ((kept past).map Prod.fst).Nodup
  cells : ((kept past).map (·.2.i)).Nodup
  count : (kept past).length + H.count 0 = K
  origin : ∀ x ∈ H, x ≠ 0 → ∃ e ∈ kept past, tag e.1 = x

theorem Kept.insert (all : Kept K past H) (nonempty : 0 < K)
    (ran : insertRelationInDupHashtable H rel = some (H', report)) : Kept K (past ++ [(rel, report)]) H' := by
  obtain ⟨filled, relations, cells, count, origin⟩ := all
  have after := (filled.insert nonempty ran).2
  obtain rfl := filled.length
  obtain ⟨-, -, same, less⟩ := count_insert (s := ⟨H, 0, 0, 0, 0⟩) nonempty ran
  have zero := isDup_of_tag_eq_zero nonempty ran
  obtain ⟨-, ends, place, dup, rfl⟩ := (insert_eq_some_iff nonempty).mp ran
  obtain ⟨i, passed, isDup⟩ := report
  change i = _ at place
  have origin' (x : BitVec 32) (member : x ∈ H.set i (tag rel)) (nonzero : x ≠ 0) (new : x ≠ tag rel) :
      ∃ e ∈ kept past, tag e.1 = x :=
    origin x ((List.mem_or_eq_of_mem_set member).resolve_right new) nonzero
  cases isDup with
  | true =>
    have held : H[i]? = some (tag rel) := of_decide_eq_true dup.symm
    have append : kept (past ++ [(rel, ⟨i, passed, true⟩)]) = kept past := by simp [kept]
    refine ⟨after, append ▸ relations, append ▸ cells, append ▸ (same rfl).symm ▸ count, fun x member nonzero => ?_⟩
    rw [append]
    by_cases new : x = tag rel
    · exact origin x (new ▸ List.mem_of_getElem? held) nonzero
    · exact origin' x member nonzero new
  | false =>
    have other : H[i]? ≠ some (tag rel) := of_decide_eq_false dup.symm
    have free : H[i]? = some 0 := by
      rw [place] at other ⊢
      exact ends.stop.resolve_right other
    have append : kept (past ++ [(rel, ⟨i, passed, false⟩)]) = kept past ++ [(rel, ⟨i, passed, false⟩)] := by
      simp [kept]
    have fresh {e : AbPair × Insertion} (member : e ∈ kept past) : e.1 ≠ rel ∧ e.2.i ≠ i := by
      obtain ⟨there, new⟩ := List.mem_filter.mp member
      obtain ⟨held, stored⟩ := filled.stored e there (by simpa using new)
      constructor
      · intro eq
        apply other
        rw [place, ← eq]
        exact (filled.reached e there held).found (eq ▸ ends)
      · intro eq
        rw [eq, free] at stored
        exact held (Option.some.inj stored).symm
    have concat {β : Type} {f : AbPair × Insertion → β} (distinct : ((kept past).map f).Nodup)
        (apart : ∀ e ∈ kept past, f e ≠ f (rel, ⟨i, passed, false⟩)) :
        ((kept (past ++ [(rel, ⟨i, passed, false⟩)])).map f).Nodup := by
      rw [append, List.map_append, List.map_singleton, ← List.concat_eq_append]
      exact distinct.concat (by simpa using apart)
    refine ⟨after, concat relations fun e member => (fresh member).1, concat cells fun e member => (fresh member).2, ?_,
      fun x member nonzero => ?_⟩
    · rw [append, List.length_append, List.length_singleton, Nat.add_assoc, Nat.add_comm 1, less rfl]
      exact count
    · rw [append]
      by_cases new : x = tag rel
      · exact ⟨_, List.mem_append_right _ (.head _), new.symm⟩
      · obtain ⟨e, member, eq⟩ := origin' x member nonzero new
        exact ⟨e, List.mem_append_left _ member, eq⟩

/-- Over a whole run no relation is kept twice, each kept one has a cell of its own, and a relation is lost only if its
tag is 0 or that of one kept. -/
theorem insertRelations_kept {rels : List AbPair} {reports : List Insertion} (nonempty : 0 < K)
    (ran : insertRelations (List.replicate K 0) rels = some (H, reports)) :
    ((kept (rels.zip reports)).map Prod.fst).Nodup ∧ ((kept (rels.zip reports)).map (·.2.i)).Nodup ∧
      (kept (rels.zip reports)).length + H.count 0 = K ∧
      ∀ rel ∈ rels, tag rel = 0 ∨ ∃ e ∈ kept (rels.zip reports), tag e.1 = tag rel := by
  have none : Kept K [] (List.replicate K 0) := by
    refine ⟨filled_replicate K, .nil, .nil, by simp [kept], fun x member nonzero => ?_⟩
    exact absurd (List.eq_of_mem_replicate member) nonzero
  obtain ⟨length, filled, relations, cells, count, origin⟩ :=
    insertRelations_invariant (fun all => Kept.insert all nonempty) none ran
  refine ⟨relations, cells, count, fun rel member => ?_⟩
  rw [← List.map_fst_zip length.ge] at member
  obtain ⟨e, inside, rfl⟩ := List.mem_map.mp member
  by_cases zero : tag e.1 = 0
  · exact .inl zero
  · obtain ⟨n, -, there, -⟩ := filled.reached e inside zero
    exact .inr (origin _ (List.mem_of_getElem? there) zero)

theorem insertRelations_kept_three :
    (kept [(.int64 1 1, ⟨2, 0, false⟩), (.int64 1 1, ⟨2, 0, true⟩)]).length + [0, 0, 197683425#32].count 0 = 3 := by
  have ran : insertRelations (List.replicate 3 0) [.int64 1 1, .int64 1 1] =
    some ([0, 0, 197683425#32], [⟨2, 0, false⟩, ⟨2, 0, true⟩]) := by decide
  exact (insertRelations_kept (by decide) ran).2.2.1

end CadoNfs.Filter.Dup2
