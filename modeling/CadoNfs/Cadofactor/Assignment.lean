import CadoNfs.Cadofactor.ApiServer
import CadoNfs.Cadofactor.WuServer
import CadoNfs.Lib.Run

/-!
# Handing out workunits

Requests of the Rust server, transactions of the Python server and the background task on one database, one SQL
statement at a time.
-/

namespace CadoNfs.Cadofactor.Assignment

open Lib

inductive Event
  | available (wuid : WuName)
  | handed (wuid : WuName) (clientid : Text)
  deriving DecidableEq

/-- The requests that wait between their `SELECT` and their `UPDATE`, and the log, newest first. -/
structure State where
  db : WuDb
  pending : List (Text × WuRow)
  log : List Event

structure Closes (f : WuRow → WuRow) : Prop where
  wuid : ∀ r, (f r).wuid = r.wuid
  status : ∀ r, (f r).status.isOpen = false
  assignedclient : ∀ r, (f r).assignedclient = r.assignedclient

inductive Step (s : State) : State → Prop
  | select (clientid : Text) (r : WuRow) : s.db.selectAvailable = some r →
    Step s { s with pending := s.pending ++ [(clientid, r)] }
  | update (before after : List (Text × WuRow)) (clientid : Text) (r : WuRow) (now : ℕ) :
    s.pending = before ++ (clientid, r) :: after →
    Step s
      { db := (s.db.updateAssigned r.wuid clientid now).2
        pending := before ++ after
        log := if (s.db.updateAssigned r.wuid clientid now).1 = 1 then .handed r.wuid clientid :: s.log else s.log }
  | assign (clientid : Text) (now : ℕ) (wu : Workunit) (db : WuDb) : s.db.assign clientid now = some (wu, db) →
    Step s { s with db, log := .handed wu.id clientid :: s.log }
  | reclaim (cutoff : ℕ) :
    Step s
      { s with
        db := s.db.reclaim cutoff
        log := ((s.db.rows.filter (·.late cutoff)).map fun r => .available r.wuid) ++ s.log }
  | create (wu : Workunit) (db : WuDb) : s.db.create wu = .ok db →
    Step s { s with db, log := .available wu.id :: s.log }
  | close (cond : WuRow → Bool) (f : WuRow → WuRow) : Closes f → Step s { s with db := s.db.update cond f }

def Event.client (wuid : WuName) : Event → Option Text
  | .handed wuid' clientid => if wuid' = wuid then some clientid else none
  | .available _ => none

/-- To whom a workunit has been handed since it last became available. -/
def handouts (wuid : WuName) (log : List Event) : List Text :=
  (log.takeWhile (· ≠ .available wuid)).filterMap (Event.client wuid)

variable {wuid : WuName} {clientid : Text} {log : List Event}

theorem handouts_handed : handouts wuid (.handed wuid clientid :: log) = clientid :: handouts wuid log := by
  simp [handouts, Event.client]

theorem handouts_handed_ne {wuid' : WuName} (other : wuid' ≠ wuid) :
    handouts wuid (.handed wuid' clientid :: log) = handouts wuid log := by
  simp [handouts, Event.client, other]

theorem handouts_available_cons (wuid' : WuName) :
    handouts wuid (.available wuid' :: log) = if wuid' = wuid then [] else handouts wuid log := by
  by_cases here : wuid' = wuid
  · simp [handouts, here]
  · have keeps : decide (Event.available wuid' ≠ .available wuid) = true := by simpa using here
    rw [handouts, List.takeWhile_cons, keeps, if_pos rfl, if_neg here]
    rfl

theorem handouts_available (l : List WuName) :
    handouts wuid (l.map .available ++ log) = if wuid ∈ l then [] else handouts wuid log := by
  induction l with
  | nil => rfl
  | cons w l ih =>
    rw [List.map_cons, List.cons_append, handouts_available_cons, ih]
    by_cases here : w = wuid
    · simp [here]
    · simp [here, Ne.symm here]

/-- At every moment at most one handout since a workunit became available. -/
def Once (log : List Event) : Prop := ∀ past, past <:+ log → ∀ wuid, (handouts wuid past).length ≤ 1

theorem Once.cons {e : Event} (once : Once log) (now : ∀ wuid, (handouts wuid (e :: log)).length ≤ 1) :
    Once (e :: log) := by
  intro past suffix
  cases List.suffix_cons_iff.mp suffix with
  | inl all => exact all ▸ now
  | inr before => exact once past before

theorem Once.available (once : Once log) (l : List WuName) : Once (l.map .available ++ log) := by
  induction l with
  | nil => exact once
  | cons w l ih =>
    refine ih.cons fun wuid => ?_
    rw [handouts_available_cons]
    split
    · exact Nat.zero_le 1
    · exact ih _ List.suffix_rfl wuid

theorem Once.between {before between after : List Event} (once : Once (after ++ (between ++ before)))
    (quiet : .available wuid ∉ between) : (between.filterMap (Event.client wuid)).length ≤ 1 := by
  have all : between.takeWhile (· ≠ .available wuid) = between :=
    List.takeWhile_eq_self_iff.mpr fun e member => decide_eq_true fun same => quiet (same ▸ member)
  have some := once (between ++ before) (List.suffix_append _ _) wuid
  rw [handouts, List.takeWhile_append, all, if_pos rfl, List.filterMap_append, List.length_append] at some
  omega

structure Held (r : WuRow) (clients : List Text) : Prop where
  once : clients.length ≤ 1
  available : r.status = .available → clients = []
  recorded : ∀ clientid ∈ clients, r.assignedclient = some clientid

structure Inv (s : State) : Prop where
  unique : (s.db.rows.map WuRow.wuid).Nodup
  held : ∀ r ∈ s.db.rows, Held r (handouts r.wuid s.log)
  unknown : ∀ wuid, (∀ r ∈ s.db.rows, r.wuid ≠ wuid) → handouts wuid s.log = []
  once : Once s.log

theorem held_nil (r : WuRow) : Held r [] := ⟨Nat.zero_le 1, fun _ => rfl, fun c member => by cases member⟩

theorem Inv.start (db : WuDb) (pending : List (Text × WuRow)) (unique : (db.rows.map WuRow.wuid).Nodup) :
    Inv ⟨db, pending, []⟩ := by
  refine ⟨unique, fun r _ => held_nil r, fun _ _ => rfl, fun past suffix wuid => ?_⟩
  rw [List.suffix_nil.mp suffix]
  exact Nat.zero_le 1

variable {s : State}

theorem Inv.write (inv : Inv s) {cond : WuRow → Bool} {f : WuRow → WuRow} (wuid : ∀ r, (f r).wuid = r.wuid)
    {pending : List (Text × WuRow)}
    (held : ∀ r ∈ s.db.rows, cond r → Held (f r) (handouts r.wuid s.log)) :
    Inv { db := s.db.update cond f, pending, log := s.log } := by
  refine ⟨?_, fun r' member => ?_, fun name absent => inv.unknown name fun r member => ?_, inv.once⟩
  · exact (map_key_updateWhere wuid).symm ▸ inv.unique
  · obtain ⟨r, there, rfl⟩ := mem_updateWhere.mp member
    rw [key_updateWhere wuid]
    split
    · rename_i selected
      exact held r there selected
    · exact inv.held r there
  · rw [← key_updateWhere wuid r]
    exact absent _ (mem_updateWhere.mpr ⟨r, member, rfl⟩)

theorem Inv.hand (inv : Inv s) {r : WuRow} (member : r ∈ s.db.rows) (available : r.status = .available)
    {cond : WuRow → Bool} (selects : ∀ r' ∈ s.db.rows, cond r' = true ↔ r'.wuid = r.wuid) {clientid : Text} {now : ℕ}
    {pending : List (Text × WuRow)} :
    Inv { db := s.db.update cond (·.handedTo clientid now), pending, log := .handed r.wuid clientid :: s.log } := by
  have wuid (r' : WuRow) : (r'.handedTo clientid now).wuid = r'.wuid := rfl
  have alone : handouts r.wuid (.handed r.wuid clientid :: s.log) = [clientid] := by
    rw [handouts_handed, (inv.held r member).available available]
  refine ⟨?_, fun r' member' => ?_, fun name absent => ?_, inv.once.cons fun name => ?_⟩
  · exact (map_key_updateWhere wuid).symm ▸ inv.unique
  · obtain ⟨r₀, there, rfl⟩ := mem_updateWhere.mp member'
    rw [key_updateWhere wuid]
    split
    · rename_i selected
      rw [(selects r₀ there).mp selected, alone]
      refine ⟨le_rfl, fun same => (by cases same), fun c last => ?_⟩
      rw [List.mem_singleton.mp last]
      rfl
    · rename_i other
      rw [handouts_handed_ne fun same => other ((selects r₀ there).mpr same.symm)]
      exact inv.held r₀ there
  · have known (r' : WuRow) (there : r' ∈ s.db.rows) : r'.wuid ≠ name := by
      rw [← key_updateWhere wuid r']
      exact absent _ (mem_updateWhere.mpr ⟨r', there, rfl⟩)
    rw [handouts_handed_ne (known r member)]
    exact inv.unknown name known
  · by_cases same : r.wuid = name
    · rw [← same, alone]
      exact le_rfl
    · rw [handouts_handed_ne same]
      exact inv.once _ List.suffix_rfl name

theorem Inv.update (inv : Inv s) (rowid : WuName) (clientid : Text) (now : ℕ) (pending : List (Text × WuRow)) :
    Inv
      { db := (s.db.updateAssigned rowid clientid now).2
        pending
        log := if (s.db.updateAssigned rowid clientid now).1 = 1 then .handed rowid clientid :: s.log else s.log } := by
  by_cases selected : ∃ r ∈ s.db.rows, r.wuid = rowid ∧ r.status = .available
  · obtain ⟨r, member, rfl, available⟩ := selected
    have count : (s.db.updateAssigned r.wuid clientid now).1 = 1 := by
      refine le_antisymm (countP_le_one inv.unique (k := r.wuid) fun r' both => (of_decide_eq_true both).1) ?_
      exact List.countP_pos_iff.mpr ⟨r, member, decide_eq_true ⟨rfl, available⟩⟩
    rw [count, if_pos rfl]
    refine inv.hand member available fun r' there => ?_
    rw [decide_eq_true_eq]
    refine ⟨And.left, fun same => ⟨same, ?_⟩⟩
    rw [List.inj_on_of_nodup_map inv.unique there member same]
    exact available
  · have none : ∀ r ∈ s.db.rows, decide (r.wuid = rowid ∧ r.status = .available) = false :=
      fun r member => decide_eq_false fun both => selected ⟨r, member, both⟩
    have count : (s.db.updateAssigned rowid clientid now).1 = 0 :=
      List.countP_eq_zero.mpr fun r member => by simpa using none r member
    rw [count, if_neg (by decide)]
    refine inv.write (f := (·.handedTo clientid now)) (fun _ => rfl) fun r member both => ?_
    rw [none r member] at both
    cases both

theorem Inv.assign {db : WuDb} {wu : Workunit} {now : ℕ} (inv : Inv s) (clientid : Text)
    (ok : s.db.assign clientid now = some (wu, db)) : Inv { s with db, log := .handed wu.id clientid :: s.log } := by
  unfold WuDb.assign at ok
  split at ok
  · cases ok
  · rename_i r found
    obtain ⟨rfl, rfl⟩ := Prod.mk.inj (Option.some.inj ok)
    have available : r.status = .available := by simpa using List.find?_some found
    exact inv.hand (List.mem_of_find?_eq_some found) available fun r' _ => decide_eq_true_iff

theorem Inv.reclaim (inv : Inv s) (cutoff : ℕ) :
    Inv
      { s with
        db := s.db.reclaim cutoff
        log := ((s.db.rows.filter (·.late cutoff)).map fun r => .available r.wuid) ++ s.log } := by
  have names : ((s.db.rows.filter (·.late cutoff)).map fun r => Event.available r.wuid) =
      ((s.db.rows.filter (·.late cutoff)).map WuRow.wuid).map .available := by
    rw [List.map_map]
    rfl
  have freed {r : WuRow} (member : r ∈ s.db.rows) :
      r.wuid ∈ (s.db.rows.filter (·.late cutoff)).map WuRow.wuid ↔ r.late cutoff = true := by
    rw [List.mem_map]
    constructor
    · rintro ⟨r', selected, same⟩
      obtain ⟨member', late⟩ := List.mem_filter.mp selected
      rwa [← List.inj_on_of_nodup_map inv.unique member' member same]
    · intro late
      exact ⟨r, List.mem_filter.mpr ⟨member, late⟩, rfl⟩
  have wuid (r : WuRow) : r.reclaimed.wuid = r.wuid := rfl
  rw [names]
  refine ⟨?_, fun r' member' => ?_, fun name absent => ?_, inv.once.available _⟩
  · exact (map_key_updateWhere wuid).symm ▸ inv.unique
  · obtain ⟨r, member, rfl⟩ := mem_updateWhere.mp member'
    rw [key_updateWhere wuid, handouts_available]
    split
    · rename_i selected
      rw [if_pos ((freed member).mpr selected)]
      exact held_nil _
    · rename_i other
      rw [if_neg fun here => other ((freed member).mp here)]
      exact inv.held r member
  · rw [handouts_available]
    split
    · rfl
    · refine inv.unknown name fun r member => ?_
      rw [← key_updateWhere wuid r]
      exact absent _ (mem_updateWhere.mpr ⟨r, member, rfl⟩)

theorem Inv.create {db : WuDb} {wu : Workunit} (inv : Inv s) (ok : s.db.create wu = .ok db) :
    Inv { s with db, log := .available wu.id :: s.log } := by
  have unique := WuDb.nodup_create inv.unique ok
  obtain ⟨fresh, rfl⟩ := WuDb.create_ok ok
  refine ⟨unique, fun r member => ?_, fun name absent => ?_, inv.once.available [wu.id]⟩
  · rw [handouts_available_cons]
    cases List.mem_append.mp member with
    | inl before =>
      rw [if_neg fun same => fresh r before same.symm]
      exact inv.held r before
    | inr last =>
      obtain rfl := List.mem_singleton.mp last
      rw [if_pos (show wu.id = wu.newRow.wuid from rfl)]
      exact held_nil _
  · rw [handouts_available_cons]
    split
    · rfl
    · exact inv.unknown name fun r member => absent r (List.mem_append_left _ member)

theorem Inv.close (inv : Inv s) (cond : WuRow → Bool) {f : WuRow → WuRow} (closes : Closes f) :
    Inv { s with db := s.db.update cond f } := by
  refine inv.write closes.wuid fun r member _ => ?_
  have held := inv.held r member
  refine ⟨held.once, fun available => ?_, fun clientid there => ?_⟩
  · have closed := closes.status r
    rw [available] at closed
    cases closed
  · rw [closes.assignedclient]
    exact held.recorded clientid there

theorem Inv.step {s' : State} (inv : Inv s) (step : Step s s') : Inv s' := by
  cases step with
  | select clientid r found => exact ⟨inv.unique, inv.held, inv.unknown, inv.once⟩
  | update before after clientid r now waiting => exact inv.update r.wuid clientid now _
  | assign clientid now wu db ok => exact inv.assign clientid ok
  | reclaim cutoff => exact inv.reclaim cutoff
  | create wu db ok => exact inv.create ok
  | close cond f closes => exact inv.close cond closes

/-- A workunit is handed to at most one client between two moments at which it becomes available, and that client is the
one in `assignedclient`. -/
theorem handed_once (s s' : State) (wuid : WuName) (unique : (s.db.rows.map WuRow.wuid).Nodup) (start : s.log = [])
    (run : Relation.ReflTransGen Step s s') :
    (∀ before between after, s'.log = after ++ (between ++ before) → .available wuid ∉ between →
      (between.filterMap (Event.client wuid)).length ≤ 1) ∧
    ∀ before after clientid, s'.log = after ++ .handed wuid clientid :: before → .available wuid ∉ after →
      ∃ r, s'.db.getByWuid wuid = some r ∧ r.assignedclient = some clientid := by
  obtain ⟨db, pending, log⟩ := s
  obtain rfl : log = [] := start
  have inv := invariant_of_run Inv (fun _ _ inv step => Inv.step inv step) (Inv.start db pending unique) run
  refine ⟨fun before between after log quiet => ?_, fun before after clientid log quiet => ?_⟩
  · have once := inv.once
    rw [log] at once
    exact once.between quiet
  · have all : after.takeWhile (· ≠ .available wuid) = after :=
      List.takeWhile_eq_self_iff.mpr fun e member => decide_eq_true fun same => quiet (same ▸ member)
    have member : clientid ∈ handouts wuid s'.log := by
      rw [log, handouts, List.takeWhile_append, all, if_pos rfl, List.filterMap_append]
      refine List.mem_append_right _ ?_
      show clientid ∈ handouts wuid (.handed wuid clientid :: before)
      rw [handouts_handed]
      exact (.head _)
    cases found : s'.db.getByWuid wuid with
    | none =>
      have absent := inv.unknown wuid fun r there => by simpa using List.find?_eq_none.mp found r there
      rw [absent] at member
      cases member
    | some r =>
      have name := WuDb.wuid_of_getByWuid found
      exact ⟨r, rfl, (inv.held r (List.mem_of_find?_eq_some found)).recorded clientid (name.symm ▸ member)⟩

def oneWorkunit : Workunit :=
  ⟨⟨"c59".toList, "sieving".toList, 0, 1000, none⟩, [], [], Workunit.upper_nil⟩

theorem handed_once_two : ∃ s', Relation.ReflTransGen Step ⟨⟨[oneWorkunit.newRow], []⟩, [], []⟩ s' ∧
    s'.log = [.handed oneWorkunit.id ['a']] ∧
    ∃ r, s'.db.getByWuid oneWorkunit.id = some r ∧ r.assignedclient = some ['a'] := by
  have run : Relation.ReflTransGen Step ⟨⟨[oneWorkunit.newRow], []⟩, [], []⟩ _ :=
    (((Relation.ReflTransGen.refl.tail (.select ['a'] oneWorkunit.newRow rfl)).tail
      (.select ['b'] oneWorkunit.newRow rfl)).tail
      (.update [] [(['b'], oneWorkunit.newRow)] ['a'] oneWorkunit.newRow 5 rfl)).tail
      (.update [] [] ['b'] oneWorkunit.newRow 6 rfl)
  exact ⟨_, run, rfl, (handed_once ⟨⟨[oneWorkunit.newRow], []⟩, [], []⟩ _ oneWorkunit.id
    (List.nodup_singleton oneWorkunit.id) rfl run).2 [] [] ['a'] rfl List.not_mem_nil⟩

end CadoNfs.Cadofactor.Assignment
