import CadoNfs.Cadofactor.Wudb
import CadoNfs.Lib.Buckets
import CadoNfs.Lib.Run

/-!
# Uploads of the Python client

`ResultUploader` of `cado-nfs-client.py`.
-/

namespace CadoNfs.Cadofactor.ResultUploader

open Lib

structure FileObject where
  contents : Bytes
  position : ℕ
  deriving DecidableEq

def FileObject.read (f : FileObject) : Bytes := f.contents.drop f.position

structure Processor where
  peer : ℕ
  deadline : Option ℚ
  files : List (Text × FileObject)
  deriving DecidableEq

namespace Processor

variable (p : Processor)

def prepareAnswer (files : List (Text × Bytes)) : List (Text × FileObject) := files.map fun f => (f.1, ⟨f.2, 0⟩)

def isStale (now : ℚ) : Bool := p.deadline.any (· < now)

def complete : List (Text × Bytes) := p.files.map fun f => (f.1, f.2.contents)

def sent : List (Text × Bytes) := p.files.map fun f => (f.1, f.2.read)

def afterPost : Processor := { p with files := p.files.map fun f => (f.1, ⟨f.2.contents, f.2.contents.length⟩) }

end Processor

structure Settings where
  waitStable : ℚ
  downloadRetryMin : Option ℚ

def Settings.waitMin (settings : Settings) : ℚ := settings.downloadRetryMin.getD (settings.waitStable / 16)

inductive Stage
  | test
  | post (waitingSince : ℚ)
  | accepted
  deriving DecidableEq

structure Walk where
  i : ℕ
  rest : List ℕ
  newBacklog : List ℕ
  wait : ℚ
  stage : Stage
  deriving DecidableEq

inductive Event
  | accepted (ref : ℕ) (files : List (Text × Bytes))
  | expired (ref : ℕ)
  deriving DecidableEq

def Event.ref : Event → ℕ
  | accepted ref _ | expired ref => ref

/-- What becomes of a post: the answer is status 200, or it is not, or it is lost after the server has accepted. -/
inductive Outcome
  | accepted
  | refused
  | lost
  deriving DecidableEq

structure Uploader where
  processors : List Processor
  uploadBacklog : List (List ℕ)
  backlogSize : ℤ
  lastActive : ℕ
  walk : Option Walk
  log : List Event
  deriving DecidableEq

def Uploader.new (servers : ℕ) : Uploader := ⟨[], List.replicate servers [], 0, 0, none, []⟩

inductive Move
  | scheduleUpload (peer : ℕ) (deadline : Option ℚ) (files : List (Text × Bytes))
  | processUploads
  | isStale (now : ℚ)
  | post (outcome : Outcome)
  | next

variable (settings : Settings)

namespace Uploader

variable (u : Uploader)

def index (i : ℕ) : ℕ := (u.lastActive + i) % u.uploadBacklog.length

def enter (i : ℕ) (wait : ℚ) : Option Walk :=
  if i < u.uploadBacklog.length then (u.uploadBacklog[u.index i]?).map fun old => ⟨i, old, [], wait, .test⟩ else none

def staleAt (ref : ℕ) (now : ℚ) : Bool := (u.processors[ref]?).any (·.isStale now)

end Uploader

def Walk.failed (w : Walk) (ref : ℕ) (rest : List ℕ) (waitingSince : ℚ) : Walk :=
  if 4 * settings.waitStable ≤ waitingSince + w.wait then
    ⟨w.i, rest, w.newBacklog ++ [ref], settings.waitMin, .test⟩
  else
    ⟨w.i, ref :: rest, w.newBacklog, if settings.waitStable ≤ w.wait * 2 then settings.waitStable else w.wait * 2,
      .post (waitingSince + w.wait)⟩

def scheduleUpload (u : Uploader) (peer : ℕ) (deadline : Option ℚ) (files : List (Text × Bytes)) : Option Uploader :=
  (u.uploadBacklog[peer]?).map fun backlog => { u with
    processors := u.processors ++ [⟨peer, deadline, Processor.prepareAnswer files⟩]
    uploadBacklog := u.uploadBacklog.set peer (backlog ++ [u.processors.length])
    backlogSize := u.backlogSize + 1
    lastActive := peer }

def step (u : Uploader) (m : Move) : Option Uploader :=
  match u.walk, m with
  | none, .scheduleUpload peer deadline files => scheduleUpload u peer deadline files
  | none, .processUploads => if u.backlogSize = 0 then some u else some { u with walk := u.enter 0 settings.waitMin }
  | some ⟨i, ref :: rest, newBacklog, wait, .test⟩, .isStale now =>
    if u.staleAt ref now then some { u with walk := some ⟨i, rest, newBacklog, wait, .test⟩, log := .expired ref :: u.log }
    else some { u with walk := some ⟨i, ref :: rest, newBacklog, wait, .post 0⟩ }
  | some ⟨i, ref :: rest, newBacklog, wait, .post waitingSince⟩, .post outcome =>
    (u.processors[ref]?).map fun p => { u with
      processors := u.processors.set ref p.afterPost
      walk := some (if outcome = .accepted then ⟨i, ref :: rest, newBacklog, wait, .accepted⟩
        else Walk.failed settings ⟨i, ref :: rest, newBacklog, wait, .post waitingSince⟩ ref rest waitingSince)
      log := if outcome = .refused then u.log else .accepted ref p.sent :: u.log }
  | some ⟨i, ref :: rest, newBacklog, wait, .accepted⟩, .isStale now =>
    if u.staleAt ref now then some { u with walk := some ⟨i, rest, newBacklog, wait, .test⟩, log := .expired ref :: u.log }
    else some { u with walk := some ⟨i, rest, newBacklog, settings.waitMin, .test⟩ }
  | some ⟨i, [], newBacklog, wait, .test⟩, .next =>
    (u.uploadBacklog[u.index i]?).map fun old =>
      let u' := { u with
        backlogSize := u.backlogSize - (old.length - newBacklog.length)
        uploadBacklog := u.uploadBacklog.set (u.index i) newBacklog }
      { u' with walk := u'.enter (i + 1) wait }
  | _, _ => none

/-! ## Where the results are -/

def Walk.pending (w : Walk) : List ℕ := w.newBacklog ++ if w.stage = .accepted then w.rest.tail else w.rest

def Uploader.backlogs (u : Uploader) : List (List ℕ) :=
  match u.walk with
  | none => u.uploadBacklog
  | some w => u.uploadBacklog.set (u.index w.i) w.pending

def settled (ref : ℕ) (log : List Event) : ℕ := log.countP (·.ref = ref)

structure Accounted (u : Uploader) : Prop where
  once : ∀ ref < u.processors.length, u.backlogs.flatten.count ref + settled ref u.log = 1
  own : ∀ k backlog, u.backlogs[k]? = some backlog → ∀ ref ∈ backlog, (u.processors[ref]?).map Processor.peer = some k
  complete : ∀ ref files, .accepted ref files ∈ u.log → (u.processors[ref]?).map Processor.complete = some files
  size : u.backlogSize = u.uploadBacklog.flatten.length

/-- A result with a file that is not empty is accepted at its first post, and a workunit whose result has been accepted
does not expire at once. -/
def Undisturbed (u : Uploader) : Move → Prop
  | .post outcome => outcome ≠ .lost ∧ (outcome = .accepted → ∀ w ref rest p, u.walk = some w → w.rest = ref :: rest →
    u.processors[ref]? = some p → ∀ f ∈ p.files, f.2.position = 0 ∨ f.2.contents = [])
  | .isStale now => ∀ w ref rest, u.walk = some w → w.stage = .accepted → w.rest = ref :: rest → u.staleAt ref now = false
  | _ => True

/-- The invariant: a server is walked only if it exists, and nothing is recorded of a result that has not been
scheduled. -/
structure Inv (u : Uploader) : Prop where
  accounted : Accounted u
  unscheduled : ∀ ref, u.processors.length ≤ ref → settled ref u.log = 0
  walking : ∀ w, u.walk = some w → w.i < u.uploadBacklog.length

variable {settings} {u u' : Uploader} {m : Move}

theorem Uploader.index_lt {i : ℕ} (lt : i < u.uploadBacklog.length) : u.index i < u.uploadBacklog.length :=
  Nat.mod_lt _ (Nat.zero_lt_of_lt lt)

theorem complete_afterPost (p : Processor) : p.afterPost.complete = p.complete := by
  rw [Processor.complete, Processor.afterPost, List.map_map]
  rfl

theorem sent_of_unread {p : Processor} (unread : ∀ f ∈ p.files, f.2.position = 0 ∨ f.2.contents = []) :
    p.sent = p.complete := by
  refine List.map_congr_left fun f member => ?_
  rw [FileObject.read]
  cases unread f member with
  | inl start => rw [start, List.drop_zero]
  | inr empty => rw [empty, List.drop_nil]

theorem backlogs_enter (i : ℕ) (wait : ℚ) : { u with walk := u.enter i wait }.backlogs = u.uploadBacklog := by
  rw [Uploader.enter]
  split
  · rename_i lt
    have there := Uploader.index_lt lt
    rw [List.getElem?_eq_getElem there]
    show u.uploadBacklog.set (u.index i) ([] ++ _) = u.uploadBacklog
    exact List.set_getElem_self there
  · rfl

theorem walking_enter {i : ℕ} {wait : ℚ} {w : Walk} (entered : u.enter i wait = some w) :
    w.i < u.uploadBacklog.length := by
  rw [Uploader.enter] at entered
  split at entered
  · rename_i lt
    obtain ⟨old, -, rfl⟩ := Option.map_eq_some_iff.mp entered
    exact lt
  · cases entered

/-! ## What the steps change -/

theorem Inv.walks (inv : Inv u) {w w' : Walk} (walk : u.walk = some w) (i : w'.i = w.i)
    (pending : w'.pending = w.pending) :
    Inv { u with walk := some w' } := by
  have same : { u with walk := some w' }.backlogs = u.backlogs := by
    rw [Uploader.backlogs, Uploader.backlogs, walk]
    show u.uploadBacklog.set (u.index w'.i) w'.pending = _
    rw [i, pending]
  refine ⟨⟨?_, ?_, inv.accounted.complete, inv.accounted.size⟩, inv.unscheduled, fun w₁ found => ?_⟩
  · rw [same]
    exact inv.accounted.once
  · rw [same]
    exact inv.accounted.own
  · obtain rfl := Option.some.inj found
    exact i ▸ inv.walking w walk

theorem Inv.settles (inv : Inv u) {w w' : Walk} {e : Event} (walk : u.walk = some w) (i : w'.i = w.i)
    (pending : w.pending.Perm (e.ref :: w'.pending))
    (complete : ∀ ref files, e = .accepted ref files → (u.processors[ref]?).map Processor.complete = some files) :
    Inv { u with walk := some w', log := e :: u.log } := by
  have there : w.i < u.uploadBacklog.length := inv.walking w walk
  have before : u.backlogs[u.index w.i]? = some w.pending := by
    rw [Uploader.backlogs, walk]
    exact List.getElem?_set_self (Uploader.index_lt there)
  have after : { u with walk := some w', log := e :: u.log }.backlogs = u.backlogs.set (u.index w.i) w'.pending := by
    rw [Uploader.backlogs, Uploader.backlogs, walk]
    show u.uploadBacklog.set (u.index w'.i) w'.pending = (u.uploadBacklog.set (u.index w.i) w.pending).set _ _
    rw [i, List.set_set]
  have known : e.ref < u.processors.length := by
    have peer := inv.accounted.own _ _ before e.ref (pending.mem_iff.mpr (.head _))
    obtain ⟨p, found, -⟩ := Option.map_eq_some_iff.mp peer
    exact (List.getElem?_eq_some_iff.mp found).1
  refine ⟨⟨fun ref lt => ?_, fun k backlog found ref member => ?_, fun ref files member => ?_, inv.accounted.size⟩,
    fun ref ge => ?_, fun w₁ found => ?_⟩
  · have count := count_flatten_set before w'.pending ref
    rw [← after, pending.count_eq, List.count_cons] at count
    have once := inv.accounted.once ref lt
    rw [settled, List.countP_cons]
    rw [settled] at once
    by_cases same : e.ref = ref
    · simp only [same, beq_self_eq_true, if_true, decide_true] at count ⊢
      omega
    · have other : (e.ref == ref) = false := by simpa using same
      simp only [same, other, decide_false, Bool.false_eq_true, if_false] at count ⊢
      omega
  · rw [after, List.getElem?_set] at found
    split at found
    · rename_i here
      subst here
      split at found
      · obtain rfl := Option.some.inj found
        exact inv.accounted.own _ _ before ref (pending.mem_iff.mpr (.tail _ member))
      · cases found
    · exact inv.accounted.own k backlog found ref member
  · cases member with
    | head => exact complete ref files rfl
    | tail _ old => exact inv.accounted.complete ref files old
  · have other : ¬ e.ref = ref := fun same => absurd (same ▸ known) (Nat.not_lt.mpr ge)
    rw [settled, List.countP_cons_of_neg (by simpa using other)]
    exact inv.unscheduled ref ge
  · obtain rfl := Option.some.inj found
    exact i ▸ there

theorem map_set_afterPost {α : Type*} {f : Processor → α} (same : ∀ p, f p.afterPost = f p)
    {processors : List Processor}
    {ref : ℕ} {p : Processor} (found : processors[ref]? = some p) (k : ℕ) :
    ((processors.set ref p.afterPost)[k]?).map f = (processors[k]?).map f := by
  rw [List.getElem?_set]
  split
  · rename_i here
    subst here
    rw [if_pos (List.getElem?_eq_some_iff.mp found).1, found, Option.map_some, Option.map_some, same]
  · rfl

theorem Inv.reads (inv : Inv u) {ref : ℕ} {p : Processor} (found : u.processors[ref]? = some p) :
    Inv { u with processors := u.processors.set ref p.afterPost } := by
  have length : (u.processors.set ref p.afterPost).length = u.processors.length := List.length_set
  refine ⟨⟨fun k lt => inv.accounted.once k (length ▸ lt), fun k backlog there k' member => ?_,
    fun k files member => ?_, inv.accounted.size⟩, fun k ge => inv.unscheduled k (length ▸ ge), inv.walking⟩
  · rw [map_set_afterPost (fun _ => rfl) found]
    exact inv.accounted.own k backlog there k' member
  · rw [map_set_afterPost complete_afterPost found]
    exact inv.accounted.complete k files member

theorem Inv.enters (inv : Inv u) (idle : u.walk = none) (i : ℕ) (wait : ℚ) : Inv { u with walk := u.enter i wait } := by
  have same : { u with walk := u.enter i wait }.backlogs = u.backlogs := by
    rw [backlogs_enter, Uploader.backlogs, idle]
  refine ⟨⟨?_, ?_, inv.accounted.complete, inv.accounted.size⟩, inv.unscheduled, fun w => walking_enter⟩
  · rw [same]
    exact inv.accounted.once
  · rw [same]
    exact inv.accounted.own

theorem Inv.leaves (inv : Inv u) {w : Walk} (walk : u.walk = some w) (rest : w.rest = []) {old : List ℕ}
    (found : u.uploadBacklog[u.index w.i]? = some old) :
    Inv { u with
      backlogSize := u.backlogSize - (old.length - w.newBacklog.length)
      uploadBacklog := u.uploadBacklog.set (u.index w.i) w.newBacklog
      walk := none } := by
  have same : u.backlogs = u.uploadBacklog.set (u.index w.i) w.newBacklog := by
    rw [Uploader.backlogs, walk]
    show u.uploadBacklog.set _ w.pending = _
    rw [Walk.pending, rest, List.tail_nil, ite_self, List.append_nil]
  refine ⟨⟨?_, ?_, inv.accounted.complete, ?_⟩, inv.unscheduled, fun w found => by cases found⟩
  · show ∀ ref < u.processors.length, (u.uploadBacklog.set (u.index w.i) w.newBacklog).flatten.count ref + _ = 1
    rw [← same]
    exact inv.accounted.once
  · show ∀ k backlog, (u.uploadBacklog.set (u.index w.i) w.newBacklog)[k]? = some backlog → _
    rw [← same]
    exact inv.accounted.own
  · have length := length_flatten_set found w.newBacklog
    have size := inv.accounted.size
    show u.backlogSize - _ = ((u.uploadBacklog.set (u.index w.i) w.newBacklog).flatten.length : ℤ)
    omega

theorem Inv.absent (inv : Inv u) : u.processors.length ∉ u.backlogs.flatten := by
  intro member
  obtain ⟨backlog, there, member⟩ := List.mem_flatten.mp member
  obtain ⟨k, found⟩ := List.mem_iff_getElem?.mp there
  obtain ⟨p, known, -⟩ := Option.map_eq_some_iff.mp (inv.accounted.own k backlog found _ member)
  exact lt_irrefl _ (List.getElem?_eq_some_iff.mp known).1

theorem map_append_of_some {α : Type*} {f : Processor → α} {processors : List Processor} {ref : ℕ} {a : α}
    (there : (processors[ref]?).map f = some a) (p : Processor) : ((processors ++ [p])[ref]?).map f = some a := by
  obtain ⟨q, found, rfl⟩ := Option.map_eq_some_iff.mp there
  rw [List.getElem?_append_left (List.getElem?_eq_some_iff.mp found).1, found]
  rfl

theorem Inv.schedules (inv : Inv u) (idle : u.walk = none) {peer : ℕ} {deadline : Option ℚ}
    {files : List (Text × Bytes)}
    (ok : scheduleUpload u peer deadline files = some u') : Inv u' := by
  obtain ⟨backlog, found, rfl⟩ := Option.map_eq_some_iff.mp ok
  have before : u.backlogs = u.uploadBacklog := by rw [Uploader.backlogs, idle]
  refine ⟨⟨fun ref lt => ?_, fun k backlog' there ref member => ?_, fun ref files' member =>
    map_append_of_some (inv.accounted.complete ref files' member) _, ?_⟩, fun ref ge => inv.unscheduled ref ?_,
    fun w there => ?_⟩
  · have count := count_flatten_set found (backlog ++ [u.processors.length]) ref
    rw [List.count_append, ← before] at count
    rw [Uploader.backlogs, idle]
    show (u.uploadBacklog.set peer (backlog ++ [u.processors.length])).flatten.count ref + settled ref u.log = 1
    rw [List.length_append, List.length_singleton] at lt
    by_cases old : ref < u.processors.length
    · have once := inv.accounted.once ref old
      have other : [u.processors.length].count ref = 0 := List.count_eq_zero.mpr fun member => by
        rw [List.mem_singleton.mp member] at old
        exact lt_irrefl _ old
      rw [← before]
      omega
    · obtain rfl : ref = u.processors.length := by omega
      have zero := List.count_eq_zero.mpr inv.absent
      have new := inv.unscheduled _ le_rfl
      rw [List.count_singleton_self] at count
      rw [← before]
      omega
  · have there' : (u.uploadBacklog.set peer (backlog ++ [u.processors.length]))[k]? = some backlog' := by
      rw [← there, Uploader.backlogs, idle]
    rw [List.getElem?_set] at there'
    split at there'
    · rename_i here
      subst here
      rw [if_pos (List.getElem?_eq_some_iff.mp found).1] at there'
      obtain rfl := Option.some.inj there'
      cases List.mem_append.mp member with
      | inl old => exact map_append_of_some (inv.accounted.own peer backlog (before ▸ found) ref old) _
      | inr new =>
        rw [List.mem_singleton.mp new, List.getElem?_append_right le_rfl, Nat.sub_self]
        rfl
    · exact map_append_of_some (inv.accounted.own k backlog' (before ▸ there') ref member) _
  · have length := length_flatten_set found (backlog ++ [u.processors.length])
    have size := inv.accounted.size
    rw [List.length_append, List.length_singleton] at length
    show u.backlogSize + 1 = ((u.uploadBacklog.set peer (backlog ++ [u.processors.length])).flatten.length : ℤ)
    omega
  · rw [List.length_append] at ge
    omega
  · rw [idle] at there
    cases there

theorem Inv.posts (inv : Inv u) {i : ℕ} {ref : ℕ} {rest newBacklog : List ℕ} {wait waitingSince : ℚ} {p : Processor}
    (walk : u.walk = some ⟨i, ref :: rest, newBacklog, wait, .post waitingSince⟩) (found : u.processors[ref]? = some p)
    {outcome : Outcome} (clean : Undisturbed u (.post outcome)) :
    Inv { u with
      processors := u.processors.set ref p.afterPost
      walk := some (if outcome = .accepted then ⟨i, ref :: rest, newBacklog, wait, .accepted⟩
        else Walk.failed settings ⟨i, ref :: rest, newBacklog, wait, .post waitingSince⟩ ref rest waitingSince)
      log := if outcome = .refused then u.log else .accepted ref p.sent :: u.log } := by
  cases outcome with
  | lost => exact absurd rfl clean.1
  | refused =>
    refine (inv.reads found).walks walk ?_ ?_
    · rw [if_neg (fun same => by cases same), Walk.failed]
      split <;> rfl
    · rw [if_neg (fun same => by cases same), Walk.failed]
      split
      · exact List.append_assoc newBacklog [ref] rest
      · rfl
  | accepted =>
    have sent := sent_of_unread (clean.2 rfl _ ref rest p walk rfl found)
    refine (inv.reads found).settles walk rfl ?_ fun ref' files same => ?_
    · exact List.perm_middle
    · cases same
      rw [map_set_afterPost complete_afterPost found, found, sent]
      rfl

theorem Inv.step (inv : Inv u) (clean : Undisturbed u m) (ok : step settings u m = some u') : Inv u' := by
  unfold ResultUploader.step at ok
  split at ok
  · rename_i walk
    exact inv.schedules walk ok
  · rename_i walk
    split at ok
    · cases ok
      exact inv
    · cases ok
      exact inv.enters walk 0 _
  · rename_i i ref rest newBacklog wait now walk
    split at ok
    · cases ok
      exact inv.settles walk rfl List.perm_middle fun _ _ same => (by cases same)
    · cases ok
      exact inv.walks walk rfl rfl
  · rename_i i ref rest newBacklog wait waitingSince outcome walk
    obtain ⟨p, found, rfl⟩ := Option.map_eq_some_iff.mp ok
    exact inv.posts walk found clean
  · rename_i i ref rest newBacklog wait now walk
    rw [clean _ ref rest walk rfl rfl] at ok
    cases ok
    exact inv.walks walk rfl rfl
  · rename_i i newBacklog wait walk
    obtain ⟨old, found, rfl⟩ := Option.map_eq_some_iff.mp ok
    exact (inv.leaves walk rfl found).enters rfl (i + 1) wait
  · cases ok

theorem accounted (settings : Settings) (servers : ℕ) (u : Uploader)
    (run : Relation.ReflTransGen (fun u u' => ∃ m, Undisturbed u m ∧ step settings u m = some u') (.new servers) u) :
    Accounted u := by
  have first : Inv (.new servers) := by
    refine ⟨⟨fun ref lt => (by cases lt), fun k backlog found ref member => ?_, fun ref files member =>
      (by cases member), ?_⟩,
      fun _ _ => rfl, fun w found => (by cases found)⟩
    · have there := List.mem_replicate.mp (List.mem_of_getElem? found)
      rw [there.2] at member
      cases member
    · show (0 : ℤ) = ((List.replicate servers ([] : List ℕ)).flatten.length : ℤ)
      rw [List.flatten_replicate_nil]
      rfl
  exact (invariant_of_run Inv (fun u u' inv ⟨m, clean, ok⟩ => inv.step clean ok) first run).accounted

def tenSeconds : Settings := ⟨10, none⟩

def oneFile : List (Text × Bytes) := [("c59.out".toList, [1, 2])]

def oneResult (position : ℕ) : Processor := ⟨0, none, [("c59.out".toList, ⟨[1, 2], position⟩)]⟩

def oneWalk (position : ℕ) (rest : List ℕ) (wait : ℚ) (stage : Stage) (log : List Event) : Uploader :=
  ⟨[oneResult position], [[0]], 1, 0, some ⟨0, rest, [], wait, stage⟩, log⟩

theorem accounted_one : ∃ u, Relation.ReflTransGen (fun u u' => ∃ m, Undisturbed u m ∧ step tenSeconds u m = some u')
    (.new 1) u ∧ u.log = [.accepted 0 oneFile] ∧ Accounted u := by
  have run : Relation.ReflTransGen (fun u u' => ∃ m, Undisturbed u m ∧ step tenSeconds u m = some u')
    (.new 1) (.new 1) := .refl
  replace run := run.tail (c := ⟨[oneResult 0], [[0]], 1, 0, none, []⟩)
    ⟨.scheduleUpload 0 none oneFile, trivial, by decide +kernel⟩
  replace run := run.tail (c := oneWalk 0 [0] (5 / 8) .test []) ⟨.processUploads, trivial, by decide +kernel⟩
  replace run := run.tail (c := oneWalk 0 [0] (5 / 8) (.post 0) []) ⟨.isStale 0, (by
    rintro w ref rest walk accepted -
    cases walk
    cases accepted), by decide +kernel⟩
  replace run := run.tail (c := oneWalk 2 [0] (5 / 8) .accepted [.accepted 0 oneFile]) ⟨.post .accepted,
    ⟨fun same => (by cases same), by
      rintro - w ref rest p walk here found f member
      cases walk
      cases here
      cases found
      obtain rfl := List.mem_singleton.mp member
      exact .inl rfl⟩, by decide +kernel⟩
  replace run := run.tail (c := oneWalk 2 [] (5 / 8) .test [.accepted 0 oneFile]) ⟨.isStale 1, (by
    rintro w ref rest walk - here
    cases walk
    cases here
    rfl), by decide +kernel⟩
  replace run := run.tail (c := ⟨[oneResult 2], [[]], 0, 0, none, [.accepted 0 oneFile]⟩)
    ⟨.next, trivial, by decide +kernel⟩
  exact ⟨_, run, rfl, accounted tenSeconds 1 _ run⟩

theorem run_of_foldlM {moves : List Move} (ok : moves.foldlM (step settings) u = some u') :
    Relation.ReflTransGen (fun u u' => ∃ m, step settings u m = some u') u u' := by
  induction moves generalizing u with
  | nil =>
    cases ok
    exact .refl
  | cons m moves ih =>
    rw [List.foldlM_cons] at ok
    obtain ⟨next, here, rest⟩ := Option.bind_eq_some_iff.mp ok
    exact .head ⟨m, here⟩ (ih rest)

theorem sent_empty : ∃ u, Relation.ReflTransGen (fun u u' => ∃ m, step tenSeconds u m = some u') (.new 1) u ∧
    u.walk = none ∧ u.backlogSize = 0 ∧ u.log = [.accepted 0 [("c59.out".toList, [])]] ∧ ¬ Accounted u := by
  have ran : [Move.scheduleUpload 0 none oneFile, .processUploads, .isStale 0, .post .refused, .post .accepted,
      .isStale 1, .next].foldlM (step tenSeconds) (.new 1) =
        some ⟨[oneResult 2], [[]], 0, 0, none, [.accepted 0 [("c59.out".toList, [])]]⟩ := by decide +kernel
  refine ⟨_, run_of_foldlM ran, rfl, rfl, rfl, fun accounted => ?_⟩
  have complete := accounted.complete 0 _ (.head _)
  cases complete

end CadoNfs.Cadofactor.ResultUploader
