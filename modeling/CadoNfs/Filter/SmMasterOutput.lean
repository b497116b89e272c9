import CadoNfs.Filter.SmMaster

/-!
# What the master writes

The relations come out in the order of the input.
-/

namespace CadoNfs.Filter.SmAppend
open Lib Utils.FilterIo

namespace MasterEnv

variable {env : MasterEnv} {n : ℕ} {s s' : Master n} {made : Produced} {peer : Downlink n} {later : List (Downlink n)}
  {all read written more : List Text} {line : Text}

structure Sound (env : MasterEnv) (peer : Downlink n) : Prop where
  batch : peer.batch = peer.rels.map pairOf
  rels_le : peer.rels.length ≤ env.batchSize
  known : ∀ r ∈ peer.rels, cur r ≠ '#' ∧ (abPair r).isSome
  clean : ∀ r ∈ peer.rels, '\n' ∉ r

structure Manned (env : MasterEnv) (s : Master n) : Prop where
  count : s.visited.length + s.toVisit.length = n
  sound : ∀ peer ∈ s.toVisit ++ s.visited, Sound env peer
  consumed : s.consumed = true → ∃ peer later, s.toVisit = peer :: later ∧ peer.rels = [] ∧
    (s.eof = 0 → s.turn ≠ 0 → ∀ other ∈ later, other.rels.length = env.batchSize)
  waiting : s.consumed = false → s.eof = 0 → s.turn ≠ 0 → ∀ peer ∈ s.toVisit, peer.rels.length = env.batchSize
  fresh : s.turn = 0 → ∀ peer ∈ s.toVisit, peer.rels = []
  visited : s.eof = 0 → ∀ peer ∈ s.visited, peer.rels.length = env.batchSize
  ending : s.eof = 2 → ∀ peer ∈ s.visited, peer.rels = []
  ended : 2 < s.eof → ∀ peer ∈ s.toVisit ++ s.visited, peer.rels = []

theorem Sound.rels_eq_nil (sound : Sound env peer) (idle : peer.batch = []) : peer.rels = [] := by
  rw [sound.batch] at idle
  exact List.map_eq_nil_iff.mp idle

theorem sound_nil (id : Fin n) : Sound env ⟨id, [], []⟩ := ⟨rfl, Nat.zero_le _, by simp, by simp⟩

theorem manned_start (env : MasterEnv) (inp : Text) : Manned env (start n inp) where
  count := by simp [start]
  sound := by
    intro peer member
    simp only [start, List.append_nil, List.mem_map] at member
    obtain ⟨id, -, rfl⟩ := member
    exact sound_nil id
  consumed := fun consumed => by cases consumed
  waiting := fun _ _ after => absurd rfl after
  fresh := by simp [start]
  visited := by simp [start]
  ending := fun two => by cases two
  ended := fun beyond => absurd beyond (Nat.not_lt_zero _)

theorem Manned.head (manned : Manned env s) (at_ : s.toVisit = peer :: later) : Sound env peer :=
  manned.sound peer (by simp [at_])

theorem Manned.consumed_head (manned : Manned env s) (at_ : s.toVisit = peer :: later) (consumed : s.consumed = true) :
    peer.rels = [] ∧ (s.eof = 0 → s.turn ≠ 0 → ∀ other ∈ later, other.rels.length = env.batchSize) := by
  obtain ⟨peer', later', at', rest⟩ := manned.consumed consumed
  obtain ⟨rfl, rfl⟩ := List.cons.inj (at_.symm.trans at')
  exact rest

theorem Manned.rotate (manned : Manned env s) (at_ : s.toVisit = peer :: later) :
    (s.visited ++ [peer]).length + later.length = n ∧ ∀ other ∈ later ++ (s.visited ++ [peer]), Sound env other := by
  have count := manned.count
  have sound := manned.sound
  rw [at_] at count sound
  constructor
  · simp only [List.length_append, List.length_cons, List.length_nil] at count ⊢
    omega
  · intro other member
    apply sound
    simp only [List.mem_append, List.mem_cons, List.not_mem_nil, or_false] at member ⊢
    tauto

theorem Manned.own (manned : Manned env s) (step : Own s s') : Manned env s' := by
  cases step with
  | nextTurn le ended =>
    refine ⟨?_, ?_, fun consumed => ?_, fun _ goes _ => ?_, fun zero => ?_, by simp, by simp, fun beyond => ?_⟩
    · have count := manned.count
      rw [ended] at count
      simpa using count
    · have sound := manned.sound
      rw [ended] at sound
      simpa using sound
    · obtain ⟨peer, later, at_, -⟩ := manned.consumed consumed
      exact absurd (ended.symm.trans at_) (by simp)
    · apply manned.visited
      by_contra ends
      rw [if_neg ends] at goes
      cases goes
    · cases zero
    · have two : s.eof = 2 := by
        dsimp only at beyond
        split at beyond
        · omega
        · omega
      simpa using manned.ending two
  | @skip peer later le at_ arrives ends after idle =>
    have none := (manned.head at_).rels_eq_nil idle
    refine ⟨?_, ?_, fun consumed => ?_, fun _ goes => absurd goes ends, fun zero => absurd zero after,
      fun goes => absurd goes ends, fun two => ?_, fun beyond => by dsimp only at beyond; omega⟩
    · exact (manned.rotate at_).1
    · exact (manned.rotate at_).2
    · exact absurd (arrives.symm.trans consumed) (by simp)
    · rw [List.forall_mem_append, List.forall_mem_singleton]
      exact ⟨manned.ending two, none⟩
  | @first peer later le at_ arrives zero =>
    have fresh := manned.fresh zero
    rw [at_, List.forall_mem_cons] at fresh
    exact ⟨manned.count, manned.sound, fun _ => ⟨peer, later, at_, fresh.1, fun _ after => absurd zero after⟩,
      fun consumed => (by cases consumed), manned.fresh, manned.visited, manned.ending, manned.ended⟩

theorem Manned.step (manned : Manned env s) (visit : env.Visit s s') : Manned env s' := by
  cases visit with
  | own step => exact manned.own step
  | @collect peer later le at_ arrives after busy sendable =>
    refine ⟨?_, ?_, fun _ => ⟨_, later, rfl, rfl, fun goes _ => ?_⟩, fun consumed => (by cases consumed),
      fun zero => absurd zero after, manned.visited, manned.ending, fun beyond => by dsimp only at beyond; omega⟩
    · have count := manned.count
      rwa [at_] at count
    · have sound := manned.sound
      rw [at_, List.cons_append, List.forall_mem_cons] at sound
      exact List.forall_mem_cons.mpr ⟨sound_nil peer.id, sound.2⟩
    · have full := manned.waiting arrives goes after
      rw [at_, List.forall_mem_cons] at full
      exact full.2
  | @finish peer later le at_ consumed ends =>
    obtain ⟨none, -⟩ := manned.consumed_head at_ consumed
    refine ⟨?_, ?_, fun consumed => (by cases consumed), fun _ goes => absurd goes ends, fun zero => ?_,
      fun goes => absurd goes ends, fun two => ?_, fun beyond => by dsimp only at beyond; omega⟩
    · exact (manned.rotate at_).1
    · exact (manned.rotate at_).2
    · have fresh := manned.fresh zero
      rw [at_, List.forall_mem_cons] at fresh
      exact fresh.2
    · rw [List.forall_mem_append, List.forall_mem_singleton]
      exact ⟨manned.ending two, none⟩
  | @produce peer later made at_ consumed goes produced sendable =>
    obtain ⟨none, full⟩ := manned.consumed_head at_ consumed
    obtain ⟨more, reads, rels, batch, -⟩ := produces produced (Nat.zero_le _)
    rw [List.nil_append] at rels batch
    have fits : made.rels.length ≤ env.batchSize := by
      have ended := reads.ended
      have filled := reads.full
      rw [rels]
      cases eof : made.eof with
      | true =>
        have less := (ended eof).2
        omega
      | false =>
        have eq := filled eof
        rw [List.length_nil] at eq
        omega
    have sound : Sound env ⟨peer.id, made.batch, made.rels⟩ := by
      refine ⟨by rw [batch, rels], fits, fun r member => ?_, fun r member => ?_⟩
      · dsimp only at member
        rw [rels, mem_relationsOf] at member
        exact ⟨member.2, (reads.known r member.1).resolve_left member.2⟩
      · dsimp only at member
        rw [rels, mem_relationsOf] at member
        exact reads.clean r member.1
    refine ⟨?_, ?_, fun consumed => (by cases consumed), fun _ goes' after => ?_, fun zero => ?_, fun goes' => ?_,
      fun two => ?_, fun beyond => ?_⟩
    · simpa using (manned.rotate at_).1
    · have sounds := manned.sound
      rw [at_, List.cons_append, List.forall_mem_cons, List.forall_mem_append] at sounds
      rw [← List.append_assoc, List.forall_mem_append, List.forall_mem_append, List.forall_mem_singleton]
      exact ⟨sounds.2, sound⟩
    · exact full goes after
    · have fresh := manned.fresh zero
      rw [at_, List.forall_mem_cons] at fresh
      exact fresh.2
    · have running : made.eof = false := by
        cases eof : made.eof with
        | true => simp [eof] at goes'
        | false => rfl
      rw [List.forall_mem_append, List.forall_mem_singleton]
      refine ⟨manned.visited goes, ?_⟩
      have eq := reads.full running
      rw [List.length_nil] at eq
      dsimp only
      rw [rels]
      omega
    · dsimp only at two
      split at two <;> cases two
    · dsimp only at beyond
      split at beyond <;> omega

theorem append_eq_append_cons {α : Type*} {read more before after : List α} {c : α}
    (eq : read ++ more = before ++ c :: after) :
    (∃ before', before = read ++ before' ∧ more = before' ++ c :: after) ∨ ∃ after', read = before ++ c :: after' := by
  obtain ⟨before', rfl, eq'⟩ | ⟨after', rfl, eq'⟩ := List.append_eq_append_iff.mp eq
  · exact .inl ⟨before', rfl, eq'⟩
  · cases after' with
    | nil => exact .inl ⟨[], by simp, eq'.symm⟩
    | cons d after' =>
      obtain ⟨rfl, -⟩ := List.cons.inj eq'
      exact .inr ⟨after', rfl⟩

def Aligned (n batchSize : ℕ) (lines : List Text) : Prop :=
  ∀ before c after, lines = before ++ c :: after → cur c = '#' →
    relationsOf before = [] ∨ n = 1 ∧ batchSize ∣ (relationsOf before).length

def outLine (env : MasterEnv) (line : Text) : Text := if cur line = '#' then line else env.withMaps line

def pending (s : Master n) : List Text := (s.toVisit ++ s.visited).flatMap Downlink.rels

theorem cur_append (some : line ≠ []) (t : Text) : cur (line ++ t) = cur line := by
  cases line with
  | nil => exact absurd rfl some
  | cons c line => rfl

theorem ne_nil_of_isSome (parsed : (abPair line).isSome) : line ≠ [] := by
  rintro rfl
  cases parsed

theorem cur_withMaps (known : Known line) (relation : cur line ≠ '#') : cur (env.withMaps line) ≠ '#' := by
  rwa [withMaps, cur_append (ne_nil_of_isSome (known.resolve_left relation))]

theorem isComment_outLine (known : Known line) : isComment (env.outLine line) = isComment line := by
  by_cases comment : cur line = '#'
  · rw [outLine, if_pos comment]
  · have relation := @cur_withMaps env line known comment
    rw [outLine, if_neg comment]
    simp [isComment, relation, comment]

theorem map_isComment_outLine (known : ∀ l ∈ all, Known l) :
    (all.map env.outLine).map isComment = all.map isComment := by
  rw [List.map_map]
  exact List.map_congr_left fun l member => isComment_outLine (known l member)

theorem relationsOf_withMaps (known : ∀ l ∈ all, cur l ≠ '#' ∧ (abPair l).isSome) :
    relationsOf (all.map env.withMaps) = all.map env.withMaps := by
  rw [relationsOf, List.filter_eq_self, List.forall_mem_map]
  intro l member
  simpa using cur_withMaps (.inr (known l member).2) (known l member).1

theorem relationsOf_commentsOf : relationsOf (commentsOf all) = [] := by
  simp [relationsOf, commentsOf]

theorem map_outLine_comments : (commentsOf all).map env.outLine = commentsOf all := by
  conv_rhs => rw [← List.map_id (commentsOf all)]
  refine List.map_congr_left fun l member => if_pos ?_
  simpa [commentsOf] using (List.mem_filter.mp member).2

theorem map_outLine_relations : (relationsOf all).map env.outLine = (relationsOf all).map env.withMaps :=
  List.map_congr_left fun _ member => if_neg (mem_relationsOf.mp member).2

theorem length_compute (a : ℤ) (b : ℕ) : (compute env.smInfo a b).length = env.nsmTotal := by
  simp [compute, nsmTotal, List.length_flatMap]

theorem consume_eq (known : ∀ l ∈ all, cur l ≠ '#' ∧ (abPair l).isSome) :
    env.consume all ((all.map pairOf).flatMap fun ab => compute env.smInfo ab.1 ab.2) =
      join (all.map env.withMaps) := by
  induction all with
  | nil => rfl
  | cons r all ih =>
    rw [List.forall_mem_cons] at known
    obtain ⟨ab, parsed⟩ := Option.isSome_iff_exists.mp known.1.2
    have pair : pairOf r = ab := by rw [pairOf, parsed]; rfl
    have maps : env.withMaps r = r ++ consumeText false (compute env.smInfo ab.1 ab.2) := by rw [withMaps, parsed]; rfl
    have length := @length_compute env ab.1 ab.2
    rw [List.map_cons, List.flatMap_cons, consume, List.map_cons, pair, ← length, List.take_left, List.drop_left,
      ih known.2, maps]
    simp [join]

def most (env : MasterEnv) (all : List Text) : ℕ := min env.batchSize (relationsOf all).length

def answerSize (env : MasterEnv) (k : ℕ) : ℕ := k * env.nsmTotal * env.limbs * 8

theorem newline_not_mem_withMaps (clean : '\n' ∉ line) : '\n' ∉ env.withMaps line := by
  rw [withMaps, List.mem_append, not_or]
  exact ⟨clean, newline_not_mem_consumeText _ _⟩

structure Recorded (env : MasterEnv) (all : List Text) (s : Master n) (read written : List Text) : Prop where
  text : all = read ++ buffers s.inp
  known : ∀ l ∈ read, Known l
  out : s.out = join written
  rows : relationsOf written ++ (pending s).map env.withMaps = (relationsOf read).map env.withMaps
  aligned : Aligned n env.batchSize read → written ++ (pending s).map env.withMaps = read.map env.outLine
  faithful : written.map isComment <+: all.map isComment → Aligned n env.batchSize read
  unwritten : s.turn = 0 → relationsOf written = []
  multiple : s.eof = 0 → env.batchSize ∣ (relationsOf read).length
  ended : s.eof ≠ 0 → buffers s.inp = []
  posted : read = [] ∨ Sendable (env.most all * 16)
  answered : read = [] ∨ Sendable (env.answerSize (env.most all)) ∨
    ∃ peer ∈ s.toVisit ++ s.visited, peer.rels.length = env.most all ∧ peer.rels ≠ []
  clean : ∀ l ∈ written, '\n' ∉ l

theorem aligned_nil (n batchSize : ℕ) : Aligned n batchSize [] := by
  intro before c after eq
  simp at eq

theorem Aligned.left {batchSize : ℕ} (aligned : Aligned n batchSize (read ++ more)) : Aligned n batchSize read := by
  intro before c after eq
  exact aligned before c (after ++ more) (by rw [eq]; simp)

theorem pending_start (inp : Text) : pending (start n inp) = [] := by
  simp [pending, start]

theorem recorded_start (env : MasterEnv) (inp : Text) : Recorded env (buffers inp) (start n inp) [] [] where
  text := rfl
  known := by simp
  out := rfl
  rows := by simp [pending_start, relationsOf]
  aligned := fun _ => by simp [pending_start]
  faithful := fun _ => aligned_nil _ _
  unwritten := fun _ => rfl
  multiple := fun _ => by simp [relationsOf]
  ended := fun ended => absurd rfl ended
  posted := .inl rfl
  answered := .inl rfl
  clean := by simp

theorem Recorded.own (recorded : Recorded env all s read written) (manned : Manned env s) (step : Own s s') :
    Recorded env all s' read written := by
  have same : pending s' = pending s := by
    cases step with
    | nextTurn le ended => simp [pending, ended]
    | skip le at_ arrives ends after idle =>
      have none := (manned.head at_).rels_eq_nil idle
      simp [pending, at_, none]
    | first => rfl
  have members (peer : Downlink n) (member : peer ∈ s.toVisit ++ s.visited) : peer ∈ s'.toVisit ++ s'.visited := by
    cases step with
    | nextTurn le ended =>
      rw [ended] at member
      simpa using member
    | skip le at_ =>
      rw [at_] at member
      simp only [List.mem_append, List.mem_cons, List.not_mem_nil, or_false] at member ⊢
      tauto
    | first => exact member
  refine ⟨?_, recorded.known, ?_, same ▸ recorded.rows, same ▸ recorded.aligned, recorded.faithful,
    fun zero => ?_, fun goes => ?_,
    fun ends => ?_, recorded.posted,
      recorded.answered.imp_right (Or.imp_right (Exists.imp fun peer => And.imp_left (members peer))),
    recorded.clean⟩
  · cases step <;> exact recorded.text
  · cases step <;> exact recorded.out
  · cases step with
    | nextTurn => cases zero
    | skip le at_ arrives ends after => exact absurd zero after
    | first le at_ arrives zero => exact recorded.unwritten zero
  · apply recorded.multiple
    cases step with
    | nextTurn =>
      by_contra ends
      dsimp only at goes
      rw [if_neg ends] at goes
      cases goes
    | skip => exact goes
    | first => exact goes
  · cases step with
    | nextTurn =>
      apply recorded.ended
      rintro zero
      exact ends (if_pos zero)
    | skip => exact recorded.ended ends
    | first => exact recorded.ended ends

theorem Recorded.pending_eq_nil (recorded : Recorded env all s read written) (none : relationsOf read = []) :
    pending s = [] := by
  have rows := recorded.rows
  rw [none, List.map_nil, List.append_eq_nil_iff, List.map_eq_nil_iff] at rows
  exact rows.2

theorem Recorded.alone (recorded : Recorded env all s read written) (manned : Manned env s) (pos : 0 < env.batchSize)
    (at_ : s.toVisit = peer :: later) (consumed : s.consumed = true) (goes : s.eof = 0) (none : pending s = []) :
    n = 1 ∨ relationsOf read = [] := by
  obtain ⟨-, full⟩ := manned.consumed_head at_ consumed
  rw [pending, at_, List.flatMap_eq_nil_iff] at none
  have visited : s.visited = [] := by
    rw [List.eq_nil_iff_forall_not_mem]
    intro other member
    have length := manned.visited goes other member
    rw [none other (by simp [member]), List.length_nil] at length
    omega
  by_cases zero : s.turn = 0
  · have rows := recorded.rows
    have empty : pending s = [] := by rwa [pending, at_, List.flatMap_eq_nil_iff]
    rw [recorded.unwritten zero, empty, List.map_nil, List.append_nil] at rows
    exact .inr (List.map_eq_nil_iff.mp rows.symm)
  · have last : later = [] := by
      rw [List.eq_nil_iff_forall_not_mem]
      intro other member
      have length := full goes zero other member
      rw [none other (by simp [member]), List.length_nil] at length
      omega
    have count := manned.count
    rw [visited, at_, last] at count
    exact .inl count.symm

theorem pending_eq_nil_of_alone (manned : Manned env s) (at_ : s.toVisit = peer :: later) (consumed : s.consumed = true)
    (alone : n = 1) : pending s = [] := by
  obtain ⟨none, -⟩ := manned.consumed_head at_ consumed
  have count := manned.count
  rw [at_, List.length_cons] at count
  have visited : s.visited = [] := List.length_eq_zero_iff.mp (by omega)
  have last : later = [] := List.length_eq_zero_iff.mp (by omega)
  simp [pending, at_, visited, last, none]

section

variable (recorded : Recorded env all s read written) (manned : Manned env s) (at_ : s.toVisit = peer :: later)
  (consumed : s.consumed = true) (goes : s.eof = 0)

include recorded manned at_ consumed goes

theorem Recorded.produce_aligned (reads : Produces env 0 s.inp made more)
    (aligned : Aligned n env.batchSize (read ++ more)) :
    written ++ commentsOf more ++ (pending s ++ relationsOf more).map env.withMaps =
      (read ++ more).map env.outLine := by
  have earlier := recorded.aligned aligned.left
  have first : CommentsFirst more := by
    intro before c after eq comment
    have place := aligned (read ++ before) c after (by rw [eq, List.append_assoc]) comment
    rw [relationsOf_append] at place
    rcases place with none | ⟨-, multiple⟩
    · exact (List.append_eq_nil_iff.mp none).2
    · rw [List.length_append] at multiple
      have divides := (Nat.dvd_add_right (recorded.multiple goes)).mp multiple
      have room := reads.room before c after eq
      rw [Nat.zero_add] at room
      exact List.length_eq_zero_iff.mp (Nat.eq_zero_of_dvd_of_lt divides room)
  have here : more.map env.outLine = commentsOf more ++ (relationsOf more).map env.withMaps := by
    conv_lhs => rw [first.eq]
    rw [List.map_append, map_outLine_comments, map_outLine_relations]
  rw [List.map_append, List.map_append, here, ← earlier]
  by_cases comments : commentsOf more = []
  · simp [comments]
  · have idle : pending s = [] := by
      obtain ⟨c, member⟩ := List.exists_mem_of_ne_nil _ comments
      obtain ⟨inside, comment⟩ := List.mem_filter.mp member
      obtain ⟨before, after, eq⟩ := List.append_of_mem inside
      rcases aligned (read ++ before) c after (by rw [eq, List.append_assoc])
        (by simpa using comment) with none | ⟨alone, -⟩
      · rw [relationsOf_append] at none
        exact recorded.pending_eq_nil (List.append_eq_nil_iff.mp none).1
      · exact pending_eq_nil_of_alone manned at_ consumed alone
    simp [idle]

theorem Recorded.produce_faithful (pos : 0 < env.batchSize) (text : all = read ++ more ++ buffers made.inp)
    (starts : (written ++ commentsOf more).map isComment <+: all.map isComment) :
      Aligned n env.batchSize (read ++ more) := by
  have earlier : Aligned n env.batchSize read := by
    apply recorded.faithful
    rw [List.map_append] at starts
    exact (List.prefix_append _ _).trans starts
  have pending_known : ∀ r ∈ pending s, cur r ≠ '#' ∧ (abPair r).isSome := by
    intro r member
    obtain ⟨peer, inside, r_mem⟩ := List.mem_flatMap.mp member
    exact (manned.sound peer inside).known r r_mem
  have kinds := @map_isComment_outLine env _ recorded.known
  rw [← recorded.aligned earlier, List.map_append] at kinds
  rw [text, List.append_assoc, List.map_append, List.map_append, ← kinds, List.append_assoc,
    List.prefix_append_right_inj,
    isComment_commentsOf, List.map_append] at starts
  intro before c after eq comment
  obtain ⟨before', rfl, eq'⟩ | ⟨after', eq'⟩ := append_eq_append_cons eq
  · have member : c ∈ commentsOf more := by simp [commentsOf, eq', comment]
    obtain ⟨k, length⟩ := Nat.exists_eq_succ_of_ne_zero (List.length_pos_of_mem member).ne'
    have idle : pending s = [] := by
      cases waits : pending s with
      | nil => rfl
      | cons r rest =>
        rw [waits] at pending_known
        have relation := @cur_withMaps env _ (.inr (pending_known r (by simp)).2) (pending_known r (by simp)).1
        rw [waits, length, List.replicate_succ, List.map_cons, List.map_cons, List.cons_append,
          List.cons_prefix_cons] at starts
        have kind := starts.1
        simp [isComment, relation] at kind
    rw [idle, List.map_nil, List.map_nil, List.nil_append] at starts
    have first := commentsFirst_of_prefix starts before' c after eq' comment
    rw [relationsOf_append, first, List.append_nil]
    rcases recorded.alone manned pos at_ consumed goes idle with alone | none
    · exact .inr ⟨alone, recorded.multiple goes⟩
    · exact .inl none
  · exact earlier before c after' eq' comment

end

section
variable (recorded : Recorded env all s read written) (manned : Manned env s) (at_ : s.toVisit = peer :: later)
include recorded manned at_

theorem Recorded.collect (after : s.turn ≠ 0) (sendable : Sendable (env.answerBytes peer.batch))
    (moved : s' = { s with
      toVisit := ⟨peer.id, [], []⟩ :: later, consumed := true
      out := s.out ++ env.consume peer.rels (peer.batch.flatMap fun ab => compute env.smInfo ab.1 ab.2) }) :
    ∃ read' written', Recorded env all s' read' written' := by
  have sound := manned.head at_
  have before : pending s = peer.rels ++ (later ++ s.visited).flatMap Downlink.rels := by simp [pending, at_]
  have answer := sound.batch ▸ @consume_eq env _ sound.known
  have rows := recorded.rows
  have aligned := recorded.aligned
  rw [before, List.map_append, ← List.append_assoc] at rows aligned
  have still : pending s' = (later ++ s.visited).flatMap Downlink.rels := by simp [moved, pending]
  subst moved
  refine ⟨read, written ++ peer.rels.map env.withMaps, recorded.text, recorded.known, ?_, ?_, ?_, fun starts => ?_,
    fun zero => absurd zero after, recorded.multiple, recorded.ended, recorded.posted, ?_, ?_⟩
  · dsimp only
    rw [answer, recorded.out, join_append]
  · rw [still, relationsOf_append, relationsOf_withMaps sound.known]
    exact rows
  · rw [still]
    exact aligned
  · apply recorded.faithful
    rw [List.map_append] at starts
    exact (List.prefix_append _ _).trans starts
  · rcases recorded.answered with none | sent | ⟨first, member, length, some⟩
    · exact .inl none
    · exact .inr (.inl sent)
    · rw [at_, List.cons_append, List.mem_cons] at member
      rcases member with rfl | member
      · have bytes : env.answerBytes first.batch = env.answerSize (env.most all) := by
          rw [answerBytes, answerSize, sound.batch, List.length_map, length]
        exact .inr (.inl (bytes ▸ sendable))
      · exact .inr (.inr ⟨first, List.mem_cons_of_mem _ member, length, some⟩)
  · rw [List.forall_mem_append, List.forall_mem_map]
    exact ⟨recorded.clean, fun r member => newline_not_mem_withMaps (sound.clean r member)⟩

theorem Recorded.finish (consumed : s.consumed = true)
    (moved : s' = { s with visited := s.visited ++ [peer], toVisit := later, consumed := false }) :
    ∃ read' written', Recorded env all s' read' written' := by
  obtain ⟨none, -⟩ := manned.consumed_head at_ consumed
  have same : pending s' = pending s := by simp [moved, pending, at_, none]
  subst moved
  exact ⟨read, written, recorded.text, recorded.known, recorded.out, same ▸ recorded.rows, same ▸ recorded.aligned,
    recorded.faithful, recorded.unwritten, recorded.multiple, recorded.ended, recorded.posted,
      recorded.answered.imp_right
      (Or.imp_right fun ⟨first, member, rest⟩ => ⟨first, by
        rw [at_] at member
        simp only [List.mem_append, List.mem_cons, List.not_mem_nil, or_false] at member ⊢
        tauto, rest⟩), recorded.clean⟩

theorem Recorded.produce (pos : 0 < env.batchSize) (consumed : s.consumed = true) (goes : s.eof = 0)
    (produced : env.produce (s.inp.length + 1) [] [] s.inp [] = some made) (sendable : Sendable (made.batch.length * 16))
    (moved : s' = { s with
      eof := if made.eof then 1 else 0, visited := s.visited ++ [⟨peer.id, made.batch, made.rels⟩]
      toVisit := later, consumed := false, inp := made.inp, out := s.out ++ made.out }) :
    ∃ read' written', Recorded env all s' read' written' := by
  obtain ⟨none, -⟩ := manned.consumed_head at_ consumed
  obtain ⟨more, reads, rels, batch, out⟩ := produces produced (Nat.zero_le _)
  rw [List.nil_append] at rels out
  have text : all = read ++ more ++ buffers made.inp := by rw [recorded.text, reads.text, List.append_assoc]
  have later_pending : pending s' = pending s ++ relationsOf more := by simp [moved, pending, at_, none, rels]
  subst moved
  have first (none : read = []) : (relationsOf more).length = env.most all := by
    rw [most, text, none, List.nil_append, relationsOf_append, List.length_append]
    cases eof : made.eof with
    | true =>
      obtain ⟨last, less⟩ := reads.ended eof
      rw [List.length_nil] at less
      rw [last]
      simp only [relationsOf, List.filter_nil, List.length_nil] at less ⊢
      omega
    | false =>
      have full := reads.full eof
      rw [List.length_nil] at full
      omega
  have batch_length : made.batch.length = (relationsOf more).length := by rw [batch, List.nil_append, List.length_map]
  refine ⟨read ++ more, written ++ commentsOf more, text, ?_, ?_, ?_, ?_, ?_,
    fun zero => ?_, fun goes' => ?_, fun ends => ?_,
    ?_, ?_, ?_⟩
  · exact List.forall_mem_append.mpr ⟨recorded.known, reads.known⟩
  · dsimp only
    rw [out, recorded.out, join_append]
  · rw [later_pending, relationsOf_append, relationsOf_commentsOf, List.append_nil, List.map_append,
      ← List.append_assoc,
      recorded.rows, relationsOf_append, List.map_append]
  · rw [later_pending]
    exact recorded.produce_aligned manned at_ consumed goes reads
  · exact recorded.produce_faithful manned at_ consumed goes pos text
  · rw [relationsOf_append, relationsOf_commentsOf, List.append_nil]
    exact recorded.unwritten zero
  · have running : made.eof = false := by
      cases eof : made.eof with
      | true => simp [eof] at goes'
      | false => rfl
    have full := reads.full running
    rw [List.length_nil, Nat.zero_add] at full
    rw [relationsOf_append, List.length_append, full]
    exact (Nat.dvd_add_left dvd_rfl).mpr (recorded.multiple goes)
  · have ended : made.eof = true := by
      by_contra running
      exact ends (if_neg running)
    exact (reads.ended ended).1
  · by_cases nothing : read = []
    · rw [← first nothing, ← batch_length]
      exact .inr sendable
    · exact .inr (recorded.posted.resolve_left nothing)
  · by_cases nothing : read = []
    · by_cases empty : relationsOf more = []
      · rw [← first nothing, empty]
        exact .inr (.inl (by simp [answerSize, Sendable]))
      · exact .inr (.inr ⟨⟨peer.id, made.batch, made.rels⟩, by simp, by rw [rels, first nothing], by rwa [rels]⟩)
    · rcases recorded.answered.resolve_left nothing with sent | ⟨other, member, length, some⟩
      · exact .inr (.inl sent)
      · refine .inr (.inr ⟨other, ?_, length, some⟩)
        rw [at_, List.cons_append, List.mem_cons] at member
        rcases member with rfl | member
        · exact absurd none some
        · rw [← List.append_assoc]
          exact List.mem_append_left _ member
  · rw [List.forall_mem_append]
    exact ⟨recorded.clean, fun c member => reads.clean c (List.mem_of_mem_filter member)⟩

end

theorem Recorded.step (recorded : Recorded env all s read written) (manned : Manned env s) (pos : 0 < env.batchSize)
    (visit : env.Visit s s') : ∃ read' written', Recorded env all s' read' written' := by
  cases visit with
  | own step => exact ⟨read, written, recorded.own manned step⟩
  | collect le at_ arrives after busy sendable => exact recorded.collect manned at_ after sendable rfl
  | finish le at_ consumed ends => exact recorded.finish manned at_ consumed rfl
  | produce at_ consumed goes produced sendable =>
    exact recorded.produce manned at_ pos consumed goes produced sendable rfl

end MasterEnv
end CadoNfs.Filter.SmAppend
