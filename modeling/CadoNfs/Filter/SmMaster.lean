import CadoNfs.Lib.Farm
import CadoNfs.Filter.SmAppend

/-!
# The master and the workers of `sm_append`

The master of `filter/sm_append.cpp` sends batches of relations to MPI workers, and writes them with
the maps that the workers send back.
-/

namespace CadoNfs.Filter.SmAppend
open Lib Lib.Farm Utils.FilterIo

abbrev AbPair := ℤ × ℕ

/-- What `sm_append_master` is called with. A number of the workers' answers has `limbs` limbs. -/
structure MasterEnv where
  smInfo : List SmSideInfo
  limbs : ℕ
  batchSize : ℕ

structure Downlink (n : ℕ) where
  id : Fin n
  batch : List AbPair
  rels : List Text

/-- The master, in the middle of a turn. The peer it visits comes first in `toVisit`, and `consumed`
says that its answer has been written. -/
structure Master (n : ℕ) where
  turn : ℕ
  eof : ℕ
  visited : List (Downlink n)
  toVisit : List (Downlink n)
  consumed : Bool
  inp : Text
  out : Text

structure Produced where
  eof : Bool
  batch : List AbPair
  rels : List Text
  inp : Text
  out : Text

namespace MasterEnv

variable (env : MasterEnv) {n : ℕ}

def nsmTotal : ℕ := (env.smInfo.map SmSideInfo.nsm).sum

def Sendable (bytes : ℕ) : Prop := bytes < 2 ^ 31

instance (bytes : ℕ) : Decidable (Sendable bytes) := inferInstanceAs (Decidable (_ < _))

def answerBytes (batch : List AbPair) : ℕ := batch.length * env.nsmTotal * env.limbs * 8

/-- A worker leaves on an empty batch, or when it cannot send the answer. -/
def answer (batch : List AbPair) : Option (List ℕ) :=
  if batch = [] ∨ ¬ Sendable (env.answerBytes batch) then none
  else some (batch.flatMap fun ab => compute env.smInfo ab.1 ab.2)

/-- `produce`: `none` is an exit on a line that cannot be parsed. -/
def produce : ℕ → List AbPair → List Text → Text → Text → Option Produced
  | 0, _, _, _, _ => none
  | fuel + 1, batch, rels, inp, out =>
    if batch.length < env.batchSize then
      let (buf, inp) := fgets 1023 inp
      if buf = [] then some ⟨true, batch, rels, inp, out⟩
      else
        let buf := buf.dropLast
        if cur buf = '#' then produce fuel batch rels inp (out ++ (buf ++ ['\n']))
        else (abPair buf).bind fun ab => produce fuel (batch ++ [ab]) (rels ++ [buf]) inp out
    else some ⟨false, batch, rels, inp, out⟩

def consume : List Text → List ℕ → Text
  | [], _ => []
  | r :: rels, src =>
    r ++ consumeText false (src.take env.nsmTotal) ++ '\n' :: consume rels (src.drop env.nsmTotal)

def next (s : Master n) : ClientMove (Fin n) (List AbPair) (List ℕ) (Master n) :=
  if 2 < s.eof then .halt
  else match s.toVisit with
  | [] => .go { s with
      turn := s.turn + 1, eof := if s.eof = 0 then 0 else s.eof + 1, visited := [], toVisit := s.visited }
  | peer :: later =>
    if s.consumed then
      if s.eof ≠ 0 then
        .post peer.id s.turn peer.batch { s with visited := s.visited ++ [peer], toVisit := later, consumed := false }
      else match env.produce (s.inp.length + 1) [] [] s.inp [] with
      | none => .halt
      | some made =>
        if Sendable (made.batch.length * 16) then
          .post peer.id s.turn made.batch { s with
            eof := if made.eof then 1 else 0, visited := s.visited ++ [⟨peer.id, made.batch, made.rels⟩]
            toVisit := later, consumed := false, inp := made.inp, out := s.out ++ made.out }
        else .halt
    else if s.eof ≠ 0 ∧ s.turn ≠ 0 ∧ peer.batch = [] then .go { s with visited := s.visited ++ [peer], toVisit := later }
    else if s.turn = 0 then .go { s with consumed := true }
    else if Sendable (env.answerBytes peer.batch) then
      .collect peer.id (s.turn - 1) fun returns => some { s with
        toVisit := ⟨peer.id, [], []⟩ :: later, consumed := true, out := s.out ++ env.consume peer.rels returns }
    else .halt

def start (n : ℕ) (inp : Text) : Master n := ⟨0, 0, [], (List.finRange n).map fun id => ⟨id, [], []⟩, false, inp, []⟩

abbrev MasterNet (n : ℕ) := Net (Fin n) (List AbPair) (List ℕ) (Master n)

def startNet (n : ℕ) (inp : Text) : MasterNet n := ⟨start n inp, fun _ => .idle 0⟩

def Step (s s' : MasterNet n) : Prop := NetStep env.next env.answer s s'

/-- Whatever the order of the messages, the master comes to its end and has written `out`. -/
def Writes (n : ℕ) (inp out : Text) : Prop :=
  Acc (fun later now => env.Step now later) (startNet n inp) ∧
    ∀ s, Relation.ReflTransGen env.Step (startNet n inp) s → (∀ s', ¬ env.Step s s') → 2 < s.client.eof ∧
      s.client.out = out

end MasterEnv

def printSm2 (a b : ℤ) (S : SmSideInfo) : Text := [','].intercalate ((S.own a b).map (Nat.toDigits 10))

def syncText (a b : ℤ) : Bool → List SmSideInfo → Text
  | _, [] => []
  | hasSep, S :: smInfo =>
    (if hasSep then [] else [',']) ++ printSm2 a b S ++ syncText a b (decide (S.nsm = 0)) smInfo

-- `mpz_poly_set_ab` casts `b` to an `int64_t`.
def appendSync (smInfo : List SmSideInfo) : ℕ → Text → Option Text
  | 0, _ => none
  | fuel + 1, s =>
    let (buf, s) := fgets 1023 s
    if buf = [] then some []
    else
      let buf := buf.dropLast
      if cur buf = '#' then (appendSync smInfo fuel s).map fun out => buf ++ '\n' :: out
      else do
        let (a, b) ← abPair buf
        guard (b < 2 ^ 63)
        let out ← appendSync smInfo fuel s
        return buf ++ ':' :: syncText a b true smInfo ++ '\n' :: out

def smAppendSync (smInfo : List SmSideInfo) (s : Text) : Option Text := appendSync smInfo (s.length + 1) s

/-! ## Inputs and outputs -/

def InputLine (line : Text) : Prop := '\n' ∉ line ∧ (cur line = '#' ∨ (abPair line).isSome)

def lineTexts (terminated : Bool) : List Text → List Text
  | [] => []
  | [l] => [if terminated then l ++ ['\n'] else l]
  | l :: l' :: lines => (l ++ ['\n']) :: lineTexts terminated (l' :: lines)

def inputText (lines : List Text) (terminated : Bool) : Text := (lineTexts terminated lines).flatten

def relationsOf (lines : List Text) : List Text := lines.filter fun line => cur line ≠ '#'

namespace MasterEnv

variable (env : MasterEnv)

def withMaps (line : Text) : Text :=
  line ++ consumeText false ((abPair line).elim [] fun ab => compute env.smInfo ab.1 ab.2)

def Appends (n : ℕ) (lines : List Text) (terminated : Bool) : Prop :=
  ∃ out, env.Writes n (inputText lines terminated) (out.flatMap (· ++ ['\n'])) ∧ (∀ line ∈ out, '\n' ∉ line) ∧
    relationsOf out = (relationsOf lines).map env.withMaps ∧
    smAppendSync env.smInfo (inputText lines terminated) = some (out.flatMap (· ++ ['\n']))

end MasterEnv
end CadoNfs.Filter.SmAppend

/-!
# Runs of the master

Whatever the order of the messages, the master makes the visits it makes alone, with the answers
its workers compute.
-/

namespace CadoNfs.Filter.SmAppend
open Lib Lib.Farm Utils.FilterIo

namespace MasterEnv

variable (env : MasterEnv) {n : ℕ}

inductive Own : Master n → Master n → Prop
  | nextTurn {s} : s.eof ≤ 2 → s.toVisit = [] →
      Own s { s with turn := s.turn + 1, eof := if s.eof = 0 then 0 else s.eof + 1, visited := [], toVisit := s.visited }
  | skip {s peer later} : s.eof ≤ 2 → s.toVisit = peer :: later → s.consumed = false → s.eof ≠ 0 → s.turn ≠ 0 →
      peer.batch = [] → Own s { s with visited := s.visited ++ [peer], toVisit := later }
  | first {s peer later} : s.eof ≤ 2 → s.toVisit = peer :: later → s.consumed = false → s.turn = 0 →
      Own s { s with consumed := true }

inductive Visit : Master n → Master n → Prop
  | own {s s'} : Own s s' → Visit s s'
  | collect {s peer later} : s.eof ≤ 2 → s.toVisit = peer :: later → s.consumed = false → s.turn ≠ 0 → peer.batch ≠ [] →
      Sendable (env.answerBytes peer.batch) →
      Visit s { s with
        toVisit := ⟨peer.id, [], []⟩ :: later, consumed := true
        out := s.out ++ env.consume peer.rels (peer.batch.flatMap fun ab => compute env.smInfo ab.1 ab.2) }
  | finish {s peer later} : s.eof ≤ 2 → s.toVisit = peer :: later → s.consumed = true → s.eof ≠ 0 →
      Visit s { s with visited := s.visited ++ [peer], toVisit := later, consumed := false }
  | produce {s peer later made} : s.toVisit = peer :: later → s.consumed = true → s.eof = 0 →
      env.produce (s.inp.length + 1) [] [] s.inp [] = some made → Sendable (made.batch.length * 16) →
      Visit s { s with
        eof := if made.eof then 1 else 0, visited := s.visited ++ [⟨peer.id, made.batch, made.rels⟩]
        toVisit := later, consumed := false, inp := made.inp, out := s.out ++ made.out }

/-! ## What the master does next -/

variable {env} {tag : ℕ} {i : Fin n} {x : List AbPair} {resume : List ℕ → Option (Master n)} {s s' c : Master n}
  {slot : Slot (List AbPair)} {d d' : Direct (Fin n) (List AbPair) (Master n)}

theorem next_go (move : env.next s = .go c) : Own s c := by
  rw [next] at move
  split at move
  · cases move
  have le : s.eof ≤ 2 := by omega
  split at move
  · cases move
    exact .nextTurn le ‹_›
  · split at move
    · split at move
      · cases move
      · split at move
        · cases move
        · split at move <;> cases move
    · have arrives : s.consumed = false := Bool.eq_false_iff.mpr ‹_›
      split at move
      · cases move
        obtain ⟨ends, later, idle⟩ := ‹_ ∧ _›
        exact .skip le ‹_› arrives ends later idle
      · split at move
        · cases move
          exact .first le ‹_› arrives ‹_›
        · split at move <;> cases move

theorem next_post (move : env.next s = .post i tag x c) : ∃ peer later, s.toVisit = peer :: later ∧ s.consumed = true ∧
    i = peer.id ∧ tag = s.turn ∧ env.Visit s c ∧ ∃ rels, c.turn = s.turn ∧ c.toVisit = later ∧ c.consumed = false ∧
      c.visited = s.visited ++ [⟨peer.id, x, rels⟩] := by
  rw [next] at move
  split at move
  · cases move
  have le : s.eof ≤ 2 := by omega
  split at move
  · cases move
  · split at move
    · split at move
      · cases move
        exact ⟨_, _, ‹_›, ‹_›, rfl, rfl, .finish le ‹_› ‹_› ‹_›, _, rfl, rfl, rfl, rfl⟩
      · split at move
        · cases move
        · split at move
          · cases move
            exact ⟨_, _, ‹_›, ‹_›, rfl, rfl, .produce ‹_› ‹_› (not_not.mp ‹_›) ‹_› ‹_›, _, rfl, rfl, rfl, rfl⟩
          · cases move
    · split at move
      · cases move
      · split at move
        · cases move
        · split at move <;> cases move

theorem next_collect (move : env.next s = .collect i tag resume) : ∃ peer later, s.toVisit = peer :: later ∧
    s.consumed = false ∧ s.turn ≠ 0 ∧ i = peer.id ∧ tag = s.turn - 1 ∧ s.eof ≤ 2 ∧
      Sendable (env.answerBytes peer.batch) ∧
    resume = fun returns => some { s with
      toVisit := ⟨peer.id, [], []⟩ :: later, consumed := true, out := s.out ++ env.consume peer.rels returns } := by
  rw [next] at move
  split at move
  · cases move
  have le : s.eof ≤ 2 := by omega
  split at move
  · cases move
  · split at move
    · split at move
      · cases move
      · split at move
        · cases move
        · split at move <;> cases move
    · have arrives : s.consumed = false := Bool.eq_false_iff.mpr ‹_›
      split at move
      · cases move
      · split at move
        · cases move
        · split at move
          · cases move
            exact ⟨_, _, ‹_›, arrives, ‹_›, rfl, rfl, le, ‹_›, rfl⟩
          · cases move

/-! ## Where the batches are -/

def Posted (turn : ℕ) (peer : Downlink n) (slot : Slot (List AbPair)) : Prop :=
  if peer.batch = [] then ∃ last, slot = .asked last [] else slot = .asked turn peer.batch

def Waiting (turn : ℕ) (peer : Downlink n) (slot : Slot (List AbPair)) : Prop :=
  if turn = 0 then slot = .free 0 else Posted (turn - 1) peer slot

structure Placed (d : Direct (Fin n) (List AbPair) (Master n)) : Prop where
  ids : ((d.client.visited ++ d.client.toVisit).map Downlink.id).Nodup
  visited : ∀ peer ∈ d.client.visited, Posted d.client.turn peer (d.slots peer.id)
  arriving : d.client.consumed = false → ∀ peer ∈ d.client.toVisit, Waiting d.client.turn peer (d.slots peer.id)
  consumed : d.client.consumed = true → ∃ peer later, d.client.toVisit = peer :: later ∧
    d.slots peer.id = .free d.client.turn ∧ ∀ other ∈ later, Waiting d.client.turn other (d.slots other.id)

theorem posted_nil {peer : Downlink n} {turn turn' : ℕ} (idle : peer.batch = []) (posted : Posted turn peer slot) :
    Posted turn' peer slot := by
  rw [Posted, if_pos idle] at posted ⊢
  exact posted

theorem posted_asked (peer : Downlink n) (turn : ℕ) : Posted turn peer (.asked turn peer.batch) := by
  unfold Posted
  split
  case isTrue empty => exact ⟨turn, by rw [empty]⟩
  case isFalse => rfl

theorem Posted.answer {peer : Downlink n} {turn : ℕ} {returns : List ℕ} (posted : Posted turn peer (.asked tag x))
    (answered : env.answer x = some returns) :
    peer.batch ≠ [] ∧ returns = peer.batch.flatMap fun ab => compute env.smInfo ab.1 ab.2 := by
  rw [MasterEnv.answer] at answered
  obtain ⟨possible, eq⟩ := Option.ite_none_left_eq_some.mp answered
  rw [not_or] at possible
  rw [Posted] at posted
  split at posted
  · obtain ⟨last, asked⟩ := posted
    cases asked
    exact absurd rfl possible.1
  · cases posted
    exact ⟨‹_›, (Option.some.inj eq).symm⟩

theorem placed_start {inp : Text} : Placed ⟨start n inp, fun _ => .free 0⟩ where
  ids := by
    simp only [start, List.nil_append, List.map_map]
    exact (List.map_id' (List.finRange n)).symm ▸ List.nodup_finRange n
  visited := by simp [start]
  arriving := fun _ _ _ => by simp [Waiting, start]
  consumed := fun consumed => by cases consumed

theorem Placed.other {peer other : Downlink n} {later : List (Downlink n)} (placed : Placed d)
    (at_ : d.client.toVisit = peer :: later)
    (member : other ∈ d.client.visited ++ later) : other.id ≠ peer.id := by
  have ids := placed.ids
  rw [at_, ((List.perm_middle (a := peer)).map Downlink.id).nodup_iff, List.map_cons, List.nodup_cons] at ids
  intro same
  exact ids.1 (same ▸ List.mem_map_of_mem member)

theorem Placed.own (placed : Placed d) (step : Own d.client c) : Placed { d with client := c } := by
  obtain ⟨s, slots⟩ := d
  cases step with
  | nextTurn le ended =>
    refine ⟨?_, by simp, fun _ peer member => ?_, fun consumed => ?_⟩
    · have ids := placed.ids
      dsimp only at ids ended ⊢
      rwa [ended, List.append_nil] at ids
    · exact placed.visited peer member
    · obtain ⟨peer, later, at_, -⟩ := placed.consumed consumed
      exact absurd (ended.symm.trans at_) (by simp)
  | @skip peer later le at_ arrives ends after idle =>
    have waits := placed.arriving arrives
    dsimp only at at_ waits
    rw [at_, List.forall_mem_cons] at waits
    refine ⟨?_, ?_, fun _ => waits.2, fun consumed => absurd (arrives.symm.trans consumed) (by simp)⟩
    · have ids := placed.ids
      dsimp only at ids ⊢
      rwa [at_, ← List.singleton_append, ← List.append_assoc] at ids
    · have posted := waits.1
      rw [Waiting, if_neg after] at posted
      intro other member
      rcases List.mem_append.mp member with before | here
      · exact placed.visited other before
      · obtain rfl := List.mem_singleton.mp here
        exact posted_nil idle posted
  | @first peer later le at_ arrives zero =>
    have waits := placed.arriving arrives
    dsimp only at at_ waits zero
    rw [at_, List.forall_mem_cons] at waits
    refine ⟨placed.ids, placed.visited, fun fresh => (by cases fresh), fun _ => ⟨peer, later, at_, ?_, waits.2⟩⟩
    have free := waits.1
    rw [Waiting, if_pos zero] at free
    dsimp only
    rw [free, zero]

theorem Placed.step (placed : Placed d) (step : DirectStep env.next env.answer d d') :
    Placed d' ∧ env.Visit d.client d'.client := by
  obtain ⟨s, slots⟩ := d
  cases step with
  | @go c move => exact ⟨placed.own (next_go move), .own (next_go move)⟩
  | @post i tag x c move free =>
    obtain ⟨peer, later, at_, consumed, rfl, rfl, visit, rels, turn, toVisit, arrives, visited⟩ := next_post move
    refine ⟨?_, visit⟩
    obtain ⟨peer', later', at', -, waits⟩ := placed.consumed consumed
    obtain ⟨rfl, rfl⟩ := List.cons.inj (at_.symm.trans at')
    have elsewhere (q : Downlink n) (member : q ∈ s.visited ++ later) :
      Function.update slots peer.id (.asked s.turn x) q.id = slots q.id :=
      Function.update_of_ne (placed.other at_ member) _ _
    refine ⟨?_, ?_, fun _ => ?_, fun consumed => absurd (arrives.symm.trans consumed) (by simp)⟩
    · have ids := placed.ids
      dsimp only at ids ⊢
      rw [at_] at ids
      rw [visited, toVisit]
      simpa using ids
    · dsimp only
      rw [visited, turn, List.forall_mem_append]
      refine ⟨fun q member => ?_, fun q member => ?_⟩
      · rw [elsewhere q (List.mem_append_left _ member)]
        exact placed.visited q member
      · obtain rfl := List.mem_singleton.mp member
        rw [Function.update_self]
        exact posted_asked ⟨peer.id, x, rels⟩ s.turn
    · dsimp only
      rw [turn, toVisit]
      intro q member
      rw [elsewhere q (List.mem_append_right _ member)]
      exact waits q member
  | @collect i tag resume x y c move asked answered resumed =>
    obtain ⟨peer, later, at_, arrives, after, rfl, rfl, le, sendable, rfl⟩ := next_collect move
    have waits := placed.arriving arrives
    dsimp only at at_ waits after asked
    rw [at_, List.forall_mem_cons, asked, Waiting, if_neg after] at waits
    obtain ⟨busy, rfl⟩ := waits.1.answer answered
    cases resumed
    refine ⟨?_, .collect le at_ arrives after busy sendable⟩
    have elsewhere (q : Downlink n) (member : q ∈ s.visited ++ later) (new : Slot (List AbPair)) :
        Function.update slots peer.id new q.id = slots q.id :=
      Function.update_of_ne (placed.other at_ member) _ _
    refine ⟨?_, ?_, fun fresh => (by cases fresh), fun _ => ⟨_, _, rfl, ?_, ?_⟩⟩
    · have ids := placed.ids
      dsimp only at ids ⊢
      rw [at_] at ids
      simpa using ids
    · intro q member
      dsimp only at member ⊢
      rw [elsewhere q (List.mem_append_left _ member)]
      exact placed.visited q member
    · dsimp only
      rw [Function.update_self, Nat.sub_add_cancel (Nat.pos_of_ne_zero after)]
    · intro q member
      dsimp only
      rw [elsewhere q (List.mem_append_right _ member)]
      exact waits.2 q member

theorem Placed.polite (placed : Placed d) : Polite env.next d := by
  intro i tag x c move
  obtain ⟨peer, later, at_, consumed, rfl, rfl, -⟩ := next_post move
  obtain ⟨peer', later', at', free, -⟩ := placed.consumed consumed
  obtain ⟨rfl, rfl⟩ := List.cons.inj (at_.symm.trans at')
  exact free

theorem Placed.proceeds (placed : Placed d) (visit : env.Visit d.client c) :
    ∃ d', DirectStep env.next env.answer d d' := by
  have free (consumed : d.client.consumed = true) {peer : Downlink n} {later : List (Downlink n)}
      (at_ : d.client.toVisit = peer :: later) : d.slots peer.id = .free d.client.turn := by
    obtain ⟨peer', later', at', free, -⟩ := placed.consumed consumed
    obtain ⟨rfl, rfl⟩ := List.cons.inj (at_.symm.trans at')
    exact free
  cases visit with
  | own step =>
    refine ⟨_, .go (c := c) ?_⟩
    cases step with
    | nextTurn le ended => simp [next, le, ended]
    | skip le at_ arrives ends after idle => simp [next, le, at_, arrives, ends, after, idle]
    | first le at_ arrives zero => simp [next, le, at_, arrives, zero]
  | @collect peer later le at_ arrives after busy sendable =>
    have waits := placed.arriving arrives peer (by simp [at_])
    rw [Waiting, if_neg after, Posted, if_neg busy] at waits
    have answered : env.answer peer.batch = some (peer.batch.flatMap fun ab => compute env.smInfo ab.1 ab.2) :=
      if_neg fun either => either.elim busy fun unsendable => unsendable sendable
    have move : env.next d.client = .collect peer.id (d.client.turn - 1) fun returns => some { d.client with
        toVisit := ⟨peer.id, [], []⟩ :: later, consumed := true, out :=
          d.client.out ++ env.consume peer.rels returns } := by
      simp [next, le, at_, arrives, after, busy, sendable]
    exact ⟨_, .collect move waits answered rfl⟩
  | @finish peer later le at_ consumed ends =>
    have move : env.next d.client = .post peer.id d.client.turn peer.batch { d.client with
        visited := d.client.visited ++ [peer], toVisit := later, consumed := false } := by
      simp [next, le, at_, consumed, ends]
    exact ⟨_, .post move (free consumed at_)⟩
  | @produce peer later made at_ consumed goes produced sendable =>
    have move : env.next d.client = .post peer.id d.client.turn made.batch { d.client with
        eof := if made.eof then 1 else 0, visited := d.client.visited ++ [⟨peer.id, made.batch, made.rels⟩]
        toVisit := later, consumed := false, inp := made.inp, out := d.client.out ++ made.out } := by
      simp [next, at_, consumed, goes, produced, sendable]
    exact ⟨_, .post move (free consumed at_)⟩

theorem Placed.acc (placed : Placed d) (stops : Acc (fun later now => env.Visit now later) d.client) :
    Acc (fun later now => DirectStep env.next env.answer now later) d := by
  generalize eq : d.client = s at stops
  induction stops generalizing d with
  | intro s _ ih =>
    subst eq
    constructor
    intro d' step
    obtain ⟨placed', visit⟩ := placed.step step
    exact ih d'.client visit placed' rfl

theorem sim_start (inp : Text) : Sim env.answer ⟨start n inp, fun _ => .free 0⟩ (startNet n inp) :=
  ⟨rfl, fun _ => .free⟩

theorem exists_visits {inp : Text} {s : MasterNet n} (run : Relation.ReflTransGen env.Step (startNet n inp) s) :
    ∃ d, Relation.ReflTransGen env.Visit (start n inp) d.client ∧ Placed d ∧ Sim env.answer d s := by
  have preserves (d d' : Direct (Fin n) (List AbPair) (Master n))
      (holds : Placed d ∧ Relation.ReflTransGen env.Visit (start n inp) d.client)
      (step : DirectStep env.next env.answer d d') :
      Placed d' ∧ Relation.ReflTransGen env.Visit (start n inp) d'.client :=
    ⟨(holds.1.step step).1, holds.2.tail (holds.1.step step).2⟩
  obtain ⟨d, -, holds, sim⟩ := Sim.run preserves (fun d holds => holds.1.polite) ⟨placed_start, .refl⟩
    (sim_start inp) run
  exact ⟨d, holds.2, holds.1, sim⟩

theorem writes_of_visits {inp out : Text} (stops : Acc (fun later now => env.Visit now later) (start n inp))
    (ends : ∀ s, Relation.ReflTransGen env.Visit (start n inp) s → (∀ s', ¬ env.Visit s s') → 2 < s.eof ∧ s.out = out) :
    env.Writes n inp out := by
  refine ⟨?_, fun s run last => ?_⟩
  · exact Sim.acc (fun d d' placed step => (Placed.step placed step).1) (fun d placed => Placed.polite placed)
      placed_start (sim_start inp) (placed_start.acc stops)
  · obtain ⟨d, visits, placed, sim⟩ := exists_visits run
    rw [← sim.client]
    refine ends d.client visits fun c visit => ?_
    obtain ⟨d', step⟩ := placed.proceeds visit
    obtain ⟨s', moves⟩ := sim.proceeds step
    exact last s' moves

theorem Writes.exists_visits {inp out : Text} (writes : env.Writes n inp out) :
    ∃ s, Relation.ReflTransGen env.Visit (start n inp) s ∧ 2 < s.eof ∧ s.out = out := by
  obtain ⟨s, run, last⟩ := exists_last_of_acc writes.1
  obtain ⟨d, visits, -, sim⟩ := MasterEnv.exists_visits run
  refine ⟨d.client, visits, ?_⟩
  rw [sim.client]
  exact writes.2 s run last

end MasterEnv
end CadoNfs.Filter.SmAppend

/-!
# The lines that `sm_append` reads

A buffer is a line of the program, whatever a line of the input is.
-/

namespace CadoNfs.Filter.SmAppend
open Lib Utils.FilterIo

def chunks : ℕ → Text → List Text
  | 0, _ => []
  | fuel + 1, s => if (fgets 1023 s).1 = [] then [] else (fgets 1023 s).1.dropLast :: chunks fuel (fgets 1023 s).2

def buffers (s : Text) : List Text := chunks (s.length + 1) s

variable {s t l line : Text} {n fuel : ℕ} {lines read written rest : List Text}

theorem fgets_append (n : ℕ) (s : Text) : (fgets n s).1 ++ (fgets n s).2 = s := by
  induction s generalizing n with
  | nil => cases n <;> rfl
  | cons c s ih =>
    cases n with
    | zero => rfl
    | succ n =>
      rw [fgets]
      split
      · rfl
      · exact congrArg (c :: ·) (ih n)

theorem fgets_eq_nil_iff (pos : 0 < n) : (fgets n s).1 = [] ↔ s = [] := by
  obtain ⟨n, rfl⟩ := Nat.exists_eq_succ_of_ne_zero pos.ne'
  cases s with
  | nil => simp [fgets]
  | cons c s =>
    rw [fgets]
    split <;> simp

theorem length_fgets_lt (some : s ≠ []) : (fgets 1023 s).2.length < s.length := by
  have parts := congrArg List.length (fgets_append 1023 s)
  rw [List.length_append] at parts
  have nonempty := List.length_pos_of_ne_nil (mt (fgets_eq_nil_iff (by decide : 0 < 1023)).mp some)
  omega

theorem newline_not_mem_fgets (n : ℕ) (s : Text) : '\n' ∉ (fgets n s).1.dropLast := by
  induction s generalizing n with
  | nil => cases n <;> simp [fgets]
  | cons c s ih =>
    cases n with
    | zero => simp [fgets]
    | succ n =>
      rw [fgets]
      split
      · simp
      · dsimp only
        cases eq : (fgets n s).1 with
        | nil => simp
        | cons d t =>
          rw [List.dropLast_cons_cons, List.mem_cons, not_or, ← eq]
          exact ⟨Ne.symm ‹_›, ih n⟩

theorem chunks_eq (enough : s.length < fuel) : chunks fuel s = buffers s := by
  have step (fuel : ℕ) (s : Text) (enough : s.length < fuel) : chunks fuel s = chunks (fuel + 1) s := by
    induction fuel generalizing s with
    | zero => omega
    | succ fuel ih =>
      rw [chunks, chunks]
      split
      case isTrue => rfl
      case isFalse some =>
        have less := length_fgets_lt (mt (fgets_eq_nil_iff (by decide : 0 < 1023)).mpr some)
        rw [ih _ (by omega)]
  induction fuel with
  | zero => omega
  | succ fuel ih =>
    by_cases last : s.length < fuel
    · rw [← step fuel s last, ih last]
    · rw [buffers, show fuel = s.length by omega]

@[simp] theorem buffers_nil : buffers [] = [] := rfl

theorem buffers_of_ne_nil (some : s ≠ []) : buffers s = (fgets 1023 s).1.dropLast :: buffers (fgets 1023 s).2 := by
  rw [buffers, chunks, if_neg (mt (fgets_eq_nil_iff (by decide)).mp some), chunks_eq (length_fgets_lt some)]

theorem newline_not_mem_buffers : ∀ l ∈ buffers s, '\n' ∉ l := by
  generalize bound : s.length = k
  induction k using Nat.strong_induction_on generalizing s with
  | _ k ih =>
    by_cases empty : s = []
    · simp [empty]
    · rw [buffers_of_ne_nil empty, List.forall_mem_cons]
      exact ⟨newline_not_mem_fgets _ _, ih _ (bound ▸ length_fgets_lt empty) rfl⟩

/-! ## Comments and relations -/

def isComment (line : Text) : Bool := decide (cur line = '#')

def Known (line : Text) : Prop := cur line = '#' ∨ (abPair line).isSome

def pairOf (line : Text) : AbPair := (abPair line).getD (0, 0)

def commentsOf (lines : List Text) : List Text := lines.filter fun line => cur line = '#'

theorem relationsOf_append : relationsOf (read ++ rest) = relationsOf read ++ relationsOf rest := List.filter_append ..

theorem relationsOf_comment (comment : cur l = '#') : relationsOf (l :: lines) = relationsOf lines := by
  simp [relationsOf, comment]

theorem relationsOf_relation (relation : cur l ≠ '#') : relationsOf (l :: lines) = l :: relationsOf lines := by
  simp [relationsOf, relation]

theorem commentsOf_comment (comment : cur l = '#') : commentsOf (l :: lines) = l :: commentsOf lines := by
  simp [commentsOf, comment]

theorem commentsOf_relation (relation : cur l ≠ '#') : commentsOf (l :: lines) = commentsOf lines := by
  simp [commentsOf, relation]

theorem mem_relationsOf : l ∈ relationsOf lines ↔ l ∈ lines ∧ cur l ≠ '#' := by
  simp [relationsOf]

theorem isComment_commentsOf : (commentsOf lines).map isComment = List.replicate (commentsOf lines).length true := by
  rw [List.eq_replicate_iff]
  simp [commentsOf, isComment]

def CommentsFirst (lines : List Text) : Prop :=
  ∀ before c after, lines = before ++ c :: after → cur c = '#' → relationsOf before = []

theorem CommentsFirst.tail (first : CommentsFirst (l :: lines)) (comment : cur l = '#') : CommentsFirst lines := by
  intro before c after eq comment'
  have none := first (l :: before) c after (by rw [eq]; rfl) comment'
  rwa [relationsOf_comment comment] at none

theorem CommentsFirst.eq (first : CommentsFirst lines) : lines = commentsOf lines ++ relationsOf lines := by
  induction lines with
  | nil => rfl
  | cons l lines ih =>
    by_cases comment : cur l = '#'
    · rw [commentsOf_comment comment, relationsOf_comment comment, List.cons_append, ← ih (first.tail comment)]
    · have relations : ∀ c ∈ lines, cur c ≠ '#' := by
        intro c member comment'
        obtain ⟨before, after, rfl⟩ := List.append_of_mem member
        have none := first (l :: before) c after rfl comment'
        rw [relationsOf_relation comment] at none
        cases none
      have none : commentsOf lines = [] := by simpa [commentsOf] using relations
      have all : relationsOf lines = lines := by simpa [relationsOf] using relations
      rw [commentsOf_relation comment, relationsOf_relation comment, none, all, List.nil_append]

theorem commentsFirst_of_prefix {kinds : List Bool}
    (starts : List.replicate (commentsOf lines).length true <+: lines.map isComment ++ kinds) :
      CommentsFirst lines := by
  induction lines with
  | nil => intro before c after eq; simp at eq
  | cons l lines ih =>
    intro before c after eq comment'
    by_cases comment : cur l = '#'
    · rw [commentsOf_comment comment, List.length_cons, List.replicate_succ, List.map_cons, List.cons_append,
        List.cons_prefix_cons] at starts
      cases before with
      | nil => rfl
      | cons b before =>
        obtain ⟨rfl, rfl⟩ := List.cons.inj eq
        rw [relationsOf_comment comment]
        exact ih starts.2 before c after rfl comment'
    · rw [commentsOf_relation comment] at starts
      have member : c ∈ commentsOf lines := by
        cases before with
        | nil =>
          obtain ⟨rfl, -⟩ := List.cons.inj eq
          exact absurd comment' comment
        | cons b before =>
          obtain ⟨-, rfl⟩ := List.cons.inj eq
          simp [commentsOf, comment']
      obtain ⟨k, length⟩ := Nat.exists_eq_succ_of_ne_zero (List.length_pos_of_mem member).ne'
      rw [length, List.replicate_succ, List.map_cons, List.cons_append, List.cons_prefix_cons] at starts
      have kind := starts.1
      simp [isComment, comment] at kind

def join (lines : List Text) : Text := lines.flatMap (· ++ ['\n'])

theorem join_append : join (read ++ rest) = join read ++ join rest := List.flatMap_append

namespace MasterEnv

variable {env : MasterEnv} {batch : List AbPair} {rels : List Text} {inp out : Text} {made : Produced}

structure Produces (env : MasterEnv) (size : ℕ) (inp : Text) (made : Produced) (read : List Text) : Prop where
  text : buffers inp = read ++ buffers made.inp
  known : ∀ l ∈ read, Known l
  ended : made.eof = true → buffers made.inp = [] ∧ size + (relationsOf read).length < env.batchSize
  full : made.eof = false → size + (relationsOf read).length = env.batchSize
  room : ∀ before l after, read = before ++ l :: after → size + (relationsOf before).length < env.batchSize

theorem produces (produced : env.produce fuel batch rels inp out = some made) (fits : batch.length ≤ env.batchSize) :
    ∃ read, Produces env batch.length inp made read ∧ made.rels = rels ++ relationsOf read ∧
      made.batch = batch ++ (relationsOf read).map pairOf ∧ made.out = out ++ join (commentsOf read) := by
  induction fuel generalizing batch rels inp out with
  | zero => cases produced
  | succ fuel ih =>
    rw [produce] at produced
    split at produced
    case isTrue room =>
      dsimp only at produced
      by_cases empty : inp = []
      · subst empty
        cases produced
        exact ⟨[], ⟨rfl, by simp, fun _ => ⟨rfl, room⟩, fun eof => (by cases eof), by simp⟩, by simp [relationsOf],
          by simp [relationsOf],
          by simp [join, commentsOf]⟩
      · rw [if_neg (mt (fgets_eq_nil_iff (by decide)).mp empty)] at produced
        have text := buffers_of_ne_nil empty
        split at produced
        case isTrue comment =>
          obtain ⟨read, reads, rels_eq, batch_eq, out_eq⟩ := ih produced fits
          have same : relationsOf (_ :: read) = relationsOf read := relationsOf_comment comment
          refine ⟨_ :: read, ⟨by rw [text, reads.text]; rfl, ?_, ?_, ?_, ?_⟩, by rw [rels_eq, same],
            by rw [batch_eq, same], ?_⟩
          · exact List.forall_mem_cons.mpr ⟨.inl comment, reads.known⟩
          · rw [same]
            exact reads.ended
          · rw [same]
            exact reads.full
          · intro before l after eq
            cases before with
            | nil => exact room
            | cons b before =>
              obtain ⟨rfl, rfl⟩ := List.cons.inj eq
              rw [relationsOf_comment comment]
              exact reads.room before l after rfl
          · rw [out_eq, commentsOf_comment comment, List.append_assoc]
            rfl
        case isFalse relation =>
          obtain ⟨ab, parsed, later⟩ := Option.bind_eq_some_iff.mp produced
          have length : (batch ++ [ab]).length = batch.length + 1 := List.length_append
          obtain ⟨read, reads, rels_eq, batch_eq, out_eq⟩ := ih later (by rw [length]; exact room)
          have more : relationsOf (_ :: read) = _ :: relationsOf read := relationsOf_relation relation
          have count (k : ℕ) : batch.length + (k + 1) = (batch ++ [ab]).length + k := by omega
          refine ⟨_ :: read, ⟨by rw [text, reads.text]; rfl, ?_, ?_, ?_, ?_⟩, ?_, ?_, ?_⟩
          · exact List.forall_mem_cons.mpr ⟨.inr (by rw [parsed]; rfl), reads.known⟩
          · rw [more, List.length_cons, count]
            exact reads.ended
          · rw [more, List.length_cons, count]
            exact reads.full
          · intro before l after eq
            cases before with
            | nil => exact room
            | cons b before =>
              obtain ⟨rfl, rfl⟩ := List.cons.inj eq
              rw [relationsOf_relation relation, List.length_cons, count]
              exact reads.room before l after rfl
          · rw [rels_eq, more, List.append_assoc]
            rfl
          · rw [batch_eq, more, List.append_assoc, List.map_cons, pairOf, parsed]
            rfl
          · rw [out_eq, commentsOf_relation relation]
    case isFalse full =>
      cases produced
      exact ⟨[], ⟨rfl, by simp, fun eof => (by cases eof), fun _ => by simp [relationsOf]; omega, by simp⟩,
        by simp [relationsOf],
        by simp [relationsOf], by simp [join, commentsOf]⟩

theorem Produces.clean {size : ℕ} (reads : Produces env size inp made read) : ∀ l ∈ read, '\n' ∉ l := by
  intro l member
  have inside : l ∈ buffers inp := by
    rw [reads.text]
    exact List.mem_append_left _ member
  exact newline_not_mem_buffers l inside

theorem exists_produce (known : ∀ l ∈ buffers inp, Known l) (enough : inp.length < fuel) :
    ∃ made, env.produce fuel batch rels inp out = some made := by
  induction fuel generalizing batch rels inp out with
  | zero => omega
  | succ fuel ih =>
    rw [produce]
    split
    case isTrue room =>
      dsimp only
      by_cases empty : inp = []
      · subst empty
        exact ⟨_, rfl⟩
      · have less := length_fgets_lt empty
        rw [buffers_of_ne_nil empty, List.forall_mem_cons] at known
        rw [if_neg (mt (fgets_eq_nil_iff (by decide)).mp empty)]
        split
        case isTrue comment => exact ih known.2 (by omega)
        case isFalse relation =>
          obtain ⟨ab, parsed⟩ := Option.isSome_iff_exists.mp (known.1.resolve_left relation)
          rw [parsed, Option.bind_some]
          exact ih known.2 (by omega)
    case isFalse => exact ⟨_, rfl⟩

end MasterEnv
end CadoNfs.Filter.SmAppend
