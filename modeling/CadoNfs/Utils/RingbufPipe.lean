import CadoNfs.Lib.Run
import CadoNfs.Utils.Ringbuf

/-!
# The two threads of a ring buffer

One thread puts bytes and feeds streams, another one gets, searches and skips bytes.
-/

namespace CadoNfs.Utils
open Lib Lib.Ring

/-- What the producer is doing: the rest of a call of `put`, or a loop of `feed_stream` with
`nread` and `local_w_avail`, before or after its `fread`. -/
inductive Producer
  | idle
  | putting (data : List Int8)
  | feeding (nread wAvail : ℕ)
  | fed (nread wAvail : ℕ) (chunk : List Int8)
  deriving DecidableEq

structure Pipe where
  rb : Ringbuf
  producer : Producer
  produced : List Int8
  consumed : List Int8

inductive PipeAction
  | put (data : List Int8)
  | resume
  | feedStream
  | refill
  | fread (chunk : List Int8)
  | publish
  | markDone
  | get (s : ℕ)
  | strchr (c : ℤ) (offset : ℕ)
  | skipGet (s : ℕ)

namespace Pipe

def start (rb : Ringbuf) : Pipe := ⟨rb, .idle, [], []⟩

def tryPut (page : ℕ) (s : Pipe) (data : List Int8) : Option Pipe :=
  (Ringbuf.makeRoom page data.length s.rb).map fun rb =>
    if data.length ≤ rb.availToWrite then
      { s with rb := rb.write data, producer := .idle, produced := s.produced ++ data }
    else { s with rb := rb, producer := .putting data }

/-- A step of one of the threads, or `none` when it cannot make this step. The consumer searches
without the mutex; a search changes nothing. -/
def step (page : ℕ) (s : Pipe) : PipeAction → Option Pipe
  | .put data => if s.producer = .idle then s.tryPut page data else none
  | .resume =>
    match s.producer with
    | .putting data => s.tryPut page data
    | _ => none
  | .feedStream =>
    if s.producer = .idle then some { s with producer := .feeding 0 s.rb.availToWrite } else none
  | .refill =>
    match s.producer with
    | .feeding nread 0 =>
      if s.rb.availToWrite = 0 then none else some { s with producer := .feeding nread s.rb.availToWrite }
    | _ => none
  | .fread chunk =>
    match s.producer with
    | .feeding nread (wAvail + 1) =>
      if s.rb.feedable (wAvail + 1) < chunk.length then none
      else if chunk = [] then some { s with producer := .idle }
      else some { s with rb := s.rb.fread chunk, producer := .fed (nread + chunk.length) (wAvail + 1) chunk }
    | _ => none
  | .publish =>
    match s.producer with
    | .fed nread _ chunk =>
      let rb := s.rb.publish chunk.length
      some { s with rb, producer := .feeding nread rb.availToWrite, produced := s.produced ++ chunk }
    | _ => none
  | .markDone => if s.producer = .idle then some { s with rb := s.rb.markDone } else none
  | .get n => (s.rb.get n).map fun (data, rb) => { s with rb, consumed := s.consumed ++ data }
  | .strchr c offset => if s.rb.strchr c offset = .aborts then none else some s
  | .skipGet n =>
    (s.rb.skipGet n).map fun rb =>
      { s with rb, consumed := s.consumed ++ window s.rb.p s.rb.alloc s.rb.rhead n }

def Meets (s : Pipe) : PipeAction → Prop
  | .strchr c offset => s.rb.Searchable c offset
  | .skipGet n => n ≤ s.rb.availToRead
  | _ => True

def MeetStep (page : ℕ) (s s' : Pipe) : Prop := ∃ a, s.Meets a ∧ s.step page a = some s'

structure Holds (s : Pipe) : Prop where
  inOrder : s.consumed ++ s.rb.readable = s.produced
  room : s.rb.availToRead + s.rb.availToWrite = s.rb.alloc
  searches : ∀ c offset, s.Meets (.strchr c offset) → s.rb.SearchCorrect c offset
  -- No other search is right, while an `int` can hold every index.
  onlySearches : s.rb.alloc < 2 ^ 31 → ∀ c offset, s.rb.SearchCorrect c offset → s.Meets (.strchr c offset)

def Staged (rb : Ringbuf) : Producer → Prop
  | .idle | .putting _ => True
  | .feeding _ wAvail => wAvail ≤ rb.availToWrite
  | .fed _ _ chunk => rb.Staged chunk

structure Inv (s : Pipe) : Prop where
  valid : s.rb.Valid
  inOrder : s.consumed ++ s.rb.readable = s.produced
  staged : Staged s.rb s.producer

theorem Inv.holds {s : Pipe} (inv : s.Inv) : s.Holds where
  inOrder := inv.inOrder
  room := inv.valid.sum
  searches _ _ searchable := Ringbuf.Searchable.correct searchable inv.valid
  onlySearches small _ _ correct := correct.searchable inv.valid small

variable {page : ℕ} {s s' : Pipe} {rb : Ringbuf} {data : List Int8}

theorem Staged.mono {p : Producer} (staged : Staged s.rb p) (mem : rb.p = s.rb.p) (alloc : rb.alloc = s.rb.alloc)
    (whead : rb.whead = s.rb.whead) (le : s.rb.availToWrite ≤ rb.availToWrite) : Staged rb p := by
  cases p with
  | idle => trivial
  | putting data => trivial
  | feeding nread wAvail => exact Nat.le_trans staged le
  | fed nread wAvail chunk =>
    exact ⟨alloc ▸ whead ▸ staged.straight, staged.fits.trans le, mem ▸ whead ▸ staged.bytes⟩

theorem Inv.tryPut (inv : s.Inv) (put : s.tryPut page data = some s') : s'.Inv := by
  obtain ⟨rb, room, rfl⟩ := Option.map_eq_some_iff.mp put
  obtain ⟨valid, same, -⟩ := Ringbuf.makeRoom_spec inv.valid room
  by_cases fits : data.length ≤ rb.availToWrite
  · obtain ⟨valid', appended⟩ := Ringbuf.write_spec valid fits
    rw [if_pos fits]
    refine ⟨valid', ?_, trivial⟩
    dsimp only
    rw [appended, same, ← List.append_assoc, inv.inOrder]
  · rw [if_neg fits]
    exact ⟨valid, same ▸ inv.inOrder, trivial⟩

theorem Inv.step {a : PipeAction} (inv : s.Inv) (meets : s.Meets a) (step : s.step page a = some s') : s'.Inv := by
  obtain ⟨rb, producer, produced, consumed⟩ := s
  cases a with
  | put data =>
    rw [Pipe.step] at step
    split at step
    · exact inv.tryPut step
    · cases step
  | resume =>
    cases producer <;> first | cases step | exact inv.tryPut step
  | feedStream =>
    rw [Pipe.step] at step
    split at step
    · cases step
      exact ⟨inv.valid, inv.inOrder, Nat.le_refl _⟩
    · cases step
  | refill =>
    cases producer with
    | feeding nread wAvail =>
      cases wAvail with
      | zero =>
        rw [Pipe.step] at step
        dsimp only at step
        split_ifs at step
        · cases step
          exact ⟨inv.valid, inv.inOrder, Nat.le_refl _⟩
      | succ wAvail => cases step
    | _ => cases step
  | fread chunk =>
    cases producer with
    | feeding nread wAvail =>
      cases wAvail with
      | zero => cases step
      | succ wAvail =>
        rw [Pipe.step] at step
        dsimp only at step
        split_ifs at step with long ended
        · cases step
          exact ⟨inv.valid, inv.inOrder, trivial⟩
        · cases step
          have fits := Nat.le_of_not_lt long
          refine ⟨inv.valid.fread, ?_, Ringbuf.staged_fread inv.valid fits inv.staged⟩
          rw [Ringbuf.readable_fread inv.valid fits inv.staged]
          exact inv.inOrder
    | _ => cases step
  | publish =>
    cases producer with
    | fed nread wAvail chunk =>
      cases step
      obtain ⟨valid, appended⟩ := Ringbuf.publish_spec inv.valid inv.staged
      refine ⟨valid, ?_, Nat.le_refl _⟩
      rw [appended, ← List.append_assoc, inv.inOrder]
    | _ => cases step
  | markDone =>
    rw [Pipe.step] at step
    split at step
    · cases step
      exact ⟨⟨inv.valid.small, inv.valid.rhead, inv.valid.sum, inv.valid.whead⟩, inv.inOrder,
        inv.staged.mono rfl rfl rfl (Nat.le_refl _)⟩
    · cases step
  | get n =>
    obtain ⟨⟨data, rb'⟩, got, rfl⟩ := Option.map_eq_some_iff.mp step
    obtain ⟨valid, split⟩ := Ringbuf.get_spec inv.valid got
    obtain ⟨mem, alloc, whead, le⟩ := Ringbuf.get_frame got
    refine ⟨valid, ?_, inv.staged.mono mem alloc whead le⟩
    rw [List.append_assoc, split]
    exact inv.inOrder
  | strchr c offset =>
    rw [Pipe.step] at step
    split at step
    · cases step
    · cases step
      exact inv
  | skipGet n =>
    obtain ⟨rb', skipped, rfl⟩ := Option.map_eq_some_iff.mp step
    obtain ⟨valid, rest⟩ := Ringbuf.skipGet_spec inv.valid meets skipped
    obtain ⟨mem, alloc, whead, le⟩ := Ringbuf.skipGet_frame inv.valid meets skipped
    refine ⟨valid, ?_, inv.staged.mono mem alloc whead le⟩
    rw [rest, ← take_window meets, List.append_assoc]
    refine Eq.trans (congrArg _ ?_) inv.inOrder
    exact List.take_append_drop _ _

theorem Inv.start {claim : ℕ} (made : Ringbuf.make page claim = some rb) : (start rb).Inv := by
  obtain ⟨valid, empty⟩ := Ringbuf.make_spec made
  exact ⟨valid, empty, trivial⟩

theorem holds_of_meets {page claim : ℕ} {rb : Ringbuf} {s : Pipe} (made : Ringbuf.make page claim = some rb)
    (run : Relation.ReflTransGen (MeetStep page) (start rb) s) : s.Holds := by
  refine (invariant_of_run Inv ?_ (Inv.start made) run).holds
  rintro s s' inv ⟨a, meets, step⟩
  exact inv.step meets step

theorem makeRoom_of_le {n : ℕ} (fits : n ≤ rb.availToWrite) : Ringbuf.makeRoom page n rb = some rb := by
  rw [Ringbuf.makeRoom, if_pos (.inl fits)]

def onePage : Ringbuf := ⟨fun _ => 0, 4097, 0, 4097, 0, 0, false⟩

theorem make_onePage : Ringbuf.make 4096 1 = some onePage := rfl

theorem holds_of_meets_line : ∃ s, Relation.ReflTransGen (MeetStep 4096) (start onePage) s ∧
    s.consumed = [104, 105, 10] ∧ s.Holds := by
  have put : MeetStep 4096 (start onePage) ⟨onePage.write [104, 105, 10], .idle, [104, 105, 10], []⟩ := by
    refine ⟨.put [104, 105, 10], trivial, ?_⟩
    change tryPut 4096 ⟨onePage, .idle, [], []⟩ [104, 105, 10] = _
    rw [tryPut, makeRoom_of_le (by decide)]
    rfl
  have found : Ringbuf.Matches (onePage.write [104, 105, 10]) 10 2 := ⟨10, rfl, rfl⟩
  have searchable : Ringbuf.Searchable (onePage.write [104, 105, 10]) 10 0 :=
    ⟨Nat.zero_le _, .inl ⟨2, Nat.zero_le _, by decide, found⟩,
      fun s least => (least.2 ⟨Nat.zero_le _, found⟩).trans_lt (by decide),
      fun missing => absurd found (missing 2 (Nat.zero_le _))⟩
  have search : MeetStep 4096 ⟨onePage.write [104, 105, 10], .idle, [104, 105, 10], []⟩
      ⟨onePage.write [104, 105, 10], .idle, [104, 105, 10], []⟩ := ⟨.strchr 10 0, searchable, rfl⟩
  have skip : ∃ rb, MeetStep 4096 ⟨onePage.write [104, 105, 10], .idle, [104, 105, 10], []⟩
      ⟨rb, .idle, [104, 105, 10], [104, 105, 10]⟩ := ⟨_, .skipGet 3, Nat.le_refl 3, rfl⟩
  obtain ⟨rb, skip⟩ := skip
  have run := ((Relation.ReflTransGen.single put).tail search).tail skip
  exact ⟨_, run, rfl, holds_of_meets make_onePage run⟩

theorem not_searches_unpublished : ∃ s, Relation.ReflTransGen (MeetStep 4096) (start onePage) s ∧
    s.rb.availToRead = 0 ∧ ¬ s.rb.SearchCorrect 10 0 := by
  have enter : MeetStep 4096 (start onePage) ⟨onePage, .feeding 0 4097, [], []⟩ := ⟨.feedStream, trivial, rfl⟩
  have read : MeetStep 4096 ⟨onePage, .feeding 0 4097, [], []⟩ ⟨onePage.fread [10], .fed 1 4097 [10], [], []⟩ :=
    ⟨.fread [10], trivial, rfl⟩
  refine ⟨_, (Relation.ReflTransGen.single enter).tail read, rfl, ?_⟩
  rintro ⟨n, answer, finds⟩
  have zero : (onePage.fread [10]).strchr 10 0 = .returns 0 := rfl
  cases zero.symm.trans answer
  obtain ⟨s, -, least⟩ := finds.exists_isLeast le_rfl
  exact absurd (Ringbuf.matches_iff.mp least.1.2).1 (Nat.not_lt_zero _)

end Pipe
end CadoNfs.Utils
