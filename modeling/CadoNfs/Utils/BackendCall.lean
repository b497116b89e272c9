import CadoNfs.Utils.RingbufPipe

/-!
# The reading loop of the filter programs

`backend_call` of `utils/filter_io.hpp` cuts the bytes of a ring buffer into lines and hands the
relations among them on, while a producer thread feeds the input files to the ring buffer.
-/

namespace CadoNfs.Utils
open Lib Lib.Ring

/-- Where the loop stands: before its wait, before its search, before it hands on the line found,
before it skips it, or behind its end. -/
inductive ReaderPc
  | sample
  | test
  | deliver (nl : ℕ)
  | skip (nl : ℕ)
  | ended
  deriving DecidableEq

/-- The loop, with its variables and the lines handed on so far, and the two threads' ring buffer.
`todo` is what the producer has still to read: the rest of a file, then other files. -/
structure BackendCall where
  pipe : Pipe
  todo : List (List Int8)
  pc : ReaderPc
  availSeen : ℕ
  availOffset : ℕ
  nrels : ℕ
  nB : ℕ
  delivered : List (ℕ × List Int8)

def newline : Int8 := 10
def hash : Int8 := 35

namespace BackendCall

variable (page : ℕ) (active : Option (ℕ → Bool)) (s : BackendCall)

def start (rb : Ringbuf) (files : List (List Int8)) : BackendCall :=
  ⟨.start rb, files, .sample, 0, 0, 0, 0, []⟩

def produce : PipeAction → Option BackendCall
  | .feedStream =>
    if s.todo = [] then none
    else (s.pipe.step page .feedStream).map fun pipe => { s with pipe }
  | .refill => (s.pipe.step page .refill).map fun pipe => { s with pipe }
  | .fread chunk =>
    match s.todo with
    | [] => none
    | rest :: files =>
      if chunk <+: rest ∧ (chunk = [] → rest = []) then
        (s.pipe.step page (.fread chunk)).map fun pipe =>
          { s with pipe, todo := if chunk = [] then files else rest.drop chunk.length :: files }
      else none
  | .publish => (s.pipe.step page .publish).map fun pipe => { s with pipe }
  | .markDone =>
    if s.todo = [] ∧ s.pipe.rb.done = false then
      (s.pipe.step page .markDone).map fun pipe => { s with pipe }
    else none
  | _ => none

def isActive (relnum : ℕ) : Bool := active.elim true fun f => f relnum

/-- A step of the loop, or `none` when it waits, has ended, or its behaviour is undefined. The search
is not under the mutex; what it finds in readable bytes is the same whenever they are read. -/
def read : Option BackendCall :=
  let rb := s.pipe.rb
  match s.pc with
  | .sample =>
    if rb.availToRead = s.availSeen ∧ rb.done = false then none
    else if rb.availToRead = 0 ∧ rb.done then some { s with pc := .ended, availSeen := rb.availToRead }
    else some { s with pc := .test, availSeen := rb.availToRead, availOffset := 0 }
  | .test =>
    if s.availOffset < s.availSeen then
      match rb.strchr newline.toInt 0 with
      | .returns nl => some { s with pc := if 0 ≤ nl then .deliver nl.toNat else .sample }
      | _ => none
    else some { s with pc := .sample }
  | .deliver nl =>
    if rb.p rb.rhead ≠ hash ∧ rb.p rb.rhead ≠ newline then
      let line := window rb.p rb.alloc rb.rhead nl
      some { s with
        pc := .skip nl, nrels := s.nrels + 1
        delivered := if isActive active s.nrels then s.delivered ++ [(s.nrels, line)] else s.delivered }
    else some { s with pc := .skip nl }
  | .skip nl =>
    (s.pipe.step page (.skipGet (nl + 1))).map fun pipe =>
      { s with
        pipe, pc := .test, nB := s.nB + (nl + 1)
        availSeen := Ringbuf.sizeSub s.availSeen (nl + 1)
        availOffset := (s.availOffset + (nl + 1)) % 2 ^ 64 }
  | .ended => none

def Step (s s' : BackendCall) : Prop := (∃ a, s.produce page a = some s') ∨ s.read page active = some s'

/-- When the loop searches, a newline is readable, or the readable bytes reach the end of the
buffer without filling it. -/
def Searches : Prop :=
  s.pc = .test → s.availOffset < s.availSeen → newline ∈ s.pipe.rb.readable ∨
    s.pipe.rb.alloc - s.pipe.rb.rhead ≤ s.pipe.rb.availToRead ∧ s.pipe.rb.availToRead < s.pipe.rb.alloc

def MeetStep (s s' : BackendCall) : Prop := s.Searches ∧ Step page active s s'

end BackendCall

def relationLines (bytes : List Int8) : List (List Int8) :=
  (bytes.splitOn newline).filter fun line => line ≠ [] ∧ line.head? ≠ some hash

def numbered (active : Option (ℕ → Bool)) (lines : List (List Int8)) : List (ℕ × List Int8) :=
  (lines.zipIdx.map Prod.swap).filter fun x => BackendCall.isActive active x.1

def Whole (bytes : List Int8) : Prop := bytes = [] ∨ ∃ front, bytes = front ++ [newline]

variable {active : Option (ℕ → Bool)} {bytes line rest : List Int8} {lines : List (List Int8)}

theorem Whole.append_line : Whole (bytes ++ (line ++ [newline])) :=
  .inr ⟨bytes ++ line, by simp⟩

theorem relationLines_append (whole : Whole bytes) :
    relationLines (bytes ++ rest) = relationLines bytes ++ relationLines rest := by
  obtain rfl | ⟨front, rfl⟩ := whole
  · simp [relationLines]
  · unfold relationLines
    rw [List.append_assoc, List.singleton_append, List.splitOn_append_cons_self, List.splitOn_append_cons_self,
      List.filter_append, List.filter_append]
    simp

theorem relationLines_line (single : newline ∉ line) :
    relationLines (line ++ [newline]) = if line ≠ [] ∧ line.head? ≠ some hash then [line] else [] := by
  unfold relationLines
  rw [List.splitOn_append_cons_self, List.splitOn_eq_singleton single]
  by_cases relation : line ≠ [] ∧ line.head? ≠ some hash <;> simp [relation]

theorem numbered_append : numbered active (lines ++ [line]) = numbered active lines ++
    (if BackendCall.isActive active lines.length then [(lines.length, line)] else []) := by
  simp [numbered, List.zipIdx_append, List.filter_append, List.filter_cons]

theorem numbered_isPrefix {later : List (List Int8)} (front : lines <+: later) :
    numbered active lines <+: numbered active later := by
  obtain ⟨more, rfl⟩ := front
  unfold numbered
  rw [List.zipIdx_append, List.map_append, List.filter_append]
  exact List.prefix_append _ _

end CadoNfs.Utils

/-!
# Runs of the reading loop

The loop hands on the relation lines of its input in order, and once the producer is done it ends,
as long as its searches stay among readable bytes.
-/

namespace CadoNfs.Utils
open Lib Lib.Ring

namespace BackendCall

variable {page : ℕ} {active : Option (ℕ → Bool)} {s s' : BackendCall} {input : List Int8} {nl : ℕ}

def pending : Producer → List Int8
  | .fed _ _ chunk => chunk
  | _ => []

structure Source (input : List Int8) (pipe : Pipe) (todo : List (List Int8)) : Prop where
  sum : pipe.produced ++ pending pipe.producer ++ todo.flatten = input
  noPut : ∀ data, pipe.producer ≠ .putting data
  busy : pipe.producer ≠ .idle → todo ≠ []
  finished : pipe.rb.done → pipe.producer = .idle ∧ todo = []

structure Produces (input : List Int8) (s s' : BackendCall) : Prop where
  source : Source input s'.pipe s'.todo
  frame : s' = { s with pipe := s'.pipe, todo := s'.todo }
  consumed : s'.pipe.consumed = s.pipe.consumed
  produced : s.pipe.produced <+: s'.pipe.produced
  alloc : s'.pipe.rb.alloc = s.pipe.rb.alloc
  running : s.pipe.rb.done = false

theorem Source.running (source : Source input s.pipe s.todo) (busy : s.pipe.producer = .idle → s.todo ≠ []) :
    s.pipe.rb.done = false := by
  by_contra ended
  obtain ⟨idle, empty⟩ := source.finished (by simpa using ended)
  exact busy idle empty

theorem produces {a : PipeAction} (source : Source input s.pipe s.todo) (step : s.produce page a = some s') :
    Produces input s s' := by
  obtain ⟨⟨rb, producer, produced, consumed⟩, todo, pc, availSeen, availOffset, nrels, nB, delivered⟩ := s
  have sum := source.sum
  dsimp only at sum
  cases a with
  | feedStream =>
    rw [produce] at step
    split_ifs at step with empty
    obtain ⟨pipe, stepped, rfl⟩ := Option.map_eq_some_iff.mp step
    rw [Pipe.step] at stepped
    split_ifs at stepped with idle
    cases stepped
    have running := source.running fun _ => empty
    dsimp only at idle
    subst idle
    have going (ended : rb.done = true) : False := absurd (running.symm.trans ended) Bool.false_ne_true
    exact ⟨⟨sum, by simp, fun _ => empty, fun ended => (going ended).elim⟩, rfl, rfl, List.prefix_refl _, rfl, running⟩
  | refill =>
    obtain ⟨pipe, stepped, rfl⟩ := Option.map_eq_some_iff.mp step
    cases producer with
    | feeding nread wAvail =>
      cases wAvail with
      | zero =>
        rw [Pipe.step] at stepped
        dsimp only at stepped
        split_ifs at stepped
        cases stepped
        have running := source.running (by simp)
        have going (ended : rb.done = true) : False := absurd (running.symm.trans ended) Bool.false_ne_true
        have busy := source.busy (by simp)
        exact ⟨⟨sum, by simp, fun _ => busy, fun ended => (going ended).elim⟩, rfl, rfl, List.prefix_refl _, rfl,
          running⟩
      | succ wAvail => cases stepped
    | _ => cases stepped
  | fread chunk =>
    cases todo with
    | nil => cases step
    | cons rest files =>
      rw [produce] at step
      dsimp only at step
      obtain ⟨ok, step⟩ : (chunk <+: rest ∧ (chunk = [] → rest = [])) ∧ _ := Option.ite_none_right_eq_some.mp step
      obtain ⟨pipe, stepped, rfl⟩ := Option.map_eq_some_iff.mp step
      have running := source.running (by simp)
      have going (ended : rb.done = true) : False := absurd (running.symm.trans ended) Bool.false_ne_true
      cases producer with
      | feeding nread wAvail =>
        cases wAvail with
        | zero => cases stepped
        | succ wAvail =>
          rw [Pipe.step] at stepped
          dsimp only at stepped
          split_ifs at stepped with long ended
          · cases stepped
            refine ⟨⟨?_, by simp, by simp, fun ended => (going ended).elim⟩, rfl, rfl, List.prefix_refl _, rfl, running⟩
            simpa [pending, ended, ok.2 ended] using sum
          · cases stepped
            obtain ⟨later, rfl⟩ := ok.1
            refine ⟨⟨?_, by simp, by simp [ended], fun ended => (going ended).elim⟩, rfl, rfl, List.prefix_refl _, rfl,
              running⟩
            simpa [pending, ended] using sum
      | _ => cases stepped
  | publish =>
    obtain ⟨pipe, stepped, rfl⟩ := Option.map_eq_some_iff.mp step
    cases producer with
    | fed nread wAvail chunk =>
      cases stepped
      have running := source.running (by simp)
      have going (ended : rb.done = true) : False := absurd (running.symm.trans ended) Bool.false_ne_true
      have busy := source.busy (by simp)
      refine ⟨⟨?_, by simp, fun _ => busy, fun ended => (going ended).elim⟩, rfl, rfl, List.prefix_append _ _, rfl,
        running⟩
      simpa [pending] using sum
    | _ => cases stepped
  | markDone =>
    rw [produce] at step
    split_ifs at step with ready
    obtain ⟨pipe, stepped, rfl⟩ := Option.map_eq_some_iff.mp step
    rw [Pipe.step] at stepped
    split_ifs at stepped with idle
    cases stepped
    exact ⟨⟨sum, source.noPut, source.busy, fun _ => ⟨idle, ready.1⟩⟩, rfl, rfl, List.prefix_refl _, rfl, ready.2⟩
  | _ => cases step

structure LineEnd (bytes : List Int8) (nl : ℕ) : Prop where
  newline : bytes[nl]? = some newline
  first : CadoNfs.Utils.newline ∉ bytes.take nl

theorem LineEnd.lt {bytes : List Int8} (found : LineEnd bytes nl) : nl < bytes.length :=
  (List.getElem?_eq_some_iff.mp found.newline).1

theorem LineEnd.take_succ {bytes : List Int8} (found : LineEnd bytes nl) :
    bytes.take (nl + 1) = bytes.take nl ++ [CadoNfs.Utils.newline] := by
  rw [List.take_add_one, found.newline]
  rfl

theorem LineEnd.mono {bytes later : List Int8} (found : LineEnd bytes nl) (front : bytes <+: later) :
    LineEnd later nl ∧ later.take (nl + 1) = bytes.take (nl + 1) := by
  obtain ⟨more, rfl⟩ := front
  have lt := found.lt
  refine ⟨⟨?_, ?_⟩, List.take_append_of_le_length lt⟩
  · rw [List.getElem?_append_left lt]
    exact found.newline
  · rw [List.take_append_of_le_length lt.le]
    exact found.first

def taken (s : BackendCall) : List Int8 :=
  match s.pc with
  | .skip nl => s.pipe.consumed ++ s.pipe.rb.readable.take (nl + 1)
  | _ => s.pipe.consumed

def Seen (s : BackendCall) : Prop :=
  s.availSeen ≤ s.pipe.rb.availToRead ∨ s.availSeen < 2 ^ 64 ∧ 2 ^ 64 ≤ s.availSeen + s.pipe.consumed.length

/-- What holds at each place of the loop. Before its wait it has not seen a full buffer, or the
producer would wait for it. -/
def At (s : BackendCall) : Prop :=
  match s.pc with
  | .sample => s.availSeen ≠ s.pipe.rb.alloc
  | .test => s.Seen ∧ (s.availSeen = s.pipe.rb.alloc → s.availOffset = 0)
  | .deliver nl | .skip nl => s.Seen ∧ LineEnd s.pipe.rb.readable nl
  | .ended => s.pipe.rb.done ∧ s.pipe.rb.readable = []

structure Inv (active : Option (ℕ → Bool)) (input : List Int8) (s : BackendCall) : Prop where
  pipe : s.pipe.Inv
  source : Source input s.pipe s.todo
  small : s.pipe.rb.alloc < 2 ^ 31
  whole : Whole s.taken
  lines : s.delivered = numbered active (relationLines s.taken)
  count : s.nrels = (relationLines s.taken).length
  offset : s.availOffset ≤ s.pipe.consumed.length
  here : s.At

theorem length_readable : s.pipe.rb.readable.length = s.pipe.rb.availToRead := length_window

theorem Inv.consumed_prefix (inv : Inv active input s) : s.pipe.consumed ++ s.pipe.rb.readable <+: input := by
  rw [inv.pipe.inOrder, ← inv.source.sum, List.append_assoc]
  exact List.prefix_append _ _

theorem Inv.length_le (inv : Inv active input s) :
    s.pipe.consumed.length + s.pipe.rb.availToRead ≤ input.length := by
  have le := inv.consumed_prefix.length_le
  rwa [List.length_append, length_readable] at le

theorem readable_isPrefix (inv : s.pipe.Inv) (inv' : s'.pipe.Inv) (produced : Produces input s s') :
    s.pipe.rb.readable <+: s'.pipe.rb.readable := by
  have front := produced.produced
  rw [← inv.inOrder, ← inv'.inOrder, produced.consumed] at front
  exact (List.prefix_append_right_inj _).mp front

theorem Inv.produce {a : PipeAction} (inv : Inv active input s) (step : s.produce page a = some s')
    (pipe : s'.pipe.Inv) : Inv active input s' := by
  have produced := produces inv.source step
  have front := readable_isPrefix inv.pipe pipe produced
  have le := front.length_le
  rw [length_readable, length_readable] at le
  obtain ⟨source, frame, consumed, -, alloc, running⟩ := produced
  have pc : s'.pc = s.pc := by rw [frame]
  have availSeen : s'.availSeen = s.availSeen := by rw [frame]
  have availOffset : s'.availOffset = s.availOffset := by rw [frame]
  have delivered : s'.delivered = s.delivered := by rw [frame]
  have nrels : s'.nrels = s.nrels := by rw [frame]
  have seen (seen : s.Seen) : s'.Seen := by
    unfold Seen
    rw [availSeen, consumed]
    exact seen.imp_left le.trans'
  have here := inv.here
  have taken : s'.taken = s.taken := by
    rw [BackendCall.taken, BackendCall.taken, pc, consumed]
    cases at_ : s.pc with
    | skip nl =>
      rw [At, at_] at here
      exact congrArg _ (here.2.mono front).2
    | _ => rfl
  refine ⟨pipe, source, alloc ▸ inv.small, taken ▸ inv.whole, ?_, ?_, ?_, ?_⟩
  · rw [delivered, taken, inv.lines]
  · rw [nrels, taken, inv.count]
  · rw [availOffset, consumed]
    exact inv.offset
  · rw [At, pc, availSeen, availOffset, alloc]
    cases at_ : s.pc with
    | sample =>
      rw [At, at_] at here
      exact here
    | test =>
      rw [At, at_] at here
      exact ⟨seen here.1, here.2⟩
    | deliver nl =>
      rw [At, at_] at here
      exact ⟨seen here.1, (here.2.mono front).1⟩
    | skip nl =>
      rw [At, at_] at here
      exact ⟨seen here.1, (here.2.mono front).1⟩
    | ended =>
      rw [At, at_] at here
      exact absurd (running.symm.trans here.1) Bool.false_ne_true

theorem matches_newline {rb : Ringbuf} {i : ℕ} : rb.Matches newline.toInt i ↔ rb.readable[i]? = some newline := by
  constructor
  · rintro ⟨b, read, eq⟩
    rwa [Int8.toInt_inj.mp eq] at read
  · intro read
    exact ⟨_, read, rfl⟩

theorem lineEnd_of_isLeast {rb : Ringbuf} (least : IsLeast {i | 0 ≤ i ∧ rb.Matches newline.toInt i} nl) :
    LineEnd rb.readable nl := by
  refine ⟨matches_newline.mp least.1.2, fun member => ?_⟩
  obtain ⟨i, lt, eq⟩ := List.getElem_of_mem member
  rw [List.length_take] at lt
  rw [List.getElem_take] at eq
  have found : rb.Matches newline.toInt i := matches_newline.mpr (List.getElem?_eq_some_iff.mpr ⟨by omega, eq⟩)
  have le := least.2 ⟨Nat.zero_le _, found⟩
  omega

theorem search_cases {rb : Ringbuf} (valid : rb.Valid) (small : rb.alloc < 2 ^ 31)
    (meets : newline ∈ rb.readable ∨ rb.alloc - rb.rhead ≤ rb.availToRead ∧ rb.availToRead < rb.alloc) :
    (∃ nl : ℕ, rb.strchr newline.toInt 0 = .returns nl ∧ LineEnd rb.readable nl) ∨
      (rb.strchr newline.toInt 0 = .returns (-1) ∧ newline ∉ rb.readable ∧ rb.availToRead < rb.alloc) := by
  have le := valid.le
  have missing_iff : (∀ i ≥ 0, ¬ rb.Matches newline.toInt i) ↔ newline ∉ rb.readable := by
    constructor
    · intro missing member
      obtain ⟨i, lt, eq⟩ := List.getElem_of_mem member
      exact missing i (Nat.zero_le _) (matches_newline.mpr (List.getElem?_eq_some_iff.mpr ⟨lt, eq⟩))
    · intro missing i _ found
      exact missing (List.mem_of_getElem? (matches_newline.mp found))
  have searchable : rb.Searchable newline.toInt 0 := by
    refine ⟨Nat.zero_le _, ?_, fun i least => ?_, fun _ => by omega⟩
    · obtain found | ⟨reaches, -⟩ := meets
      · by_contra outside
        push Not at outside
        apply missing_iff.mp ?_ found
        intro i ge matched
        by_cases before : i < rb.alloc - rb.rhead
        · exact outside.1 i ge before matched
        · have lt := (Ringbuf.matches_iff.mp matched).1
          exact outside.2 (by omega) (.inl (Nat.zero_le _))
      · exact .inr ⟨reaches, .inl (Nat.zero_le _)⟩
    · have lt := (Ringbuf.matches_iff.mp least.1.2).1
      omega
  obtain ⟨n, answer, ⟨nl, rfl, least⟩ | ⟨rfl, missing⟩⟩ := searchable.correct valid
  · exact .inl ⟨nl, answer, lineEnd_of_isLeast least⟩
  · have absent := missing_iff.mp missing
    exact .inr ⟨answer, absent, (meets.resolve_left absent).2⟩

theorem relation_iff {rb : Ringbuf} (valid : rb.Valid) (found : LineEnd rb.readable nl) :
    (rb.readable.take nl ≠ [] ∧ (rb.readable.take nl).head? ≠ some hash) ↔
      rb.p rb.rhead ≠ hash ∧ rb.p rb.rhead ≠ newline := by
  have first : rb.readable[0]? = some (rb.p rb.rhead) := by
    have pos := Nat.zero_lt_of_lt found.lt
    rw [Ringbuf.readable, length_window] at pos
    rw [Ringbuf.readable, getElem?_window pos, cell_zero valid.rhead]
  cases nl with
  | zero =>
    have same := Option.some.inj (first.symm.trans found.newline)
    simp [same]
  | succ nl =>
    have nonempty : rb.readable.take (nl + 1) ≠ [] := by
      have lt := found.lt
      simp only [ne_eq, List.take_eq_nil_iff, not_or]
      exact ⟨Nat.succ_ne_zero nl, List.ne_nil_of_length_pos (by omega)⟩
    have head : (rb.readable.take (nl + 1)).head? = some (rb.p rb.rhead) := by
      rw [List.head?_take, if_neg (Nat.succ_ne_zero nl), List.head?_eq_getElem?, first]
    have other : rb.p rb.rhead ≠ newline := fun eq => found.first (eq ▸ List.mem_of_mem_head? head)
    simp [nonempty, head, other]

theorem seen_skip {n : ℕ} (seen : s.Seen) (valid : s.pipe.rb.Valid) (small : s.pipe.rb.alloc < 2 ^ 31)
    (le : n ≤ s.pipe.rb.availToRead) (pos : 0 < n) (short : s.pipe.consumed.length + n < 2 ^ 63) :
    (Ringbuf.sizeSub s.availSeen n ≤ s.pipe.rb.availToRead - n ∨ Ringbuf.sizeSub s.availSeen n < 2 ^ 64 ∧
      2 ^ 64 ≤ Ringbuf.sizeSub s.availSeen n + (s.pipe.consumed.length + n)) ∧
        Ringbuf.sizeSub s.availSeen n ≠ s.pipe.rb.alloc := by
  have le_alloc := valid.le
  obtain within | ⟨lt, wrapped⟩ := seen
  · by_cases enough : n ≤ s.availSeen
    · rw [Ringbuf.sizeSub_of_le enough (by omega)]
      exact ⟨.inl (by omega), by omega⟩
    · rw [Ringbuf.sizeSub_of_lt (by omega) (by omega)]
      exact ⟨.inr (by omega), by omega⟩
  · rw [Ringbuf.sizeSub_of_le (by omega) lt]
    exact ⟨.inr (by omega), by omega⟩

section
variable (inv : Inv active input s) (step : s.read page active = some s')
include inv step

theorem Inv.read_sample (at_ : s.pc = .sample) : Inv active input s' := by
  obtain ⟨piped, source, small, whole, lines, count, offset, here⟩ := inv
  simp only [taken, At, BackendCall.read, at_] at step whole lines count here
  split_ifs at step with waits finished
  · cases step
    refine ⟨piped, source, small, whole, lines, count, offset, finished.2, ?_⟩
    exact List.eq_nil_of_length_eq_zero (length_readable.trans finished.1)
  · cases step
    exact ⟨piped, source, small, whole, lines, count, Nat.zero_le _, .inl le_rfl, fun _ => rfl⟩

theorem Inv.read_test (at_ : s.pc = .test) (short : input.length < 2 ^ 63) (meets : s.Searches) :
    Inv active input s' := by
  have length_le := inv.length_le
  obtain ⟨piped, source, small, whole, lines, count, offset, here⟩ := inv
  have le_alloc := piped.valid.le
  simp only [taken, At, BackendCall.read, at_] at step whole lines count here
  split_ifs at step with inside
  · obtain ⟨nl, answer, found⟩ | ⟨answer, absent, room⟩ := search_cases piped.valid small (meets at_ inside)
    · rw [answer] at step
      cases step
      simp only [Int.natCast_nonneg, if_true, Int.toNat_natCast]
      exact ⟨piped, source, small, whole, lines, count, offset, here.1, found⟩
    · rw [answer] at step
      cases step
      refine ⟨piped, source, small, whole, lines, count, offset, ?_⟩
      change s.availSeen ≠ s.pipe.rb.alloc
      obtain seen | wrapped := here.1 <;> omega
  · cases step
    refine ⟨piped, source, small, whole, lines, count, offset, ?_⟩
    change s.availSeen ≠ s.pipe.rb.alloc
    intro full
    have zero := here.2 full
    have inside' := piped.valid.rhead
    omega

theorem Inv.read_deliver (at_ : s.pc = .deliver nl) : Inv active input s' := by
  obtain ⟨piped, source, small, whole, lines, count, offset, here⟩ := inv
  simp only [taken, At, BackendCall.read, at_] at step whole lines count here
  have first := relation_iff piped.valid here.2
  have line := relationLines_line here.2.first
  have added : relationLines (s.pipe.consumed ++ s.pipe.rb.readable.take (nl + 1)) = _ := relationLines_append whole
  have whole' : Whole (s.pipe.consumed ++ s.pipe.rb.readable.take (nl + 1)) := by
    rw [here.2.take_succ]
    exact Whole.append_line
  rw [← here.2.take_succ] at line
  rw [line] at added
  by_cases relation : s.pipe.rb.p s.pipe.rb.rhead ≠ hash ∧ s.pipe.rb.p s.pipe.rb.rhead ≠ newline
  · rw [if_pos relation] at step
    cases step
    rw [if_pos (first.mpr relation)] at added
    have window_eq : window s.pipe.rb.p s.pipe.rb.alloc s.pipe.rb.rhead nl = s.pipe.rb.readable.take nl :=
      (take_window (length_readable ▸ here.2.lt.le)).symm
    refine ⟨piped, source, small, whole', ?_, ?_, offset, here⟩
    · rw [taken]
      dsimp only
      rw [added, numbered_append, ← lines, ← count, ← window_eq]
      split <;> simp
    · rw [taken]
      dsimp only
      rw [added, List.length_append, ← count]
      rfl
  · rw [if_neg relation] at step
    cases step
    rw [if_neg (mt first.mp relation), List.append_nil] at added
    exact ⟨piped, source, small, whole', added ▸ lines, added ▸ count, offset, here⟩

theorem Inv.read_skip (at_ : s.pc = .skip nl) (short : input.length < 2 ^ 63) : Inv active input s' := by
  have length_le := inv.length_le
  obtain ⟨piped, source, small, whole, lines, count, offset, here⟩ := inv
  simp only [taken, At, BackendCall.read, at_] at step whole lines count here
  have lt := here.2.lt
  rw [length_readable] at lt
  obtain ⟨pipe, stepped, rfl⟩ := Option.map_eq_some_iff.mp step
  have piped' : pipe.Inv := piped.step (a := .skipGet (nl + 1)) lt stepped
  obtain ⟨rb, skipped, rfl⟩ := Option.map_eq_some_iff.mp stepped
  obtain ⟨valid, rest⟩ := Ringbuf.skipGet_spec piped.valid lt skipped
  obtain ⟨-, alloc, -, -⟩ := Ringbuf.skipGet_frame piped.valid lt skipped
  have done := Ringbuf.skipGet_done skipped
  have left : rb.availToRead = s.pipe.rb.availToRead - (nl + 1) := by
    have shorter := congrArg List.length rest
    rwa [Ringbuf.readable, length_window, List.length_drop, length_readable] at shorter
  have window_eq : window s.pipe.rb.p s.pipe.rb.alloc s.pipe.rb.rhead (nl + 1) =
      s.pipe.rb.readable.take (nl + 1) := (take_window lt).symm
  rw [← window_eq] at whole lines count
  have offset' : (s.availOffset + (nl + 1)) % 2 ^ 64 = s.availOffset + (nl + 1) := Nat.mod_eq_of_lt (by omega)
  refine ⟨piped', ⟨source.sum, source.noPut, source.busy, done ▸ source.finished⟩, alloc ▸ small, whole, lines, count,
    ?_, ?_⟩
  · dsimp only
    rw [offset', List.length_append, length_window]
    omega
  · obtain ⟨seen, apart⟩ := seen_skip here.1 piped.valid small (by omega : nl + 1 ≤ s.pipe.rb.availToRead)
      (by omega) (by omega)
    refine ⟨?_, fun full => absurd (full.trans alloc) apart⟩
    rw [Seen]
    dsimp only
    rwa [left, List.length_append, length_window]

theorem Inv.read (short : input.length < 2 ^ 63) (meets : s.Searches) : Inv active input s' := by
  cases at_ : s.pc with
  | sample => exact inv.read_sample step at_
  | test => exact inv.read_test step at_ short meets
  | deliver nl => exact inv.read_deliver step at_
  | skip nl => exact inv.read_skip step at_ short
  | ended =>
    rw [BackendCall.read, at_] at step
    cases step

end

end BackendCall
end CadoNfs.Utils
