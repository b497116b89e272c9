import CadoNfs.Utils.BackendCall

/-!
# The end of the reading loop

The loop never waits for a producer that waits for it, and once the producer is done it makes only
finitely many steps.
-/

namespace CadoNfs.Utils
open Lib Lib.Ring

namespace BackendCall

variable {page : ℕ} {active : Option (ℕ → Bool)} {s s' : BackendCall} {input : List Int8} {nl : ℕ}

theorem Inv.exists_produce (inv : Inv active input s) (running : s.pipe.rb.done = false)
    (room : s.pipe.rb.availToWrite ≠ 0) : ∃ a s', s.produce page a = some s' := by
  obtain ⟨⟨rb, producer, produced, consumed⟩, todo, pc, availSeen, availOffset, nrels, nB, delivered⟩ := s
  have inside := inv.pipe.valid.whead_lt
  dsimp only at running room inside
  cases producer with
  | idle =>
    by_cases empty : todo = []
    · exact ⟨.markDone, _, by rw [BackendCall.produce, if_pos ⟨empty, running⟩]; rfl⟩
    · exact ⟨.feedStream, _, by rw [BackendCall.produce, if_neg empty]; rfl⟩
  | putting data => exact absurd rfl (inv.source.noPut data)
  | feeding nread wAvail =>
    cases wAvail with
    | zero => exact ⟨.refill, _, congrArg (Option.map _) (if_neg room)⟩
    | succ wAvail =>
      have busy := inv.source.busy (by simp)
      have feedable : 1 ≤ rb.feedable (wAvail + 1) := by
        rw [Ringbuf.feedable, Ringbuf.preemptOneRead]
        omega
      obtain ⟨rest, files, rfl⟩ := List.exists_cons_of_ne_nil busy
      cases rest with
      | nil =>
        refine ⟨.fread [], ?_⟩
        rw [BackendCall.produce]
        dsimp only
        rw [if_pos ⟨List.prefix_refl _, fun _ => rfl⟩, Pipe.step]
        dsimp only
        have fits : ¬ rb.feedable (wAvail + 1) < ([] : List Int8).length := Nat.not_lt_zero _
        rw [if_neg fits]
        exact ⟨_, rfl⟩
      | cons b rest =>
        refine ⟨.fread [b], ?_⟩
        rw [BackendCall.produce]
        dsimp only
        rw [if_pos ⟨by simp, by simp⟩, Pipe.step]
        dsimp only
        have fits : ¬ rb.feedable (wAvail + 1) < [b].length := Nat.not_lt.mpr feedable
        rw [if_neg fits]
        exact ⟨_, rfl⟩
  | fed nread wAvail chunk => exact ⟨.publish, _, rfl⟩

theorem Inv.proceeds (inv : Inv active input s) (meets : s.Searches) (going : s.pc ≠ .ended) :
    ∃ s', Step page active s s' := by
  have here := inv.here
  have sum := inv.pipe.valid.sum
  rw [At] at here
  cases at_ : s.pc with
  | sample =>
    simp only [at_] at here
    by_cases waits : s.pipe.rb.availToRead = s.availSeen ∧ s.pipe.rb.done = false
    · obtain ⟨a, s', step⟩ : ∃ a s', s.produce page a = some s' := inv.exists_produce waits.2 (by omega)
      exact ⟨s', .inl ⟨a, step⟩⟩
    · have reads : ∃ s', s.read page active = some s' := by
        rw [BackendCall.read]
        simp only [at_, if_neg waits]
        split_ifs
        · exact ⟨_, rfl⟩
        · exact ⟨_, rfl⟩
      exact reads.imp fun _ step => .inr step
  | test =>
    have reads : ∃ s', s.read page active = some s' := by
      rw [BackendCall.read]
      simp only [at_]
      split_ifs with inside
      · obtain ⟨nl, answer, -⟩ | ⟨answer, -⟩ := search_cases inv.pipe.valid inv.small (meets at_ inside)
        · rw [answer]
          exact ⟨_, rfl⟩
        · rw [answer]
          exact ⟨_, rfl⟩
      · exact ⟨_, rfl⟩
    exact reads.imp fun _ step => .inr step
  | deliver nl =>
    have reads : ∃ s', s.read page active = some s' := by
      rw [BackendCall.read]
      simp only [at_]
      by_cases relation : s.pipe.rb.p s.pipe.rb.rhead ≠ hash ∧ s.pipe.rb.p s.pipe.rb.rhead ≠ newline
      · exact ⟨_, if_pos relation⟩
      · exact ⟨_, if_neg relation⟩
    exact reads.imp fun _ step => .inr step
  | skip nl =>
    simp only [at_] at here
    have lt := here.2.lt
    rw [length_readable] at lt
    have le := inv.pipe.valid.le
    have reads : ∃ s', s.read page active = some s' := by
      rw [BackendCall.read]
      simp only [at_]
      rw [Pipe.step, Ringbuf.skipGet, if_neg (by omega)]
      exact ⟨_, rfl⟩
    exact reads.imp fun _ step => .inr step
  | ended => exact absurd at_ going

def remaining (s : BackendCall) : ℕ :=
  5 * s.pipe.rb.availToRead + match s.pc with
    | .sample => 3
    | .test => if s.availOffset < s.availSeen then 2 else 4
    | .deliver _ => 1
    | .skip _ | .ended => 0

theorem Inv.mem_readable (inv : Inv active input s) (whole : Whole input) (done : s.pipe.rb.done)
    (some : s.pipe.rb.availToRead ≠ 0) : newline ∈ s.pipe.rb.readable := by
  obtain ⟨idle, empty⟩ := inv.source.finished done
  have sum := inv.source.sum
  rw [← inv.pipe.inOrder, idle, empty] at sum
  simp only [pending, List.flatten_nil, List.append_nil] at sum
  have nonempty : s.pipe.rb.readable ≠ [] := by
    rw [← length_readable] at some
    exact List.ne_nil_of_length_pos (Nat.pos_of_ne_zero some)
  obtain rfl | ⟨front, rfl⟩ := whole
  · exact absurd (List.append_eq_nil_iff.mp sum).2 nonempty
  · have last := congrArg List.getLast? sum
    rw [List.getLast?_append_of_ne_nil _ nonempty, List.getLast?_concat] at last
    exact List.mem_of_getLast? last

theorem Inv.remaining_lt (inv : Inv active input s) (whole : Whole input) (done : s.pipe.rb.done)
    (step : MeetStep page active s s') : s'.pipe.rb.done ∧ s'.remaining < s.remaining := by
  obtain ⟨meets, ⟨a, produced⟩ | step⟩ := step
  · exact absurd (done.symm.trans (produces inv.source produced).running) (by decide)
  have here := inv.here
  rw [At] at here
  rw [BackendCall.read] at step
  rw [remaining, remaining]
  cases at_ : s.pc with
  | sample =>
    simp only [at_] at step
    split_ifs at step with waits finished
    · cases step
      exact ⟨done, by simp⟩
    · cases step
      have some : 0 < s.pipe.rb.availToRead := Nat.pos_of_ne_zero fun zero => finished ⟨zero, done⟩
      exact ⟨done, by simp [some]⟩
  | test =>
    simp only [at_] at step ⊢
    split_ifs at step with inside
    · obtain ⟨nl, answer, found⟩ | ⟨answer, absent, room⟩ :=
        search_cases inv.pipe.valid inv.small (meets at_ inside)
      · rw [answer] at step
        cases step
        exact ⟨done, by simp [inside]⟩
      · have some : s.pipe.rb.availToRead ≠ 0 := by
          have reaches := (meets at_ inside).resolve_left absent
          have valid := inv.pipe.valid.rhead
          omega
        exact absurd (inv.mem_readable whole done some) absent
    · cases step
      exact ⟨done, by simp [inside]⟩
  | deliver nl =>
    simp only [at_] at step ⊢
    by_cases relation : s.pipe.rb.p s.pipe.rb.rhead ≠ hash ∧ s.pipe.rb.p s.pipe.rb.rhead ≠ newline
    · cases (if_pos relation).symm.trans step
      exact ⟨done, by simp⟩
    · cases (if_neg relation).symm.trans step
      exact ⟨done, by simp⟩
  | skip nl =>
    simp only [at_] at step here ⊢
    have lt := here.2.lt
    rw [length_readable] at lt
    obtain ⟨pipe, stepped, rfl⟩ := Option.map_eq_some_iff.mp step
    obtain ⟨rb, skipped, rfl⟩ := Option.map_eq_some_iff.mp stepped
    obtain ⟨valid, rest⟩ := Ringbuf.skipGet_spec inv.pipe.valid lt skipped
    refine ⟨(Ringbuf.skipGet_done skipped).trans done, ?_⟩
    have left := congrArg List.length rest
    rw [Ringbuf.readable, length_window, List.length_drop, length_readable] at left
    dsimp only
    split <;> omega
  | ended =>
    simp only [at_] at step
    cases step

theorem meetStep_of_produce {a : PipeAction} (step : s.produce page a = some s') :
    Pipe.MeetStep page s.pipe s'.pipe := by
  cases a with
  | feedStream =>
    rw [BackendCall.produce] at step
    split_ifs at step
    obtain ⟨pipe, stepped, rfl⟩ := Option.map_eq_some_iff.mp step
    exact ⟨.feedStream, trivial, stepped⟩
  | refill =>
    obtain ⟨pipe, stepped, rfl⟩ := Option.map_eq_some_iff.mp step
    exact ⟨.refill, trivial, stepped⟩
  | fread chunk =>
    rw [BackendCall.produce] at step
    split at step
    · cases step
    · obtain ⟨-, step⟩ := Option.ite_none_right_eq_some.mp step
      obtain ⟨pipe, stepped, rfl⟩ := Option.map_eq_some_iff.mp step
      exact ⟨.fread chunk, trivial, stepped⟩
  | publish =>
    obtain ⟨pipe, stepped, rfl⟩ := Option.map_eq_some_iff.mp step
    exact ⟨.publish, trivial, stepped⟩
  | markDone =>
    rw [BackendCall.produce] at step
    split_ifs at step
    obtain ⟨pipe, stepped, rfl⟩ := Option.map_eq_some_iff.mp step
    exact ⟨.markDone, trivial, stepped⟩
  | _ => cases step

theorem Inv.step (inv : Inv active input s) (short : input.length < 2 ^ 63) (step : MeetStep page active s s') :
    Inv active input s' := by
  obtain ⟨meets, ⟨a, produced⟩ | step⟩ := step
  · apply inv.produce produced
    obtain ⟨a, meets, stepped⟩ := meetStep_of_produce produced
    exact inv.pipe.step meets stepped
  · exact inv.read step short meets

theorem Inv.terminates (inv : Inv active input s) (short : input.length < 2 ^ 63) (whole : Whole input)
    (done : s.pipe.rb.done) : Acc (fun later now => MeetStep page active now later) s := by
  induction size : s.remaining using Nat.strong_induction_on generalizing s with
  | _ n ih =>
    subst size
    refine ⟨_, fun s' step => ?_⟩
    obtain ⟨done', lt⟩ := inv.remaining_lt whole done step
    exact ih _ lt (inv.step short step) done' rfl

structure Holds (page : ℕ) (active : Option (ℕ → Bool)) (input : List Int8) (s : BackendCall) : Prop where
  inOrder : s.delivered <+: numbered active (relationLines input)
  complete : s.pc = .ended → s.delivered = numbered active (relationLines input)
  proceeds : s.Searches → s.pc ≠ .ended → ∃ s', Step page active s s'
  terminates : s.pipe.rb.done → Acc (fun later now => MeetStep page active now later) s

theorem Inv.holds (inv : Inv active input s) (short : input.length < 2 ^ 63) (whole : Whole input) :
    s.Holds page active input where
  inOrder := by
    have front : s.taken <+: input := by
      refine List.IsPrefix.trans ?_ inv.consumed_prefix
      unfold taken
      split
      · exact (List.prefix_append_right_inj _).mpr (List.take_prefix _ _)
      · exact List.prefix_append _ _
    obtain ⟨rest, rfl⟩ := front
    rw [inv.lines, relationLines_append inv.whole]
    exact numbered_isPrefix (List.prefix_append _ _)
  complete ended := by
    have here := inv.here
    have sum := inv.source.sum
    have lines := inv.lines
    rw [At, ended] at here
    rw [taken, ended] at lines
    obtain ⟨idle, empty⟩ := inv.source.finished here.1
    rw [← inv.pipe.inOrder, idle, empty, here.2] at sum
    simp only [pending, List.flatten_nil, List.append_nil] at sum
    rw [← sum]
    exact lines
  proceeds := inv.proceeds
  terminates := inv.terminates short whole

theorem make_small {rb : Ringbuf} (made : Ringbuf.make page 0 = some rb) (pages : page < 2 ^ 30) :
    rb.alloc < 2 ^ 31 ∧ rb.done = false := by
  have le : Ringbuf.preemptBuf - 1 ||| page < 2 ^ 30 := Nat.or_lt_two_pow (by decide) pages
  rw [Ringbuf.make, if_pos rfl, Ringbuf.grow, if_neg (by decide)] at made
  split_ifs at made
  cases made
  refine ⟨?_, rfl⟩
  dsimp only
  rw [Ringbuf.newalloc, if_neg (by decide)]
  omega

theorem Inv.start {rb : Ringbuf} {files : List (List Int8)} (made : Ringbuf.make page 0 = some rb)
    (pages : page < 2 ^ 30) : Inv active files.flatten (start rb files) := by
  have piped : (Pipe.start rb).Inv := Pipe.Inv.start made
  obtain ⟨small, new⟩ := make_small made pages
  have source : Source files.flatten (Pipe.start rb) files :=
    ⟨List.nil_append _, nofun, fun busy => absurd rfl busy,
      fun ended => absurd (new.symm.trans ended) Bool.false_ne_true⟩
  exact ⟨piped, source, small, .inl rfl, rfl, rfl, Nat.zero_le _, (Nat.zero_lt_of_lt piped.valid.rhead).ne⟩

/-- For an input that ends in a newline, in every run whose searches meet the condition, the loop hands
on the relation lines in order, and it ends once the producer is done. -/
theorem holds_of_searches {page : ℕ} {active : Option (ℕ → Bool)} {files : List (List Int8)} {rb : Ringbuf}
    {s : BackendCall} (made : Ringbuf.make page 0 = some rb) (pages : page < 2 ^ 30) (whole : Whole files.flatten)
    (short : files.flatten.length < 2 ^ 63)
    (run : Relation.ReflTransGen (MeetStep page active) (BackendCall.start rb files) s) :
    s.Holds page active files.flatten := by
  have inv := invariant_of_run (Inv active files.flatten) (fun _ _ inv step => inv.step short step)
    (Inv.start made pages) run
  exact inv.holds short whole

def fileRing : Ringbuf := ⟨fun _ => 0, 4194304, 0, 4194304, 0, 0, false⟩

theorem make_fileRing : Ringbuf.make 4096 0 = some fileRing := rfl

theorem holds_of_searches_line : ∃ s, Relation.ReflTransGen (MeetStep 4096 none) (start fileRing [[55, 10]]) s ∧
    s.delivered = [(0, [55])] ∧ s.Holds 4096 none [55, 10] := by
  have run : ∃ s, Relation.ReflTransGen (MeetStep 4096 none) (start fileRing [[55, 10]]) s ∧
      s.delivered = [(0, [55])] := by
    refine exists_run_head ⟨(nomatch ·), .inl ⟨.feedStream, rfl⟩⟩ ?_
    refine exists_run_head ⟨(nomatch ·), .inl ⟨.fread [55, 10], rfl⟩⟩ ?_
    refine exists_run_head ⟨(nomatch ·), .inl ⟨.publish, rfl⟩⟩ ?_
    refine exists_run_head ⟨(nomatch ·), .inr rfl⟩ ?_
    refine exists_run_head ⟨fun _ _ => .inl (List.mem_of_getElem? (rfl : _[1]? = _)), .inr rfl⟩ ?_
    refine exists_run_head ⟨(nomatch ·), .inr rfl⟩ ?_
    exact ⟨_, .refl, rfl⟩
  obtain ⟨s, run, delivered⟩ := run
  exact ⟨s, run, delivered, holds_of_searches make_fileRing (by decide) (.inr ⟨[55], rfl⟩) (by decide) run⟩

theorem strchr_unterminated :
    (((fileRing.fread [55]).publish 1).markDone).strchr newline.toInt 0 = .undefined := by
  have none (i : ℕ) : ((copy (fun _ => (0 : Int8)) 0 [55]) i).toInt ≠ newline.toInt := by
    cases i with
    | zero => decide
    | succ i =>
      rw [copy_of_notMem (.inr (by simp))]
      decide
  have scans := @Ringbuf.scans_strchr ((fileRing.fread [55]).publish 1).markDone newline.toInt 0
    (Nat.zero_le _)
  generalize answer : Ringbuf.strchr _ newline.toInt 0 = found at scans
  cases scans with
  | before s _ _ eq => exact absurd eq (none _)
  | behind t _ _ _ _ eq => exact absurd eq (none _)
  | nowhere _ le => exact absurd le (by decide)
  | escapes => rfl

/-- A file without a final newline: once the producer is done, the loop searches the newline behind
the buffer. -/
theorem not_terminates_unterminated : ∃ s, Relation.ReflTransGen (Step 4096 none) (start fileRing [[55]]) s ∧
    s.pipe.rb.done ∧ s.pc ≠ .ended ∧ ∀ s', ¬ Step 4096 none s s' := by
  have run : ∃ s, Relation.ReflTransGen (Step 4096 none) (start fileRing [[55]]) s ∧
      s.pipe.rb = ((fileRing.fread [55]).publish 1).markDone ∧ s.pipe.producer = .idle ∧ s.todo = [] ∧
        s.pc = .test ∧ s.availOffset < s.availSeen := by
    refine exists_run_head (.inl ⟨.feedStream, rfl⟩) ?_
    refine exists_run_head (.inl ⟨.fread [55], rfl⟩) ?_
    refine exists_run_head (.inl ⟨.publish, rfl⟩) ?_
    refine exists_run_head (.inl ⟨.fread [], rfl⟩) ?_
    refine exists_run_head (.inl ⟨.markDone, rfl⟩) ?_
    refine exists_run_head (.inr rfl) ?_
    exact ⟨_, .refl, rfl, rfl, rfl, rfl, Nat.zero_lt_one⟩
  obtain ⟨s, run, rb, idle, empty, at_, inside⟩ := run
  have done : s.pipe.rb.done = true := by rw [rb]; rfl
  refine ⟨s, run, done, by simp [at_], ?_⟩
  rintro s' (⟨a, produced⟩ | step)
  · cases a with
    | feedStream => simp [produce, empty] at produced
    | refill => simp [produce, Pipe.step, idle] at produced
    | fread chunk => simp [produce, empty] at produced
    | publish => simp [produce, Pipe.step, idle] at produced
    | markDone => simp [produce, done] at produced
    | _ => cases produced
  · rw [read] at step
    simp only [at_, if_pos inside, rb, strchr_unterminated] at step
    cases step

end BackendCall
end CadoNfs.Utils
