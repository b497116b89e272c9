import CadoNfs.Lib.Run

/-!
# Clients of remote servers

A client posts tasks to servers and collects their answers, by messages with tags. Whatever the
order in which the messages and answers travel, it does what it does when each answer is there at once.
-/

namespace CadoNfs.Lib.Farm

variable {ι τ ρ σ α : Type*}

inductive ClientMove (ι τ ρ σ : Type*)
  | post (i : ι) (tag : ℕ) (x : τ) (c : σ)
  | collect (i : ι) (tag : ℕ) (resume : ρ → Option σ)
  | go (c : σ)
  | halt

structure Server (τ ρ : Type*) where
  turn : ℕ
  job : Option τ
  left : Bool
  inbox : List (ℕ × τ)
  outbox : List (ℕ × ρ)

def Server.idle (turn : ℕ) : Server τ ρ := ⟨turn, none, false, [], []⟩

def receive (tag : ℕ) (box : List (ℕ × α)) : Option (α × List (ℕ × α)) :=
  (box.find? fun m => m.1 = tag).map fun m => (m.2, box.eraseP fun m => m.1 = tag)

def Server.step (f : τ → Option ρ) (u : Server τ ρ) : Option (Server τ ρ) :=
  if u.left then none
  else match u.job with
  | none => (receive u.turn u.inbox).map fun (x, inbox) =>
    if (f x).isSome then { u with job := some x, inbox } else { u with left := true, inbox }
  | some x => (f x).map fun y => { u with turn := u.turn + 1, job := none, outbox := u.outbox ++ [(u.turn, y)] }

structure Net (ι τ ρ σ : Type*) where
  client : σ
  servers : ι → Server τ ρ

inductive Slot (τ : Type*)
  | free (turn : ℕ)
  | asked (turn : ℕ) (x : τ)

structure Direct (ι τ σ : Type*) where
  client : σ
  slots : ι → Slot τ

variable [DecidableEq ι] (next : σ → ClientMove ι τ ρ σ) (f : τ → Option ρ)

inductive NetStep : Net ι τ ρ σ → Net ι τ ρ σ → Prop
  | go {s c} : next s.client = .go c → NetStep s { s with client := c }
  | post {s i tag x c} : next s.client = .post i tag x c →
      NetStep s ⟨c, Function.update s.servers i { s.servers i with inbox := (s.servers i).inbox ++ [(tag, x)] }⟩
  | collect {s i tag resume y outbox c} : next s.client = .collect i tag resume →
      receive tag (s.servers i).outbox = some (y, outbox) → resume y = some c →
      NetStep s ⟨c, Function.update s.servers i { s.servers i with outbox }⟩
  | serve {s i u} : (s.servers i).step f = some u → NetStep s { s with servers := Function.update s.servers i u }

inductive DirectStep : Direct ι τ σ → Direct ι τ σ → Prop
  | go {d c} : next d.client = .go c → DirectStep d { d with client := c }
  | post {d i tag x c} : next d.client = .post i tag x c → d.slots i = .free tag →
      DirectStep d ⟨c, Function.update d.slots i (.asked tag x)⟩
  | collect {d i tag resume x y c} : next d.client = .collect i tag resume → d.slots i = .asked tag x →
      f x = some y → resume y = some c → DirectStep d ⟨c, Function.update d.slots i (.free (tag + 1))⟩

def Polite (d : Direct ι τ σ) : Prop := ∀ i tag x c, next d.client = .post i tag x c → d.slots i = .free tag

inductive Linked : Slot τ → Server τ ρ → Prop
  | free {turn} : Linked (.free turn) (.idle turn)
  | sent {turn x} : Linked (.asked turn x) ⟨turn, none, false, [(turn, x)], []⟩
  | busy {turn x y} : f x = some y → Linked (.asked turn x) ⟨turn, some x, false, [], []⟩
  | answered {turn x y} : f x = some y → Linked (.asked turn x) ⟨turn + 1, none, false, [], [(turn, y)]⟩
  | left {turn x} : f x = none → Linked (.asked turn x) ⟨turn, none, true, [], []⟩

structure Sim (d : Direct ι τ σ) (s : Net ι τ ρ σ) : Prop where
  client : d.client = s.client
  linked : ∀ i, Linked f (d.slots i) (s.servers i)

variable {next f} {slot : Slot τ} {u u' : Server τ ρ} {d d' : Direct ι τ σ} {s s' : Net ι τ ρ σ} {i : ι} {tag : ℕ}
  {x : τ} {y : ρ}

@[simp] theorem receive_singleton (m : α) : receive tag [(tag, m)] = some (m, []) := by simp [receive]

@[simp] theorem receive_nil : receive tag ([] : List (ℕ × α)) = none := rfl

def Server.work (u : Server τ ρ) : ℕ := 2 * u.inbox.length + if u.job.isSome then 1 else 0

theorem Linked.serve (linked : Linked f slot u) (step : u.step f = some u') : Linked f slot u' ∧ u'.work < u.work := by
  cases linked with
  | free => cases step
  | @sent turn x =>
    cases answer : f x with
    | none =>
      obtain rfl : ⟨turn, none, true, [], []⟩ = u' := by simpa [Server.step, answer] using step
      exact ⟨.left answer, by simp [Server.work]⟩
    | some y =>
      obtain rfl : ⟨turn, some x, false, [], []⟩ = u' := by simpa [Server.step, answer] using step
      exact ⟨.busy answer, by simp [Server.work]⟩
  | busy answer =>
    simp only [Server.step, answer] at step
    cases step
    exact ⟨.answered answer, by simp [Server.work]⟩
  | answered => cases step
  | left => cases step

theorem Linked.proceeds (linked : Linked f (.asked tag x) u) (answer : f x = some y) :
    u = ⟨tag + 1, none, false, [], [(tag, y)]⟩ ∨ ∃ u', u.step f = some u' := by
  cases linked with
  | sent => exact .inr ⟨_, by rw [Server.step]; simp only [receive_singleton]; rfl⟩
  | busy some => exact .inr ⟨_, by rw [Server.step]; simp only [some]; rfl⟩
  | answered some =>
    obtain rfl := Option.some.inj (some.symm.trans answer)
    exact .inl rfl
  | left none => exact absurd (none.symm.trans answer) (by simp)

theorem Linked.answer {outbox : List (ℕ × ρ)} (linked : Linked f slot u)
    (received : receive tag u.outbox = some (y, outbox)) :
    ∃ x, slot = .asked tag x ∧ f x = some y ∧ { u with outbox } = .idle (tag + 1) := by
  cases linked with
  | free => cases received
  | sent => cases received
  | busy => cases received
  | @answered turn x y' some =>
    by_cases same : turn = tag
    · subst same
      rw [receive_singleton] at received
      cases received
      exact ⟨x, rfl, some, rfl⟩
    · simp [receive, same] at received
  | left => cases received

theorem linked_update {slots : ι → Slot τ} {servers : ι → Server τ ρ} (linked : ∀ j, Linked f (slots j) (servers j))
    (here : Linked f slot u) (j : ι) : Linked f (Function.update slots i slot j) (Function.update servers i u j) := by
  by_cases same : j = i
  · subst same
    rwa [Function.update_self, Function.update_self]
  · rw [Function.update_of_ne same, Function.update_of_ne same]
    exact linked j

def Net.work [Fintype ι] (s : Net ι τ ρ σ) : ℕ := ∑ i, (s.servers i).work

theorem Sim.step [Fintype ι] (sim : Sim f d s) (polite : Polite next d) (step : NetStep next f s s') :
    (∃ d', DirectStep next f d d' ∧ Sim f d' s') ∨ (Sim f d s' ∧ s'.work < s.work) := by
  obtain ⟨client, linked⟩ := sim
  cases step with
  | go move => exact .inl ⟨_, .go (client ▸ move), rfl, linked⟩
  | @post i tag x c move =>
    have free := polite i tag x c (client ▸ move)
    have here := linked i
    rw [free] at here
    generalize s.servers i = u at here
    refine .inl ⟨_, .post (client ▸ move) free, rfl, ?_⟩
    cases here
    exact linked_update linked .sent
  | @collect i tag resume y outbox c move received resumed =>
    obtain ⟨x, asked, answer, idle⟩ := (linked i).answer received
    refine .inl ⟨_, .collect (client ▸ move) asked answer resumed, rfl, ?_⟩
    dsimp only
    rw [idle]
    exact linked_update linked .free
  | @serve i u served =>
    obtain ⟨here, less⟩ := (linked i).serve served
    refine .inr ⟨⟨client, fun j => ?_⟩, ?_⟩
    · have kept := linked_update (i := i) linked here j
      rwa [Function.update_eq_self] at kept
    · apply Finset.sum_lt_sum
      · intro j _
        dsimp only
        by_cases same : j = i
        · subst same
          rw [Function.update_self]
          exact less.le
        · rw [Function.update_of_ne same]
      · refine ⟨i, Finset.mem_univ i, ?_⟩
        dsimp only
        rwa [Function.update_self]

theorem Sim.proceeds (sim : Sim f d s) (step : DirectStep next f d d') : ∃ s', NetStep next f s s' := by
  obtain ⟨client, linked⟩ := sim
  cases step with
  | go move => exact ⟨_, .go (client ▸ move)⟩
  | post move free => exact ⟨_, .post (client ▸ move)⟩
  | @collect i tag resume x y c move asked answer resumed =>
    have here := linked i
    rw [asked] at here
    obtain there | ⟨u, served⟩ := here.proceeds answer
    · have received : receive tag (s.servers i).outbox = some (y, []) := by rw [there, receive_singleton]
      exact ⟨_, .collect (client ▸ move) received resumed⟩
    · exact ⟨_, .serve served⟩

variable [Fintype ι] {Inv : Direct ι τ σ → Prop}

theorem Sim.run (preserves : ∀ d d', Inv d → DirectStep next f d d' → Inv d') (polite : ∀ d, Inv d → Polite next d)
    (inv : Inv d) (sim : Sim f d s) (run : Relation.ReflTransGen (NetStep next f) s s') :
    ∃ d', Relation.ReflTransGen (DirectStep next f) d d' ∧ Inv d' ∧ Sim f d' s' := by
  induction run with
  | refl => exact ⟨d, .refl, inv, sim⟩
  | tail _ step ih =>
    obtain ⟨d₁, reached, inv₁, sim₁⟩ := ih
    obtain ⟨d₂, next_step, sim₂⟩ | ⟨sim₂, -⟩ := sim₁.step (polite d₁ inv₁) step
    · exact ⟨d₂, reached.tail next_step, preserves d₁ d₂ inv₁ next_step, sim₂⟩
    · exact ⟨d₁, reached, inv₁, sim₂⟩

theorem Sim.acc (preserves : ∀ d d', Inv d → DirectStep next f d d' → Inv d') (polite : ∀ d, Inv d → Polite next d)
    (inv : Inv d) (sim : Sim f d s) (stops : Acc (fun d' d => DirectStep next f d d') d) :
    Acc (fun s' s => NetStep next f s s') s := by
  induction stops generalizing s with
  | intro d _ ih =>
    generalize bound : s.work = n
    induction n using Nat.strong_induction_on generalizing s with
    | _ n ihn =>
      constructor
      intro s' step
      obtain ⟨d', next_step, sim'⟩ | ⟨sim', less⟩ := sim.step (polite d inv) step
      · exact ih d' next_step (preserves d d' inv next_step) sim'
      · exact ihn s'.work (bound ▸ less) sim' rfl

end CadoNfs.Lib.Farm
