import Mathlib

/-!
# The servers of a client

`Server` and `ServerPool` of `cado-nfs-client.py`. There is at least one server.
-/

namespace CadoNfs.Cadofactor

structure Server where
  enable : Bool
  workedOnce : Bool
  /-- Whether the server needs a certificate. -/
  cafile : Bool
  certDownloaded : Bool

/-- An attempt to download a certificate: `failed` stands for an exception or a wrong fingerprint. -/
inductive CertAnswer
  | obtained
  | refused
  | failed

inductive CertResult
  | yes (S : Server)
  | no (asked : Bool)
  | failed

def Server.getCertificate (S : Server) (answer : CertAnswer) : CertResult :=
  if S.enable = false then .no false
  else if S.certDownloaded then .yes S
  else if S.cafile = false then .yes S
  else
    match answer with
    | .obtained => .yes { S with certDownloaded := true }
    | .refused => .no true
    | .failed => .failed

structure ServerPool (n : ℕ) where
  servers : Fin (n + 1) → Server
  ndisabled : ℕ
  currentIndex : Fin (n + 1)

inductive PoolResult (n : ℕ)
  | server (pool : ServerPool n)
  | noMoreServers (pool : ServerPool n)
  | failed (pool : ServerPool n)
  | running

namespace ServerPool

variable {n : ℕ}

def numberOfActiveServers (pool : ServerPool n) : ℤ := (n + 1 : ℕ) - pool.ndisabled

def current (pool : ServerPool n) : Server := pool.servers pool.currentIndex

/-- Each try looks at the current server; `asked` counts the attempts to download a certificate. -/
def search (answers : ℕ → CertAnswer) : ℕ → ServerPool n → ℕ → PoolResult n
  | 0, _, _ => .running
  | tries + 1, pool, asked =>
    match pool.current.getCertificate (answers asked) with
    | .yes S => .server { pool with servers := Function.update pool.servers pool.currentIndex S }
    | .no again =>
      search answers tries { pool with currentIndex := pool.currentIndex + 1 } (if again then asked + 1 else asked)
    | .failed => .failed pool

variable (answers : ℕ → CertAnswer) (tries : ℕ) (pool : ServerPool n)

def getDefaultServer : PoolResult n := search answers tries pool 0

def changeServer : PoolResult n := search answers tries { pool with currentIndex := pool.currentIndex + 1 } 0

def disableServer (S : Fin (n + 1)) : PoolResult n :=
  let pool := { pool with
    servers := Function.update pool.servers S { pool.servers S with enable := false }
    ndisabled := pool.ndisabled + 1 }
  if pool.ndisabled = n + 1 then .noMoreServers pool
  else if pool.currentIndex = S then changeServer answers tries pool
  else .server pool

def worked (S : Fin (n + 1)) : ServerPool n :=
  { pool with servers := Function.update pool.servers S { pool.servers S with workedOnce := true } }

def Counted : Prop := pool.ndisabled = (Finset.univ.filter fun i => (pool.servers i).enable = false).card

def AllDisabled : Prop := ∀ i, (pool.servers i).enable = false

structure SameFlags (pool pool' : ServerPool n) : Prop where
  enable : ∀ i, (pool'.servers i).enable = (pool.servers i).enable
  ndisabled : pool'.ndisabled = pool.ndisabled

/-- The searches for a server end at an enabled one, unless every attempt to download a certificate is refused. -/
structure ReachesEnabled : Prop where
  enabled : ∀ answers tries pool',
    pool.getDefaultServer answers tries = .server pool' ∨ pool.changeServer answers tries = .server pool' →
      pool'.current.enable = true
  default : ∀ answers, (∃ i, (pool.servers i).enable = true ∧
      ((pool.servers i).certDownloaded = true ∨ (pool.servers i).cafile = false ∨ ∃ k, answers k ≠ .refused)) →
    ∃ tries, pool.getDefaultServer answers tries ≠ .running
  change : ∀ answers, (∃ i, (pool.servers i).enable = true ∧
      ((pool.servers i).certDownloaded = true ∨ (pool.servers i).cafile = false ∨ ∃ k, answers k ≠ .refused)) →
    ∃ tries, pool.changeServer answers tries ≠ .running

variable {answers tries} {pool pool' : ServerPool n}

theorem getCertificate_yes {S S' : Server} {answer : CertAnswer} (yes : S.getCertificate answer = .yes S') :
    S'.enable = true ∧ S'.enable = S.enable := by
  unfold Server.getCertificate at yes
  split_ifs at yes with off downloaded plain
  · cases yes
    exact ⟨by simpa using off, rfl⟩
  · cases yes
    exact ⟨by simpa using off, rfl⟩
  · cases answer with
    | obtained =>
      cases yes
      exact ⟨by simpa using off, rfl⟩
    | refused => cases yes
    | failed => cases yes

theorem getCertificate_no {S : Server} {answer : CertAnswer} {asked : Bool} (no : S.getCertificate answer = .no asked) :
    asked = false ∧ S.enable = false ∨ asked = true ∧ answer = .refused := by
  unfold Server.getCertificate at no
  split_ifs at no with off downloaded plain
  · cases no
    exact .inl ⟨rfl, off⟩
  · cases answer with
    | refused =>
      cases no
      exact .inr ⟨rfl, rfl⟩
    | obtained => cases no
    | failed => cases no

theorem getCertificate_ready {S : Server} (enabled : S.enable = true)
    (ready : S.certDownloaded = true ∨ S.cafile = false) (answer : CertAnswer) : S.getCertificate answer = .yes S := by
  rcases ready with downloaded | plain
  · simp [Server.getCertificate, enabled, downloaded]
  · simp [Server.getCertificate, enabled, plain]

theorem SameFlags.refl (pool : ServerPool n) : SameFlags pool pool := ⟨fun _ => rfl, rfl⟩

theorem sameFlags_update {S : Fin (n + 1)} {server : Server} (same : server.enable = (pool.servers S).enable) :
    SameFlags pool { pool with servers := Function.update pool.servers S server } := by
  refine ⟨fun i => ?_, rfl⟩
  by_cases here : i = S
  · rw [here]
    exact (congrArg Server.enable (Function.update_self S server pool.servers)).trans same
  · exact congrArg Server.enable (Function.update_of_ne here server pool.servers)

theorem search_server {asked : ℕ} (found : search answers tries pool asked = .server pool') :
    SameFlags pool pool' ∧ pool'.current.enable = true := by
  induction tries generalizing pool asked with
  | zero => cases found
  | succ tries ih =>
    rw [search] at found
    split at found
    · rename_i S yes
      cases found
      obtain ⟨enabled, same⟩ := getCertificate_yes yes
      refine ⟨sameFlags_update same, ?_⟩
      exact (congrArg Server.enable (Function.update_self pool.currentIndex S pool.servers)).trans enabled
    · obtain ⟨same, enabled⟩ := ih found
      exact ⟨⟨same.enable, same.ndisabled⟩, enabled⟩
    · cases found

theorem search_failed {asked : ℕ} (failed : search answers tries pool asked = .failed pool') :
    SameFlags pool pool' := by
  induction tries generalizing pool asked with
  | zero => cases failed
  | succ tries ih =>
    rw [search] at failed
    split at failed
    · cases failed
    · have same := ih failed
      exact ⟨same.enable, same.ndisabled⟩
    · cases failed
      exact .refl _

theorem search_ne_noMoreServers {asked : ℕ} : search answers tries pool asked ≠ .noMoreServers pool' := by
  induction tries generalizing pool asked with
  | zero => exact fun eq => by cases eq
  | succ tries ih =>
    rw [search]
    split
    · exact fun eq => by cases eq
    · exact ih
    · exact fun eq => by cases eq

theorem search_step {asked : ℕ} (next : ∀ again, pool.current.getCertificate (answers asked) = .no again →
      ∃ tries, search answers tries { pool with currentIndex := pool.currentIndex + 1 }
        (if again then asked + 1 else asked) ≠ .running) :
    ∃ tries, search answers tries pool asked ≠ .running := by
  cases result : pool.current.getCertificate (answers asked) with
  | yes S => exact ⟨1, by rw [search, result]; exact fun eq => by cases eq⟩
  | failed => exact ⟨1, by rw [search, result]; exact fun eq => by cases eq⟩
  | no again =>
    obtain ⟨tries, returns⟩ := next again result
    exact ⟨tries + 1, by rw [search, result]; exact returns⟩

theorem val_iterate_succ (d : ℕ) (j : Fin (n + 1)) : ((· + 1)^[d] j).val = (j.val + d) % (n + 1) := by
  induction d with
  | zero => exact (Nat.mod_eq_of_lt j.isLt).symm
  | succ d ih =>
    rw [Function.iterate_succ_apply', Fin.val_add, ih, Fin.val_one', ← Nat.add_mod]
    rfl

theorem exists_iterate_succ (j i : Fin (n + 1)) : ∃ d, (· + 1)^[d] j = i := by
  refine ⟨i.val + (n + 1) - j.val, Fin.ext ?_⟩
  rw [val_iterate_succ, show j.val + (i.val + (n + 1) - j.val) = i.val + (n + 1) by omega, Nat.add_mod_right,
    Nat.mod_eq_of_lt i.isLt]

theorem search_returns_of_ready (pool : ServerPool n) {i : Fin (n + 1)} (enabled : (pool.servers i).enable = true)
    (ready : (pool.servers i).certDownloaded = true ∨ (pool.servers i).cafile = false) (asked : ℕ) :
    ∃ tries, search answers tries pool asked ≠ .running := by
  obtain ⟨d, there⟩ := exists_iterate_succ pool.currentIndex i
  induction d generalizing pool asked with
  | zero =>
    apply search_step
    intro again no
    rw [current, show pool.currentIndex = i from there, getCertificate_ready enabled ready] at no
    cases no
  | succ d ih => exact search_step fun again no => ih { pool with currentIndex := pool.currentIndex + 1 } enabled ready _ there

theorem search_returns_of_refused (pool : ServerPool n) {i : Fin (n + 1)} {asked : ℕ} (enabled : (pool.servers i).enable = true)
    (after : ∀ index, answers asked = .refused →
      ∃ tries, search answers tries { pool with currentIndex := index } (asked + 1) ≠ .running) :
    ∃ tries, search answers tries pool asked ≠ .running := by
  obtain ⟨d, there⟩ := exists_iterate_succ pool.currentIndex i
  induction d generalizing pool with
  | zero =>
    apply search_step
    intro again no
    rcases getCertificate_no no with ⟨-, disabled⟩ | ⟨rfl, refused⟩
    · rw [current, show pool.currentIndex = i from there, enabled] at disabled
      cases disabled
    · exact after _ refused
  | succ d ih =>
    apply search_step
    intro again no
    rcases getCertificate_no no with ⟨rfl, -⟩ | ⟨rfl, refused⟩
    · exact ih { pool with currentIndex := pool.currentIndex + 1 } enabled after there
    · exact after _ refused

theorem search_returns_of_answer (pool : ServerPool n) {i : Fin (n + 1)} (enabled : (pool.servers i).enable = true) (k asked : ℕ)
    (answer : answers (asked + k) ≠ .refused) : ∃ tries, search answers tries pool asked ≠ .running := by
  induction k generalizing pool asked with
  | zero => exact search_returns_of_refused pool enabled fun index refused => absurd refused answer
  | succ k ih =>
    apply search_returns_of_refused pool enabled
    intro index refused
    exact ih { pool with currentIndex := index } enabled (asked + 1) (by rwa [Nat.add_right_comm])

theorem reachesEnabled (pool : ServerPool n) : ReachesEnabled pool := by
  refine ⟨fun answers tries pool' found => ?_, fun answers => ?_, fun answers => ?_⟩
  · rcases found with found | found
    · exact (search_server found).2
    · exact (search_server found).2
  · rintro ⟨i, enabled, downloaded | plain | ⟨k, answer⟩⟩
    · exact search_returns_of_ready pool enabled (.inl downloaded) 0
    · exact search_returns_of_ready pool enabled (.inr plain) 0
    · exact search_returns_of_answer pool enabled k 0 (by rwa [zero_add])
  · rintro ⟨i, enabled, downloaded | plain | ⟨k, answer⟩⟩
    · exact search_returns_of_ready { pool with currentIndex := pool.currentIndex + 1 } enabled (.inl downloaded) 0
    · exact search_returns_of_ready { pool with currentIndex := pool.currentIndex + 1 } enabled (.inr plain) 0
    · exact search_returns_of_answer { pool with currentIndex := pool.currentIndex + 1 } enabled k 0
        (by rwa [zero_add])

theorem SameFlags.counted (same : SameFlags pool pool') (counted : pool.Counted) : pool'.Counted := by
  rw [Counted, same.ndisabled, counted]
  simp only [same.enable]

theorem SameFlags.allDisabled (same : SameFlags pool pool') : pool'.AllDisabled ↔ pool.AllDisabled := by
  simp only [AllDisabled, same.enable]

theorem sameFlags_worked (S : Fin (n + 1)) : SameFlags pool (pool.worked S) := sameFlags_update rfl

theorem Counted.allDisabled_iff (counted : pool.Counted) : pool.AllDisabled ↔ pool.ndisabled = n + 1 := by
  rw [counted]
  constructor
  · intro all
    rw [Finset.filter_true_of_mem fun i _ => all i, Finset.card_univ, Fintype.card_fin]
  · intro full i
    have whole : (Finset.univ.filter fun i => (pool.servers i).enable = false) = Finset.univ := by
      apply Finset.eq_univ_of_card
      rw [full, Fintype.card_fin]
    have member : i ∈ Finset.univ.filter fun i => (pool.servers i).enable = false := by
      rw [whole]
      exact Finset.mem_univ i
    exact (Finset.mem_filter.mp member).2

theorem Counted.disable (counted : pool.Counted) {S : Fin (n + 1)} (enabled : (pool.servers S).enable = true) :
    Counted { pool with
      servers := Function.update pool.servers S { pool.servers S with enable := false }
      ndisabled := pool.ndisabled + 1 } := by
  have grown : (Finset.univ.filter fun i =>
      (Function.update pool.servers S { pool.servers S with enable := false } i).enable = false) =
        insert S (Finset.univ.filter fun i => (pool.servers i).enable = false) := by
    ext i
    by_cases here : i = S
    · rw [here]
      simp
    · simp [here]
  have fresh : S ∉ Finset.univ.filter fun i => (pool.servers i).enable = false := by simp [enabled]
  rw [Counted]
  simp only [grown, Finset.card_insert_of_notMem fresh]
  rw [← counted]

theorem disableServer_server {S : Fin (n + 1)} (counted : pool.Counted) (enabled : (pool.servers S).enable = true)
    (result : pool.disableServer answers tries S = .server pool' ∨ pool.disableServer answers tries S = .failed pool') :
    pool'.Counted ∧ ¬pool'.AllDisabled := by
  have disabled := counted.disable enabled
  rw [disableServer] at result
  simp only at result
  split_ifs at result with last here
  · rcases result with eq | eq <;> cases eq
  · have flags : SameFlags { pool with
        servers := Function.update pool.servers S { pool.servers S with enable := false }
        ndisabled := pool.ndisabled + 1 } pool' := by
      rcases result with found | failed
      · have same := (search_server found).1
        exact ⟨same.enable, same.ndisabled⟩
      · have same := search_failed failed
        exact ⟨same.enable, same.ndisabled⟩
    exact ⟨flags.counted disabled, fun all => last (disabled.allDisabled_iff.mp (flags.allDisabled.mp all))⟩
  · rcases result with eq | eq
    · cases eq
      exact ⟨disabled, fun all => last (disabled.allDisabled_iff.mp all)⟩
    · cases eq

theorem disableServer_noMoreServers {S : Fin (n + 1)} (counted : pool.Counted)
    (enabled : (pool.servers S).enable = true)
    (result : pool.disableServer answers tries S = .noMoreServers pool') : pool'.Counted ∧ pool'.AllDisabled := by
  have disabled := counted.disable enabled
  rw [disableServer] at result
  simp only at result
  split_ifs at result with last here
  · cases result
    exact ⟨disabled, disabled.allDisabled_iff.mpr last⟩
  · exact absurd result search_ne_noMoreServers

end ServerPool

end CadoNfs.Cadofactor

/-!
# Downloading from the servers

`InputDownloader.get_file` of `cado-nfs-client.py`, one answer of a server after the other.
-/

namespace CadoNfs.Cadofactor

namespace InputDownloader

structure Settings (F : Type*) where
  exitOnServerGone : Bool
  maxconnfailed : ℤ
  waitStable : F
  waitMin : F

structure Call (n : ℕ) where
  isWu : Bool
  /-- Whether a backlog is not empty. -/
  backlog : Bool
  mandatoryServer : Option (Fin (n + 1))

structure Loop (n : ℕ) (F : Type*) where
  call : Call n
  currentServer : Fin (n + 1)
  connfailed : ℕ
  waitingSince : F
  wait : F
  spin : ℤ
  maxLoops : ℤ

inductive Reason
  | noMoreServers
  | serverGone
  | toFinish
  | certificate
  deriving DecidableEq

inductive State (n : ℕ) (F : Type*)
  | returned (pool : ServerPool n) (server : Option (Fin (n + 1)))
  | downloading (pool : ServerPool n) (loop : Loop n F)
  | raised (pool : ServerPool n) (reason : Reason)

inductive Response
  | ok
  | gone
  | status
  | connectionFailed

inductive Event (n : ℕ)
  | getFile (call : Call n)
  | response (r : Response)
  | post (S : Fin (n + 1))

structure Act (n : ℕ) where
  event : Event n
  answers : ℕ → CertAnswer
  tries : ℕ

variable {n : ℕ} {F : Type*}

def State.pool : State n F → ServerPool n
  | .returned pool _ => pool
  | .downloading pool _ => pool
  | .raised pool _ => pool

/-- `NoMoreServers` was raised; `ServerGone` takes its place with `--exit-on-server-gone`. -/
def State.NoServers : State n F → Prop
  | .raised _ reason => reason = .noMoreServers ∨ reason = .serverGone
  | _ => False

structure Sound (s : State n F) : Prop where
  counted : s.pool.Counted
  raised : s.NoServers ↔ s.pool.AllDisabled
  reaches : s.pool.ReachesEnabled

variable [Zero F] [Add F] [Mul F] [OfNat F 2] [OfNat F 4] [LE F] [DecidableLE F]

variable (settings : Settings F) (answers : ℕ → CertAnswer) (tries : ℕ)

def Loop.start (pool : ServerPool n) (call : Call n) (server : Fin (n + 1)) : Loop n F where
  call := call
  currentServer := server
  connfailed := 0
  waitingSince := 0
  wait := settings.waitMin
  spin := 0
  maxLoops := pool.numberOfActiveServers

def Loop.capped (loop : Loop n F) : Bool := loop.call.isWu && loop.call.backlog && decide (loop.maxLoops < loop.spin)

def getFile (pool : ServerPool n) (call : Call n) : Option (State n F) :=
  match call.mandatoryServer with
  | some S => some (.downloading pool (.start settings pool call S))
  | none =>
    match pool.getDefaultServer answers tries with
    | .server pool => some (.downloading pool (.start settings pool call pool.currentIndex))
    | .noMoreServers pool => some (.raised pool .noMoreServers)
    | .failed pool => some (.raised pool .certificate)
    | .running => none

def disable (pool : ServerPool n) (loop : Loop n F) (wait : F) (reason : Reason) : Option (State n F) :=
  match pool.disableServer answers tries loop.currentServer with
  | .server pool =>
    some (.downloading pool
      { loop with
        spin := loop.spin + 1
        currentServer := pool.currentIndex
        waitingSince := 0
        wait := wait
        connfailed := 0 })
  | .noMoreServers pool => some (.raised pool reason)
  | .failed pool => some (.raised pool .certificate)
  | .running => none

def failure (pool : ServerPool n) (loop : Loop n F) (ex : Bool) : Option (State n F) :=
  if ex && settings.exitOnServerGone && pool.current.workedOnce then
    disable answers tries pool loop loop.wait .serverGone
  else if settings.maxconnfailed < loop.connfailed then
    disable answers tries pool loop settings.waitMin .noMoreServers
  else if 4 * settings.waitStable ≤ loop.waitingSince then
    match pool.changeServer answers tries with
    | .server pool =>
      match loop.call.mandatoryServer with
      | none =>
        some (.downloading pool
          { loop with
            currentServer := pool.currentIndex
            spin := loop.spin + 1
            waitingSince := 0
            wait := settings.waitMin
            connfailed := 0 })
      | some _ => some (.returned pool none)
    | .noMoreServers pool => some (.raised pool .noMoreServers)
    | .failed pool => some (.raised pool .certificate)
    | .running => none
  else
    let doubled := loop.wait * 2
    some (.downloading pool
      { loop with
        waitingSince := loop.waitingSince + loop.wait
        wait := if settings.waitStable ≤ doubled then settings.waitStable else doubled })

def response (pool : ServerPool n) (loop : Loop n F) (r : Response) : Option (State n F) :=
  if loop.capped then some (.returned pool none)
  else
    match r with
    | .ok => some (.returned (pool.worked loop.currentServer) (some loop.currentServer))
    | .gone => some (.raised (pool.worked loop.currentServer) .toFinish)
    | .status => failure settings answers tries (pool.worked loop.currentServer) loop false
    | .connectionFailed => failure settings answers tries pool { loop with connfailed := loop.connfailed + 1 } true

def step (a : Act n) : State n F → Option (State n F)
  | .returned pool server =>
    match a.event with
    | .getFile call => getFile settings a.answers a.tries pool call
    | .post S => some (.returned (pool.worked S) server)
    | .response _ => none
  | .downloading pool loop =>
    match a.event with
    | .response r => response settings a.answers a.tries pool loop r
    | _ => none
  | .raised _ _ => none

def run : List (Act n) → State n F → Option (State n F)
  | [], s => some s
  | a :: acts, s => (step settings a s).bind (run acts)

def disables (pool : ServerPool n) (loop : Loop n F) : Response → Bool
  | .ok | .gone => false
  | .status => !loop.capped && decide (settings.maxconnfailed < loop.connfailed)
  | .connectionFailed =>
    !loop.capped &&
      (settings.exitOnServerGone && pool.current.workedOnce || decide (settings.maxconnfailed < (loop.connfailed + 1 : ℕ)))

def DisablesEnabled (a : Act n) : State n F → Prop
  | .downloading pool loop =>
    ∀ r, a.event = .response r → disables settings pool loop r = true →
      (pool.servers loop.currentServer).enable = true
  | _ => True

def RunDisablesEnabled : List (Act n) → State n F → Prop
  | [], _ => True
  | a :: acts, s => DisablesEnabled settings a s ∧ ∀ s', step settings a s = some s' → RunDisablesEnabled acts s'

structure Fresh (pool : ServerPool n) : Prop where
  enabled : ∀ i, (pool.servers i).enable = true
  ndisabled : pool.ndisabled = 0
  first : pool.currentIndex = 0

variable {settings answers tries} {pool pool' : ServerPool n} {loop : Loop n F} {s s' : State n F}

omit [Zero F] [Add F] [Mul F] [OfNat F 2] [OfNat F 4] [LE F] [DecidableLE F] in
theorem sound_of_enabled (counted : s.pool.Counted) (enabled : ¬s.pool.AllDisabled) (none : ¬s.NoServers) : Sound s :=
  ⟨counted, iff_of_false none enabled, s.pool.reachesEnabled⟩

omit [Add F] [Mul F] [OfNat F 2] [OfNat F 4] [LE F] [DecidableLE F] in
theorem getFile_sound (counted : pool.Counted) (enabled : ¬pool.AllDisabled) {call : Call n}
    (result : getFile settings answers tries pool call = some s') : Sound s' := by
  rw [getFile] at result
  split at result
  · cases result
    exact sound_of_enabled counted enabled not_false
  · split at result
    · rename_i next found
      cases result
      have same := (ServerPool.search_server found).1
      exact sound_of_enabled (same.counted counted) (mt same.allDisabled.mp enabled) not_false
    · rename_i next found
      exact absurd found ServerPool.search_ne_noMoreServers
    · rename_i next failed
      cases result
      have same := ServerPool.search_failed failed
      refine sound_of_enabled (same.counted counted) (mt same.allDisabled.mp enabled) ?_
      rintro (eq | eq) <;> cases eq
    · cases result

omit [Add F] [Mul F] [OfNat F 2] [OfNat F 4] [LE F] [DecidableLE F] in
theorem disable_sound (counted : pool.Counted) (fresh : (pool.servers loop.currentServer).enable = true) {wait : F}
    {reason : Reason} (kind : reason = .noMoreServers ∨ reason = .serverGone)
    (result : disable answers tries pool loop wait reason = some s') : Sound s' := by
  rw [disable] at result
  split at result
  · rename_i next found
    cases result
    obtain ⟨counted', enabled⟩ := ServerPool.disableServer_server counted fresh (.inl found)
    exact sound_of_enabled counted' enabled not_false
  · rename_i next last
    cases result
    obtain ⟨counted', all⟩ := ServerPool.disableServer_noMoreServers counted fresh last
    exact ⟨counted', iff_of_true kind all, next.reachesEnabled⟩
  · rename_i next failed
    cases result
    obtain ⟨counted', enabled⟩ := ServerPool.disableServer_server counted fresh (.inr failed)
    refine sound_of_enabled counted' enabled ?_
    rintro (eq | eq) <;> cases eq
  · cases result

theorem failure_sound (counted : pool.Counted) (enabled : ¬pool.AllDisabled) {ex : Bool}
    (fresh : (ex && settings.exitOnServerGone && pool.current.workedOnce ||
      decide (settings.maxconnfailed < loop.connfailed)) = true → (pool.servers loop.currentServer).enable = true)
    (result : failure settings answers tries pool loop ex = some s') : Sound s' := by
  rw [failure] at result
  split_ifs at result with gone many late
  · exact disable_sound counted (fresh (by rw [gone, Bool.true_or])) (.inr rfl) result
  · exact disable_sound counted (fresh (by rw [decide_eq_true many, Bool.or_true])) (.inl rfl) result
  · split at result
    · rename_i next found
      have same := (ServerPool.search_server found).1
      have counted' := ServerPool.SameFlags.counted ⟨same.enable, same.ndisabled⟩ counted
      have enabled' : ¬next.AllDisabled := fun all => enabled fun i => (same.enable i).symm.trans (all i)
      split at result
      · cases result
        exact sound_of_enabled counted' enabled' not_false
      · cases result
        exact sound_of_enabled counted' enabled' not_false
    · rename_i next found
      exact absurd found ServerPool.search_ne_noMoreServers
    · rename_i next failed
      cases result
      have same := ServerPool.search_failed failed
      refine sound_of_enabled (ServerPool.SameFlags.counted ⟨same.enable, same.ndisabled⟩ counted)
        (fun all => enabled fun i => (same.enable i).symm.trans (all i)) ?_
      rintro (eq | eq) <;> cases eq
    · cases result
  · cases result
    exact sound_of_enabled counted enabled not_false

theorem response_sound (counted : pool.Counted) (enabled : ¬pool.AllDisabled) {r : Response}
    (fresh : disables settings pool loop r = true → (pool.servers loop.currentServer).enable = true)
    (result : response settings answers tries pool loop r = some s') : Sound s' := by
  have same := pool.sameFlags_worked loop.currentServer
  have counted' := same.counted counted
  have enabled' := mt same.allDisabled.mp enabled
  unfold response at result
  split_ifs at result with capped
  · cases result
    exact sound_of_enabled counted enabled not_false
  cases r with
  | ok =>
    cases result
    exact sound_of_enabled counted' enabled' not_false
  | gone =>
    cases result
    refine sound_of_enabled counted' enabled' ?_
    rintro (eq | eq) <;> cases eq
  | status =>
    refine failure_sound counted' enabled' (fun many => (same.enable _).trans (fresh ?_)) result
    simpa [disables, capped] using many
  | connectionFailed =>
    have failed : failure settings answers tries pool { loop with connfailed := loop.connfailed + 1 } true = some s' :=
      result
    refine failure_sound counted enabled ?_ failed
    intro many
    apply fresh
    simpa [disables, capped] using many

theorem step_sound (sound : Sound s) {a : Act n} (fresh : DisablesEnabled settings a s)
    (result : step settings a s = some s') : Sound s' := by
  cases s with
  | returned pool server =>
    have enabled : ¬pool.AllDisabled := mt sound.raised.mpr not_false
    rw [step] at result
    split at result
    · exact getFile_sound sound.counted enabled result
    · rename_i S posted
      cases result
      have same := pool.sameFlags_worked S
      exact sound_of_enabled (same.counted sound.counted) (mt same.allDisabled.mp enabled) not_false
    · cases result
  | downloading pool loop =>
    have enabled : ¬pool.AllDisabled := mt sound.raised.mpr not_false
    rw [step] at result
    split at result
    · rename_i r answered
      exact response_sound sound.counted enabled (fresh r answered) result
    · cases result
  | raised pool reason => cases result

omit [Zero F] [Add F] [Mul F] [OfNat F 2] [OfNat F 4] [LE F] [DecidableLE F] in
theorem Fresh.sound (fresh : Fresh pool) : Sound (State.returned (F := F) pool none) := by
  have none : (Finset.univ.filter fun i => (pool.servers i).enable = false) = ∅ := by
    rw [Finset.filter_false_of_mem]
    intro i _ off
    rw [fresh.enabled] at off
    cases off
  have counted : pool.Counted := by rw [ServerPool.Counted, fresh.ndisabled, none, Finset.card_empty]
  refine sound_of_enabled (s := .returned pool .none) counted (fun all => ?_) not_false
  have off := all 0
  rw [State.pool, fresh.enabled] at off
  cases off

/-- In a run that disables no server twice, the count is right, `NoMoreServers` comes with the last server, and an
enabled server is found. -/
theorem run_sound (settings : Settings F) (fresh : Fresh pool) (acts : List (Act n))
    (enabled : RunDisablesEnabled settings acts (.returned pool none))
    (result : run settings acts (.returned pool none) = some s) : Sound s := by
  have keeps : ∀ (acts : List (Act n)) (s s' : State n F), Sound s → RunDisablesEnabled settings acts s →
      run settings acts s = some s' → Sound s' := by
    intro acts
    induction acts with
    | nil =>
      intro s s' sound _ result
      cases result
      exact sound
    | cons a acts ih =>
      intro s s' sound enabled result
      obtain ⟨middle, first, rest⟩ := Option.bind_eq_some_iff.mp result
      exact ih middle s' (step_sound sound enabled.1 first) (enabled.2 middle first) rest
  exact keeps acts _ s fresh.sound enabled result

/-! ## A server that is disabled twice -/

def threeServers : ServerPool 2 where
  servers _ := ⟨true, false, false, false⟩
  ndisabled := 0
  currentIndex := 0

def strict : Settings ℕ := ⟨false, 0, 16, 1⟩

def act (event : Event 2) : Act 2 := ⟨event, fun _ => .obtained, 3⟩

def twice : List (Act 2) :=
  [act (.getFile ⟨true, false, none⟩), act (.response .ok), act (.getFile ⟨false, false, some 0⟩), act (.response .connectionFailed),
    act (.response .ok), act (.getFile ⟨false, false, some 0⟩), act (.response .connectionFailed)]

theorem fresh_threeServers : Fresh threeServers := ⟨fun _ => rfl, rfl, rfl⟩

theorem run_sound_once :
    ∃ s, run strict (twice.take 4) (.returned threeServers none) = some s ∧ Sound s := by
  have first : RunDisablesEnabled strict (twice.take 4) (.returned threeServers none) := by
    refine ⟨trivial, ?_⟩
    rintro _ ⟨⟩
    refine ⟨fun _ _ _ => rfl, ?_⟩
    rintro _ ⟨⟩
    refine ⟨trivial, ?_⟩
    rintro _ ⟨⟩
    exact ⟨fun _ _ _ => rfl, fun _ _ => trivial⟩
  exact ⟨_, rfl, run_sound strict fresh_threeServers (twice.take 4) first rfl⟩

theorem counted_twice :
    ¬∀ (n : ℕ) (settings : Settings ℕ) (pool : ServerPool n) (acts : List (Act n)) (s : State n ℕ), Fresh pool →
      run settings acts (.returned pool none) = some s → Sound s := by
  intro all
  have reached : ∃ s, run strict twice (.returned threeServers none) = some s ∧ s.pool.ndisabled = 2 ∧
      (Finset.univ.filter fun i => (s.pool.servers i).enable = false).card = 1 := by
    refine ⟨_, rfl, rfl, ?_⟩
    decide +kernel
  obtain ⟨s, result, two, one⟩ := reached
  have counted := (all 2 strict threeServers twice s fresh_threeServers result).counted
  rw [ServerPool.Counted, two, one] at counted
  cases counted

end InputDownloader

end CadoNfs.Cadofactor
