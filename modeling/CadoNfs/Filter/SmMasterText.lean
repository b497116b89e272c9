import CadoNfs.Filter.SmMasterOutput

/-!
# The end of the master

The master comes to its end when it can parse every line and send every batch.
-/

namespace CadoNfs.Filter.SmAppend
open Lib Utils.FilterIo

namespace MasterEnv

variable {env : MasterEnv} {n : ℕ} {s s' : Master n} {all read written : List Text} {inp out : Text}

structure Inv (env : MasterEnv) (all : List Text) (s : Master n) : Prop where
  manned : Manned env s
  recorded : ∃ read written, Recorded env all s read written

theorem inv_start (env : MasterEnv) (inp : Text) : Inv env (buffers inp) (start n inp) :=
  ⟨manned_start env inp, [], [], recorded_start env inp⟩

theorem Inv.step (pos : 0 < env.batchSize) (s s' : Master n) (inv : Inv env all s) (visit : env.Visit s s') :
    Inv env all s' := by
  obtain ⟨read, written, recorded⟩ := inv.recorded
  exact ⟨inv.manned.step visit, recorded.step inv.manned pos visit⟩

def Fits (env : MasterEnv) (all : List Text) : Prop :=
  Sendable (env.most all * 16) ∧ Sendable (env.answerSize (env.most all))

theorem Sendable.mono {k k' : ℕ} (sendable : Sendable k) (le : k' ≤ k) : Sendable k' := le.trans_lt sendable

theorem answerSize_mono {k k' : ℕ} (le : k' ≤ k) : env.answerSize k' ≤ env.answerSize k := by
  unfold answerSize
  gcongr

theorem Recorded.pending_le (recorded : Recorded env all s read written) :
    (pending s).length ≤ (relationsOf all).length := by
  have rows := congrArg List.length recorded.rows
  rw [List.length_append, List.length_map, List.length_map] at rows
  rw [recorded.text, relationsOf_append, List.length_append]
  omega

theorem Inv.proceeds (inv : Inv env all s) (pos : 0 < env.batchSize) (known : ∀ l ∈ all, Known l) (fits : Fits env all)
    (going : s.eof ≤ 2) : ∃ s', env.Visit s s' := by
  obtain ⟨read, written, recorded⟩ := inv.recorded
  have text := recorded.text
  cases at_ : s.toVisit with
  | nil => exact ⟨_, .own (.nextTurn going at_)⟩
  | cons peer later =>
    have sound := inv.manned.head at_
    cases consumed : s.consumed with
    | true =>
      by_cases ends : s.eof = 0
      · rw [text, List.forall_mem_append] at known
        obtain ⟨made, produced⟩ := @exists_produce (s.inp.length + 1) env [] [] s.inp [] known.2 (Nat.lt_succ_self _)
        obtain ⟨more, reads, -, batch, -⟩ := produces produced (Nat.zero_le _)
        refine ⟨_, .produce at_ consumed ends produced (fits.1.mono ?_)⟩
        have small : made.batch.length ≤ env.batchSize := by
          rw [batch, List.nil_append, List.length_map]
          have ended := reads.ended
          have full := reads.full
          rw [List.length_nil] at ended full
          cases eof : made.eof with
          | true =>
            have less := (ended eof).2
            omega
          | false =>
            have eq := full eof
            omega
        have few : made.batch.length ≤ (relationsOf all).length := by
          rw [text, reads.text, relationsOf_append, relationsOf_append, batch]
          simp
          omega
        exact Nat.mul_le_mul_right 16 (le_min small few)
      · exact ⟨_, .finish going at_ consumed ends⟩
    | false =>
      by_cases zero : s.turn = 0
      · exact ⟨_, .own (.first going at_ consumed zero)⟩
      · by_cases idle : peer.batch = []
        · refine ⟨_, .own (.skip going at_ consumed (fun goes => ?_) zero idle)⟩
          have full := inv.manned.waiting consumed goes zero peer (by simp [at_])
          rw [sound.rels_eq_nil idle, List.length_nil] at full
          omega
        · refine ⟨_, .collect going at_ consumed zero idle (fits.2.mono ?_)⟩
          have few := recorded.pending_le
          rw [pending, at_, List.cons_append, List.flatMap_cons, List.length_append] at few
          have bytes : env.answerBytes peer.batch = env.answerSize peer.rels.length := by
            rw [answerBytes, answerSize, sound.batch, List.length_map]
          rw [bytes]
          exact answerSize_mono (le_min sound.rels_le (by omega))

def position (s : Master n) : ℕ := 2 * s.toVisit.length - if s.consumed then 1 else 0

def turns (s : Master n) : ℕ := if s.eof = 0 then (buffers s.inp).length + s.visited.length + 2 else 3 - s.eof

def rank (s : Master n) : ℕ := (2 * n + 1) * turns s + position s

theorem rank_lt_of_turns (fewer : turns s' < turns s) (le : position s' ≤ 2 * n) : rank s' < rank s := by
  have product : (2 * n + 1) * (turns s' + 1) ≤ (2 * n + 1) * turns s := Nat.mul_le_mul_left _ fewer
  unfold rank
  rw [Nat.mul_add] at product
  omega

theorem rank_lt_of_position (le : turns s' ≤ turns s) (less : position s' < position s) : rank s' < rank s :=
  add_lt_add_of_le_of_lt (Nat.mul_le_mul_left _ le) less

theorem Inv.rank_lt (inv : Inv env all s) (pos : 0 < env.batchSize) (workers : 0 < n) (visit : env.Visit s s') :
    rank s' < rank s := by
  have count := inv.manned.count
  cases visit with
  | own step =>
    cases step with
    | nextTurn le ended =>
      apply rank_lt_of_turns
      · rw [ended, List.length_nil, Nat.add_zero] at count
        unfold turns
        dsimp only
        by_cases goes : s.eof = 0
        · rw [if_pos (by rw [if_pos goes]), if_pos goes, List.length_nil]
          omega
        · rw [if_neg (by rw [if_neg goes]; exact Nat.succ_ne_zero _), if_neg goes, if_neg goes]
          omega
      · unfold position
        dsimp only
        omega
    | skip le at_ arrives ends after idle =>
      apply rank_lt_of_position
      · unfold turns
        rw [if_neg ends, if_neg ends]
      · simp [position, at_, arrives]
    | first le at_ arrives zero =>
      apply rank_lt_of_position
      · exact le_rfl
      · simp [position, at_, arrives]
  | collect le at_ arrives after busy sendable =>
    apply rank_lt_of_position
    · exact le_rfl
    · simp [position, at_, arrives]
  | finish le at_ consumed ends =>
    apply rank_lt_of_position
    · unfold turns
      rw [if_neg ends, if_neg ends]
    · simp [position, at_, consumed]
      omega
  | @produce peer later made at_ consumed goes produced sendable =>
    obtain ⟨more, reads, -, -, -⟩ := produces produced (Nat.zero_le _)
    apply rank_lt_of_position
    · have length := congrArg List.length reads.text
      rw [List.length_append] at length
      unfold turns
      dsimp only
      rw [if_pos goes]
      cases eof : made.eof with
      | true =>
        simp
      | false =>
        have full := reads.full eof
        have some := List.length_filter_le (fun line => decide (cur line ≠ '#')) more
        rw [List.length_nil, relationsOf] at full
        simp
        omega
    · simp [position, at_, consumed]
      omega

theorem Inv.run (pos : 0 < env.batchSize) (run : Relation.ReflTransGen env.Visit (start n inp) s) :
    Inv env (buffers inp) s :=
  invariant_of_run (Inv env (buffers inp)) (Inv.step pos) (inv_start env inp) run

theorem Inv.acc (pos : 0 < env.batchSize) (workers : 0 < n) (inv : Inv env all s) :
    Acc (fun later now => env.Visit now later) s := by
  generalize bound : rank s = k
  induction k using Nat.strong_induction_on generalizing s with
  | _ k ih =>
    constructor
    intro s' visit
    exact ih (rank s') (bound ▸ inv.rank_lt pos workers visit) (inv.step pos s s' visit) rfl

structure Delivers (env : MasterEnv) (n : ℕ) (all written : List Text) : Prop where
  rows : relationsOf written = (relationsOf all).map env.withMaps
  aligned : Aligned n env.batchSize all → written = all.map env.outLine
  faithful : written.map isComment <+: all.map isComment → Aligned n env.batchSize all
  clean : ∀ l ∈ written, '\n' ∉ l

theorem Inv.delivers (inv : Inv env all s) (ended : 2 < s.eof) :
    (∀ l ∈ all, Known l) ∧ Fits env all ∧ ∃ written, s.out = join written ∧ Delivers env n all written := by
  obtain ⟨read, written, recorded⟩ := inv.recorded
  have gone := inv.manned.ended ended
  have idle : pending s = [] := List.flatMap_eq_nil_iff.mpr gone
  have text := recorded.text
  rw [recorded.ended (by omega), List.append_nil] at text
  subst text
  have none : all = [] → env.most all = 0 := by
    rintro rfl
    simp [most, relationsOf]
  refine ⟨recorded.known, ⟨?_, ?_⟩, written, recorded.out, ?_, fun aligned => ?_, recorded.faithful,
    recorded.clean⟩
  · rcases recorded.posted with empty | sent
    · simp [none empty, Sendable]
    · exact sent
  · rcases recorded.answered with empty | sent | ⟨peer, member, -, some⟩
    · simp [none empty, answerSize, Sendable]
    · exact sent
    · exact absurd (gone peer member) some
  · have rows := recorded.rows
    rwa [idle, List.map_nil, List.append_nil] at rows
  · have lines := recorded.aligned aligned
    rwa [idle, List.map_nil, List.append_nil] at lines

theorem eof_eq_zero (none : env.batchSize = 0) (run : Relation.ReflTransGen env.Visit (start n inp) s) : s.eof = 0 := by
  refine invariant_of_run (fun s => s.eof = 0) (fun s s' goes visit => ?_) rfl run
  cases visit with
  | own step =>
    cases step with
    | nextTurn => exact if_pos goes
    | skip => exact goes
    | first => exact goes
  | collect => exact goes
  | finish le at_ consumed ends => exact absurd goes ends
  | produce at_ consumed goes produced sendable =>
    obtain ⟨more, reads, -, -, -⟩ := produces produced (Nat.zero_le _)
    have running := mt reads.ended (by omega)
    exact if_neg running

theorem Writes.delivers (writes : env.Writes n inp out) : 0 < env.batchSize ∧ (∀ l ∈ buffers inp, Known l) ∧
    Fits env (buffers inp) ∧ ∃ written, out = join written ∧ Delivers env n (buffers inp) written := by
  obtain ⟨s, run, ended, rfl⟩ := writes.exists_visits
  have pos : 0 < env.batchSize := by
    by_contra none
    have zero := eof_eq_zero (Nat.eq_zero_of_not_pos none) run
    omega
  exact ⟨pos, (Inv.run pos run).delivers ended⟩

theorem writes_of_aligned (workers : 0 < n) (pos : 0 < env.batchSize) (known : ∀ l ∈ buffers inp, Known l)
    (fits : Fits env (buffers inp)) (aligned : Aligned n env.batchSize (buffers inp)) :
    env.Writes n inp (join ((buffers inp).map env.outLine)) := by
  apply writes_of_visits
  · exact Inv.acc pos workers (inv_start env inp)
  · intro s run last
    have inv := Inv.run pos run
    have ended : 2 < s.eof := by
      by_contra going
      obtain ⟨s', visit⟩ := inv.proceeds pos known fits (by omega)
      exact last s' visit
    obtain ⟨-, -, written, out, delivers⟩ := inv.delivers ended
    exact ⟨ended, by rw [out, delivers.aligned aligned]⟩

end MasterEnv
end CadoNfs.Filter.SmAppend

/-!
# The maps as `sm_append_sync` prints them

A side without maps leaves its separator behind when it is the last one.
-/

namespace CadoNfs.Filter.SmAppend
open Lib Utils.FilterIo

variable {a b : ℤ} {S : SmSideInfo} {smInfo : List SmSideInfo} {u v : List ℕ} {comma : Bool} {s t : Text}

theorem consumeText_append : consumeText true (u ++ v) = consumeText true u ++ consumeText true v := by
  induction u with
  | nil => rfl
  | cons x u ih => simp [consumeText, ih]

theorem consumeText_false (some : v ≠ []) (eq : ',' :: t = consumeText true v) : ':' :: t = consumeText false v := by
  cases v with
  | nil => exact absurd rfl some
  | cons x v =>
    have tail := congrArg List.tail eq
    simp only [consumeText, List.tail_cons, if_true, List.cons_append] at tail
    rw [tail]
    rfl

theorem intercalate_digits (some : v ≠ []) :
    ',' :: [','].intercalate (v.map (Nat.toDigits 10)) = consumeText true v := by
  induction v with
  | nil => exact absurd rfl some
  | cons x v ih =>
    cases v with
    | nil => simp [consumeText, List.intercalate]
    | cons y v =>
      rw [consumeText, ← ih (List.cons_ne_nil _ _), List.map_cons, List.map_cons, List.intercalate_cons_cons,
        if_pos rfl]
      simp

theorem printSm2_none (none : S.nsm = 0) : printSm2 a b S = [] := by
  have empty : S.own a b = [] := List.length_eq_zero_iff.mp (SmSideInfo.own_length.trans none)
  rw [printSm2, empty]
  rfl

theorem printSm2_some (some : S.nsm ≠ 0) : ',' :: printSm2 a b S = consumeText true (S.own a b) := by
  apply intercalate_digits
  intro empty
  rw [← SmSideInfo.own_length (a := a) (b := b), empty] at some
  exact some rfl

def EndsInMaps (smInfo : List SmSideInfo) : Prop := ∃ S, smInfo.getLast? = some S ∧ S.nsm ≠ 0

def ownAll (a b : ℤ) (smInfo : List SmSideInfo) : List ℕ := smInfo.flatMap (SmSideInfo.own a b)

theorem endsInMaps_cons (some : smInfo ≠ []) : EndsInMaps (S :: smInfo) ↔ EndsInMaps smInfo := by
  obtain ⟨S', rest, rfl⟩ := List.exists_cons_of_ne_nil some
  rw [EndsInMaps, EndsInMaps, List.getLast?_cons_cons]

theorem endsInMaps_single : EndsInMaps [S] ↔ S.nsm ≠ 0 := by
  simp [EndsInMaps]

theorem syncText_maps (ends : EndsInMaps smInfo) :
    syncText a b false smInfo = consumeText true (ownAll a b smInfo) ∧
      ',' :: syncText a b true smInfo = consumeText true (ownAll a b smInfo) := by
  induction smInfo with
  | nil =>
    obtain ⟨S, last, -⟩ := ends
    cases last
  | cons S smInfo ih =>
    by_cases last : smInfo = []
    · subst last
      have some := printSm2_some (a := a) (b := b) (endsInMaps_single.mp ends)
      simp [syncText, ownAll, some]
    · have later := ih ((endsInMaps_cons last).mp ends)
      have values : ownAll a b (S :: smInfo) = S.own a b ++ ownAll a b smInfo := List.flatMap_cons
      rw [values, consumeText_append]
      by_cases none : S.nsm = 0
      · have empty : S.own a b = [] := List.length_eq_zero_iff.mp (SmSideInfo.own_length.trans none)
        simp [syncText, printSm2_none none, none, empty, consumeText, later.2]
      · have some := printSm2_some (a := a) (b := b) none
        rw [← some, ← later.1]
        simp [syncText, none]

def Dangling (s : Text) : Prop := ∃ front c, s = front ++ [c] ∧ (c = ':' ∨ c = ',')

theorem Dangling.append (dangling : Dangling t) (s : Text) : Dangling (s ++ t) := by
  obtain ⟨front, c, rfl, separator⟩ := dangling
  exact ⟨s ++ front, c, by simp, separator⟩

theorem syncText_dangling (ends : ¬ EndsInMaps smInfo) :
    (∀ c, c = ':' ∨ c = ',' → Dangling (c :: syncText a b true smInfo)) ∧
      (smInfo ≠ [] → Dangling (syncText a b false smInfo)) := by
  induction smInfo with
  | nil => exact ⟨fun c separator => ⟨[], c, rfl, separator⟩, fun some => absurd rfl some⟩
  | cons S smInfo ih =>
    by_cases last : smInfo = []
    · subst last
      have none : S.nsm = 0 := not_not.mp (mt endsInMaps_single.mpr ends)
      have empty := printSm2_none (a := a) (b := b) none
      refine ⟨fun c separator => ⟨[], c, by simp [syncText, empty], separator⟩, fun _ => ⟨[], ',', ?_, .inr rfl⟩⟩
      simp [syncText, empty]
    · obtain ⟨single, double⟩ := ih (mt (endsInMaps_cons last).mpr ends)
      by_cases none : S.nsm = 0
      · have empty := printSm2_none (a := a) (b := b) none
        refine ⟨fun c separator => ?_, fun _ => ?_⟩
        · simpa [syncText, empty, none] using single c separator
        · simpa [syncText, empty, none] using single ',' (.inr rfl)
      · have tail := double last
        refine ⟨fun c separator => ?_, fun _ => ?_⟩
        · simpa [syncText, none] using tail.append (c :: printSm2 a b S)
        · simpa [syncText, none] using tail.append (',' :: printSm2 a b S)

theorem ugly_toDigits {x : ℕ} : ∀ c ∈ Nat.toDigits 10 x, ugly c < 10 :=
  AbBlock.digits_toDigits (by decide) (by decide) x

theorem Dangling.right (some : t ≠ []) (dangling : Dangling (s ++ t)) : Dangling t := by
  obtain ⟨front, c, eq, separator⟩ := dangling
  obtain rfl | ⟨t', d, rfl⟩ := t.eq_nil_or_concat
  · exact absurd rfl some
  · rw [List.concat_eq_append, ← List.append_assoc] at eq
    obtain ⟨-, same⟩ := List.append_inj' eq rfl
    cases same
    exact ⟨t', c, List.concat_eq_append .., separator⟩

theorem not_dangling_toDigits {x : ℕ} : ¬ Dangling (Nat.toDigits 10 x) := by
  rintro ⟨front, c, eq, separator⟩
  have digit := ugly_toDigits c (by rw [eq]; simp)
  rcases separator with rfl | rfl
  · exact absurd digit (by decide)
  · exact absurd digit (by decide)

theorem not_dangling_consumeText : ¬ Dangling (consumeText comma v) := by
  induction v generalizing comma with
  | nil =>
    rintro ⟨front, c, eq, -⟩
    simp [consumeText] at eq
  | cons x v ih =>
    intro dangling
    cases v with
    | nil =>
      rw [consumeText, consumeText, List.append_nil, ← List.singleton_append] at dangling
      exact not_dangling_toDigits (dangling.right Nat.toDigits_ne_nil)
    | cons y v =>
      rw [consumeText] at dangling
      exact ih (dangling.right (by simp [consumeText]))

theorem consumeText_inj {comma : Bool} (same : consumeText comma u = consumeText comma v) : u = v := by
  have number (x : ℕ) (w : List ℕ) : readNumber ugly 10 0 (Nat.toDigits 10 x ++ (consumeText true w ++ ['\n'])) =
      (x, consumeText true w ++ ['\n']) := by
    have stop : ∃ c t, consumeText true w ++ ['\n'] = c :: t ∧ ugly c = 255 := by
      cases w with
      | nil => exact ⟨'\n', [], rfl, rfl⟩
      | cons y w => exact ⟨',', _, rfl, rfl⟩
    obtain ⟨c, t, eq, stop⟩ := stop
    have digits : Digits 10 (Nat.toDigits 10 x) := ugly_toDigits
    rw [eq, digits.readNumber (by decide) stop, AbBlock.valueOf_toDigits (by decide) (by decide)]
  induction u generalizing comma v with
  | nil =>
    cases v with
    | nil => rfl
    | cons y v => simp [consumeText] at same
  | cons x u ih =>
    cases v with
    | nil => simp [consumeText] at same
    | cons y v =>
      simp only [consumeText, List.cons_append, List.cons.injEq, true_and] at same
      have digits := congrArg (fun t => readNumber ugly 10 0 (t ++ ['\n'])) same
      rw [List.append_assoc, List.append_assoc, number, number, Prod.mk.injEq] at digits
      rw [digits.1, ih (List.append_cancel_right digits.2)]

theorem same_text_iff : ':' :: syncText a b true smInfo = consumeText false v ↔ EndsInMaps smInfo ∧
    ownAll a b smInfo = v := by
  by_cases ends : EndsInMaps smInfo
  · obtain ⟨-, text⟩ := syncText_maps (a := a) (b := b) ends
    have some : ownAll a b smInfo ≠ [] := by
      intro empty
      rw [empty] at text
      cases text
    rw [consumeText_false some text]
    exact ⟨fun same => ⟨ends, consumeText_inj same⟩, fun both => by rw [both.2]⟩
  · refine iff_of_false (fun same => ?_) fun both => ends both.1
    have dangling := (syncText_dangling (a := a) (b := b) ends).1 ':' (.inl rfl)
    rw [same] at dangling
    exact not_dangling_consumeText dangling

theorem newline_not_mem_printSm2 : '\n' ∉ printSm2 a b S := by
  by_cases none : S.nsm = 0
  · rw [printSm2_none none]
    exact List.not_mem_nil
  · have clean := newline_not_mem_consumeText true (S.own a b)
    rw [← printSm2_some none, List.mem_cons, not_or] at clean
    exact clean.2

theorem newline_not_mem_syncText (hasSep : Bool) : '\n' ∉ syncText a b hasSep smInfo := by
  induction smInfo generalizing hasSep with
  | nil => exact List.not_mem_nil
  | cons S smInfo ih =>
    cases hasSep <;> simp [syncText, newline_not_mem_printSm2, ih]

def SyncKnown (line : Text) : Prop := cur line = '#' ∨ (abPair line).isSome ∧ (pairOf line).2 < 2 ^ 63

def syncLine (smInfo : List SmSideInfo) (line : Text) : Text :=
  if cur line = '#' then line else line ++ ':' :: syncText (pairOf line).1 (pairOf line).2 true smInfo

theorem appendSync_eq_some_iff {fuel : ℕ} {out : Text} (enough : s.length < fuel) :
    appendSync smInfo fuel s = some out ↔
      (∀ l ∈ buffers s, SyncKnown l) ∧ out = join ((buffers s).map (syncLine smInfo)) := by
  induction fuel generalizing s out with
  | zero => omega
  | succ fuel ih =>
    rw [appendSync]
    dsimp only
    by_cases empty : s = []
    · subst empty
      rw [if_pos ((fgets_eq_nil_iff (by decide)).mpr rfl)]
      simp [join, eq_comm]
    · have less := length_fgets_lt empty
      rw [if_neg (mt (fgets_eq_nil_iff (by decide)).mp empty), buffers_of_ne_nil empty, List.forall_mem_cons,
        List.map_cons]
      generalize (fgets 1023 s).1.dropLast = buf
      have later := fun out => @ih (fgets 1023 s).2 out (by omega)
      by_cases comment : cur buf = '#'
      · have known : SyncKnown buf := .inl comment
        have line : syncLine smInfo buf = buf := if_pos comment
        rw [if_pos comment, Option.map_eq_some_iff, line]
        constructor
        · rintro ⟨rest, read, rfl⟩
          obtain ⟨knowns, rfl⟩ := (later rest).mp read
          exact ⟨⟨known, knowns⟩, by simp [join]⟩
        · rintro ⟨⟨-, knowns⟩, rfl⟩
          exact ⟨_, (later _).mpr ⟨knowns, rfl⟩, by simp [join]⟩
      · rw [if_neg comment]
        have line : syncLine smInfo buf = buf ++ ':' :: syncText (pairOf buf).1 (pairOf buf).2 true smInfo :=
          if_neg comment
        cases parsed : abPair buf with
        | none =>
          have unknown : ¬ SyncKnown buf := by simp [SyncKnown, comment, parsed]
          simp [unknown]
        | some ab =>
          have pair : pairOf buf = ab := by rw [pairOf, parsed]; rfl
          have known : SyncKnown buf ↔ ab.2 < 2 ^ 63 := by simp [SyncKnown, comment, parsed, pair]
          rw [line, known, pair]
          simp only [Option.bind_eq_bind, Option.bind_some, guard]
          by_cases small : ab.2 < 2 ^ 63
          · rw [if_pos small]
            constructor
            · intro read
              obtain ⟨-, -, rest⟩ := Option.bind_eq_some_iff.mp read
              obtain ⟨rest, read, eq⟩ := Option.bind_eq_some_iff.mp rest
              obtain ⟨knowns, rfl⟩ := (later rest).mp read
              exact ⟨⟨small, knowns⟩, by simpa [join] using (Option.some.inj eq).symm⟩
            · rintro ⟨⟨-, knowns⟩, rfl⟩
              have read := (later _).mpr ⟨knowns, rfl⟩
              simp [read, join]
          · rw [if_neg small]
            exact iff_of_false (fun read => by cases read) fun both => small both.1.1

theorem smAppendSync_eq_some_iff {out : Text} : smAppendSync smInfo s = some out ↔
    (∀ l ∈ buffers s, SyncKnown l) ∧ out = join ((buffers s).map (syncLine smInfo)) :=
  appendSync_eq_some_iff (Nat.lt_succ_self _)

theorem newline_not_mem_syncLine {line : Text} (clean : '\n' ∉ line) : '\n' ∉ syncLine smInfo line := by
  unfold syncLine
  split
  · exact clean
  · simp [clean, newline_not_mem_syncText]

theorem join_inj {lines lines' : List Text} (clean : ∀ l ∈ lines, '\n' ∉ l) (clean' : ∀ l ∈ lines', '\n' ∉ l)
    (same : join lines = join lines') : lines = lines' := by
  have splits {lines : List Text} (clean : ∀ l ∈ lines, '\n' ∉ l) : (join lines).splitOn '\n' = lines ++ [[]] := by
    induction lines with
    | nil => rfl
    | cons l lines ih =>
      rw [List.forall_mem_cons] at clean
      rw [join, List.flatMap_cons, List.append_assoc, List.singleton_append, List.splitOn_append_cons_self,
        List.splitOn_eq_singleton clean.1]
      exact congrArg (l :: ·) (ih clean.2)
  have eq := splits clean
  rw [same, splits clean'] at eq
  exact (List.append_cancel_right eq).symm

end CadoNfs.Filter.SmAppend
