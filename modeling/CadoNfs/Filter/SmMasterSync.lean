import CadoNfs.Filter.SmMasterText

/-!
# The master against `sm_append_sync`

When the master writes every relation with its maps, as `sm_append_sync` does.
-/

namespace CadoNfs.Filter.SmAppend
open Lib Utils.FilterIo

variable {s t l b : Text} {lines texts : List Text} {v : List ℕ} {n r batchSize : ℕ}

/-! ## The buffers of a line -/

theorem fgets_clean (clean : '\n' ∉ l) (n : ℕ) : fgets n l = (l.take n, l.drop n) := by
  induction l generalizing n with
  | nil => cases n <;> rfl
  | cons c l ih =>
    cases n with
    | zero => rfl
    | succ n =>
      rw [List.mem_cons, not_or] at clean
      rw [fgets, if_neg (Ne.symm clean.1), ih clean.2]
      rfl

theorem buffers_short (clean : '\n' ∉ l) (short : l.length ≤ 1022) (s : Text) :
    buffers (l ++ '\n' :: s) = l :: buffers s := by
  rw [buffers_of_ne_nil (by simp), fgets_short clean (by omega), List.dropLast_concat]

theorem buffers_long (clean : '\n' ∉ l) (long : 1023 ≤ l.length) (s : Text) :
    buffers (l ++ '\n' :: s) = (l.take 1023).dropLast :: buffers (l.drop 1023 ++ '\n' :: s) := by
  rw [buffers_of_ne_nil (by simp), fgets_long clean long]

theorem buffers_line (clean : '\n' ∉ l) (s : Text) : buffers (l ++ '\n' :: s) = buffers (l ++ ['\n']) ++ buffers s := by
  generalize bound : l.length = k
  induction k using Nat.strong_induction_on generalizing l with
  | _ k ih =>
    by_cases short : l.length ≤ 1022
    · rw [buffers_short clean short, buffers_short clean short []]
      rfl
    · have long : 1023 ≤ l.length := by omega
      have less : (l.drop 1023).length < k := by
        rw [List.length_drop]
        omega
      rw [buffers_long clean long, buffers_long clean long [],
        ih _ less (fun member => clean (List.mem_of_mem_drop member)) rfl]
      rfl

theorem buffers_cut (clean : '\n' ∉ l) (some : l ≠ []) (text : t = l ∨ t = l ++ ['\n'] ∧ 1022 < l.length) :
    ∃ b rest d, buffers t = b :: rest ∧ l = b ++ d ∧ d ≠ [] := by
  have front (rest : List Text) (eq : buffers t = (l.take 1023).dropLast :: rest) :
      ∃ b rest d, buffers t = b :: rest ∧ l = b ++ d ∧ d ≠ [] := by
    obtain ⟨d, split⟩ := (List.dropLast_prefix _).trans (List.take_prefix 1023 l)
    refine ⟨_, rest, d, eq, split.symm, ?_⟩
    rintro rfl
    have length := congrArg List.length split
    rw [List.append_nil, List.length_dropLast, List.length_take] at length
    have pos := List.length_pos_of_ne_nil some
    omega
  rcases text with rfl | ⟨rfl, long⟩
  · exact front _ (by rw [buffers_of_ne_nil some, fgets_clean clean])
  · exact front _ (buffers_long clean long [])

theorem buffers_inputText (inputs : ∀ l ∈ lines, '\n' ∉ l) (terminated : Bool) :
    buffers (inputText lines terminated) = (lineTexts terminated lines).flatMap buffers := by
  induction lines with
  | nil => rfl
  | cons l lines ih =>
    rw [List.forall_mem_cons] at inputs
    cases lines with
    | nil => simp [inputText, lineTexts]
    | cons l' lines =>
      rw [inputText, lineTexts, List.flatten_cons, List.append_assoc, List.singleton_append, buffers_line inputs.1,
        List.flatMap_cons, ← ih inputs.2]
      rfl

def LineText (l t : Text) : Prop := t = l ∨ t = l ++ ['\n']

theorem lineTexts_forall₂ (terminated : Bool) : List.Forall₂ LineText lines (lineTexts terminated lines) := by
  induction lines with
  | nil => exact .nil
  | cons l lines ih =>
    cases lines with
    | nil =>
      cases terminated
      · exact .cons (.inl rfl) .nil
      · exact .cons (.inr rfl) .nil
    | cons l' lines => exact .cons (.inr rfl) ih

/-- A relation fits in one buffer, with its newline, and every buffer of a comment is a comment. -/
def Intact (l t : Text) : Prop :=
  if cur l = '#' then ∀ b ∈ buffers t, cur b = '#' else t = l ++ ['\n'] ∧ l.length ≤ 1022

theorem relationsOf_eq_nil (comments : ∀ b ∈ lines, cur b = '#') : relationsOf lines = [] := by
  simpa [relationsOf] using comments

theorem relationsOf_intact (inputs : ∀ l ∈ lines, InputLine l) (intact : List.Forall₂ Intact lines texts) :
    relationsOf (texts.flatMap buffers) = relationsOf lines := by
  induction intact with
  | nil => rfl
  | @cons l t lines texts here later ih =>
    rw [List.forall_mem_cons] at inputs
    rw [List.flatMap_cons, relationsOf_append, ih inputs.2]
    by_cases comment : cur l = '#'
    · rw [Intact, if_pos comment] at here
      rw [relationsOf_eq_nil here, relationsOf_comment comment, List.nil_append]
    · rw [Intact, if_neg comment] at here
      rw [here.1, buffers_short inputs.1.1 here.2 [], relationsOf_relation comment, relationsOf_relation comment]
      rfl

theorem known_intact (inputs : ∀ l ∈ lines, InputLine l) (intact : List.Forall₂ Intact lines texts) :
    ∀ b ∈ texts.flatMap buffers, Known b := by
  induction intact with
  | nil => simp
  | @cons l t lines texts here later ih =>
    rw [List.forall_mem_cons] at inputs
    rw [List.flatMap_cons, List.forall_mem_append]
    refine ⟨?_, ih inputs.2⟩
    by_cases comment : cur l = '#'
    · rw [Intact, if_pos comment] at here
      exact fun b member => .inl (here b member)
    · rw [Intact, if_neg comment] at here
      rw [here.1, buffers_short inputs.1.1 here.2 [], buffers_nil, List.forall_mem_singleton]
      exact inputs.1.2

namespace MasterEnv

def alignedFrom (n batchSize : ℕ) : ℕ → List Text → Prop
  | _, [] => True
  | r, l :: lines =>
    if cur l = '#' then (r = 0 ∨ n = 1 ∧ batchSize ∣ r) ∧ alignedFrom n batchSize r lines
    else alignedFrom n batchSize (r + 1) lines

theorem alignedFrom_iff : alignedFrom n batchSize r lines ↔
    ∀ before c after, lines = before ++ c :: after → cur c = '#' →
      r + (relationsOf before).length = 0 ∨ n = 1 ∧ batchSize ∣ r + (relationsOf before).length := by
  induction lines generalizing r with
  | nil => exact iff_of_true trivial fun before c after eq => by simp at eq
  | cons l lines ih =>
    rw [alignedFrom]
    by_cases comment : cur l = '#'
    · rw [if_pos comment, ih]
      constructor
      · rintro ⟨here, later⟩ before c after eq comment'
        cases before with
        | nil => simpa [relationsOf] using here
        | cons b before =>
          obtain ⟨rfl, rfl⟩ := List.cons.inj eq
          rw [relationsOf_comment comment]
          exact later before c after rfl comment'
      · intro every
        refine ⟨by simpa [relationsOf] using every [] l lines rfl comment, fun before c after eq comment' => ?_⟩
        have place := every (l :: before) c after (by rw [eq]; rfl) comment'
        rwa [relationsOf_comment comment] at place
    · rw [if_neg comment, ih]
      constructor
      · intro later before c after eq comment'
        cases before with
        | nil =>
          obtain ⟨rfl, -⟩ := List.cons.inj eq
          exact absurd comment' comment
        | cons b before =>
          obtain ⟨rfl, rfl⟩ := List.cons.inj eq
          have place := later before c after rfl comment'
          rwa [relationsOf_relation comment, List.length_cons, Nat.add_comm _ 1, ← Nat.add_assoc]
      · intro every before c after eq comment'
        have place := every (l :: before) c after (by rw [eq]; rfl) comment'
        rwa [relationsOf_relation comment, List.length_cons, Nat.add_comm _ 1, ← Nat.add_assoc] at place

theorem aligned_iff_from : Aligned n batchSize lines ↔ alignedFrom n batchSize 0 lines := by
  rw [alignedFrom_iff]
  simp only [Nat.zero_add, List.length_eq_zero_iff]
  rfl

theorem alignedFrom_comments {rest : List Text} (some : lines ≠ []) (comments : ∀ b ∈ lines, cur b = '#') :
    alignedFrom n batchSize r (lines ++ rest) ↔ (r = 0 ∨ n = 1 ∧ batchSize ∣ r) ∧ alignedFrom n batchSize r rest := by
  induction lines with
  | nil => exact absurd rfl some
  | cons l lines ih =>
    rw [List.forall_mem_cons] at comments
    rw [List.cons_append, alignedFrom, if_pos comments.1]
    by_cases last : lines = []
    · rw [last, List.nil_append]
    · rw [ih last comments.2]
      tauto

theorem aligned_intact (inputs : ∀ l ∈ lines, InputLine l) (some : ∀ t ∈ texts, t ≠ [])
    (intact : List.Forall₂ Intact lines texts) :
    alignedFrom n batchSize r (texts.flatMap buffers) ↔ alignedFrom n batchSize r lines := by
  induction intact generalizing r with
  | nil => rfl
  | @cons l t lines texts here later ih =>
    rw [List.forall_mem_cons] at inputs some
    rw [List.flatMap_cons]
    by_cases comment : cur l = '#'
    · rw [Intact, if_pos comment] at here
      rw [alignedFrom_comments (by rw [buffers_of_ne_nil some.1]; exact List.cons_ne_nil _ _) here, ih inputs.2 some.2,
        alignedFrom, if_pos comment]
    · rw [Intact, if_neg comment] at here
      rw [here.1, buffers_short inputs.1.1 here.2 [], buffers_nil, List.singleton_append, alignedFrom, if_neg comment,
        ih inputs.2 some.2, alignedFrom, if_neg comment]

variable {env : MasterEnv}

theorem count_consumeText (some : v ≠ []) : (consumeText false v).count ':' = 1 := by
  have none (x : ℕ) : (Nat.toDigits 10 x).count ':' = 0 := by
    rw [List.count_eq_zero]
    intro member
    exact absurd (ugly_toDigits ':' member) (by decide)
  have later (w : List ℕ) : (consumeText true w).count ':' = 0 := by
    induction w with
    | nil => rfl
    | cons x w ih => simp [consumeText, none, ih]
  cases v with
  | nil => exact absurd rfl some
  | cons x v => simp [consumeText, none, later]

theorem eq_nil_of_withMaps {d : Text} (parsed : (abPair b).isSome) (parsed' : (abPair (b ++ d)).isSome)
    (same : env.withMaps b = env.withMaps (b ++ d)) : d = [] := by
  obtain ⟨ab, eq⟩ := Option.isSome_iff_exists.mp parsed
  obtain ⟨ab', eq'⟩ := Option.isSome_iff_exists.mp parsed'
  simp only [withMaps, eq, eq', Option.elim_some, List.append_assoc] at same
  have tails := List.append_cancel_left same
  have length := @length_compute env ab.1 ab.2
  have length' := @length_compute env ab'.1 ab'.2
  by_cases empty : compute env.smInfo ab.1 ab.2 = []
  · rw [empty, consumeText] at tails
    exact (List.append_eq_nil_iff.mp tails.symm).1
  · have some' : compute env.smInfo ab'.1 ab'.2 ≠ [] := by
      intro empty'
      rw [empty', List.length_nil] at length'
      rw [← length', List.length_eq_zero_iff] at length
      exact empty length
    have count := congrArg (List.count ':') tails
    rw [List.count_append, count_consumeText empty, count_consumeText some'] at count
    cases d with
    | nil => rfl
    | cons c d =>
      obtain ⟨x, values, eq⟩ := List.exists_cons_of_ne_nil empty
      rw [eq, consumeText, List.cons_append, List.cons_append, List.cons.injEq] at tails
      rw [← tails.1] at count
      simp at count

theorem exists_first (lineText : LineText l t) (input : InputLine l) (relation : cur l ≠ '#') :
    ∃ b rest d, buffers t = b :: rest ∧ l = b ++ d ∧ cur b ≠ '#' ∧ (d = [] → Intact l t) := by
  have some := ne_nil_of_isSome (input.2.resolve_left relation)
  have starts {b d : Text} (split : l = b ++ d) : cur b ≠ '#' := by
    cases b with
    | nil => exact (by decide : Char.ofNat 0 ≠ '#')
    | cons c b => rwa [split] at relation
  by_cases whole : t = l ++ ['\n'] ∧ l.length ≤ 1022
  · refine ⟨l, [], [], ?_, (List.append_nil l).symm, relation, fun _ => ?_⟩
    · rw [whole.1, buffers_short input.1 whole.2 []]
      rfl
    · rw [Intact, if_neg relation]
      exact whole
  · have text : t = l ∨ t = l ++ ['\n'] ∧ 1022 < l.length := by
      rcases lineText with same | ended
      · exact .inl same
      · exact .inr ⟨ended, by_contra fun short => whole ⟨ended, by omega⟩⟩
    obtain ⟨b, rest, d, eq, split, lost⟩ := buffers_cut input.1 some text
    exact ⟨b, rest, d, eq, split, starts split, fun none => absurd none lost⟩

theorem relations_le (lineText : List.Forall₂ LineText lines texts) (inputs : ∀ l ∈ lines, InputLine l) :
    (relationsOf lines).length ≤ (relationsOf (texts.flatMap buffers)).length := by
  induction lineText with
  | nil => rfl
  | @cons l t lines texts here later ih =>
    rw [List.forall_mem_cons] at inputs
    rw [List.flatMap_cons, relationsOf_append, List.length_append]
    have le := ih inputs.2
    by_cases comment : cur l = '#'
    · rw [relationsOf_comment comment]
      omega
    · obtain ⟨b, rest, d, eq, -, relation, -⟩ := exists_first here inputs.1 comment
      rw [relationsOf_relation comment, eq, relationsOf_relation relation, List.length_cons, List.length_cons]
      omega

theorem intact_of_rows (lineText : List.Forall₂ LineText lines texts) (inputs : ∀ l ∈ lines, InputLine l)
    (known : ∀ b ∈ texts.flatMap buffers, Known b)
    (rows : (relationsOf (texts.flatMap buffers)).map env.withMaps = (relationsOf lines).map env.withMaps) :
    List.Forall₂ Intact lines texts := by
  induction lineText with
  | nil => exact .nil
  | @cons l t lines texts here later ih =>
    rw [List.forall_mem_cons] at inputs
    rw [List.flatMap_cons, List.forall_mem_append] at known
    rw [List.flatMap_cons, relationsOf_append, List.map_append] at rows
    have le := relations_le later inputs.2
    by_cases comment : cur l = '#'
    · rw [relationsOf_comment comment] at rows
      have length := congrArg List.length rows
      rw [List.length_append, List.length_map, List.length_map, List.length_map] at length
      have none : relationsOf (buffers t) = [] := List.length_eq_zero_iff.mp (by omega)
      rw [none, List.map_nil, List.nil_append] at rows
      refine .cons ?_ (ih inputs.2 known.2 rows)
      rw [Intact, if_pos comment]
      simpa [relationsOf] using none
    · obtain ⟨b, rest, d, eq, split, relation, whole⟩ := exists_first here inputs.1 comment
      rw [relationsOf_relation comment, eq, relationsOf_relation relation, List.map_cons, List.map_cons,
        List.cons_append,
        List.cons.injEq] at rows
      obtain ⟨first, rows⟩ := rows
      have length := congrArg List.length rows
      rw [List.length_append, List.length_map, List.length_map, List.length_map] at length
      have none : relationsOf rest = [] := List.length_eq_zero_iff.mp (by omega)
      rw [none, List.map_nil, List.nil_append] at rows
      refine .cons (whole ?_) (ih inputs.2 known.2 rows)
      have known_b := (known.1 b (by rw [eq]; exact List.mem_cons_self ..)).resolve_left relation
      rw [split] at first inputs
      exact eq_nil_of_withMaps known_b (inputs.1.2.resolve_left (split ▸ comment)) first

structure Printable (smInfo : List SmSideInfo) (ab : AbPair) : Prop where
  small : ab.2 < 2 ^ 63
  ends : EndsInMaps smInfo
  order : ownAll ab.1 ab.2 smInfo = compute smInfo ab.1 ab.2

/-- No line is cut, every batch can be sent, no comment overtakes a relation, and the maps are
printed in the same order. -/
structure Meets (env : MasterEnv) (n : ℕ) (lines : List Text) (terminated : Bool) : Prop where
  batches : 0 < env.batchSize
  intact : List.Forall₂ Intact lines (lineTexts terminated lines)
  fits : Fits env lines
  aligned : Aligned n env.batchSize lines
  printable : ∀ l ∈ relationsOf lines, Printable env.smInfo (pairOf l)

theorem withMaps_eq_syncLine_iff (parsed : (abPair l).isSome) (relation : cur l ≠ '#') :
    env.withMaps l = syncLine env.smInfo l ↔ EndsInMaps env.smInfo ∧
      ownAll (pairOf l).1 (pairOf l).2 env.smInfo = compute env.smInfo (pairOf l).1 (pairOf l).2 := by
  obtain ⟨ab, eq⟩ := Option.isSome_iff_exists.mp parsed
  have pair : pairOf l = ab := by rw [pairOf, eq]; rfl
  rw [withMaps, syncLine, if_neg relation, eq, pair, Option.elim_some, List.append_cancel_left_eq, eq_comm,
    same_text_iff]

theorem isComment_syncLine {smInfo : List SmSideInfo} (known : Known l) :
    isComment (syncLine smInfo l) = isComment l := by
  by_cases comment : cur l = '#'
  · rw [syncLine, if_pos comment]
  · have some := ne_nil_of_isSome (known.resolve_left comment)
    rw [syncLine, if_neg comment, isComment, cur_append some, isComment]

theorem relationsOf_outLine (known : ∀ l ∈ lines, Known l) :
    relationsOf (lines.map env.outLine) = (relationsOf lines).map env.withMaps := by
  induction lines with
  | nil => rfl
  | cons l lines ih =>
    rw [List.forall_mem_cons] at known
    rw [List.map_cons]
    by_cases comment : cur l = '#'
    · rw [outLine, if_pos comment, relationsOf_comment comment, relationsOf_comment comment, ih known.2]
    · rw [outLine, if_neg comment, relationsOf_relation (cur_withMaps known.1 comment), relationsOf_relation comment,
        ih known.2]
      rfl

theorem lineTexts_ne_nil (lineText : List.Forall₂ LineText lines texts) (inputs : ∀ l ∈ lines, InputLine l) :
    ∀ t ∈ texts, t ≠ [] := by
  induction lineText with
  | nil => simp
  | @cons l t lines texts here later ih =>
    rw [List.forall_mem_cons] at inputs ⊢
    refine ⟨?_, ih inputs.2⟩
    have some : l ≠ [] := by
      rintro rfl
      rcases inputs.1.2 with comment | parsed
      · exact absurd comment (by decide)
      · exact absurd rfl (ne_nil_of_isSome parsed)
    rcases here with rfl | rfl
    · exact some
    · simp

theorem fits_congr (same : relationsOf lines = relationsOf texts) : Fits env lines ↔ Fits env texts := by
  rw [Fits, Fits, most, most, same]

theorem appends_iff (env : MasterEnv) (n : ℕ) (lines : List Text) (terminated : Bool) (workers : 0 < n)
    (inputs : ∀ l ∈ lines, InputLine l) : env.Appends n lines terminated ↔ Meets env n lines terminated := by
  have text := buffers_inputText (fun l member => (inputs l member).1) terminated
  have lineText := @lineTexts_forall₂ lines terminated
  have some := lineTexts_ne_nil lineText inputs
  have clean := @newline_not_mem_buffers (inputText lines terminated)
  rw [Appends]
  generalize inputText lines terminated = inp at text clean
  constructor
  · rintro ⟨out, writes, out_clean, rows, sync⟩
    obtain ⟨pos, known, fits, written, eq, delivers⟩ := writes.delivers
    obtain rfl : out = written := join_inj out_clean delivers.clean eq
    obtain ⟨sync_known, eq'⟩ := smAppendSync_eq_some_iff.mp sync
    have sync_clean : ∀ l ∈ (buffers inp).map (syncLine env.smInfo), '\n' ∉ l := by
      rw [List.forall_mem_map]
      exact fun l member => newline_not_mem_syncLine (clean l member)
    have sync_eq := join_inj out_clean sync_clean eq'
    have intact := intact_of_rows lineText inputs (text ▸ known) (text ▸ delivers.rows.symm.trans rows)
    have relations := relationsOf_intact inputs intact
    have kinds : out.map isComment = (buffers inp).map isComment := by
      rw [sync_eq, List.map_map]
      exact List.map_congr_left fun l member => isComment_syncLine (known l member)
    have aligned := delivers.faithful (kinds ▸ List.prefix_rfl)
    have lines_eq := (delivers.aligned aligned).symm.trans sync_eq
    rw [text] at fits aligned
    refine ⟨pos, intact, (fits_congr relations).mp fits, ?_, fun l member => ?_⟩
    · rw [aligned_iff_from] at aligned ⊢
      exact (aligned_intact inputs some intact).mp aligned
    · rw [← relations, ← text] at member
      obtain ⟨inside, relation⟩ := mem_relationsOf.mp member
      obtain ⟨parsed, small⟩ := (sync_known l inside).resolve_left relation
      have here := List.map_inj_left.mp lines_eq l inside
      rw [outLine, if_neg relation, withMaps_eq_syncLine_iff parsed relation] at here
      exact ⟨small, here.1, here.2⟩
  · rintro ⟨pos, intact, fits, aligned, printable⟩
    have relations := relationsOf_intact inputs intact
    have known := known_intact inputs intact
    rw [← fits_congr relations] at fits
    rw [aligned_iff_from, ← aligned_intact inputs some intact, ← aligned_iff_from] at aligned
    rw [← text] at fits aligned known relations
    have same : ∀ l ∈ buffers inp, SyncKnown l ∧ env.outLine l = syncLine env.smInfo l := by
      intro l member
      by_cases comment : cur l = '#'
      · refine ⟨.inl comment, ?_⟩
        rw [outLine, syncLine, if_pos comment, if_pos comment]
      · have printed := printable l (relations ▸ mem_relationsOf.mpr ⟨member, comment⟩)
        have parsed := (known l member).resolve_left comment
        refine ⟨.inr ⟨parsed, printed.small⟩, ?_⟩
        rw [outLine, if_neg comment]
        exact (withMaps_eq_syncLine_iff parsed comment).mpr ⟨printed.ends, printed.order⟩
    refine ⟨(buffers inp).map env.outLine, writes_of_aligned workers pos known fits aligned, ?_, ?_, ?_⟩
    · rw [List.forall_mem_map]
      intro l member
      rw [(same l member).2]
      exact newline_not_mem_syncLine (clean l member)
    · rw [relationsOf_outLine known, relations]
    · rw [smAppendSync_eq_some_iff]
      refine ⟨fun l member => (same l member).1, ?_⟩
      rw [List.map_congr_left fun l member => ((same l member).2).symm]
      rfl

def oneEnv : MasterEnv := ⟨oneMap 7, 1, 128⟩

theorem inputLine_five : InputLine ['1', ',', '1', ':', '5'] := ⟨by decide, .inr (by decide)⟩

def twoLines : List Text := [['#'], ['1', ',', '1', ':', '5'], ['1', ',', '1', ':', '5']]

theorem appends_two : oneEnv.Appends 1 twoLines true := by
  have inputs : ∀ l ∈ twoLines, InputLine l := by
    simp only [twoLines, List.forall_mem_cons, List.not_mem_nil, IsEmpty.forall_iff, implies_true, and_true]
    exact ⟨⟨by decide, .inl rfl⟩, inputLine_five, inputLine_five⟩
  apply (appends_iff oneEnv 1 twoLines true one_pos inputs).mpr
  have five : Intact ['1', ',', '1', ':', '5'] (['1', ',', '1', ':', '5'] ++ ['\n']) := by
    rw [Intact, if_neg (by decide)]
    exact ⟨rfl, by decide⟩
  have comment : Intact ['#'] (['#'] ++ ['\n']) := by
    rw [Intact, if_pos (by decide), buffers_short (by decide) (by decide) []]
    decide
  refine ⟨by decide, .cons comment (.cons five (.cons five .nil)), ?_, ?_, ?_⟩
  · exact ⟨by unfold Sendable; decide, by unfold Sendable; decide⟩
  · rw [aligned_iff_from]
    simp [twoLines, alignedFrom, cur]
  · have printable : Printable oneEnv.smInfo (pairOf ['1', ',', '1', ':', '5']) :=
      ⟨by decide, ⟨_, rfl, by decide⟩, by decide⟩
    simpa [twoLines, relationsOf, cur] using printable

theorem not_appends_unterminated : ¬ oneEnv.Appends 1 [['1', ',', '1', ':', '5']] false := by
  rintro ⟨out, writes, out_clean, rows, sync⟩
  have read : smAppendSync (oneMap 7)
    ['1', ',', '1', ':', '5'] = some (join [['1', ',', '1', ':', ':', '7']]) := by decide
  have lines : out = [['1', ',', '1', ':', ':', '7']] :=
    join_inj out_clean (by decide) (Option.some.inj (sync.symm.trans read))
  rw [lines] at rows
  revert rows
  decide

end MasterEnv
end CadoNfs.Filter.SmAppend
