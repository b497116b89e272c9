import CadoNfs.Utils.RelationRoundTrip

/-!
# `sm_append` and `thread_sm`

`sm_append` adds the Schirokauer maps of `a - b*x` to the line of a relation.
-/

namespace CadoNfs.Filter.SmAppend
open Lib Utils.FilterIo

/-- `sm_side_info`. The coefficients of `compute_piecewise` for `c0 + c1*x`, without leading zeros, are `piecewise c0 c1`. -/
structure SmSideInfo where
  nsm : ℕ
  degree : ℕ
  legacy : Bool
  piecewise : ℤ → ℤ → List ℕ
  nsm_le : nsm ≤ degree
  piecewise_length : ∀ c0 c1, (piecewise c0 c1).length ≤ degree

def int64 (x : ℤ) : ℤ := (x + 2 ^ 63) % 2 ^ 64 - 2 ^ 63

def fgets : ℕ → Text → Text × Text
  | 0, s => ([], s)
  | _ + 1, [] => ([], [])
  | n + 1, c :: s =>
    if c = '\n' then ([c], s)
    else
      let (t, s) := fgets n s
      (c :: t, s)

def abPair (p : Text) : Option (ℤ × ℕ) := do
  let negative := cur p == '-'
  let s := if negative then p.tail else p
  guard (ugly (cur s) < 16)
  let (a, s) := readNumber ugly 16 0 s
  guard (cur s = ',' ∧ ugly (cur s.tail) < 16)
  let (b, _) := readNumber ugly 16 0 s.tail
  return (int64 ((if negative then -1 else 1) * int64 a), b % 2 ^ 64)

def compute (smInfo : List SmSideInfo) (a : ℤ) (b : ℕ) : List ℕ :=
  smInfo.flatMap fun S => (List.range S.nsm).map fun k => (S.piecewise a (int64 (-int64 b))).getD k 0

def consumeText : Bool → List ℕ → Text
  | _, [] => []
  | comma, v :: sm => (if comma then ',' else ':') :: Nat.toDigits 10 v ++ consumeText true sm

-- `produce`, `compute` and `consume`, line by line. The last character of the buffer is overwritten.
def appendLines (smInfo : List SmSideInfo) : ℕ → Text → Option Text
  | 0, _ => none
  | fuel + 1, s =>
    let (buf, s) := fgets 1023 s
    if buf = [] then some []
    else
      let buf := buf.dropLast
      if cur buf = '#' then (appendLines smInfo fuel s).map fun out => buf ++ '\n' :: out
      else do
        let (a, b) ← abPair buf
        let out ← appendLines smInfo fuel s
        return buf ++ consumeText false (compute smInfo a b) ++ '\n' :: out

def smAppend (smInfo : List SmSideInfo) (s : Text) : Option Text := appendLines smInfo (s.length + 1) s

def nonvoidside (sideOf : ℕ → ℕ) (primes : List (Prime Unit ℤ)) : ℕ := primes.foldl (fun v x => v ||| 2 ^ sideOf x.p) 0

section
variable (smlog : ℕ → ℕ → ℤ) (nonvoid : ℕ)

def smFromLine : ℕ → List SmSideInfo → List ℕ → Option ℤ
  | _, [], _ => some 0
  | side, S :: smInfo, sm =>
    if 0 < S.nsm ∧ nonvoid.testBit side then do
      guard (S.nsm ≤ sm.length)
      let sum ← smFromLine (side + 1) smInfo (sm.drop S.nsm)
      return (∑ i ∈ Finset.range S.nsm, smlog side i * sm.getD i 0) + sum
    else smFromLine (side + 1) smInfo sm

def smFromPoly (a b : ℤ) : ℕ → List SmSideInfo → Option ℤ
  | _, [] => some 0
  | side, S :: smInfo =>
    if 0 < S.nsm ∧ nonvoid.testBit side then do
      guard (b < 2 ^ 63)
      let u := S.piecewise a (-b)
      let sum ← smFromPoly a b (side + 1) smInfo
      let contribs :=
        if S.legacy then
          ∑ i ∈ Finset.Ico (S.degree - u.length) S.nsm, smlog side i * u.getD (S.degree - 1 - i) 0
        else ∑ i ∈ Finset.range S.nsm, smlog side i * u.getD i 0
      return contribs + sum
    else smFromPoly a b (side + 1) smInfo

end

def sidesOf (sideOf : ℕ → ℕ) (smInfo : List SmSideInfo) (R : Relation Unit ℤ) : ℕ :=
  if 2 < smInfo.length then nonvoidside sideOf R.primes else 3

def TwoSides (sideOf : ℕ → ℕ) (smInfo : List SmSideInfo) (R : Relation Unit ℤ) : Prop :=
  2 < smInfo.length → sidesOf sideOf smInfo R &&& (sidesOf sideOf smInfo R - 1) ≠ 0

instance (sideOf : ℕ → ℕ) (smInfo : List SmSideInfo) (R : Relation Unit ℤ) : Decidable (TwoSides sideOf smInfo R) :=
  inferInstanceAs (Decidable (_ → _))

def threadSm (sideOf : ℕ → ℕ) (smInfo : List SmSideInfo) (smlog : ℕ → ℕ → ℤ) (R : Relation Unit ℤ) (sm : List ℕ) :
    Option ℤ := do
  let nonvoid := sidesOf sideOf smInfo R
  guard (TwoSides sideOf smInfo R)
  if sm ≠ [] then smFromLine smlog nonvoid 0 smInfo sm else smFromPoly smlog nonvoid R.ab.a R.ab.b 0 smInfo

/-! ## Values of `thread_sm` -/

section
variable (nonvoid : ℕ) (a b : ℤ)

def SmSideInfo.own (S : SmSideInfo) : List ℕ :=
  (List.range S.nsm).map fun i => (S.piecewise a (-b)).getD (if S.legacy then S.degree - 1 - i else i) 0

def ownValues : ℕ → List SmSideInfo → List ℕ
  | _, [] => []
  | side, S :: smInfo => (if nonvoid.testBit side then S.own a b else []) ++ ownValues (side + 1) smInfo

variable {nonvoid a b} {smlog : ℕ → ℕ → ℤ} {side : ℕ} {smInfo : List SmSideInfo} {S : SmSideInfo} {sm : List ℕ}

@[simp] theorem SmSideInfo.own_length : (S.own a b).length = S.nsm := by simp [own]

theorem SmSideInfo.own_getD {i : ℕ} (lt : i < S.nsm) :
    (S.own a b).getD i 0 = (S.piecewise a (-b)).getD (if S.legacy then S.degree - 1 - i else i) 0 := by
  simp [own, List.getD_eq_getElem?_getD, lt]

theorem SmSideInfo.sum_legacy (s : ℕ → ℤ) (u : List ℕ) (length : u.length ≤ S.degree) :
    ∑ i ∈ Finset.Ico (S.degree - u.length) S.nsm, s i * u.getD (S.degree - 1 - i) 0 =
      ∑ i ∈ Finset.range S.nsm, s i * u.getD (S.degree - 1 - i) 0 := by
  rw [Finset.range_eq_Ico]
  refine Finset.sum_subset (Finset.Ico_subset_Ico_left (Nat.zero_le _)) fun i inside outside => ?_
  have beyond : u.length ≤ S.degree - 1 - i := by
    have := S.nsm_le
    simp only [Finset.mem_Ico] at inside outside
    omega
  rw [List.getD_eq_getElem?_getD, List.getElem?_eq_none beyond]
  simp

theorem smFromPoly_cons (included : 0 < S.nsm ∧ nonvoid.testBit side) :
    smFromPoly smlog nonvoid a b side (S :: smInfo) = do
      guard (b < 2 ^ 63)
      let sum ← smFromPoly smlog nonvoid a b (side + 1) smInfo
      return (∑ i ∈ Finset.range S.nsm, smlog side i * (S.own a b).getD i 0) + sum := by
  have contribs : (if S.legacy then ∑ i ∈ Finset.Ico (S.degree - (S.piecewise a (-b)).length) S.nsm,
        smlog side i * (S.piecewise a (-b)).getD (S.degree - 1 - i) 0
      else ∑ i ∈ Finset.range S.nsm, smlog side i * (S.piecewise a (-b)).getD i 0) =
      ∑ i ∈ Finset.range S.nsm, smlog side i * ((S.own a b).getD i 0 : ℤ) := by
    rw [SmSideInfo.sum_legacy _ _ (S.piecewise_length a (-b))]
    split_ifs with legacy
    · refine Finset.sum_congr rfl fun i inside => ?_
      rw [SmSideInfo.own_getD (Finset.mem_range.mp inside), if_pos legacy]
    · refine Finset.sum_congr rfl fun i inside => ?_
      rw [SmSideInfo.own_getD (Finset.mem_range.mp inside), if_neg legacy]
  rw [smFromPoly, if_pos included]
  simp only [contribs]

theorem smFromPoly_cons_eq_some (included : 0 < S.nsm ∧ nonvoid.testBit side) {t : ℤ} :
    smFromPoly smlog nonvoid a b side (S :: smInfo) = some t ↔ b < 2 ^ 63 ∧
      ∃ sum, smFromPoly smlog nonvoid a b (side + 1) smInfo = some sum ∧
        (∑ i ∈ Finset.range S.nsm, smlog side i * (S.own a b).getD i 0) + sum = t := by
  rw [smFromPoly_cons included]
  simp [guard, Option.bind_eq_some_iff]

theorem smFromLine_cons_eq_some (included : 0 < S.nsm ∧ nonvoid.testBit side) {t : ℤ} :
    smFromLine smlog nonvoid side (S :: smInfo) sm = some t ↔ S.nsm ≤ sm.length ∧
      ∃ sum, smFromLine smlog nonvoid (side + 1) smInfo (sm.drop S.nsm) = some sum ∧
        (∑ i ∈ Finset.range S.nsm, smlog side i * sm.getD i 0) + sum = t := by
  rw [smFromLine, if_pos included]
  by_cases enough : S.nsm ≤ sm.length <;> simp [guard, enough, Option.bind_eq_some_iff]

theorem smFromLine_congr {smlog' : ℕ → ℕ → ℤ} (same : ∀ k, side ≤ k → smlog k = smlog' k) (sm : List ℕ) :
    smFromLine smlog nonvoid side smInfo sm = smFromLine smlog' nonvoid side smInfo sm := by
  induction smInfo generalizing side sm with
  | nil => rfl
  | cons S smInfo ih =>
    have later : ∀ k, side + 1 ≤ k → smlog k = smlog' k := fun k le => same k (by omega)
    rw [smFromLine, smFromLine, same side le_rfl, ih later, ih later]

theorem smFromPoly_congr {smlog' : ℕ → ℕ → ℤ} (same : ∀ k, side ≤ k → smlog k = smlog' k) :
    smFromPoly smlog nonvoid a b side smInfo = smFromPoly smlog' nonvoid a b side smInfo := by
  induction smInfo generalizing side with
  | nil => rfl
  | cons S smInfo ih =>
    rw [smFromPoly, smFromPoly, same side le_rfl, ih fun k le => same k (by omega)]

theorem smFromLine_zero {t : ℤ} (sum : smFromLine 0 nonvoid side smInfo sm = some t) : t = 0 := by
  induction smInfo generalizing side sm t with
  | nil => exact (Option.some.inj sum).symm
  | cons S smInfo ih =>
    by_cases included : 0 < S.nsm ∧ nonvoid.testBit side
    · obtain ⟨-, u, rest, eq⟩ := (smFromLine_cons_eq_some included).mp sum
      rw [← eq, ih rest]
      simp
    · rw [smFromLine, if_neg included] at sum
      exact ih sum

theorem smFromPoly_zero {t : ℤ} (sum : smFromPoly 0 nonvoid a b side smInfo = some t) : t = 0 := by
  induction smInfo generalizing side t with
  | nil => exact (Option.some.inj sum).symm
  | cons S smInfo ih =>
    by_cases included : 0 < S.nsm ∧ nonvoid.testBit side
    · obtain ⟨-, u, rest, eq⟩ := (smFromPoly_cons_eq_some included).mp sum
      rw [← eq, ih rest]
      simp
    · rw [smFromPoly, if_neg included] at sum
      exact ih sum

def SameSums (nonvoid : ℕ) (a b : ℤ) (side : ℕ) (smInfo : List SmSideInfo) (sm : List ℕ) : Prop :=
  ∀ smlog, ∃ t, smFromLine smlog nonvoid side smInfo sm = some t ∧ smFromPoly smlog nonvoid a b side smInfo = some t

theorem ownValues_cons_of_not (excluded : ¬(0 < S.nsm ∧ nonvoid.testBit side)) :
    ownValues nonvoid a b side (S :: smInfo) = ownValues nonvoid a b (side + 1) smInfo := by
  rw [ownValues]
  split_ifs with bit
  · have none : S.nsm = 0 := by
      by_contra some
      exact excluded ⟨Nat.pos_of_ne_zero some, bit⟩
    have empty : S.own a b = [] := List.length_eq_zero_iff.mp (SmSideInfo.own_length.trans none)
    rw [empty, List.nil_append]
  · rfl

def indicator (side i : ℕ) : ℕ → ℕ → ℤ := fun k j => if k = side ∧ j = i then 1 else 0

theorem sum_indicator {n i : ℕ} (lt : i < n) (v : ℕ → ℤ) :
    ∑ j ∈ Finset.range n, indicator side i side j * v j = v i := by
  rw [Finset.sum_eq_single i]
  · simp [indicator]
  · intro j _ other
    simp [indicator, other]
  · exact fun outside => absurd (Finset.mem_range.mpr lt) outside

theorem indicator_later (side i : ℕ) : ∀ k, side + 1 ≤ k → indicator side i k = (0 : ℕ → ℕ → ℤ) k := by
  intro k le
  funext j
  exact if_neg fun both => by omega

theorem sameSums_iff : SameSums nonvoid a b side smInfo sm ↔
    (ownValues nonvoid a b side smInfo ≠ [] → b < 2 ^ 63) ∧ ownValues nonvoid a b side smInfo <+: sm := by
  induction smInfo generalizing side sm with
  | nil => exact iff_of_true (fun _ => ⟨0, rfl, rfl⟩) ⟨fun nonempty => absurd rfl nonempty, List.nil_prefix⟩
  | cons S smInfo ih =>
    by_cases included : 0 < S.nsm ∧ nonvoid.testBit side
    · have own : ownValues nonvoid a b side (S :: smInfo) = S.own a b ++ ownValues nonvoid a b (side + 1) smInfo := by
        rw [ownValues, if_pos included.2]
      have own_ne : S.own a b ≠ [] := List.ne_nil_of_length_pos (SmSideInfo.own_length (S := S) ▸ included.1)
      rw [own]
      constructor
      · intro same
        have parts (smlog : ℕ → ℕ → ℤ) : b < 2 ^ 63 ∧ S.nsm ≤ sm.length ∧ ∃ t u,
            smFromLine smlog nonvoid (side + 1) smInfo (sm.drop S.nsm) = some t ∧
            smFromPoly smlog nonvoid a b (side + 1) smInfo = some u ∧
            (∑ i ∈ Finset.range S.nsm, smlog side i * (sm.getD i 0 : ℤ)) + t =
              (∑ i ∈ Finset.range S.nsm, smlog side i * ((S.own a b).getD i 0 : ℤ)) + u := by
          obtain ⟨total, line, poly⟩ := same smlog
          obtain ⟨enough, t, rest, eq⟩ := (smFromLine_cons_eq_some included).mp line
          obtain ⟨small, u, rest', eq'⟩ := (smFromPoly_cons_eq_some included).mp poly
          exact ⟨small, enough, t, u, rest, rest', eq.trans eq'.symm⟩
        obtain ⟨small, enough, -⟩ := parts 0
        have first : S.own a b = sm.take S.nsm := by
          refine List.ext_getElem (by simp [enough]) fun i lt lt' => ?_
          rw [SmSideInfo.own_length] at lt
          obtain ⟨-, -, t, u, rest, rest', eq⟩ := parts (indicator side i)
          rw [smFromLine_congr (indicator_later side i)] at rest
          rw [smFromPoly_congr (indicator_later side i)] at rest'
          rw [smFromLine_zero rest, smFromPoly_zero rest', sum_indicator lt, sum_indicator lt] at eq
          have value := Int.ofNat.inj (add_right_cancel eq)
          have in_sm : i < sm.length := lt.trans_le enough
          have in_own : i < (S.own a b).length := SmSideInfo.own_length.symm ▸ lt
          rw [List.getD_eq_getElem _ _ in_sm, List.getD_eq_getElem _ _ in_own] at value
          rw [List.getElem_take, value]
        have later : SameSums nonvoid a b (side + 1) smInfo (sm.drop S.nsm) := by
          intro smlog
          obtain ⟨-, -, t, u, rest, rest', eq⟩ := parts fun k i => if k = side then 0 else smlog k i
          have same : ∀ k, side + 1 ≤ k → (fun k i => if k = side then 0 else smlog k i) k = smlog k :=
            fun k le => funext fun i => if_neg (by omega)
          rw [smFromLine_congr same] at rest
          rw [smFromPoly_congr same] at rest'
          simp only [if_true, zero_mul, Finset.sum_const_zero, zero_add] at eq
          exact ⟨t, rest, eq ▸ rest'⟩
        obtain ⟨v, eq⟩ := (ih.mp later).2
        refine ⟨fun _ => small, v, ?_⟩
        rw [List.append_assoc, eq, first, List.take_append_drop]
      · rintro ⟨small, v, eq⟩ smlog
        rw [List.append_assoc] at eq
        have small := small (List.append_ne_nil_of_left_ne_nil own_ne _)
        have drop : sm.drop S.nsm = ownValues nonvoid a b (side + 1) smInfo ++ v := by
          rw [← eq, ← SmSideInfo.own_length (S := S) (a := a) (b := b), List.drop_left]
        obtain ⟨t, rest, rest'⟩ := ih.mpr ⟨fun _ => small, v, drop.symm⟩ smlog
        refine ⟨_, (smFromLine_cons_eq_some included).mpr ⟨?_, t, rest, rfl⟩,
          (smFromPoly_cons_eq_some included).mpr ⟨small, t, rest', ?_⟩⟩
        · rw [← eq]
          simp
        · congr 1
          refine Finset.sum_congr rfl fun i inside => ?_
          have lt : i < (S.own a b).length := by
            rw [SmSideInfo.own_length]
            exact Finset.mem_range.mp inside
          rw [← eq, List.getD_append _ _ _ _ lt]
    · rw [ownValues_cons_of_not included, ← ih, SameSums, SameSums]
      refine forall_congr' fun smlog => ?_
      rw [smFromLine, if_neg included, smFromPoly, if_neg included]

end

end CadoNfs.Filter.SmAppend

/-!
# Lines of `sm_append`, read back

The maps are printed in decimal and read in hexadecimal, and a line longer than the buffer becomes several lines.
-/

namespace CadoNfs.Filter.SmAppend
open Lib Utils.FilterIo Utils.FilterIo.PrimeType

variable {s line : Text} {n fuel : ℕ} {smInfo : List SmSideInfo}

theorem fgets_short (no_newline : '\n' ∉ line) (short : line.length < n) :
    fgets n (line ++ '\n' :: s) = (line ++ ['\n'], s) := by
  induction line generalizing n with
  | nil =>
    obtain ⟨n, rfl⟩ := Nat.exists_eq_succ_of_ne_zero (Nat.ne_of_gt short)
    exact if_pos rfl
  | cons c line ih =>
    obtain ⟨n, rfl⟩ := Nat.exists_eq_succ_of_ne_zero (Nat.ne_of_gt (Nat.zero_lt_of_lt short))
    rw [List.mem_cons, not_or] at no_newline
    rw [List.cons_append, fgets, if_neg (Ne.symm no_newline.1), ih no_newline.2 (Nat.lt_of_succ_lt_succ short)]
    rfl

theorem fgets_long (no_newline : '\n' ∉ line) (long : n ≤ line.length) :
    fgets n (line ++ '\n' :: s) = (line.take n, line.drop n ++ '\n' :: s) := by
  induction line generalizing n with
  | nil =>
    obtain rfl := Nat.le_zero.mp long
    rfl
  | cons c line ih =>
    cases n with
    | zero => rfl
    | succ n =>
      rw [List.mem_cons, not_or] at no_newline
      rw [List.cons_append, fgets, if_neg (Ne.symm no_newline.1), ih no_newline.2 (Nat.le_of_succ_le_succ long)]
      rfl

theorem appendLines_chunk {buf : Text} {rest : Text} (chunk : fgets 1023 s = (buf, rest)) (nonempty : buf ≠ []) :
    appendLines smInfo (fuel + 1) s =
      if cur buf.dropLast = '#' then (appendLines smInfo fuel rest).map fun out => buf.dropLast ++ '\n' :: out
      else (abPair buf.dropLast).bind fun ab => (appendLines smInfo fuel rest).bind fun out =>
        some (buf.dropLast ++ consumeText false (compute smInfo ab.1 ab.2) ++ '\n' :: out) := by
  rw [appendLines, chunk]
  exact if_neg nonempty

theorem exists_line {buf rest out : Text} (chunk : fgets 1023 s = (buf, rest)) (nonempty : buf ≠ [])
    (appended : appendLines smInfo (fuel + 1) s = some out) :
    ∃ l later, appendLines smInfo fuel rest = some later ∧ out = l ++ '\n' :: later := by
  rw [appendLines_chunk chunk nonempty] at appended
  split_ifs at appended with comment
  · obtain ⟨later, eq, rfl⟩ := Option.map_eq_some_iff.mp appended
    exact ⟨_, later, eq, rfl⟩
  · simp only [Option.bind_eq_some_iff, Option.some.injEq] at appended
    obtain ⟨ab, -, later, eq, rfl⟩ := appended
    exact ⟨_, later, eq, rfl⟩

theorem one_le_count {out : Text} (nonempty : s ≠ []) (appended : appendLines smInfo fuel s = some out) :
    1 ≤ out.count '\n' := by
  cases fuel with
  | zero => cases appended
  | succ fuel =>
    cases s with
    | nil => exact absurd rfl nonempty
    | cons c s =>
      have buf : (fgets 1023 (c :: s)).1 ≠ [] := by
        rw [fgets]
        split_ifs
        · exact List.cons_ne_nil _ _
        · exact List.cons_ne_nil _ _
      obtain ⟨l, later, -, rfl⟩ := exists_line rfl buf appended
      rw [List.count_append, List.count_cons_self]
      omega

theorem two_le_count {out : Text} (no_newline : '\n' ∉ line) (long : 1023 ≤ line.length)
    (appended : smAppend smInfo (line ++ ['\n']) = some out) : 2 ≤ out.count '\n' := by
  have chunk := fgets_long (s := []) no_newline long
  have buf : line.take 1023 ≠ [] := List.ne_nil_of_length_pos (by rw [List.length_take]; omega)
  obtain ⟨l, later, rest, rfl⟩ := exists_line chunk buf appended
  have more := one_le_count (by simp) rest
  rw [List.count_append, List.count_cons_self]
  omega

theorem smAppend_short (no_newline : '\n' ∉ line) (short : line.length ≤ 1022) (no_comment : cur line ≠ '#') {a : ℤ}
    {b : ℕ}
    (ab : abPair line = some (a, b)) :
    smAppend smInfo (line ++ ['\n']) = some (line ++ consumeText false (compute smInfo a b) ++ ['\n']) := by
  have chunk := fgets_short (n := 1023) (s := []) no_newline (by omega)
  have done : appendLines smInfo (line ++ ['\n']).length [] = some [] := by
    rw [List.length_append]
    rfl
  rw [smAppend, appendLines_chunk chunk (by simp), List.dropLast_concat, if_neg no_comment, ab, done]
  rfl

theorem int64_sign {a : ℤ} (low : -2 ^ 63 ≤ a) (high : a < 2 ^ 63) :
    int64 ((if a < 0 then -1 else 1) * int64 a.natAbs) = a := by
  rw [int64, int64]
  split_ifs <;> omega

theorem abPair_format {ab : AbBlock} (in_range : ab.InRange .uint64) :
    abPair (ab.format 16 ++ ':' :: s) = some (ab.a, ab.b.toNat) := by
  obtain ⟨⟨low, high⟩, nonneg, small⟩ := in_range rfl
  have wf : (ab.abText 16).WellFormed 16 := AbBlock.abText_wf (by decide) le_rfl
  obtain ⟨sign, number⟩ := AbText.readNumber_a (u := ':' :: s) wf le_rfl
  have value_a : valueOf ugly 16 0 (ab.abText 16).a = ab.a.natAbs := AbBlock.valueOf_toDigits (by decide) le_rfl _
  have value_b : valueOf ugly 16 0 (ab.abText 16).b = ab.b.natAbs := AbBlock.valueOf_toDigits (by decide) le_rfl _
  have digit (m : ℕ) (u : Text) : ugly (cur (Nat.toDigits 16 m ++ u)) < 16 := by
    obtain ⟨d, t, eq⟩ := List.exists_cons_of_ne_nil (Nat.toDigits_ne_nil (n := m) (b := 16))
    rw [eq]
    exact AbBlock.digits_toDigits (by decide) le_rfl m d (eq ▸ List.mem_cons_self ..)
  have first : ugly (cur (if (ab.abText 16).negative then ((ab.abText 16).text ++ ':' :: s).tail
      else (ab.abText 16).text ++ ':' :: s)) < 16 := by
    by_cases negative : ab.a < 0
    · simpa [AbBlock.abText, AbText.text, negative] using digit ab.a.natAbs _
    · simpa [AbBlock.abText, AbText.text, negative] using digit ab.a.natAbs _
  have second := wf.b.readNumber (c := ':') (s := s) le_rfl rfl
  have second_digit : ugly (cur ((ab.abText 16).b ++ ':' :: s)) < 16 := digit ab.b.natAbs _
  rw [AbBlock.format_eq nonneg, abPair]
  simp only [sign, first, number, guard]
  rw [show ((ab.abText 16).activeText) = [] from rfl]
  simp only [if_true, List.append_nil, List.cons_append, cur_cons, List.tail_cons, second, second_digit, and_self,
    value_a, value_b, Option.bind_eq_bind]
  have b_eq : ab.b.natAbs % 2 ^ 64 = ab.b.toNat := by omega
  have a_eq : int64 ((if (ab.abText 16).negative then -1 else 1) * int64 ab.a.natAbs) = ab.a := by
    have sign : (if (ab.abText 16).negative then (-1 : ℤ) else 1) = if ab.a < 0 then -1 else 1 := by simp [AbBlock.abText]
    rw [sign]
    exact int64_sign low high
  rw [b_eq, a_eq]
  rfl

def rereadSm (v : ℕ) : ℕ := valueOf ugly 16 0 (Nat.toDigits 10 v)

theorem rereadSm_eq_iff {v : ℕ} : rereadSm v = v ↔ v < 10 :=
  (prints_ugly.mono (by decide)).valueOf_other_eq_iff (by decide) (by decide)

theorem digits_decimal (v : ℕ) : Digits 16 (Nat.toDigits 10 v) := fun c member =>
  (AbBlock.digits_toDigits (show 1 < 10 by decide) (by decide) v c member).trans (by decide)

theorem parseSm_consumeText (fuel : ℕ) (comma : Bool) (sm : List ℕ) (enough : sm.length < fuel) :
    parseSm fuel (!comma) (consumeText comma sm ++ ['\n']) = some (sm.map rereadSm, ['\n']) := by
  induction sm generalizing comma fuel with
  | nil =>
    obtain ⟨fuel, rfl⟩ := Nat.exists_eq_succ_of_ne_zero (Nat.ne_of_gt enough)
    exact if_pos rfl
  | cons v sm ih =>
    obtain ⟨fuel, rfl⟩ := Nat.exists_eq_succ_of_ne_zero (Nat.ne_of_gt (Nat.zero_lt_of_lt enough))
    have later := ih fuel true (Nat.lt_of_succ_lt_succ enough)
    have stop : ∃ c u, consumeText true sm ++ ['\n'] = c :: u ∧ ugly c = 255 := by
      cases sm with
      | nil => exact ⟨'\n', [], rfl, rfl⟩
      | cons w sm => exact ⟨',', _, rfl, rfl⟩
    obtain ⟨c, u, eq, stop⟩ := stop
    have number := (digits_decimal v).readNumber (s := u) le_rfl stop
    rw [← eq] at number
    have not_newline : (if comma then ',' else ':') ≠ '\n' := by cases comma <;> decide
    have separator : (if comma then ',' else ':') = if (!comma) = true then ':' else ',' := by cases comma <;> rfl
    have text : consumeText comma (v :: sm) ++ ['\n'] =
        (if comma then ',' else ':') :: (Nat.toDigits 10 v ++ (consumeText true sm ++ ['\n'])) := by simp [consumeText]
    rw [text, parseSm, cur_cons, if_neg not_newline, ← separator]
    simp only [guard, if_true, List.tail_cons, number, Option.bind_eq_bind]
    rw [show false = !true from rfl, later]
    rfl

theorem map_rereadSm_eq_iff {sm : List ℕ} : sm.map rereadSm = sm ↔ ∀ v ∈ sm, v < 10 := by
  conv_lhs => rhs; rw [← List.map_id sm]
  rw [List.map_inj_left]
  exact forall₂_congr fun v _ => rereadSm_eq_iff

theorem length_consumeText (comma : Bool) (sm : List ℕ) : sm.length ≤ (consumeText comma sm).length := by
  induction sm generalizing comma with
  | nil => exact Nat.zero_le _
  | cons v sm ih =>
    have := ih true
    simp only [consumeText, List.length_cons, List.length_append]
    omega

theorem newline_not_mem {base : ℕ} (small : base ≤ 16) {text : Text} (digits : Digits base text) : '\n' ∉ text :=
  fun member => by
  have less := digits '\n' member
  rw [show ugly '\n' = 255 from rfl] at less
  omega

theorem newline_not_mem_consumeText (comma : Bool) (sm : List ℕ) : '\n' ∉ consumeText comma sm := by
  induction sm generalizing comma with
  | nil => simp [consumeText]
  | cons v sm ih =>
    have digits := newline_not_mem le_rfl (digits_decimal v)
    cases comma <;> simp [consumeText, digits, ih]

theorem newline_not_mem_format {ab : AbBlock} : '\n' ∉ ab.format 16 := by
  have a := newline_not_mem le_rfl (AbBlock.digits_toDigits (show 1 < 16 by decide) le_rfl ab.a.natAbs)
  have b := newline_not_mem le_rfl (AbBlock.digits_toDigits (show 1 < 16 by decide) le_rfl ab.b.natAbs)
  rw [AbBlock.format, formatInt, formatInt]
  split_ifs <;> simp [a, b]

theorem newline_not_mem_sideText {words : List (Word ℤ)} (no_newline : ∀ w ∈ words, '\n' ∉ w.text) :
    '\n' ∉ sideText words := by
  cases words with
  | nil => exact List.not_mem_nil
  | cons w words =>
    rw [List.forall_mem_cons] at no_newline
    rw [sideText_cons, List.mem_append, not_or]
    refine ⟨no_newline.1, fun member => ?_⟩
    obtain ⟨v, inside, at_v⟩ := List.mem_flatMap.mp member
    rcases List.mem_cons.mp at_v with absurd | at_text
    · cases absurd
    · exact no_newline.2 v inside at_text

theorem newline_not_mem_copies {σ : Type} {bits : ℕ} {x : Prime σ ℤ} : ∀ w ∈ copies bits 16 x, '\n' ∉ w.text := by
  intro w member
  rw [(List.mem_replicate.mp member).2]
  have digits := newline_not_mem le_rfl (AbBlock.digits_toDigits (show 1 < 16 by decide) le_rfl x.p)
  by_cases negative : x.e < 0 <;>
    simp [PrimeText.wrapped, PrimeText.text, PrimeText.sign, PrimeText.exponentText, copyText, negative, digits]

section
variable (smInfo) (bits : ℕ) (sideOf : ℕ → ℕ) (R : Relation Unit ℤ)

def maps : List ℕ := compute smInfo R.ab.a R.ab.b.toNat

def ReadsBack : Prop :=
  ∃ line, R.formatIndices (indexedType bits) 16 = some line ∧
    ∃ out, smAppend smInfo (line ++ ['\n']) = some (out ++ ['\n']) ∧ '\n' ∉ out ∧
      ∃ R' sm, parseWithSm (indexedType bits) .uint64 16 (out ++ ['\n']) = some (R', sm, ['\n']) ∧ R'.ab = R.ab ∧
        R'.primes = R.primes ∧ sm = maps smInfo R ∧
        ∀ smlog, ∃ t, threadSm sideOf smInfo smlog R' sm = some t ∧ threadSm sideOf smInfo smlog R' [] = some t

end

variable {bits : ℕ} {sideOf : ℕ → ℕ} {R : Relation Unit ℤ}

def lineOf (bits : ℕ) (R : Relation Unit ℤ) : Text :=
    R.ab.format 16 ++ ':' :: sideText (R.primes.flatMap (copies bits 16))

theorem format_eq (valid : R.Valid (indexedType bits) .uint64) :
    R.formatIndices (indexedType bits) 16 = some (lineOf bits R) := by
  have nonzero := Relation.nonzero_of_valid rfl valid
  rw [Relation.formatIndices_eq fun x member => prints_indexed (nonzero x member)]
  simp [lineOf, sidesText]

theorem newline_not_mem_lineOf : '\n' ∉ lineOf bits R := by
  have words : '\n' ∉ sideText (R.primes.flatMap (copies bits 16)) := newline_not_mem_sideText fun w member => by
    obtain ⟨x, -, inside⟩ := List.mem_flatMap.mp member
    exact newline_not_mem_copies w inside
  simp [lineOf, newline_not_mem_format, words]

theorem cur_lineOf : cur (lineOf bits R) ≠ '#' := by
  have digits := AbBlock.digits_toDigits (show 1 < 16 by decide) le_rfl R.ab.a.natAbs
  rw [lineOf, AbBlock.format, formatInt]
  split_ifs with negative
  · exact (by decide : '-' ≠ '#')
  · rw [List.append_assoc]
    exact digits.head_ne le_rfl '#' rfl (by decide)

theorem parse_line (valid : R.Valid (indexedType bits) .uint64) (sm : List ℕ) :
    parseWithSm (indexedType bits) .uint64 16 (lineOf bits R ++ consumeText false sm ++ ['\n']) =
      ((R.ab.abText 16).cast .uint64 16).map fun w => (⟨(R.ab.abText 16).block .uint64 16 w,
        intExponent.sortAndCompress (intExponent.collate
          (R.primes.flatMap fun x => (copies bits 16 x).map fun w => ⟨x.side, w.p, w.e⟩)), 1⟩, sm.map rereadSm,
            ['\n']) := by
  have stop : ∃ c u, consumeText false sm ++ ['\n'] = c :: u ∧ (c = ':' ∨ c = '\n') := by
    cases sm with
    | nil => exact ⟨'\n', [], rfl, .inr rfl⟩
    | cons v sm => exact ⟨':', _, rfl, .inl rfl⟩
  obtain ⟨c, u, eq, stop⟩ := stop
  have reads : ∀ w ∈ R.primes.flatMap (copies bits 16), (indexedType bits).Reads w := by
    intro w member
    obtain ⟨x, -, inside⟩ := List.mem_flatMap.mp member
    exact reads_copies (T := indexedType bits) rfl (by decide) le_rfl w inside
  have parsed := parse_side (t := .uint64) (s := u) (AbBlock.abText_wf (x := R.ab) (by decide) le_rfl) le_rfl reads stop
  have maps := parseSm_consumeText ((c :: u).length + 1) false sm (by
    have := length_consumeText false sm
    rw [← eq, List.length_append]
    omega)
  have text : lineOf bits R ++ consumeText false sm ++ ['\n'] =
      (R.ab.abText 16).text ++ (':' :: sideText (R.primes.flatMap (copies bits 16)) ++ c :: u) := by
    rw [lineOf, AbBlock.format_eq (valid.ab rfl).2.1, ← eq]
    simp
  rw [eq] at maps
  rw [text, parseWithSm, parsed]
  cases (R.ab.abText 16).cast .uint64 16 with
  | none => rfl
  | some w =>
    simp only [Option.map_some, Option.bind_eq_bind, Option.bind_some]
    rw [show true = !false from rfl, maps]
    simp [entries, List.map_flatMap, ExponentType.collate, indexedType]

theorem ownValues_eq_nil {nonvoid : ℕ} {a b : ℤ} {side : ℕ} (none : ∀ S ∈ smInfo, S.nsm = 0) :
    ownValues nonvoid a b side smInfo = [] := by
  induction smInfo generalizing side with
  | nil => rfl
  | cons S smInfo ih =>
    rw [List.forall_mem_cons] at none
    rw [ownValues_cons_of_not fun included => absurd none.1 included.1.ne', ih none.2]

def ownMaps (sideOf : ℕ → ℕ) (smInfo : List SmSideInfo) (R : Relation Unit ℤ) : List ℕ :=
  ownValues (sidesOf sideOf smInfo R) R.ab.a R.ab.b 0 smInfo

theorem threadSm_iff (two_sides : TwoSides sideOf smInfo R) :
    (∀ smlog, ∃ t, threadSm sideOf smInfo smlog R (maps smInfo R) = some t ∧
      threadSm sideOf smInfo smlog R [] = some t) ↔
      (ownMaps sideOf smInfo R ≠ [] → R.ab.b < 2 ^ 63) ∧ ownMaps sideOf smInfo R <+: maps smInfo R := by
  rw [ownMaps, ← sameSums_iff]
  have poly (smlog : ℕ → ℕ → ℤ) : threadSm sideOf smInfo smlog R [] =
      smFromPoly smlog (sidesOf sideOf smInfo R) R.ab.a R.ab.b 0 smInfo := by
    simp [threadSm, guard, two_sides]
  by_cases no_maps : maps smInfo R = []
  · have none : ∀ S ∈ smInfo, S.nsm = 0 := by
      intro S member
      have empty := List.flatMap_eq_nil_iff.mp no_maps S member
      simpa using empty
    have own : ownValues (sidesOf sideOf smInfo R) R.ab.a R.ab.b 0 smInfo = [] := ownValues_eq_nil none
    have same : SameSums (sidesOf sideOf smInfo R) R.ab.a R.ab.b 0 smInfo [] :=
      sameSums_iff.mpr ⟨fun nonempty => absurd own nonempty, own ▸ List.nil_prefix⟩
    rw [no_maps]
    refine iff_of_true (fun smlog => ?_) same
    obtain ⟨t, -, computed⟩ := same smlog
    exact ⟨t, (poly smlog).trans computed, (poly smlog).trans computed⟩
  · refine forall_congr' fun smlog => ?_
    have line : threadSm sideOf smInfo smlog R (maps smInfo R) =
        smFromLine smlog (sidesOf sideOf smInfo R) 0 smInfo (maps smInfo R) := by
      simp [threadSm, guard, two_sides, no_maps]
    rw [line, poly]

theorem readsBack_iff (smInfo : List SmSideInfo) (bits : ℕ) (sideOf : ℕ → ℕ) (R : Relation Unit ℤ)
    (valid : R.Valid (indexedType bits) .uint64) (two_sides : TwoSides sideOf smInfo R) :
    ReadsBack smInfo bits sideOf R ↔ (lineOf bits R).length ≤ 1022 ∧ R.ab.Readable .uint64 ∧
      ExponentType.Separated R.primes ∧ (∀ v ∈ maps smInfo R, v < 10) ∧
      (ownMaps sideOf smInfo R ≠ [] → R.ab.b < 2 ^ 63) ∧ ownMaps sideOf smInfo R <+: maps smInfo R := by
  rw [← threadSm_iff two_sides, ← map_rereadSm_eq_iff]
  have in_range := valid.ab
  have cast := AbBlock.cast_eq (t := .uint64) (show 1 < 16 by decide) le_rfl in_range
  have block := AbBlock.block_eq (t := .uint64) (show 1 < 16 by decide) le_rfl in_range (in_range rfl).2.1
  have short : (lineOf bits R).length ≤ 1022 → smAppend smInfo (lineOf bits R ++ ['\n']) =
      some (lineOf bits R ++ consumeText false (maps smInfo R) ++ ['\n']) := fun length =>
    smAppend_short newline_not_mem_lineOf length cur_lineOf (abPair_format in_range)
  have out_newline : '\n' ∉ lineOf bits R ++ consumeText false (maps smInfo R) := by
    simp [newline_not_mem_lineOf, newline_not_mem_consumeText]
  have parsed := parse_line valid (maps smInfo R)
  rw [cast] at parsed
  have sums (R' : Relation Unit ℤ) (ab : R'.ab = R.ab) (primes : R'.primes = R.primes) (smlog : ℕ → ℕ → ℤ)
    (sm : List ℕ) :
      threadSm sideOf smInfo smlog R' sm = threadSm sideOf smInfo smlog R sm := by
    cases R
    cases R'
    cases ab
    cases primes
    rfl
  constructor
  · rintro ⟨line, formatted, out, appended, no_newline, R', sm, read, ab, primes, rfl, same⟩
    obtain rfl := Option.some.inj ((format_eq valid).symm.trans formatted)
    have length : (lineOf bits R).length ≤ 1022 := by
      by_contra long
      have two := two_le_count newline_not_mem_lineOf (by omega) appended
      rw [List.count_append, List.count_eq_zero_of_not_mem no_newline] at two
      simp at two
    have out_eq := List.append_cancel_right (Option.some.inj (appended.symm.trans (short length)))
    rw [out_eq, parsed] at read
    by_cases least : AbType.uint64 = .uint64 ∧ R.ab.a = -2 ^ 63
    · rw [if_pos least] at read
      cases read
    · rw [if_neg least, Option.map_some, block] at read
      simp only [Option.some.injEq, Prod.mk.injEq] at read
      obtain ⟨R_eq, sm_eq, -⟩ := read
      subst R_eq
      refine ⟨length, ⟨fun _ a => least ⟨rfl, a⟩, (in_range rfl).2.1, (congrArg AbBlock.activeSides ab).symm⟩,
        (Relation.indexed_primes_iff valid).mp primes, sm_eq, fun smlog => ?_⟩
      obtain ⟨t, with_maps, without⟩ := same smlog
      rw [sums _ ab primes] at with_maps without
      exact ⟨t, with_maps, without⟩
  · rintro ⟨length, ⟨not_least, -, active⟩, separated, decimal, same⟩
    have primes := (Relation.indexed_primes_iff valid).mpr separated
    rw [if_neg fun least => not_least rfl least.2, Option.map_some, block, primes, decimal] at parsed
    have ab : (⟨R.ab.a, R.ab.b, (0, 1)⟩ : AbBlock) = R.ab := by rw [← active]
    refine ⟨_, format_eq valid, _, short length, out_newline, _, _, parsed, ab, rfl, rfl, fun smlog => ?_⟩
    obtain ⟨t, with_maps, without⟩ := same smlog
    have read := sums ⟨⟨R.ab.a, R.ab.b, (0, 1)⟩, R.primes, 1⟩ ab rfl smlog
    exact ⟨t, (read _).trans with_maps, (read _).trans without⟩

section
variable (v : ℕ)

theorem nsm_one : 1 ≤ 2 := by decide

theorem length_one (_ _ : ℤ) : [v].length ≤ 2 := by simp

def oneMap : List SmSideInfo := [⟨1, 2, false, fun _ _ => [v], nsm_one, length_one v⟩]

def fiveRelation : Relation Unit ℤ := ⟨⟨1, 1, (0, 1)⟩, [⟨(), 5, 1⟩], 1⟩

end

theorem fiveRelation_valid : fiveRelation.Valid (indexedType 64) .uint64 :=
  ⟨fun _ => by decide, by simp [fiveRelation, indexedType], by simp [fiveRelation, indexedType, intExponent],
    List.pairwise_singleton ..⟩

theorem readsBack_seven : ReadsBack (oneMap 7) 64 (fun _ => 0) fiveRelation :=
  (readsBack_iff (oneMap 7) 64 (fun _ => 0) fiveRelation fiveRelation_valid nofun).mpr
    ⟨by decide, ⟨fun _ => by decide, by decide, rfl⟩, List.isChain_singleton _, by decide,
      fun _ => by decide, by decide⟩

theorem not_readsBack_twelve : ¬ReadsBack (oneMap 12) 64 (fun _ => 0) fiveRelation := by
  rintro ⟨line, formatted, out, appended, -, R', sm, read, -, -, same, -⟩
  obtain rfl : ['1', ',', '1', ':', '5'] = line := Option.some.inj (Eq.trans (by decide) formatted)
  have line : smAppend (oneMap 12) ['1', ',', '1', ':', '5', '\n'] =
      some (['1', ',', '1', ':', '5', ':', '1', '2'] ++ ['\n']) := by decide
  obtain rfl := List.append_cancel_right (Option.some.inj (line.symm.trans appended))
  have eighteen : parseWithSm (indexedType 64) .uint64 16 (['1', ',', '1', ':', '5', ':', '1', '2'] ++ ['\n']) =
      some (fiveRelation, [18], ['\n']) := by decide
  cases eighteen.symm.trans read
  revert same
  decide

end CadoNfs.Filter.SmAppend
