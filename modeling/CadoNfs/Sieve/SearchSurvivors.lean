import CadoNfs.Sieve.Qlattice
import CadoNfs.Sieve.SurvivorsInLine

/-!
# Searching a line

`search_survivors_in_line` of `sieve/las-unsieve.cpp`, on one or two sides, and on a sublattice or not.
-/

namespace CadoNfs.Sieve

def Sublat.adjustIJ (s : Sublat) (i : ℤ) (j : ℕ) : ℤ × ℕ :=
  if s.m ≠ 0 then (i * s.m.toNat + s.i0.toNat, j * s.m.toNat + s.j0.toNat) else (i, j)

inductive Sides
  | both (S S' : Bytes)
  | first (S : Bytes)
  | second (S : Bytes)

def apart (i jj : ℕ) : Bool := !(decide (jj % 2 = 0 ∧ i % 2 = 0) || decide (Nat.gcd i jj ≠ 1))

namespace Fragment

variable (F : Fragment)

def clear (S : Bytes) : Bytes := fun y => if y < F.I then 255 else S y

/-- Line 0, where only (1, 0) may survive. -/
def searchLine0 (within : ℕ → BitVec 8 → Bool) (S : Bytes) : Bytes × List ℕ :=
  let x := (1 - F.i0).toNat
  if F.i0 ≤ 0 ∧ 0 < F.i0 + F.I ∧ within x (S x) then (Function.update (F.clear S) x (S x), [x]) else (F.clear S, [])

def minP (tdMax : ℕ) : ℕ := (tdMax + 1) % 2 ^ 32

def searchBoth (S S' : Bytes) (bound bound' : BitVec 8) (tdMax : ℕ) (sublat : Sublat) : Option (Bytes × List ℕ) :=
  if F.j = 0 ∧ sublat.m = 0 then some (F.searchLine0 (fun x s => decide (s ≤ bound ∧ S' x ≤ bound')) S)
  else if sublat.m ≠ 0 then
    some (scan (fun x s => decide (s ≤ bound ∧ S' x ≤ bound') &&
      apart (sublat.m.toNat * (F.i0 + x) + sublat.i0.toNat).natAbs (sublat.m.toNat * F.j + sublat.j0.toNat))
        (List.range F.I) (S, []))
  else (F.unsieveNotCoprimeLine (minP tdMax) S).bind fun S =>
    if F.w = 16 then F.searchSurvivorsInLineSse2 tdMax S S' bound bound' else F.searchSurvivorsInLine1 tdMax S S' bound bound'

def searchOne (S : Bytes) (bound : BitVec 8) (tdMax : ℕ) (sublat : Sublat) : Option (Bytes × List ℕ) :=
  if F.j = 0 ∧ sublat.m = 0 then some (F.searchLine0 (fun _ s => decide (s ≤ bound)) S)
  else if sublat.m ≠ 0 then
    some (scan (fun x s => decide (s ≤ bound) &&
      apart ((sublat.m.toNat * (F.i0 + x)).natAbs + sublat.i0.toNat) (sublat.m.toNat * F.j + sublat.j0.toNat))
        (List.range F.I) (S, []))
  else (F.unsieveNotCoprimeLine (minP tdMax) S).bind fun S =>
    if F.w = 16 then F.searchSurvivorsInLineSse2Oneside tdMax S bound else F.searchSurvivorsInLine1Oneside tdMax S bound

def searchSurvivorsInLine (sides : Sides) (bound : BitVec 8 × BitVec 8) (tdMax : ℕ) (sublat : Sublat) :
    Option (Bytes × List ℕ) :=
  match sides with
  | .both S S' => F.searchBoth S S' bound.1 bound.2 tdMax sublat
  | .first S => F.searchOne S bound.1 tdMax sublat
  | .second S => F.searchOne S bound.2 tdMax sublat

end Fragment

/-- A fragment of a line above 0, and what it is searched with; the coordinates on the sublattice are
within an `int`. -/
structure Line extends Fragment where
  sides : Sides
  bound : BitVec 8 × BitVec 8
  tdMax : ℕ
  sublat : Sublat
  positive : 0 < j
  small : tdMax < 2 ^ 32
  within : ∀ x < I, |sublat.m.toNat * (i0 + x)| + sublat.i0.toNat < 2 ^ 31
  within' : sublat.m.toNat * j + sublat.j0.toNat < 2 ^ 32

namespace Line

variable (L : Line)

def run : Option (Bytes × List ℕ) := L.searchSurvivorsInLine L.sides L.bound L.tdMax L.sublat

def main : Bytes × BitVec 8 :=
  match L.sides with
  | .both S _ => (S, L.bound.1)
  | .first S => (S, L.bound.1)
  | .second S => (S, L.bound.2)

def other : Option (Bytes × BitVec 8) :=
  match L.sides with
  | .both _ S' => some (S', L.bound.2)
  | _ => none

def OtherPasses (x : ℕ) : Prop := ∀ s ∈ L.other, s.1 x ≤ s.2

def Passes (x : ℕ) : Prop := L.main.1 x ≤ L.main.2 ∧ L.OtherPasses x

def Coprime (x : ℕ) : Prop :=
  let ij := L.sublat.adjustIJ (L.i0 + x) L.j
  ij.1.natAbs.Coprime ij.2

instance (x : ℕ) : Decidable (L.OtherPasses x) := inferInstanceAs (Decidable (∀ s ∈ L.other, _))
instance (x : ℕ) : Decidable (L.Passes x) := inferInstanceAs (Decidable (_ ∧ _))
instance (x : ℕ) : Decidable (L.Coprime x) := inferInstanceAs (Decidable (Nat.Coprime _ _))

def Exact : Prop :=
  ∃ S, L.run = some (S, (List.range L.I).filter fun x => L.Passes x ∧ L.Coprime x) ∧
    ∀ x < L.I, ¬ (L.Passes x ∧ L.Coprime x) → S x = 255

def Full : Prop := L.main.2 = 255 ∨ ∃ s ∈ L.other, s.2 = 255

def Met (p x : ℕ) : Prop := (p : ℤ) ∣ (if L.i0 ≤ 0 then L.i0 else L.i0 - 2 ^ 32) + x

/-- A prime of the line that is not tested is met. -/
def Unsieved (x : ℕ) : Prop :=
  x < L.I ∧ ∃ p ∈ L.j.primeFactors.erase 2, Fragment.minP L.tdMax ≤ p ∧ L.Met p x ∧ (7 < p → L.j % 2 = 1 ∨ x % 2 = 1)

/-- What keeps a position that passes the bounds from the survivors. -/
def Lost (x : ℕ) : Prop := L.w = 16 ∧ L.Full ∨ L.Unsieved x ∧ L.main.2 ≠ 255 ∨ L.Excluded L.tdMax x

/-- A vector may go on after the end of the fragment; the first multiple of a prime is sought with an
unsigned remainder, which is wrong when `i0` is positive; a bound of 255 does not see what is struck out;
and only the vectors leave out the even positions of an even line. -/
def Doubtful (x : ℕ) : Prop :=
  L.I ≤ x ∨ 0 < L.i0 ∨ L.i0 % 2 = 1 ∨ L.Full ∨ L.w ≠ 16 ∧ L.j % 2 = 0 ∧ x % 2 = 0

def Room : Prop := (∀ q ∈ [3, 5, 7], q ∣ L.j → Fragment.minP L.tdMax ≤ q → q - 1 ≤ L.I / L.w) ∧ L.Few L.tdMax

/-- Without a sublattice the positions in doubt must come out right. On a sublattice one side alone takes
the absolute value before the offset is added. -/
def Sound : Prop :=
  if L.sublat.m = 0 then L.Room ∧ ∀ x < L.reach, L.Passes x → L.Doubtful x → (¬ L.Lost x ↔ x < L.I ∧ L.Coprime x)
  else L.other = none → ∀ x < L.I, L.Passes x → L.i0 + x < 0 →
    (((L.sublat.m.toNat * (L.i0 + x)).natAbs + L.sublat.i0.toNat).Coprime
      (L.sublat.m.toNat * L.j + L.sublat.j0.toNat) ↔ L.Coprime x)

variable {L : Line} {x : ℕ}

/-! ## The result of a scan -/

theorem exact_scan {test : ℕ → BitVec 8 → Bool} {good : ℕ → Prop} [DecidablePred good] {I n : ℕ} (le : I ≤ n)
    (S : Bytes) :
    (∃ S', some (scan test (List.range n) (S, [])) = some (S', (List.range I).filter fun x => good x) ∧
      ∀ x < I, ¬ good x → S' x = 255) ↔
      ∀ x < n, test x (S x) = true ↔ x < I ∧ good x := by
  have spec := @scan_eq test (List.range n) List.nodup_range S []
  rw [List.nil_append] at spec
  rw [spec]
  constructor
  · rintro ⟨S', same, -⟩ x lt
    have out := congrArg Prod.snd (Option.some.inj same)
    have here := congrArg (x ∈ ·) out
    simpa [lt] using here
  · intro same
    refine ⟨_, congrArg some (Prod.ext rfl ?_), fun x lt bad => if_pos ?_⟩
    · have split : List.range n = List.range I ++ List.range' I (n - I) := by
        have whole := @List.range'_append_1 0 I (n - I)
        rw [Nat.zero_add, Nat.add_sub_cancel' le] at whole
        rw [List.range_eq_range', List.range_eq_range', whole]
      have none : (List.range' I (n - I)).filter (fun x => test x (S x)) = [] := by
        refine List.filter_eq_nil_iff.mpr fun x member passes => ?_
        obtain ⟨le, lt⟩ := List.mem_range'_1.mp member
        have inside := ((same x (by omega)).mp passes).1
        omega
      dsimp only
      rw [split, List.filter_append, none, List.append_nil]
      refine List.filter_congr fun x member => ?_
      have lt := List.mem_range.mp member
      rw [Bool.eq_iff_iff, same x (by omega), decide_eq_true_eq, and_iff_right lt]
    · rw [← Bool.not_eq_true, same x (lt.trans_le le), List.mem_range]
      exact ⟨lt.trans_le le, fun both => bad both.2⟩

theorem apart_iff (i jj : ℕ) : apart i jj = true ↔ i.Coprime jj := by
  have both (even : jj % 2 = 0 ∧ i % 2 = 0) : Nat.gcd i jj ≠ 1 := fun one => by
    have two := Nat.dvd_gcd (Nat.dvd_of_mod_eq_zero even.2) (Nat.dvd_of_mod_eq_zero even.1)
    rw [one] at two
    exact absurd two (by decide)
  rw [apart, Nat.Coprime]
  simp only [Bool.not_eq_true', Bool.or_eq_false_iff, decide_eq_false_iff_not, not_not]
  exact ⟨fun h => h.2, fun one => ⟨fun even => both even one, one⟩⟩

/-! ## Without a sublattice -/

def Allows (L : Line) (x : ℕ) (s : BitVec 8) : Prop := ¬ (L.w = 16 ∧ L.Full) ∧ s ≤ L.main.2 ∧ L.OtherPasses x

instance (L : Line) : Decidable L.Full := inferInstanceAs (Decidable (_ ∨ _))
instance (L : Line) (x : ℕ) (s : BitVec 8) : Decidable (L.Allows x s) := inferInstanceAs (Decidable (_ ∧ _))

theorem searched_congr {F : Fragment} {tdMax : ℕ} {within within' : ℕ → BitVec 8 → Prop} [∀ x s, Decidable (within x s)]
    [∀ x s, Decidable (within' x s)] (same : ∀ x s, within x s ↔ within' x s) (S : Bytes) :
    F.searched tdMax within S = F.searched tdMax within' S := by
  rw [Fragment.searched, Fragment.searched]
  refine if_congr Iff.rfl (congrArg some (scan_congr (fun x _ s => ?_) _)) rfl
  rw [decide_eq_decide, same x s]

theorem allows_iff_of_none (none : L.other = none) (x : ℕ) (s : BitVec 8) :
    L.Allows x s ↔ ¬ (L.w = 16 ∧ L.main.2 = 255) ∧ s ≤ L.main.2 := by
  simp [Allows, Full, OtherPasses, none]

theorem searchOne_eq (none : L.sublat.m = 0) (other : L.other = Option.none) :
    L.searchOne L.main.1 L.main.2 L.tdMax L.sublat =
      (L.unsieveNotCoprimeLine (Fragment.minP L.tdMax) L.main.1).bind (L.searched L.tdMax L.Allows) := by
  have line : ¬ (L.j = 0 ∧ L.sublat.m = 0) := fun both => L.positive.ne' both.1
  rw [Fragment.searchOne, if_neg line, if_neg (not_not.mpr none)]
  refine congrArg _ (funext fun T => ?_)
  split_ifs with sse2
  · rw [Fragment.searchSurvivorsInLineSse2Oneside_eq L.positive sse2]
    refine searched_congr (fun x s => ?_) T
    rw [allows_iff_of_none other]
    simp [Fragment.Within, sse2]
  · rw [Fragment.searchSurvivorsInLine1Oneside, Fragment.searchLine_eq L.positive sse2]
    refine searched_congr (fun x s => ?_) T
    rw [allows_iff_of_none other]
    simp [sse2]

theorem run_eq (none : L.sublat.m = 0) :
    L.run = (L.unsieveNotCoprimeLine (Fragment.minP L.tdMax) L.main.1).bind (L.searched L.tdMax L.Allows) := by
  cases sides : L.sides with
  | both S S' =>
    have line : ¬ (L.j = 0 ∧ L.sublat.m = 0) := fun both => L.positive.ne' both.1
    have main : L.main = (S, L.bound.1) := by rw [Line.main, sides]
    have other : L.other = some (S', L.bound.2) := by rw [Line.other, sides]
    rw [run, sides]
    change L.searchBoth S S' L.bound.1 L.bound.2 L.tdMax L.sublat = _
    rw [Fragment.searchBoth, if_neg line, if_neg (not_not.mpr none), main]
    refine congrArg _ (funext fun T => ?_)
    split_ifs with sse2
    · rw [Fragment.searchSurvivorsInLineSse2_eq L.positive sse2]
      refine searched_congr (fun x s => ?_) T
      simp only [Fragment.Within, Allows, Full, OtherPasses, main, other, sse2, Option.mem_some_iff, forall_eq',
        exists_eq_left']
      tauto
    · rw [Fragment.searchSurvivorsInLine1, Fragment.searchLine_eq L.positive sse2]
      refine searched_congr (fun x s => ?_) T
      simp only [Allows, OtherPasses, main, other, sse2, Option.mem_some_iff, forall_eq', false_and,
        not_false_eq_true, true_and]
  | first S =>
    have main : L.main = (S, L.bound.1) := by rw [Line.main, sides]
    rw [← searchOne_eq none (by rw [Line.other, sides]), run, sides, main]
    rfl
  | second S =>
    have main : L.main = (S, L.bound.2) := by rw [Line.main, sides]
    rw [← searchOne_eq none (by rw [Line.other, sides]), run, sides, main]
    rfl

theorem startIdx_eq_iff {p : ℕ} : x % p = L.startIdx p ↔ L.Met p x := by
  have lower := L.lower
  have upper := L.upper
  have nonneg : 0 ≤ (-L.i0) % 2 ^ 32 := Int.emod_nonneg _ (by norm_num)
  have value : (-L.i0) % 2 ^ 32 = -(if L.i0 ≤ 0 then L.i0 else L.i0 - 2 ^ 32) := by
    split_ifs <;> omega
  rw [Fragment.startIdx, Met, ← Int.natCast_inj, Int.natCast_mod, Int.natCast_mod, Int.toNat_of_nonneg nonneg, value,
    Int.emod_eq_emod_iff_emod_sub_eq_zero, sub_neg_eq_add, add_comm]
  exact Int.dvd_iff_emod_eq_zero.symm

theorem struck_iff : L.struck (Fragment.minP L.tdMax) (divideOut 2 L.j L.j) x = true ↔ L.Unsieved x := by
  rw [Fragment.struck, decide_eq_true_eq, primeFactors_divideOut Nat.prime_two L.positive, Unsieved]
  simp only [startIdx_eq_iff]

theorem fits_iff : L.Fits (Fragment.minP L.tdMax) (divideOut 2 L.j L.j) ↔
    ∀ q ∈ [3, 5, 7], q ∣ L.j → Fragment.minP L.tdMax ≤ q → q - 1 ≤ L.I / L.w := by
  rw [Fragment.Fits]
  refine forall_congr' fun q => forall_congr' fun pattern => imp_congr_left ?_
  have prime := Fragment.prime_of_pattern pattern
  obtain ⟨left, -, -⟩ := @divideOut_spec 2 L.j L.j le_rfl L.positive le_rfl
  have ne : q ≠ 2 := by
    rintro rfl
    exact absurd pattern (by decide)
  have same := congrArg (q ∈ ·) (primeFactors_divideOut Nat.prime_two L.positive)
  simpa [prime, ne, left.ne', L.positive.ne'] using same

theorem allows_iff (L : Line) (x : ℕ) :
    L.Allows x (mark (L.struck (Fragment.minP L.tdMax) (divideOut 2 L.j L.j)) L.main.1 x) ∧ ¬ L.Excluded L.tdMax x ↔
      L.Passes x ∧ ¬ L.Lost x := by
  have top : ∀ b : BitVec 8, (255 ≤ b ↔ b = 255) ∧ (b = 255 → ∀ s : BitVec 8, s ≤ b) := by
    intro b
    refine ⟨⟨fun le => ?_, fun same => BitVec.le_def.mpr (same ▸ Nat.le_refl _)⟩, ?_⟩
    · exact BitVec.eq_of_toNat_eq (le_antisymm (Nat.le_of_lt_succ b.isLt) (BitVec.le_def.mp le))
    rintro rfl s
    exact Nat.le_of_lt_succ s.isLt
  obtain ⟨full, below⟩ := top L.main.2
  rw [Allows, Passes, Lost, mark, ← struck_iff]
  by_cases here : L.struck (Fragment.minP L.tdMax) (divideOut 2 L.j L.j) x = true
  · rw [if_pos here, full]
    constructor
    · rintro ⟨⟨room, same, passes⟩, kept⟩
      refine ⟨⟨below same _, passes⟩, ?_⟩
      rintro (lost | ⟨-, other⟩ | excluded)
      · exact room lost
      · exact other same
      · exact kept excluded
    · rintro ⟨⟨-, passes⟩, found⟩
      refine ⟨⟨fun lost => found (.inl lost), ?_, passes⟩, fun excluded => found (.inr (.inr excluded))⟩
      exact not_ne_iff.mp fun other => found (.inr (.inl ⟨here, other⟩))
  · rw [if_neg here]
    constructor
    · rintro ⟨⟨room, le, passes⟩, kept⟩
      refine ⟨⟨le, passes⟩, ?_⟩
      rintro (lost | ⟨struck, -⟩ | excluded)
      · exact room lost
      · exact here struck
      · exact kept excluded
    · rintro ⟨⟨le, passes⟩, found⟩
      exact ⟨⟨fun lost => found (.inl lost), le, passes⟩, fun excluded => found (.inr (.inr excluded))⟩

theorem exact_iff_kept (none : L.sublat.m = 0) :
    L.Exact ↔ L.Room ∧ ∀ x < L.reach, L.Passes x → (¬ L.Lost x ↔ x < L.I ∧ L.Coprime x) := by
  rw [Exact, run_eq none, Fragment.unsieveNotCoprimeLine_eq L.positive, Fragment.unsieved]
  by_cases fits : L.Fits (Fragment.minP L.tdMax) (divideOut 2 L.j L.j)
  · rw [if_pos fits, Option.bind_some, Fragment.searched]
    by_cases few : L.Few L.tdMax
    · have room : L.Room := ⟨fits_iff.mp fits, few⟩
      rw [if_pos few, exact_scan Fragment.le_reach, and_iff_right room]
      refine forall_congr' fun x => forall_congr' fun lt => ?_
      rw [decide_eq_true_eq, allows_iff]
      tauto
    · rw [if_neg few]
      refine iff_of_false ?_ fun h => few h.1.2
      rintro ⟨S, ⟨⟩, -⟩
  · rw [if_neg fits]
    refine iff_of_false ?_ fun h => fits (fits_iff.mpr h.1.1)
    rintro ⟨S, ⟨⟩, -⟩

theorem lost_iff_of_not_doubtful (none : L.sublat.m = 0) (sure : ¬ L.Doubtful x) :
    ¬ L.Lost x ↔ x < L.I ∧ L.Coprime x := by
  obtain ⟨inside, before, even, bounds, parity⟩ : x < L.I ∧ L.i0 ≤ 0 ∧ L.i0 % 2 = 0 ∧ ¬ L.Full ∧
      (L.j % 2 = 0 ∧ x % 2 = 0 → L.w = 16) := by
    simp only [Doubtful, not_or, not_le, not_lt, not_and] at sure
    obtain ⟨inside, before, even, bounds, parity⟩ := sure
    refine ⟨inside, before, by omega, bounds, fun both => ?_⟩
    by_contra scalar
    exact parity scalar both.1 both.2
  have coordinates : L.Coprime x ↔ (L.i0 + x).natAbs.Coprime L.j := by
    rw [Coprime, Sublat.adjustIJ, if_neg (not_not.mpr none)]
  have met (p : ℕ) : L.Met p x ↔ (p : ℤ) ∣ L.i0 + x := by rw [Met, if_pos before]
  rw [and_iff_right inside, coordinates, ← not_iff_not, not_not, Nat.Prime.not_coprime_iff_dvd]
  have common {p : ℕ} (member : p ∈ L.j.primeFactors.erase 2) (multiple : (p : ℤ) ∣ L.i0 + x) :
      ∃ p, p.Prime ∧ p ∣ (L.i0 + x).natAbs ∧ p ∣ L.j := by
    obtain ⟨prime, divides, -⟩ := Nat.mem_primeFactors.mp (Finset.mem_of_mem_erase member)
    exact ⟨p, prime, Int.natCast_dvd.mp multiple, divides⟩
  constructor
  · rintro (⟨-, full⟩ | ⟨⟨-, p, member, -, multiple, -⟩, -⟩ | ⟨-, line, x_even⟩ | ⟨p, member, multiple⟩)
    · exact absurd full bounds
    · exact common member ((met p).mp multiple)
    · exact ⟨2, Nat.prime_two, by omega, Nat.dvd_of_mod_eq_zero line⟩
    · exact common (Finset.mem_filter.mp member).1 multiple
  · rintro ⟨p, prime, multiple, divides⟩
    have even_both (line : L.j % 2 = 0) (x_even : x % 2 = 0) : L.Lost x :=
      .inr (.inr (.inl ⟨parity ⟨line, x_even⟩, line, x_even⟩))
    by_cases two : p = 2
    · subst two
      exact even_both (Nat.mod_eq_zero_of_dvd divides) (by omega)
    · have member : p ∈ L.j.primeFactors.erase 2 :=
        Finset.mem_erase.mpr ⟨two, Nat.mem_primeFactors.mpr ⟨prime, divides, L.positive.ne'⟩⟩
      have multiple : (p : ℤ) ∣ L.i0 + x := Int.natCast_dvd.mpr multiple
      rcases Nat.lt_or_ge L.tdMax p with above | tested
      · by_cases seen : L.j % 2 = 1 ∨ x % 2 = 1
        · have least : Fragment.minP L.tdMax ≤ p := (Nat.mod_le _ _).trans above
          have limited : L.main.2 ≠ 255 := fun full => bounds (.inl full)
          exact .inr (.inl ⟨⟨inside, p, member, least, (met p).mpr multiple, fun _ => seen⟩, limited⟩)
        · exact even_both (by omega) (by omega)
      · exact .inr (.inr (.inr ⟨p, Finset.mem_filter.mpr ⟨member, .inl tested⟩, multiple⟩))

theorem coprime_iff (sublattice : L.sublat.m ≠ 0) :
    L.Coprime x ↔ (L.sublat.m.toNat * (L.i0 + x) + L.sublat.i0.toNat : ℤ).natAbs.Coprime
      (L.sublat.m.toNat * L.j + L.sublat.j0.toNat) := by
  rw [Coprime, Sublat.adjustIJ, if_pos sublattice, mul_comm (L.i0 + x : ℤ), mul_comm L.j]

theorem exact_of_both (sublattice : L.sublat.m ≠ 0) {S S' : Bytes} (sides : L.sides = .both S S') : L.Exact := by
  have main : L.main = (S, L.bound.1) := by rw [Line.main, sides]
  have other : L.other = some (S', L.bound.2) := by rw [Line.other, sides]
  have line : ¬ (L.j = 0 ∧ L.sublat.m = 0) := fun both => sublattice both.2
  rw [Exact, run, sides]
  change ∃ T, L.searchBoth S S' L.bound.1 L.bound.2 L.tdMax L.sublat = _ ∧ _
  rw [Fragment.searchBoth, if_neg line, if_pos sublattice, exact_scan le_rfl]
  intro x lt
  rw [and_iff_right lt, Bool.and_eq_true, decide_eq_true_eq, apart_iff, coprime_iff sublattice, Passes, OtherPasses,
    main, other]
  simp only [Option.mem_some_iff, forall_eq']

theorem exact_iff_of_one (sublattice : L.sublat.m ≠ 0) (other : L.other = none)
    (one : L.run = L.searchOne L.main.1 L.main.2 L.tdMax L.sublat) : L.Exact ↔ L.Sound := by
  have line : ¬ (L.j = 0 ∧ L.sublat.m = 0) := fun both => sublattice both.2
  rw [Exact, one, Fragment.searchOne, if_neg line, if_pos sublattice, exact_scan le_rfl, Sound, if_neg sublattice]
  have passes (x : ℕ) : L.Passes x ↔ L.main.1 x ≤ L.main.2 := by simp [Passes, OtherPasses, other]
  constructor
  · intro same _ x lt pass before
    have here := same x lt
    rw [Bool.and_eq_true, decide_eq_true_eq, apart_iff, ← passes, and_iff_right lt] at here
    tauto
  · intro sound x lt
    rw [Bool.and_eq_true, decide_eq_true_eq, apart_iff, ← passes, and_iff_right lt]
    refine and_congr_right fun pass => ?_
    rcases Int.lt_or_le (L.i0 + x) 0 with before | after
    · exact sound other x lt pass before
    · have whole : (L.sublat.m.toNat * (L.i0 + x)).natAbs + L.sublat.i0.toNat =
        (L.sublat.m.toNat * (L.i0 + x) + L.sublat.i0.toNat).natAbs := by
        have nonneg : 0 ≤ L.sublat.m.toNat * (L.i0 + x) := mul_nonneg (by omega) after
        omega
      rw [whole, coprime_iff sublattice]

theorem exact_iff (L : Line) : L.Exact ↔ L.Sound := by
  by_cases none : L.sublat.m = 0
  · rw [exact_iff_kept none, Sound, if_pos none]
    refine and_congr_right fun room => forall_congr' fun x => forall_congr' fun lt => forall_congr' fun _ => ?_
    by_cases doubtful : L.Doubtful x
    · exact ⟨fun same _ => same, fun same => same doubtful⟩
    · exact iff_of_true (lost_iff_of_not_doubtful none doubtful) fun h => absurd h doubtful
  · cases sides : L.sides with
    | both S S' =>
      have other : L.other ≠ Option.none := by
        rw [Line.other, sides]
        exact Option.some_ne_none _
      rw [Sound, if_neg none]
      exact iff_of_true (exact_of_both none sides) fun h => absurd h other
    | first S => exact exact_iff_of_one none (by rw [Line.other, sides]) (by rw [run, main, sides]; rfl)
    | second S => exact exact_iff_of_one none (by rw [Line.other, sides]) (by rw [run, main, sides]; rfl)

def ofSublattice : Line where
  w := 16
  m := 1
  j := 1
  i0 := -8
  I := 16
  width := .inr (.inr rfl)
  inside := le_rfl
  power := ⟨4, rfl⟩
  lower := by norm_num
  upper := by norm_num
  sides := .first fun _ => 0
  bound := (0, 0)
  tdMax := 0
  sublat := ⟨3, 1, 2⟩
  positive := one_pos
  small := by norm_num
  within := by decide
  within' := by decide

theorem not_exact_ofSublattice : ¬ ofSublattice.Exact := by
  rintro ⟨S, same, -⟩
  have survivors := congrArg (Option.map Prod.snd) same
  have wrong : ofSublattice.run.map Prod.snd ≠
      some ((List.range ofSublattice.I).filter fun x => ofSublattice.Passes x ∧ ofSublattice.Coprime x) := by decide
  exact wrong survivors

end Line

end CadoNfs.Sieve
