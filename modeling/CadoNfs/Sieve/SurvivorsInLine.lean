import CadoNfs.Sieve.Unsieve

/-!
# The survivors of a line

`search_survivors_in_line1` of `sieve/las-unsieve.cpp` and the functions of `sieve/las-unsieve-sse2.cpp` compare the
bytes with the bounds and test what survives for the small primes of the line.
-/

namespace CadoNfs.Sieve

def scan (test : ℕ → BitVec 8 → Bool) (l : List ℕ) (st : Bytes × List ℕ) : Bytes × List ℕ :=
  l.foldl (fun st x => if test x (st.1 x) then (st.1, st.2 ++ [x]) else (Function.update st.1 x 255, st.2)) st

def evenMask (j k : ℕ) : BitVec 8 := if j % 2 = 0 ∧ k % 2 = 0 then 0 else 255

def setBound (j k : ℕ) (bound : BitVec 8) : BitVec 8 := ((bound + 1) &&& evenMask j k) ^^^ 128

/-- `_mm_cmpgt_epi8`, on one lane. -/
def laneSurvives (pattern s : BitVec 8) : Bool := (s ^^^ 128).slt pattern

def movemask (m : ℕ → Bool) : BitVec 32 := BitVec.ofNat 32 (Nat.ofBits fun k : Fin 16 => m k)

namespace Fragment

variable (F : Fragment) (tdMax : ℕ)

def testDivides (div : List (ℕ × ℕ)) (x : ℕ) : Bool := divides div (F.i0 + x).natAbs

def searchLine (within : ℕ → BitVec 8 → Bool) (S : Bytes) : Option (Bytes × List ℕ) :=
  let div := extractJDiv F.j 3 tdMax
  if div.length ≤ 6 then some (scan (fun x s => within x s && !F.testDivides div x) (List.range F.I) (S, [])) else none

def searchSurvivorsInLine1 (S S' : Bytes) (bound bound' : BitVec 8) : Option (Bytes × List ℕ) :=
  F.searchLine tdMax (fun x s => decide (s ≤ bound ∧ S' x ≤ bound')) S

def searchSurvivorsInLine1Oneside (S : Bytes) (bound : BitVec 8) : Option (Bytes × List ℕ) :=
  F.searchLine tdMax (fun _ s => decide (s ≤ bound)) S

def searchSingleSurvivorsMask (div : List (ℕ × ℕ)) : ℕ → ℕ → BitVec 32 → Bytes × List ℕ → Bytes × List ℕ
  | 0, _, _, st => st
  | fuel + 1, x, bitmask, st =>
    if bitmask = 0 then st
    else
      let tz := bitmask.ctz.toNat
      let x := x + tz
      searchSingleSurvivorsMask div fuel (x + 1) (bitmask >>> (tz + 1))
        (if F.testDivides div x then (Function.update st.1 x 255, st.2) else (st.1, st.2 ++ [x]))

def testLognormMask (survives : ℕ → BitVec 8 → Bool) (x : ℕ) (S : Bytes) : Bytes × BitVec 32 :=
  (fun y => if x ≤ y ∧ y < x + 16 then S y ||| (if survives y (S y) then 0 else 255) else S y,
    movemask fun k => survives (x + k) (S (x + k)))

def vectorLoop (div : List (ℕ × ℕ)) (nr : ℕ) (survives : ℕ → ℕ → BitVec 8 → Bool) :
  ℕ → ℕ → ℕ → Bytes × List ℕ → Bytes × List ℕ
  | 0, _, _, st => st
  | fuel + 1, xStart, nextPattern, st =>
    if xStart < F.I then
      let (S, mask) := testLognormMask (survives nextPattern) xStart st.1
      vectorLoop div nr survives fuel (xStart + 16) (if nextPattern + 1 = nr then 0 else nextPattern + 1)
        (F.searchSingleSurvivorsMask div 32 xStart mask (S, st.2))
    else st

def searchVectors (pmin most nr : ℕ) (survives : ℕ → ℕ → BitVec 8 → Bool) (S : Bytes) : Option (Bytes × List ℕ) :=
  let div := extractJDiv F.j pmin tdMax
  if div.length ≤ most then some (F.vectorLoop div nr survives (F.I + 1) 0 0 (S, [])) else none

def offset (q : ℕ) : ℕ := ((-F.i0) % q).toNat

def pattern1 (bound : BitVec 8) (_n x : ℕ) : BitVec 8 := setBound F.j (x % 16) bound

def pattern3 (bound : BitVec 8) (n x : ℕ) : BitVec 8 :=
  if (16 * n + x % 16) % 3 = F.offset 3 then 128 else setBound F.j (x % 16) bound

def pattern5 (bound : BitVec 8) (n x : ℕ) : BitVec 8 :=
  if (16 * n + x % 16) % 5 = F.offset 5 ∨ F.j % 2 = 0 ∧ (16 * n + x % 16) % 2 = 0 then 128 else setBound F.j (x % 16) bound

def searchSurvivorsInLine1Sse2 (S S' : Bytes) (bound bound' : BitVec 8) : Option (Bytes × List ℕ) :=
  F.searchVectors tdMax 3 6 1
    (fun n x s => laneSurvives (F.pattern1 bound n x) s && laneSurvives (F.pattern1 bound' n x) (S' x)) S

def searchSurvivorsInLine1Sse2Oneside (S : Bytes) (bound : BitVec 8) : Option (Bytes × List ℕ) :=
  F.searchVectors tdMax 3 6 1 (fun n x s => laneSurvives (F.pattern1 bound n x) s) S

def searchSurvivorsInLine3Sse2 (S S' : Bytes) (bound bound' : BitVec 8) : Option (Bytes × List ℕ) :=
  F.searchVectors tdMax 5 5 3
    (fun n x s => laneSurvives (F.pattern3 bound n x) s && laneSurvives (F.pattern1 bound' n x) (S' x)) S

def searchSurvivorsInLine3Sse2Oneside (S : Bytes) (bound : BitVec 8) : Option (Bytes × List ℕ) :=
  F.searchVectors tdMax 5 5 3 (fun n x s => laneSurvives (F.pattern3 bound n x) s) S

def searchSurvivorsInLine5Sse2 (S S' : Bytes) (bound bound' : BitVec 8) : Option (Bytes × List ℕ) :=
  F.searchVectors tdMax 7 5 5
    (fun n x s => laneSurvives (F.pattern5 bound n x) s && laneSurvives (F.pattern1 bound' n x) (S' x)) S

def searchSurvivorsInLine5Sse2Oneside (S : Bytes) (bound : BitVec 8) : Option (Bytes × List ℕ) :=
  F.searchVectors tdMax 7 5 5 (fun n x s => laneSurvives (F.pattern5 bound n x) s) S

def searchSurvivorsInLineSse2 (S S' : Bytes) (bound bound' : BitVec 8) : Option (Bytes × List ℕ) :=
  if F.j % 3 = 0 then F.searchSurvivorsInLine3Sse2 tdMax S S' bound bound'
  else if F.j % 5 = 0 then F.searchSurvivorsInLine5Sse2 tdMax S S' bound bound'
  else F.searchSurvivorsInLine1Sse2 tdMax S S' bound bound'

def searchSurvivorsInLineSse2Oneside (S : Bytes) (bound : BitVec 8) : Option (Bytes × List ℕ) :=
  if F.j % 3 = 0 then F.searchSurvivorsInLine3Sse2Oneside tdMax S bound
  else if F.j % 5 = 0 then F.searchSurvivorsInLine5Sse2Oneside tdMax S bound
  else F.searchSurvivorsInLine1Sse2Oneside tdMax S bound

end Fragment

/-! ## One position after the other -/

theorem scan_append (test : ℕ → BitVec 8 → Bool) (l l' : List ℕ) (st : Bytes × List ℕ) :
    scan test (l ++ l') st = scan test l' (scan test l st) := List.foldl_append

theorem scan_congr {test test' : ℕ → BitVec 8 → Bool} {l : List ℕ} (same : ∀ x ∈ l, ∀ s, test x s = test' x s)
    (st : Bytes × List ℕ) :
    scan test l st = scan test' l st := by
  apply List.foldl_ext
  intro st x member
  rw [same x member]

theorem scan_eq {test : ℕ → BitVec 8 → Bool} {l : List ℕ} (nodup : l.Nodup) (S : Bytes) (out : List ℕ) :
    scan test l (S, out) =
      (fun y => if y ∈ l ∧ test y (S y) = false then 255 else S y, out ++ l.filter fun x => test x (S x)) := by
  induction l generalizing S out with
  | nil => simp [scan]
  | cons x l ih =>
    obtain ⟨absent, nodup⟩ := List.nodup_cons.mp nodup
    have first : scan test (x :: l) (S, out) = scan test l (if test x (S x) then (S, out ++ [x]) else (Function.update S x 255, out)) := rfl
    rw [first]
    have other {y : ℕ} (member : y ∈ l) : y ≠ x := fun same => absent (same ▸ member)
    by_cases passes : test x (S x)
    · rw [if_pos passes, ih nodup, List.filter_cons, if_pos passes, List.append_assoc]
      refine Prod.ext (funext fun y => ?_) rfl
      by_cases here : y = x
      · subst here
        simp [passes]
      · simp [here]
    · rw [if_neg passes, ih nodup, List.filter_cons, if_neg passes]
      refine Prod.ext (funext fun y => ?_) ?_
      · by_cases here : y = x
        · subst here
          simp [absent, passes]
        · simp [here]
      · refine congrArg (out ++ ·) (List.filter_congr fun y member => ?_)
        rw [Function.update_of_ne (other member)]

theorem laneSurvives_iff (v s : BitVec 8) : laneSurvives (v ^^^ 128) s = decide (s < v) := by
  have flip : ∀ a : BitVec 8, (a ^^^ 128).toInt = a.toNat - 128 := by decide
  rw [laneSurvives, BitVec.slt, flip, flip, decide_eq_decide, BitVec.lt_def]
  omega

theorem laneSurvives_bottom (s : BitVec 8) : laneSurvives 128 s = false := by
  rw [show (128 : BitVec 8) = 0 ^^^ 128 by rfl, laneSurvives_iff]
  exact decide_eq_false BitVec.not_lt_zero

theorem setBound_eq (j k : ℕ) (bound : BitVec 8) :
    setBound j k bound = (if j % 2 = 0 ∧ k % 2 = 0 then 0 else bound + 1) ^^^ 128 := by
  rw [setBound, evenMask]
  split_ifs
  · exact congrArg (· ^^^ 128) BitVec.and_zero
  · exact congrArg (· ^^^ 128) BitVec.and_allOnes

theorem lt_succ_iff (bound s : BitVec 8) : s < bound + 1 ↔ bound ≠ 255 ∧ s ≤ bound := by
  have one : (bound + 1).toNat = if bound = 255 then 0 else bound.toNat + 1 := by
    revert bound
    decide
  rw [BitVec.lt_def, one, BitVec.le_def]
  split_ifs with full
  · simp [full]
  · rw [Nat.lt_succ_iff]
    exact (and_iff_right full).symm

theorem laneSurvives_setBound (j k : ℕ) (bound s : BitVec 8) :
    laneSurvives (setBound j k bound) s = decide (¬ (j % 2 = 0 ∧ k % 2 = 0) ∧ bound ≠ 255 ∧ s ≤ bound) := by
  rw [setBound_eq, laneSurvives_iff, decide_eq_decide, ← lt_succ_iff]
  split_ifs with both
  · exact iff_of_false (BitVec.not_lt_zero) fun h => h.1 both
  · simp [both]

namespace Fragment

variable {F : Fragment} {div : List (ℕ × ℕ)}

theorem searchSingleSurvivorsMask_eq {fuel n x : ℕ} {bitmask : BitVec 32} (enough : n ≤ fuel)
    (fits : ∀ k, n ≤ k → bitmask.getLsbD k = false)
    (st : Bytes × List ℕ) :
    F.searchSingleSurvivorsMask div fuel x bitmask st =
      scan (fun y _ => !F.testDivides div y) ((List.range' x n).filter fun y => bitmask.getLsbD (y - x)) st := by
  induction fuel generalizing n x bitmask st with
  | zero =>
    obtain rfl : n = 0 := by omega
    rfl
  | succ fuel ih =>
    rw [searchSingleSurvivorsMask]
    by_cases zero : bitmask = 0
    · rw [if_pos zero, zero]
      simp [scan]
    · rw [if_neg zero]
      have bit := BitVec.getLsbD_true_ctz_of_ne_zero zero
      set tz := bitmask.ctz.toNat with tz_def
      have lt : tz < n := by
        by_contra beyond
        rw [fits tz (not_lt.mp beyond)] at bit
        exact Bool.false_ne_true bit
      have rest (k : ℕ) : (bitmask >>> (tz + 1)).getLsbD k = bitmask.getLsbD (tz + 1 + k) :=
        BitVec.getLsbD_ushiftRight ..
      have split : List.range' x n = List.range' x tz ++ (x + tz) :: List.range' (x + tz + 1) (n - tz - 1) := by
        rw [← List.range'_succ, List.range'_append_1]
        congr 1
        omega
      have low : (List.range' x tz).filter (fun y => bitmask.getLsbD (y - x)) = [] := by
        refine List.filter_eq_nil_iff.mpr fun y member => ?_
        obtain ⟨le, lt⟩ := List.mem_range'_1.mp member
        rw [BitVec.getLsbD_false_of_lt_ctz (by rw [← tz_def]; omega)]
        exact Bool.false_ne_true
      have high : (List.range' (x + tz + 1) (n - tz - 1)).filter
        (fun y => (bitmask >>> (tz + 1)).getLsbD (y - (x + tz + 1))) =
          (List.range' (x + tz + 1) (n - tz - 1)).filter (fun y => bitmask.getLsbD (y - x)) := by
        refine List.filter_congr fun y member => ?_
        obtain ⟨le, -⟩ := List.mem_range'_1.mp member
        rw [rest]
        congr 1
        omega
      rw [split, List.filter_append, low, List.nil_append, List.filter_cons, Nat.add_sub_cancel_left, if_pos bit]
      dsimp only
      rw [ih (n := n - tz - 1) (by omega) (fun k le => by rw [rest]; exact fits _ (by omega)), high]
      by_cases tested : F.testDivides div (x + tz)
      · simp [scan, tested]
      · simp [scan, tested]

theorem movemask_getLsbD (m : ℕ → Bool) (k : ℕ) : (movemask m).getLsbD k = (decide (k < 16) && m k) := by
  rw [movemask, BitVec.getLsbD_ofNat]
  by_cases lane : k < 16
  · rw [Nat.testBit_ofBits_lt _ _ lane]
    simp [lane]
    omega
  · rw [Nat.testBit_ofBits_ge _ _ (not_lt.mp lane)]
    simp [lane]

theorem vector_eq (survives : ℕ → BitVec 8 → Bool) (x : ℕ) (S : Bytes) (out : List ℕ) :
    F.searchSingleSurvivorsMask div 32 x (testLognormMask survives x S).2 ((testLognormMask survives x S).1, out) =
      scan (fun y s => survives y s && !F.testDivides div y) (List.range' x 16) (S, out) := by
  have bits (k : ℕ) : (testLognormMask survives x S).2.getLsbD k =
    (decide (k < 16) && survives (x + k) (S (x + k))) := by
    rw [testLognormMask, movemask_getLsbD]
  have lanes (y : ℕ) (member : y ∈ List.range' x 16) :
    (testLognormMask survives x S).2.getLsbD (y - x) = survives y (S y) := by
    obtain ⟨le, lt⟩ := List.mem_range'_1.mp member
    rw [bits, Nat.add_sub_cancel' le, decide_eq_true (by omega), Bool.true_and]
  have nodup := List.nodup_range' (s := x) (n := 16)
  rw [searchSingleSurvivorsMask_eq (n := 16) (by norm_num)
    (fun k le => by rw [bits, decide_eq_false (by omega), Bool.false_and]),
    List.filter_congr lanes, scan_eq (nodup.filter _), scan_eq nodup, List.filter_filter]
  refine Prod.ext (funext fun y => ?_) (congrArg (out ++ ·) (List.filter_congr fun y _ => Bool.and_comm _ _))
  dsimp only [testLognormMask]
  simp only [List.mem_filter, ← List.mem_range'_1]
  by_cases inside : y ∈ List.range' x 16
  · by_cases alive : survives y (S y)
    · simp [inside, alive]
    · have full : S y ||| 255#8 = 255#8 := BitVec.or_allOnes
      simp [inside, alive, full]
  · simp [inside]

def vectorReach (F : Fragment) : ℕ := 16 * ((F.I + 15) / 16)

theorem vectorLoop_eq {nr : ℕ} (several : 0 < nr) (survives : ℕ → ℕ → BitVec 8 → Bool) {fuel b : ℕ}
    (enough : F.I < 16 * b + fuel)
    (st : Bytes × List ℕ) :
    F.vectorLoop div nr survives fuel (16 * b) (b % nr) st =
      scan (fun y s => survives (y / 16 % nr) y s && !F.testDivides div y)
        (List.range' (16 * b) (F.vectorReach - 16 * b)) st := by
  induction fuel generalizing b st with
  | zero =>
    have done : F.vectorReach - 16 * b = 0 := by
      rw [vectorReach]
      omega
    rw [done]
    rfl
  | succ fuel ih =>
    rw [vectorLoop]
    by_cases more : 16 * b < F.I
    · have next : (if b % nr + 1 = nr then 0 else b % nr + 1) = (b + 1) % nr := by
        rw [Nat.add_mod]
        rcases Nat.lt_or_ge 1 nr with multiple | single
        · rw [Nat.mod_eq_of_lt multiple]
          have lt := Nat.mod_lt b several
          split_ifs with last
          · rw [last, Nat.mod_self]
          · have less : b % nr + 1 < nr := by omega
            exact (Nat.mod_eq_of_lt less).symm
        · obtain rfl : nr = 1 := by omega
          simp [Nat.mod_one]
      have split : F.vectorReach - 16 * b = 16 + (F.vectorReach - 16 * (b + 1)) := by
        rw [vectorReach]
        omega
      have here : scan (fun y s => survives (y / 16 % nr) y s && !F.testDivides div y) (List.range' (16 * b) 16)
        (st.1, st.2) =
          scan (fun y s => survives (b % nr) y s && !F.testDivides div y) (List.range' (16 * b) 16) (st.1, st.2) := by
        refine scan_congr (fun y member s => ?_) _
        obtain ⟨le, lt⟩ := List.mem_range'_1.mp member
        have number : y / 16 = b := by omega
        rw [number]
      rw [if_pos more, next]
      dsimp only
      rw [vector_eq, show 16 * b + 16 = 16 * (b + 1) by ring, ih (by omega), split, ← List.range'_append_1,
        scan_append, ← here]
      rfl
    · have done : F.vectorReach - 16 * b = 0 := by
        rw [vectorReach]
        omega
      rw [if_neg more, done]
      rfl

theorem searchVectors_eq {tdMax pmin most nr : ℕ} (several : 0 < nr) (survives : ℕ → ℕ → BitVec 8 → Bool) (S : Bytes) :
    F.searchVectors tdMax pmin most nr survives S =
      if (extractJDiv F.j pmin tdMax).length ≤ most then
        some (scan (fun y s => survives (y / 16 % nr) y s && !F.testDivides (extractJDiv F.j pmin tdMax) y)
          (List.range F.vectorReach) (S, []))
      else none := by
  have loop := @vectorLoop_eq F (extractJDiv F.j pmin tdMax) nr several survives (F.I + 1) 0 (by omega) (S, [])
  rw [Nat.mul_zero, Nat.zero_mod, Nat.sub_zero, ← List.range_eq_range'] at loop
  rw [searchVectors, loop]

/-! ## What a line keeps -/

def patternPrime (F : Fragment) : ℕ := if F.w = 16 then if F.j % 3 = 0 then 3 else if F.j % 5 = 0 then 5 else 0 else 0

def testedPrimes (F : Fragment) (tdMax : ℕ) : Finset ℕ := (F.j.primeFactors.erase 2).filter fun p => p ≤ tdMax ∨
  p = F.patternPrime

def Few (F : Fragment) (tdMax : ℕ) : Prop :=
  ((F.testedPrimes tdMax).erase F.patternPrime).card ≤ if F.patternPrime = 0 then 6 else 5

instance (F : Fragment) (tdMax : ℕ) : Decidable (F.Few tdMax) := inferInstanceAs (Decidable (_ ≤ _))

def Excluded (F : Fragment) (tdMax x : ℕ) : Prop :=
  F.w = 16 ∧ F.j % 2 = 0 ∧ x % 2 = 0 ∨ ∃ p ∈ F.testedPrimes tdMax, (p : ℤ) ∣ F.i0 + x

instance (F : Fragment) (tdMax x : ℕ) : Decidable (F.Excluded tdMax x) := inferInstanceAs (Decidable (_ ∨ _))

def reach (F : Fragment) : ℕ := if F.w = 16 then F.vectorReach else F.I

theorem le_reach : F.I ≤ F.reach := by
  rw [reach, vectorReach]
  split_ifs <;> omega

theorem natAbs_lt {x : ℕ} (inside : x < F.reach) : (F.i0 + x).natAbs < 2 ^ 32 := by
  have lower := F.lower
  have upper := F.upper
  have near : F.reach < F.I + 16 := by
    rw [reach, vectorReach]
    split_ifs <;> omega
  omega

theorem mod_eq_offset_iff {q x : ℕ} (positive : 0 < q) : x % q = F.offset q ↔ (q : ℤ) ∣ F.i0 + x := by
  have cast : (F.offset q : ℤ) = -F.i0 % q := Int.toNat_of_nonneg (Int.emod_nonneg _ (by omega))
  rw [← Int.natCast_inj, cast, Int.natCast_mod, Int.emod_eq_emod_iff_emod_sub_eq_zero, sub_neg_eq_add, add_comm]
  exact Int.dvd_iff_emod_eq_zero.symm

section

variable {tdMax pmin : ℕ}

theorem testDivides_iff (positive : 0 < F.j) {x : ℕ} (inside : x < F.reach) :
    F.testDivides (extractJDiv F.j pmin tdMax) x = true ↔
      ∃ p ∈ F.j.primeFactors.erase 2, (pmin ≤ p ∧ p ≤ tdMax) ∧ (p : ℤ) ∣ F.i0 + x := by
  rw [testDivides, (extractJDiv_spec positive).2 _ (natAbs_lt inside), primeFactors_divideOut Nat.prime_two positive]
  simp only [Int.natCast_dvd]

theorem filter_eq (least : ∀ p ∈ F.j.primeFactors.erase 2, pmin ≤ p ↔ p ≠ F.patternPrime) :
    (F.j.primeFactors.erase 2).filter (fun p => pmin ≤ p ∧ p ≤ tdMax) =
      (F.testedPrimes tdMax).erase F.patternPrime := by
  ext p
  rw [Finset.mem_filter, testedPrimes]
  constructor
  · rintro ⟨member, from_pmin, le⟩
    exact Finset.mem_erase.mpr ⟨(least p member).mp from_pmin, Finset.mem_filter.mpr ⟨member, .inl le⟩⟩
  · intro kept
    obtain ⟨ne, kept⟩ := Finset.mem_erase.mp kept
    obtain ⟨member, le | same⟩ := Finset.mem_filter.mp kept
    · exact ⟨member, (least p member).mpr ne, le⟩
    · exact absurd same ne

theorem length_le_iff (positive : 0 < F.j) (least : ∀ p ∈ F.j.primeFactors.erase 2, pmin ≤ p ↔ p ≠ F.patternPrime) :
    (extractJDiv F.j pmin tdMax).length ≤ (if F.patternPrime = 0 then 6 else 5) ↔ F.Few tdMax := by
  rw [(extractJDiv_spec positive).1, primeFactors_divideOut Nat.prime_two positive, filter_eq least, Few]

theorem not_excluded_iff (positive : 0 < F.j) (least : ∀ p ∈ F.j.primeFactors.erase 2, pmin ≤ p ↔ p ≠ F.patternPrime)
    (divides : F.patternPrime ≠ 0 → F.patternPrime ∈ F.j.primeFactors.erase 2) {x : ℕ} (inside : x < F.reach) :
    ¬ F.Excluded tdMax x ↔ ¬ (F.w = 16 ∧ F.j % 2 = 0 ∧ x % 2 = 0) ∧
      ¬ (F.patternPrime ≠ 0 ∧ (F.patternPrime : ℤ) ∣ F.i0 + x) ∧
      F.testDivides (extractJDiv F.j pmin tdMax) x = false := by
  rw [← Bool.not_eq_true, testDivides_iff positive inside, ← not_or, ← not_or, Excluded]
  refine not_congr (or_congr_right ?_)
  constructor
  · rintro ⟨p, member, multiple⟩
    obtain ⟨odd, tested⟩ := Finset.mem_filter.mp member
    by_cases same : p = F.patternPrime
    · rw [same] at multiple odd
      have prime := Nat.prime_of_mem_primeFactors (Finset.mem_of_mem_erase odd)
      exact .inl ⟨prime.ne_zero, multiple⟩
    · exact .inr ⟨p, odd, ⟨(least p odd).mpr same, tested.resolve_right same⟩, multiple⟩
  · rintro (⟨nonzero, multiple⟩ | ⟨p, odd, ⟨-, le⟩, multiple⟩)
    · exact ⟨_, Finset.mem_filter.mpr ⟨divides nonzero, .inr rfl⟩, multiple⟩
    · exact ⟨p, Finset.mem_filter.mpr ⟨odd, .inl le⟩, multiple⟩

theorem three_le {p : ℕ} (member : p ∈ F.j.primeFactors.erase 2) : 3 ≤ p ∧ p ≠ 4 ∧ p ≠ 6 ∧ p ∣ F.j := by
  obtain ⟨ne, member⟩ := Finset.mem_erase.mp member
  obtain ⟨prime, divides, -⟩ := Nat.mem_primeFactors.mp member
  have two := prime.two_le
  refine ⟨by omega, ?_, ?_, divides⟩
  · rintro rfl
    exact absurd prime (by decide)
  · rintro rfl
    exact absurd prime (by decide)

def searched (F : Fragment) (tdMax : ℕ) (within : ℕ → BitVec 8 → Prop) [∀ x s, Decidable (within x s)] (S : Bytes) :
    Option (Bytes × List ℕ) :=
  if F.Few tdMax then some (scan (fun x s => decide (within x s ∧ ¬ F.Excluded tdMax x)) (List.range F.reach) (S, [])) else none

variable {within : ℕ → BitVec 8 → Prop} [∀ x s, Decidable (within x s)] {S S' : Bytes} {bound bound' : BitVec 8}

theorem searchLine_eq (positive : 0 < F.j) (scalar : F.w ≠ 16) :
    F.searchLine tdMax (fun x s => decide (within x s)) S = F.searched tdMax within S := by
  have none : F.patternPrime = 0 := if_neg scalar
  have least (p : ℕ) (member : p ∈ F.j.primeFactors.erase 2) : 3 ≤ p ↔ p ≠ F.patternPrime := by
    have three := (three_le member).1
    omega
  have room : _ ↔ F.Few tdMax := length_le_iff positive least
  have whole : F.reach = F.I := if_neg scalar
  rw [if_pos none] at room
  rw [searchLine, searched]
  refine if_congr room (congrArg some ?_) rfl
  rw [whole]
  refine scan_congr (fun x member s => ?_) _
  have inside : x < F.reach := by rw [whole]; exact List.mem_range.mp member
  rw [Bool.eq_iff_iff]
  simp only [not_excluded_iff positive least (absurd none) inside, Bool.and_eq_true, decide_eq_true_eq,
    Bool.not_eq_true']
  simp [scalar, none]

theorem searchVectors_spec {pmin most nr : ℕ} {survives : ℕ → ℕ → BitVec 8 → Bool} (positive : 0 < F.j)
    (sse2 : F.w = 16)
    (least : ∀ p ∈ F.j.primeFactors.erase 2, pmin ≤ p ↔ p ≠ F.patternPrime)
    (divides : F.patternPrime ≠ 0 → F.patternPrime ∈ F.j.primeFactors.erase 2) (several : 0 < nr)
    (room : most = if F.patternPrime = 0 then 6 else 5)
    (same : ∀ x s, survives (x / 16 % nr) x s = true ↔
      within x s ∧ ¬ (F.j % 2 = 0 ∧ x % 2 = 0) ∧ ¬ (F.patternPrime ≠ 0 ∧ (F.patternPrime : ℤ) ∣ F.i0 + x)) :
    F.searchVectors tdMax pmin most nr survives S = F.searched tdMax within S := by
  have whole : F.reach = F.vectorReach := if_pos sse2
  rw [searchVectors_eq several, searched, room, whole]
  refine if_congr (length_le_iff positive least) (congrArg some ?_) rfl
  refine scan_congr (fun x member s => ?_) _
  have inside : x < F.reach := by rw [whole]; exact List.mem_range.mp member
  rw [Bool.eq_iff_iff]
  simp only [not_excluded_iff positive least divides inside, Bool.and_eq_true, decide_eq_true_eq, Bool.not_eq_true',
    same, sse2, true_and, and_assoc]

theorem pattern1_survives (bound : BitVec 8) (n x : ℕ) (s : BitVec 8) :
    laneSurvives (F.pattern1 bound n x) s = true ↔ ¬ (F.j % 2 = 0 ∧ x % 2 = 0) ∧ bound ≠ 255 ∧ s ≤ bound := by
  rw [pattern1, laneSurvives_setBound, decide_eq_true_eq, Nat.mod_mod_of_dvd x (by norm_num : 2 ∣ 16)]

theorem marked_iff {q x : ℕ} (positive : 0 < q) : (16 * (x / 16 % q) + x % 16) % q = F.offset q ↔
    (q : ℤ) ∣ F.i0 + x := by
  have flat : (16 * (x / 16 % q) + x % 16) % q = x % q := by
    conv_rhs => rw [← Nat.div_add_mod x 16, Nat.add_mod, Nat.mul_mod]
    rw [Nat.add_mod, Nat.mul_mod, Nat.mod_mod]
  rw [flat, mod_eq_offset_iff positive]

theorem pattern3_survives (bound : BitVec 8) (x : ℕ) (s : BitVec 8) :
    laneSurvives (F.pattern3 bound (x / 16 % 3) x) s = true ↔
      (¬ (F.j % 2 = 0 ∧ x % 2 = 0) ∧ bound ≠ 255 ∧ s ≤ bound) ∧ ¬ (3 : ℤ) ∣ F.i0 + x := by
  have marked : _ ↔ (3 : ℤ) ∣ F.i0 + x := marked_iff (F := F) (by norm_num)
  rw [pattern3]
  by_cases here : (16 * (x / 16 % 3) + x % 16) % 3 = F.offset 3
  · rw [if_pos here, laneSurvives_bottom]
    exact iff_of_false Bool.false_ne_true fun h => h.2 (marked.mp here)
  · rw [if_neg here, ← pattern1, pattern1_survives bound 0]
    exact (and_iff_left (mt marked.mpr here)).symm

theorem pattern5_survives (bound : BitVec 8) (x : ℕ) (s : BitVec 8) :
    laneSurvives (F.pattern5 bound (x / 16 % 5) x) s = true ↔
      (¬ (F.j % 2 = 0 ∧ x % 2 = 0) ∧ bound ≠ 255 ∧ s ≤ bound) ∧ ¬ (5 : ℤ) ∣ F.i0 + x := by
  have marked : _ ↔ (5 : ℤ) ∣ F.i0 + x := marked_iff (F := F) (by norm_num)
  have parity : (16 * (x / 16 % 5) + x % 16) % 2 = x % 2 := by omega
  rw [pattern5, parity]
  by_cases here : (16 * (x / 16 % 5) + x % 16) % 5 = F.offset 5
  · rw [if_pos (.inl here), laneSurvives_bottom]
    exact iff_of_false Bool.false_ne_true fun h => h.2 (marked.mp here)
  · by_cases even : F.j % 2 = 0 ∧ x % 2 = 0
    · rw [if_pos (.inr even), laneSurvives_bottom]
      exact iff_of_false Bool.false_ne_true fun h => h.1.1 even
    · rw [if_neg (not_or.mpr ⟨here, even⟩), ← pattern1, pattern1_survives bound 0]
      exact (and_iff_left (mt marked.mpr here)).symm

def Within (bound : BitVec 8) (s : BitVec 8) : Prop := bound ≠ 255 ∧ s ≤ bound

instance (bound s : BitVec 8) : Decidable (Within bound s) := inferInstanceAs (Decidable (_ ∧ _))

section Sse2

variable {rest : ℕ → Prop} [DecidablePred rest] {side : ℕ → ℕ → Bool} (positive : 0 < F.j) (sse2 : F.w = 16)
  (same : ∀ n x, ¬ (F.j % 2 = 0 ∧ x % 2 = 0) → (side n x = true ↔ rest x))
include positive sse2 same

theorem vectors3_eq (three : F.j % 3 = 0) :
    F.searchVectors tdMax 5 5 3 (fun n x s => laneSurvives (F.pattern3 bound n x) s && side n x) S =
      F.searched tdMax (fun x s => Within bound s ∧ rest x) S := by
  have prime : F.patternPrime = 3 := by rw [patternPrime, if_pos sse2, if_pos three]
  apply searchVectors_spec positive sse2
  · intro p member
    have odd := three_le member
    omega
  · intro _
    rw [prime, Finset.mem_erase, Nat.mem_primeFactors]
    exact ⟨by norm_num, Nat.prime_three, Nat.dvd_of_mod_eq_zero three, positive.ne'⟩
  · norm_num
  · rw [prime]
    rfl
  · intro x s
    rw [Bool.and_eq_true, pattern3_survives, prime, Within]
    constructor
    · rintro ⟨⟨⟨parity, bounds⟩, apart⟩, rest⟩
      exact ⟨⟨bounds, (same _ x parity).mp rest⟩, parity, fun both => apart both.2⟩
    · rintro ⟨⟨bounds, rest⟩, parity, apart⟩
      exact ⟨⟨⟨parity, bounds⟩, fun multiple => apart ⟨three_ne_zero, multiple⟩⟩, (same _ x parity).mpr rest⟩

theorem vectors5_eq (three : F.j % 3 ≠ 0) (five : F.j % 5 = 0) :
    F.searchVectors tdMax 7 5 5 (fun n x s => laneSurvives (F.pattern5 bound n x) s && side n x) S =
      F.searched tdMax (fun x s => Within bound s ∧ rest x) S := by
  have prime : F.patternPrime = 5 := by rw [patternPrime, if_pos sse2, if_neg three, if_pos five]
  apply searchVectors_spec positive sse2
  · intro p member
    obtain ⟨least, four, six, divides⟩ := three_le member
    have other : p ≠ 3 := by
      rintro rfl
      exact three (Nat.mod_eq_zero_of_dvd divides)
    omega
  · intro _
    rw [prime, Finset.mem_erase, Nat.mem_primeFactors]
    exact ⟨by norm_num, Nat.prime_five, Nat.dvd_of_mod_eq_zero five, positive.ne'⟩
  · norm_num
  · rw [prime]
    rfl
  · intro x s
    rw [Bool.and_eq_true, pattern5_survives, prime, Within]
    constructor
    · rintro ⟨⟨⟨parity, bounds⟩, apart⟩, rest⟩
      exact ⟨⟨bounds, (same _ x parity).mp rest⟩, parity, fun both => apart both.2⟩
    · rintro ⟨⟨bounds, rest⟩, parity, apart⟩
      exact ⟨⟨⟨parity, bounds⟩, fun multiple => apart ⟨by norm_num, multiple⟩⟩, (same _ x parity).mpr rest⟩

theorem vectors1_eq (three : F.j % 3 ≠ 0) (five : F.j % 5 ≠ 0) :
    F.searchVectors tdMax 3 6 1 (fun n x s => laneSurvives (F.pattern1 bound n x) s && side n x) S =
      F.searched tdMax (fun x s => Within bound s ∧ rest x) S := by
  have prime : F.patternPrime = 0 := by rw [patternPrime, if_pos sse2, if_neg three, if_neg five]
  apply searchVectors_spec positive sse2
  · intro p member
    have odd := three_le member
    omega
  · exact absurd prime
  · norm_num
  · rw [prime]
    rfl
  · intro x s
    rw [Bool.and_eq_true, pattern1_survives, prime, Within]
    constructor
    · rintro ⟨⟨parity, bounds⟩, rest⟩
      exact ⟨⟨bounds, (same _ x parity).mp rest⟩, parity, fun both => both.1 rfl⟩
    · rintro ⟨⟨bounds, rest⟩, parity, -⟩
      exact ⟨⟨parity, bounds⟩, (same _ x parity).mpr rest⟩

end Sse2

theorem searchSurvivorsInLineSse2_eq (positive : 0 < F.j) (sse2 : F.w = 16) :
    F.searchSurvivorsInLineSse2 tdMax S S' bound bound' = F.searched tdMax (fun x s => Within bound s ∧
      Within bound' (S' x)) S := by
  have same (n x : ℕ) (parity : ¬ (F.j % 2 = 0 ∧ x % 2 = 0)) : laneSurvives (F.pattern1 bound' n x) (S' x) = true ↔
    Within bound' (S' x) := by
    rw [pattern1_survives, and_iff_right parity, Within]
  rw [searchSurvivorsInLineSse2]
  split_ifs with three five
  · exact vectors3_eq positive sse2 same three
  · exact vectors5_eq positive sse2 same three five
  · exact vectors1_eq positive sse2 same three five

theorem searchSurvivorsInLineSse2Oneside_eq (positive : 0 < F.j) (sse2 : F.w = 16) :
    F.searchSurvivorsInLineSse2Oneside tdMax S bound = F.searched tdMax (fun _ s => Within bound s ∧ True) S := by
  have same (n x : ℕ) (_ : ¬ (F.j % 2 = 0 ∧ x % 2 = 0)) : (true = true ↔ True) := iff_of_true rfl trivial
  rw [searchSurvivorsInLineSse2Oneside, searchSurvivorsInLine3Sse2Oneside, searchSurvivorsInLine5Sse2Oneside,
    searchSurvivorsInLine1Sse2Oneside]
  split_ifs with three five
  · simpa only [Bool.and_true] using vectors3_eq positive sse2 same three
  · simpa only [Bool.and_true] using vectors5_eq positive sse2 same three five
  · simpa only [Bool.and_true] using vectors1_eq positive sse2 same three five

end

end Fragment

end CadoNfs.Sieve
