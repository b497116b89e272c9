import CadoNfs.Sieve.JDivisibility

/-!
# Unsieving a line

`unsieve_not_coprime_line` of `sieve/las-unsieve.cpp` sets to 255 what has a prime factor in common with
the line `j`: byte patterns do so for 7, 5 and 3, a loop for each greater prime.
-/

namespace CadoNfs.Sieve

abbrev Bytes := ℕ → BitVec 8

/-- What the line is compiled for and where it is: the words of a pattern have `w` bytes, the tables go
up to `m`, and the fragment begins at `i0` and has `I` positions. -/
structure Fragment where
  w : ℕ
  m : ℕ
  j : ℕ
  i0 : ℤ
  I : ℕ
  width : w = 4 ∨ w = 8 ∨ w = 16
  inside : j ≤ m
  power : ∃ k, I = 2 ^ k
  lower : -2 ^ 31 ≤ i0
  upper : i0 + I < 2 ^ 31

def mark (M : ℕ → Bool) (S : Bytes) : Bytes := fun y => if M y then 255 else S y

def markFrom (np I : ℕ) : ℕ → ℕ → Bytes → Bytes
  | 0, _, S => S
  | fuel + 1, x, S => if x < I then markFrom np I fuel (x + np) (Function.update S x 255) else S

-- `minisieve`.
def patternByte (q t : ℕ) : BitVec 8 := if t % q = 0 then 255 else 0

def orWord (w q : ℕ) (S : Bytes) (n k : ℕ) : Bytes :=
  fun y => if y / w = n then S y ||| patternByte q (w * k + y % w) else S y

def orWords (w q patternIdx upt : ℕ) : ℕ → ℕ → Bytes → Bytes
  | 0, _, S => S
  | fuel + 1, i, S =>
    if i < upt - (q - 1) then
      orWords w q patternIdx upt fuel (i + q)
        ((List.range q).foldl (fun S t => orWord w q S (i + t) ((patternIdx + t) % q)) S)
    else (List.range (q - 1)).foldl (fun S t => if i + t < upt then orWord w q S (i + t) ((patternIdx + t) % q) else S) S

def patternIdx (w q startIdx : ℕ) : ℕ :=
  match q, w with
  | 3, 4 => 2 * startIdx % 3
  | 3, 8 => startIdx
  | 3, 16 => 2 * startIdx % 3
  | 5, 4 => startIdx
  | 5, 8 => 3 * startIdx % 5
  | 5, 16 => (5 - startIdx) % 5
  | 7, 4 => 5 * startIdx % 7
  | 7, 8 => (7 - startIdx) % 7
  | 7, 16 => 3 * startIdx % 7
  | _, _ => 0

namespace Fragment

variable (F : Fragment)

def lpf (c : ℕ) : ℕ := if c ≤ 1 then c else gpf F.m c

def cof (c : ℕ) : ℕ := if c ≤ 1 then c else cofactor (gpf F.m c) c

def startIdx (p : ℕ) : ℕ := ((-F.i0) % 2 ^ 32).toNat % p

def unsieveOnePrime (S : Bytes) (p startIdx : ℕ) : Bytes :=
  if F.j % 2 = 0 then markFrom (2 * p) F.I F.I (if startIdx % 2 = 0 then startIdx + p else startIdx) S
  else markFrom p F.I F.I startIdx S

/-- `unsieve_3`, `unsieve_5` and `unsieve_7`. With too few words the bound of the loop wraps around, and
it leaves the line. -/
def unsievePattern (q : ℕ) (S : Bytes) (startIdx : ℕ) : Option Bytes :=
  let upt := F.I / F.w
  let idx := patternIdx F.w q startIdx
  let byte :=
    if startIdx < F.w then patternByte q (F.w * idx + startIdx)
    else patternByte q (F.w * ((idx + 1) % q) + (startIdx - F.w))
  if byte = 255 ∧ q - 1 ≤ upt then some (orWords F.w q idx upt (upt + 1) 0 S) else none

def unsieve3 (minP p startIdx c : ℕ) (S : Bytes) : Option Bytes :=
  if p < minP then some S
  else (if p = 3 then F.unsievePattern 3 S startIdx else some S).bind fun S => if c ≤ 1 then some S else none

def unsieve5 (minP p startIdx c : ℕ) (S : Bytes) : Option Bytes :=
  if p < minP then some S
  else if p = 5 then
    (F.unsievePattern 5 S startIdx).bind (F.unsieve3 minP (F.lpf c) (F.startIdx (F.lpf c)) (F.cof c))
  else F.unsieve3 minP p startIdx c S

def unsieve7 (minP p startIdx c : ℕ) (S : Bytes) : Option Bytes :=
  if p = 7 then
    (F.unsievePattern 7 S startIdx).bind (F.unsieve5 minP (F.lpf c) (F.startIdx (F.lpf c)) (F.cof c))
  else F.unsieve5 minP p startIdx c S

def unsieveLoop (minP : ℕ) : ℕ → ℕ → Bytes → Option Bytes
  | 0, _, _ => none
  | fuel + 1, c, S =>
    let p := F.lpf c
    if p < minP then some S
    else if p ≤ 7 then F.unsieve7 minP p (F.startIdx p) (F.cof c) S
    else unsieveLoop minP fuel (F.cof c) (F.unsieveOnePrime S p (F.startIdx p))

def unsieveNotCoprimeLine (minP : ℕ) (S : Bytes) : Option Bytes :=
  if F.j = 0 then some S else F.unsieveLoop minP (F.j + 1) (divideOut 2 F.j F.j) S

end Fragment

theorem mark_mark (M N : ℕ → Bool) (S : Bytes) : mark M (mark N S) = mark (fun y => M y || N y) S := by
  funext y
  by_cases here : M y <;> simp [mark, here]

theorem mark_congr {M N : ℕ → Bool} (same : ∀ y, M y = N y) (S : Bytes) : mark M S = mark N S := by rw [funext same]

theorem foldl_mark (M : ℕ → ℕ → Bool) (l : List ℕ) (S : Bytes) :
    l.foldl (fun S t => mark (M t) S) S = mark (fun y => l.any (M · y)) S := by
  induction l generalizing S with
  | nil => rfl
  | cons t l ih =>
    rw [List.foldl_cons, ih, mark_mark]
    exact mark_congr (fun y => by rw [List.any_cons, Bool.or_comm]) S

theorem markFrom_eq {np I fuel x : ℕ} (positive : 0 < np) (enough : I ≤ x + fuel) (S : Bytes) :
    markFrom np I fuel x S = mark (fun y => decide (y < I ∧ x ≤ y ∧ (y - x) % np = 0)) S := by
  induction fuel generalizing x S with
  | zero =>
    funext y
    rw [markFrom, mark, if_neg (by simp; omega)]
  | succ fuel ih =>
    rw [markFrom]
    split_ifs with inside
    · rw [ih (by omega)]
      funext y
      rcases Nat.lt_trichotomy y x with before | rfl | after
      · have ne : y ≠ x := before.ne
        simp [mark, Function.update_of_ne ne, show ¬ x + np ≤ y by omega, show ¬ x ≤ y by omega]
      · simp [mark, inside]
      · have ne : y ≠ x := after.ne'
        have same : (x + np ≤ y ∧ (y - (x + np)) % np = 0) ↔ x ≤ y ∧ (y - x) % np = 0 := by
          rcases Nat.lt_or_ge (y - x) np with near | far
          · have rest : (y - x) % np ≠ 0 := by
              rw [Nat.mod_eq_of_lt near]
              omega
            exact iff_of_false (fun h => by omega) fun h => rest h.2
          · have step : (y - (x + np)) % np = (y - x) % np := by rw [Nat.sub_add_eq, ← Nat.mod_eq_sub_mod far]
            rw [step]
            exact and_congr_left fun _ => ⟨fun _ => after.le, fun _ => by omega⟩
        simp only [mark, Function.update_of_ne ne, same]
    · funext y
      rw [mark, if_neg (by simp; omega)]

theorem orWord_eq (w q n k : ℕ) (S : Bytes) :
    orWord w q S n k = mark (fun y => decide (y / w = n ∧ (w * k + y % w) % q = 0)) S := by
  funext y
  by_cases here : y / w = n
  · by_cases zero : (w * k + y % w) % q = 0 <;> simp [orWord, patternByte, mark, here, zero]
    exact BitVec.or_allOnes
  · simp [orWord, mark, here]

theorem foldl_orWord {w q idx i c upt : ℕ} (S : Bytes) :
    (List.range c).foldl (fun S t => if i + t < upt then orWord w q S (i + t) ((idx + t) % q) else S) S =
      mark (fun y => decide (i ≤ y / w ∧ y / w < i + c ∧ y / w < upt ∧
        (w * (idx + (y / w - i)) + y % w) % q = 0)) S := by
  have one (t : ℕ) (S : Bytes) : (if i + t < upt then orWord w q S (i + t) ((idx + t) % q) else S) =
      mark (fun y => decide (i + t < upt ∧ y / w = i + t ∧ (w * ((idx + t) % q) + y % w) % q = 0)) S := by
    split_ifs with inside
    · simp only [orWord_eq, inside, true_and]
    · funext y
      simp [mark, inside]
  simp only [one]
  rw [foldl_mark]
  refine mark_congr (fun y => ?_) S
  rw [Bool.eq_iff_iff, List.any_eq_true]
  simp only [List.mem_range, decide_eq_true_eq]
  have reduce (t : ℕ) : (w * ((idx + t) % q) + y % w) % q = (w * (idx + t) + y % w) % q := by
    rw [Nat.add_mod, Nat.mul_mod, Nat.mod_mod, ← Nat.mul_mod, ← Nat.add_mod]
  constructor
  · rintro ⟨t, lt, inside, word, byte⟩
    rw [reduce] at byte
    rw [word, Nat.add_sub_cancel_left]
    exact ⟨by omega, by omega, inside, byte⟩
  · rintro ⟨le, lt, inside, byte⟩
    refine ⟨y / w - i, by omega, by omega, by omega, ?_⟩
    rwa [reduce]

theorem orWords_eq {w q idx upt fuel i : ℕ} (positive : 0 < q) (fits : q - 1 ≤ upt) (enough : upt < i + fuel)
    (S : Bytes) :
    orWords w q idx upt fuel i S =
      mark (fun y => decide (i ≤ y / w ∧ y / w < upt ∧ (w * (idx + (y / w - i)) + y % w) % q = 0)) S := by
  induction fuel generalizing i S with
  | zero =>
    funext y
    rw [orWords, mark, if_neg (by simp; omega)]
  | succ fuel ih =>
    rw [orWords]
    split_ifs with more
    · have whole : (List.range q).foldl (fun S t => orWord w q S (i + t) ((idx + t) % q)) S =
          (List.range q).foldl (fun S t => if i + t < upt then orWord w q S (i + t) ((idx + t) % q) else S) S := by
        refine List.foldl_ext _ _ _ fun S t member => (if_pos ?_).symm
        have lt := List.mem_range.mp member
        omega
      rw [ih (by omega), whole, foldl_orWord, mark_mark]
      refine mark_congr (fun y => ?_) S
      rw [Bool.eq_iff_iff]
      simp only [Bool.or_eq_true, decide_eq_true_eq]
      have shift (far : i + q ≤ y / w) :
        (w * (idx + (y / w - (i + q))) + y % w) % q = (w * (idx + (y / w - i)) + y % w) % q := by
        have step : y / w - i = y / w - (i + q) + q := by omega
        rw [step, ← Nat.add_assoc idx, Nat.mul_add w (idx + _), Nat.add_right_comm, Nat.add_mul_mod_self_right]
      constructor
      · rintro (⟨le, lt, byte⟩ | ⟨le, lt, inside, byte⟩)
        · rw [shift le] at byte
          exact ⟨by omega, lt, byte⟩
        · exact ⟨le, inside, byte⟩
      · rintro ⟨le, lt, byte⟩
        by_cases far : i + q ≤ y / w
        · exact .inl ⟨far, lt, by rwa [shift far]⟩
        · exact .inr ⟨le, by omega, lt, byte⟩
    · rw [foldl_orWord]
      refine mark_congr (fun y => ?_) S
      rw [Bool.eq_iff_iff]
      simp only [decide_eq_true_eq]
      constructor
      · rintro ⟨le, -, inside, byte⟩
        exact ⟨le, inside, byte⟩
      · rintro ⟨le, inside, byte⟩
        exact ⟨le, by omega, inside, byte⟩

theorem patternIdx_spec {w q start : ℕ} (width : w = 4 ∨ w = 8 ∨ w = 16) (small : q = 3 ∨ q = 5 ∨ q = 7)
    (lt : start < q) :
    (w * patternIdx w q start + start) % q = 0 := by
  rcases width with rfl | rfl | rfl <;> rcases small with rfl | rfl | rfl <;> interval_cases start <;> rfl

theorem le_and_sub_mod_iff {x y np : ℕ} (lt : x < np) : x ≤ y ∧ (y - x) % np = 0 ↔ y % np = x := by
  constructor
  · rintro ⟨le, zero⟩
    obtain ⟨k, eq⟩ := Nat.dvd_of_mod_eq_zero zero
    have split : y = x + np * k := by omega
    rw [split, Nat.add_mul_mod_self_left, Nat.mod_eq_of_lt lt]
  · rintro rfl
    exact ⟨Nat.mod_le y np, Nat.mod_eq_zero_of_dvd (Nat.dvd_sub_mod y)⟩

theorem mod_two_mul_iff {p y start : ℕ} (odd : p % 2 = 1) (lt : start < p) :
    y % (2 * p) = (if start % 2 = 0 then start + p else start) ↔ y % p = start ∧ y % 2 = 1 := by
  set x := if start % 2 = 0 then start + p else start with x_def
  have x_odd : x % 2 = 1 := by
    rw [x_def]
    split_ifs <;> omega
  have x_mod : x % p = start := by
    rw [x_def]
    split_ifs
    · rw [Nat.add_mod_right, Nat.mod_eq_of_lt lt]
    · exact Nat.mod_eq_of_lt lt
  have x_lt : x < 2 * p := by
    rw [x_def]
    split_ifs <;> omega
  have coprime : Nat.Coprime 2 p := Nat.coprime_two_left.mpr (Nat.odd_iff.mpr odd)
  constructor
  · intro same
    have down : y ≡ x [MOD 2 * p] := same.trans (Nat.mod_eq_of_lt x_lt).symm
    exact ⟨Eq.trans (down.of_mul_left 2) x_mod, Eq.trans (down.of_mul_right p) x_odd⟩
  · rintro ⟨same, y_odd⟩
    have both := (Nat.modEq_and_modEq_iff_modEq_mul coprime).mp ⟨y_odd.trans x_odd.symm, same.trans x_mod.symm⟩
    exact Eq.trans both (Nat.mod_eq_of_lt x_lt)

namespace Fragment

variable {F : Fragment} {q p c minP : ℕ}

theorem word_dvd (enough : 0 < F.I / F.w) : F.w ∣ F.I := by
  obtain ⟨k, power⟩ := F.power
  obtain ⟨l, word⟩ : ∃ l, F.w = 2 ^ l := by
    rcases F.width with eq | eq | eq
    · exact ⟨2, eq⟩
    · exact ⟨3, eq⟩
    · exact ⟨4, eq⟩
  rw [power, word] at enough ⊢
  have le := (Nat.div_pos_iff.mp enough).2
  exact pow_dvd_pow 2 ((Nat.pow_le_pow_iff_right one_lt_two).mp le)

theorem unsievePattern_eq (small : q = 3 ∨ q = 5 ∨ q = 7) (S : Bytes) {start : ℕ} (lt : start < q) :
    F.unsievePattern q S start = if q - 1 ≤ F.I / F.w then some (mark (fun y => decide (y < F.I ∧ y % q = start)) S) else none := by
  have positive : 0 < q := by omega
  have width := F.width
  have word : 0 < F.w := by omega
  have zero := patternIdx_spec width small lt
  have byte : (if start < F.w then patternByte q (F.w * patternIdx F.w q start + start)
      else patternByte q (F.w * ((patternIdx F.w q start + 1) % q) + (start - F.w))) = 255 := by
    split_ifs with first
    · exact if_pos zero
    · refine if_pos ?_
      have second : F.w * (patternIdx F.w q start + 1) + (start - F.w) = F.w * patternIdx F.w q start + start := by
        rw [Nat.mul_succ]
        omega
      rw [Nat.add_mod, Nat.mul_mod, Nat.mod_mod, ← Nat.mul_mod, ← Nat.add_mod, second, zero]
  rw [unsievePattern]
  simp only [byte, true_and]
  split_ifs with enough
  · obtain ⟨n, eq⟩ := word_dvd (F := F) (by omega)
    have words : F.I / F.w = n := by rw [eq, Nat.mul_div_cancel_left n word]
    rw [words] at enough ⊢
    rw [orWords_eq positive enough (by omega)]
    refine congrArg some (mark_congr (fun y => ?_) S)
    have inside : y / F.w < n ↔ y < F.I := by rw [eq, mul_comm, Nat.div_lt_iff_lt_mul word]
    have byte : (F.w * (patternIdx F.w q start + y / F.w) + y % F.w) % q = 0 ↔ y % q = start := by
      have split : F.w * (patternIdx F.w q start + y / F.w) + y % F.w = F.w * patternIdx F.w q start + y := by
        rw [Nat.mul_add, Nat.add_assoc, Nat.div_add_mod]
      have zero' : F.w * patternIdx F.w q start + start ≡ 0 [MOD q] := zero
      rw [split]
      constructor
      · intro same
        have both : F.w * patternIdx F.w q start + y ≡ F.w * patternIdx F.w q start + start [MOD q] :=
          same.trans zero'.symm
        rw [← Nat.mod_eq_of_lt lt]
        exact Nat.ModEq.add_left_cancel' _ both
      · rintro rfl
        exact (Nat.ModEq.add_left _ (Nat.mod_modEq y q)).symm.trans zero'
    simp only [Nat.zero_le, true_and, Nat.sub_zero, inside, byte]
  · rfl

theorem startIdx_lt (positive : 0 < p) : F.startIdx p < p := Nat.mod_lt _ positive

theorem unsieveOnePrime_eq (odd : p % 2 = 1) (S : Bytes) {start : ℕ} (lt : start < p) :
    F.unsieveOnePrime S p start =
      mark (fun y => decide (y < F.I ∧ y % p = start ∧ (F.j % 2 = 1 ∨ y % 2 = 1))) S := by
  have positive : 0 < p := by omega
  rw [unsieveOnePrime]
  rcases Nat.mod_two_eq_zero_or_one F.j with even | jodd
  · rw [if_pos even, markFrom_eq (by omega) (by omega)]
    have x_lt : (if start % 2 = 0 then start + p else start) < 2 * p := by split_ifs <;> omega
    refine mark_congr (fun y => ?_) S
    simp only [le_and_sub_mod_iff x_lt, mod_two_mul_iff odd lt, even, zero_ne_one, false_or]
  · rw [if_neg (by omega), markFrom_eq positive (by omega)]
    refine mark_congr (fun y => ?_) S
    simp only [le_and_sub_mod_iff lt, jodd, true_or, and_true]

def struck (F : Fragment) (minP c y : ℕ) : Bool :=
  decide (y < F.I ∧ ∃ p ∈ c.primeFactors, minP ≤ p ∧ y % p = F.startIdx p ∧ (7 < p → F.j % 2 = 1 ∨ y % 2 = 1))

/-- There is a word for each of the patterns. -/
def Fits (F : Fragment) (minP c : ℕ) : Prop := ∀ q ∈ [3, 5, 7], q ∣ c → minP ≤ q → q - 1 ≤ F.I / F.w

instance (F : Fragment) (minP c : ℕ) : Decidable (F.Fits minP c) := inferInstanceAs (Decidable (∀ q ∈ [3, 5, 7], _))

theorem lpf_isGreatest (one : 1 < c) (inside : c ≤ F.m) : IsGreatest {q | q.Prime ∧ q ∣ c} (F.lpf c) := by
  rw [lpf, if_neg (not_le.mpr one)]
  exact gpf_isGreatest one inside

theorem cof_spec (one : 1 < c) (inside : c ≤ F.m) :
    0 < F.cof c ∧ F.cof c < c ∧ F.cof c ∣ c ∧ ¬ F.lpf c ∣ F.cof c ∧ c.primeFactors = insert (F.lpf c)
      (F.cof c).primeFactors := by
  have cof_eq : F.cof c = cofactor (F.lpf c) c := by rw [cof, lpf, if_neg (not_le.mpr one), if_neg (not_le.mpr one)]
  rw [cof_eq]
  exact cofactor_primes (lpf_isGreatest one inside) (by omega)

def unsieved (F : Fragment) (minP c : ℕ) (S : Bytes) : Option Bytes :=
  if F.Fits minP c then some (mark (F.struck minP c) S) else none

theorem prime_of_pattern (pattern : q ∈ [3, 5, 7]) : q.Prime := by
  have all : ∀ q ∈ [3, 5, 7], q.Prime := by decide
  exact all q pattern

theorem unsieved_of_small (positive : 0 < c) (small : ∀ p ∈ c.primeFactors, p < minP) (S : Bytes) :
    F.unsieved minP c S = some S := by
  have fits : F.Fits minP c := fun q pattern divides le =>
    absurd (small q (Nat.mem_primeFactors.mpr ⟨prime_of_pattern pattern, divides, positive.ne'⟩)) (not_lt.mpr le)
  rw [unsieved, if_pos fits]
  refine congrArg some (funext fun y => ?_)
  have none : F.struck minP c y = false := by
    rw [struck, decide_eq_false_iff_not]
    rintro ⟨-, p, member, le, -⟩
    exact absurd (small p member) (not_lt.mpr le)
  rw [mark, none, if_neg Bool.false_ne_true]

theorem unsieved_of_lpf_lt (positive : 0 < c) (inside : c ≤ F.m) (lt : F.lpf c < minP) (S : Bytes) :
    F.unsieved minP c S = some S := by
  apply unsieved_of_small positive
  intro p member
  obtain ⟨prime, divides, -⟩ := Nat.mem_primeFactors.mp member
  have one : 1 < c := prime.one_lt.trans_le (Nat.le_of_dvd positive divides)
  exact ((lpf_isGreatest one inside).2 ⟨prime, divides⟩).trans_lt lt

theorem struck_step (one : 1 < c) (inside : c ≤ F.m) (le : minP ≤ F.lpf c) (y : ℕ) :
    F.struck minP c y = (F.struck minP (F.cof c) y ||
      decide (y < F.I ∧ y % F.lpf c = F.startIdx (F.lpf c) ∧ (7 < F.lpf c → F.j % 2 = 1 ∨ y % 2 = 1))) := by
  obtain ⟨-, -, -, -, primes⟩ := cof_spec one inside
  rw [Bool.eq_iff_iff]
  simp only [struck, primes, Finset.mem_insert, exists_eq_or_imp, Bool.or_eq_true, decide_eq_true_eq, le, true_and]
  rw [and_or_left, or_comm]

theorem fits_step (one : 1 < c) (inside : c ≤ F.m) (le : minP ≤ F.lpf c) :
    F.Fits minP c ↔ F.Fits minP (F.cof c) ∧ (F.lpf c ∈ [3, 5, 7] → F.lpf c - 1 ≤ F.I / F.w) := by
  obtain ⟨positive, -, part, -, primes⟩ := cof_spec one inside
  have is := lpf_isGreatest one inside
  constructor
  · intro fits
    exact ⟨fun q pattern divides => fits q pattern (divides.trans part), fun pattern => fits _ pattern is.1.2 le⟩
  · rintro ⟨rest, here⟩ q pattern divides le
    have member : q ∈ c.primeFactors := Nat.mem_primeFactors.mpr ⟨prime_of_pattern pattern, divides, by omega⟩
    rw [primes, Finset.mem_insert] at member
    rcases member with rfl | member
    · exact here pattern
    · exact rest q pattern (Nat.dvd_of_mem_primeFactors member) le

theorem unsievePattern_bind (one : 1 < c) (inside : c ≤ F.m) (le : minP ≤ F.lpf c) (pattern : F.lpf c ∈ [3, 5, 7])
    (S : Bytes) :
    (F.unsievePattern (F.lpf c) S (F.startIdx (F.lpf c))).bind (F.unsieved minP (F.cof c)) = F.unsieved minP c S := by
  have small : F.lpf c = 3 ∨ F.lpf c = 5 ∨ F.lpf c = 7 := by simpa using pattern
  have lt : F.startIdx (F.lpf c) < F.lpf c := startIdx_lt (by omega)
  rw [unsievePattern_eq small S lt]
  have here : (F.lpf c ∈ [3, 5, 7] → F.lpf c - 1 ≤ F.I / F.w) ↔ F.lpf c - 1 ≤ F.I / F.w :=
    ⟨fun h => h pattern, fun h _ => h⟩
  simp only [unsieved, fits_step one inside le, here]
  by_cases words : F.lpf c - 1 ≤ F.I / F.w
  · simp only [words, if_true, Option.bind_some, and_true]
    by_cases rest : F.Fits minP (F.cof c)
    · rw [unsieved, if_pos rest, if_pos rest, mark_mark]
      refine congrArg some (mark_congr (fun y => ?_) S)
      rw [struck_step one inside le]
      refine congrArg _ (decide_eq_decide.mpr (and_congr_right fun _ => ?_))
      rw [iff_self_and]
      omega
    · rw [unsieved, if_neg rest, if_neg rest]
  · simp [words]

theorem lpf_one : F.lpf 1 = 1 := rfl

theorem lpf_mem (one : 1 < c) (inside : c ≤ F.m) : F.lpf c ∈ c.primeFactors := by
  have is := lpf_isGreatest one inside
  exact Nat.mem_primeFactors.mpr ⟨is.1.1, is.1.2, by omega⟩

theorem mem_of_cof (one : 1 < c) (inside : c ≤ F.m) (member : p ∈ (F.cof c).primeFactors) :
    p ∈ c.primeFactors ∧ p < F.lpf c := by
  have is := lpf_isGreatest one inside
  obtain ⟨-, -, part, apart, primes⟩ := cof_spec one inside
  obtain ⟨prime, divides, -⟩ := Nat.mem_primeFactors.mp member
  refine ⟨by rw [primes]; exact Finset.mem_insert_of_mem member, (is.2 ⟨prime, divides.trans part⟩).lt_of_ne ?_⟩
  rintro rfl
  exact apart divides

theorem one_lt_of_mem (positive : 0 < c) (member : p ∈ c.primeFactors) : 1 < c := by
  obtain ⟨prime, divides, -⟩ := Nat.mem_primeFactors.mp member
  exact prime.one_lt.trans_le (Nat.le_of_dvd positive divides)

theorem le_lpf (one : 1 < c) (inside : c ≤ F.m) (member : p ∈ c.primeFactors) : p ≤ F.lpf c := by
  obtain ⟨prime, divides, -⟩ := Nat.mem_primeFactors.mp member
  exact (lpf_isGreatest one inside).2 ⟨prime, divides⟩

theorem eq_one_of_primes (positive : 0 < c) (none : ∀ p, p ∉ c.primeFactors) : c = 1 := by
  have empty := Finset.eq_empty_of_forall_notMem none
  exact (Nat.primeFactors_eq_empty.mp empty).resolve_left positive.ne'

theorem unsieve3_eq (positive : 0 < c) (inside : c ≤ F.m) (only : ∀ p ∈ c.primeFactors, p = 3) (S : Bytes) :
    F.unsieve3 minP (F.lpf c) (F.startIdx (F.lpf c)) (F.cof c) S = F.unsieved minP c S := by
  rw [unsieve3]
  by_cases small : F.lpf c < minP
  · rw [if_pos small, unsieved_of_lpf_lt positive inside small]
  rw [if_neg small]
  rcases Nat.lt_or_ge 1 c with one | trivial
  · have three : F.lpf c = 3 := only _ (lpf_mem one inside)
    have unit : F.cof c = 1 := eq_one_of_primes (cof_spec one inside).1 fun p member => by
      obtain ⟨upper, lt⟩ := mem_of_cof one inside member
      have same := only p upper
      omega
    have rest : (fun S : Bytes => if F.cof c ≤ 1 then some S else none) = F.unsieved minP (F.cof c) := by
      funext S
      rw [unit, if_pos le_rfl, unsieved_of_small one_pos (by simp)]
    have pattern : F.lpf c ∈ [3, 5, 7] := by simp [three]
    rw [if_pos three, rest, ← unsievePattern_bind one inside (not_lt.mp small) pattern, three]
  · obtain rfl : c = 1 := by omega
    rw [if_neg (by rw [lpf_one]; decide), Option.bind_some, unsieved_of_small one_pos (by simp)]
    rfl

theorem pattern_then (one : 1 < c) (inside : c ≤ F.m) (le : minP ≤ F.lpf c) (here : F.lpf c = q)
    (pattern : q ∈ [3, 5, 7])
    {next : Bytes → Option Bytes} (rest : ∀ S, next S = F.unsieved minP (F.cof c) S) (S : Bytes) :
    (F.unsievePattern q S (F.startIdx (F.lpf c))).bind next = F.unsieved minP c S := by
  subst here
  rw [funext rest, unsievePattern_bind one inside le pattern]

theorem one_lt_of_lpf (positive : 0 < c) (ne : F.lpf c ≠ 1) : 1 < c := by
  by_contra trivial
  obtain rfl : c = 1 := by omega
  exact ne lpf_one

theorem unsieve5_eq (positive : 0 < c) (inside : c ≤ F.m) (only : ∀ p ∈ c.primeFactors, p = 3 ∨ p = 5) (S : Bytes) :
    F.unsieve5 minP (F.lpf c) (F.startIdx (F.lpf c)) (F.cof c) S = F.unsieved minP c S := by
  rw [unsieve5]
  by_cases small : F.lpf c < minP
  · rw [if_pos small, unsieved_of_lpf_lt positive inside small]
  rw [if_neg small]
  by_cases five : F.lpf c = 5
  · rw [if_pos five]
    have one : 1 < c := one_lt_of_lpf (F := F) positive (by omega)
    obtain ⟨positive', smaller, -⟩ := cof_spec one inside
    apply pattern_then one inside (not_lt.mp small) five (by simp)
    apply unsieve3_eq positive' (smaller.le.trans inside)
    intro p member
    obtain ⟨upper, lt⟩ := mem_of_cof one inside member
    have same := only p upper
    omega
  · rw [if_neg five]
    apply unsieve3_eq positive inside
    intro p member
    rcases only p member with three | rfl
    · exact three
    · -- Then 5 would be the greatest.
      have one : 1 < c := one_lt_of_mem positive member
      have le := le_lpf one inside member
      have greatest := only _ (lpf_mem one inside)
      omega

theorem unsieve7_eq (positive : 0 < c) (inside : c ≤ F.m) (odd : c % 2 = 1) (only : ∀ p ∈ c.primeFactors, p ≤ 7)
    (le : minP ≤ F.lpf c)
    (S : Bytes) : F.unsieve7 minP (F.lpf c) (F.startIdx (F.lpf c)) (F.cof c) S = F.unsieved minP c S := by
  have patterns {p : ℕ} (member : p ∈ c.primeFactors) : p = 3 ∨ p = 5 ∨ p = 7 := by
    have le := only p member
    obtain ⟨prime, divides, -⟩ := Nat.mem_primeFactors.mp member
    have p_odd : p % 2 = 1 := Nat.odd_iff.mp ((Nat.odd_iff.mpr odd).of_dvd_nat divides)
    have two := prime.two_le
    have composite : p ≠ 1 := prime.ne_one
    omega
  rw [unsieve7]
  by_cases seven : F.lpf c = 7
  · rw [if_pos seven]
    have one : 1 < c := one_lt_of_lpf (F := F) positive (by omega)
    obtain ⟨positive', smaller, -⟩ := cof_spec one inside
    apply pattern_then one inside le seven (by simp)
    apply unsieve5_eq positive' (smaller.le.trans inside)
    intro p member
    obtain ⟨upper, lt⟩ := mem_of_cof one inside member
    have same := patterns upper
    omega
  · rw [if_neg seven]
    apply unsieve5_eq positive inside
    intro p member
    have one : 1 < c := one_lt_of_mem positive member
    have greatest := patterns (lpf_mem one inside)
    have le := le_lpf one inside member
    have same := patterns member
    omega

theorem unsieveLoop_eq {fuel : ℕ} (positive : 0 < c) (inside : c ≤ F.m) (odd : c % 2 = 1) (enough : c < fuel)
    (S : Bytes) :
    F.unsieveLoop minP fuel c S = F.unsieved minP c S := by
  induction fuel generalizing c S with
  | zero => omega
  | succ fuel ih =>
    rw [unsieveLoop]
    by_cases small : F.lpf c < minP
    · rw [if_pos small, unsieved_of_lpf_lt positive inside small]
    rw [if_neg small]
    have le := not_lt.mp small
    by_cases pattern : F.lpf c ≤ 7
    · rw [if_pos pattern]
      apply unsieve7_eq positive inside odd _ le
      intro p member
      exact (le_lpf (one_lt_of_mem positive member) inside member).trans pattern
    · rw [if_neg pattern]
      have one : 1 < c := one_lt_of_lpf (F := F) positive (by omega)
      obtain ⟨positive', smaller, part, -⟩ := cof_spec one inside
      have odd_of {d : ℕ} (divides : d ∣ c) : d % 2 = 1 := Nat.odd_iff.mp ((Nat.odd_iff.mpr odd).of_dvd_nat divides)
      have lpf_odd := odd_of (lpf_isGreatest one inside).1.2
      have fits : F.Fits minP c ↔ F.Fits minP (F.cof c) := by
        rw [fits_step one inside le, and_iff_left]
        intro member
        simp only [List.mem_cons, List.not_mem_nil, or_false] at member
        omega
      rw [ih positive' (by omega) (odd_of part) (by omega), unsieveOnePrime_eq lpf_odd S (startIdx_lt (by omega)),
        unsieved, unsieved]
      simp only [fits, mark_mark]
      refine if_congr Iff.rfl (congrArg some (mark_congr (fun y => ?_) S)) rfl
      rw [struck_step one inside le]
      refine congrArg _ (decide_eq_decide.mpr (and_congr_right fun _ => and_congr_right fun _ => ?_))
      exact ⟨fun either _ => either, fun either => either (not_le.mp pattern)⟩

theorem unsieveNotCoprimeLine_eq (positive : 0 < F.j) (S : Bytes) :
    F.unsieveNotCoprimeLine minP S = F.unsieved minP (divideOut 2 F.j F.j) S := by
  obtain ⟨left, ⟨e, eq⟩, odd⟩ := @divideOut_spec 2 F.j F.j le_rfl positive le_rfl
  have le : divideOut 2 F.j F.j ≤ F.j := Nat.le_of_dvd positive ⟨_, eq⟩
  rw [unsieveNotCoprimeLine, if_neg positive.ne']
  apply unsieveLoop_eq left (le.trans F.inside)
  · omega
  · omega

end Fragment

end CadoNfs.Sieve
