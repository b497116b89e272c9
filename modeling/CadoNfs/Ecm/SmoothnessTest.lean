import CadoNfs.Lib.Related
import CadoNfs.Lib.ScaledRemainder
import CadoNfs.Lib.SmoothPart

/-!
# Product and remainder trees

`product_tree` and `remainder_tree` of `sieve/ecm/batch.cpp`.
-/

namespace CadoNfs.Ecm
open Lib

def treeHeight (n : ℕ) : ℕ :=
  if 1 < n then treeHeight ((n + 1) / 2) + 1 else 0
decreasing_by omega

def productLevel : List ℕ → List ℕ
  | [] => []
  | [x] => [x]
  | x :: y :: l => x * y :: productLevel l

def productTree (R : List ℕ) : List (List ℕ) :=
  (List.range (treeHeight R.length + 1)).map fun i => productLevel^[i] R

def sizeinbase2 (x : ℕ) : ℕ := if x = 0 then 1 else x.size

-- The approximation `t` of a node goes to its sons `u` and `v`.
def remainderTreeAux (guard t nbits u v : ℕ) : ℕ × ℕ :=
  let u' := t * v % 2 ^ (nbits + guard)
  let v' := t * u % 2 ^ (nbits + guard)
  (u' / 2 ^ (nbits - sizeinbase2 u), v' / 2 ^ (nbits - sizeinbase2 v))

def remainderLevel (guard : ℕ) : List (ℕ × ℕ) → List ℕ → List ℕ
  | (t, nbits) :: ts, u :: v :: l =>
      let (u', v') := remainderTreeAux guard t nbits u v
      u' :: v' :: remainderLevel guard ts l
  | (t, _) :: _, [_] => [t]
  | _, _ => []

def remainderTree (T : List (List ℕ)) (P : ℤ) (R : List ℕ) : List ℕ :=
  let guard := treeHeight R.length + 2
  match T.reverse with
  | [] => []
  | top :: levels =>
    let approx := top.map fun N : ℕ => (P % N).toNat * 2 ^ (sizeinbase2 N + guard) / N
    let (approx, _) := levels.foldl
      (fun (approx, nodes) level => (remainderLevel guard (approx.zip (nodes.map sizeinbase2)) level, level))
      (approx, top)
    List.zipWith (fun r t => (t * r / 2 ^ sizeinbase2 r + (2 ^ guard - 1)) / 2 ^ guard) R approx

/-! ## The shape of the tree -/

theorem treeHeight_eq (n : ℕ) : treeHeight n = Nat.clog 2 n := by
  induction n using Nat.strong_induction_on with
  | _ n ih =>
    unfold treeHeight
    split
    · next large =>
      rw [ih _ (by omega), Nat.clog_of_two_le (by norm_num) large]
      rfl
    · next small => rw [Nat.clog_of_right_le_one (by omega)]

theorem productLevel_pos {l : List ℕ} (pos : ∀ x ∈ l, 0 < x) : ∀ x ∈ productLevel l, 0 < x := by
  induction l using productLevel.induct with
  | case1 => exact pos
  | case2 x => exact pos
  | case3 x y l ih =>
    simp only [List.forall_mem_cons] at pos
    simp only [productLevel, List.forall_mem_cons]
    exact ⟨Nat.mul_pos pos.1 pos.2.1, ih pos.2.2⟩

theorem level_pos {R : List ℕ} (pos : ∀ x ∈ R, 0 < x) (i : ℕ) : ∀ x ∈ productLevel^[i] R, 0 < x := by
  induction i with
  | zero => exact pos
  | succ i ih =>
    rw [Function.iterate_succ_apply']
    exact productLevel_pos ih

theorem sizeinbase2_of_pos {x : ℕ} (pos : 0 < x) : sizeinbase2 x = x.size := if_neg pos.ne'

variable {P : ℤ} {guard error : ℕ}

theorem remainderLevel_scaled {l approx : List ℕ} (pos : ∀ x ∈ l, 0 < x)
    (close : List.Forall₂ (Scaled P guard error) (productLevel l) approx) :
    List.Forall₂ (Scaled P guard (2 * error + 1)) l
      (remainderLevel guard (approx.zip ((productLevel l).map sizeinbase2)) l) := by
  induction l using productLevel.induct generalizing approx with
  | case1 => cases close; exact .nil
  | case2 x =>
    cases close with
    | cons here rest =>
      cases rest
      exact .cons (here.mono (by omega)) .nil
  | case3 u v l ih =>
    simp only [List.forall_mem_cons] at pos
    obtain ⟨upos, vpos, rest⟩ := pos
    cases close with
    | cons here close =>
      have left := here.child upos vpos
      have right := (mul_comm u v ▸ here).child vpos upos
      simp only [productLevel, List.map_cons, List.zip_cons_cons, remainderLevel, remainderTreeAux,
        sizeinbase2_of_pos upos, sizeinbase2_of_pos vpos, sizeinbase2_of_pos (Nat.mul_pos upos vpos)]
      rw [mul_comm v u] at right
      exact .cons left (.cons right (ih rest close))

theorem remainderLevels_scaled {R : List ℕ} (pos : ∀ x ∈ R, 0 < x) (i : ℕ) {approx : List ℕ}
    (close : List.Forall₂ (Scaled P guard error) (productLevel^[i] R) approx) :
    List.Forall₂ (Scaled P guard (2 ^ i * (error + 1) - 1)) R
      ((((List.range i).map fun i => productLevel^[i] R).reverse.foldl
        (fun (approx, nodes) level => (remainderLevel guard (approx.zip (nodes.map sizeinbase2)) level, level))
        (approx, productLevel^[i] R) : List ℕ × List ℕ)).1 := by
  induction i generalizing approx error with
  | zero => simpa using close
  | succ i ih =>
    rw [List.range_succ, List.map_append, List.reverse_append, List.map_singleton, List.reverse_singleton,
      List.singleton_append, List.foldl_cons]
    rw [Function.iterate_succ_apply'] at close ⊢
    have next := ih (remainderLevel_scaled (level_pos pos i) close)
    have grows : 2 ^ i * (2 * error + 1 + 1) - 1 = 2 ^ (i + 1) * (error + 1) - 1 := by
      rw [pow_succ]
      congr 1
      ring
    rwa [grows] at next

theorem remainderTree_spec (P : ℤ) {R : List ℕ} (pos : ∀ x ∈ R, 0 < x) :
    List.Forall₂ (fun r t : ℕ => t ≤ r ∧ (t : ℤ) ≡ P [ZMOD r]) R (remainderTree (productTree R) P R) := by
  set h := treeHeight R.length with hh
  have levels : (productTree R).reverse = productLevel^[h] R ::
      ((List.range h).map fun i => productLevel^[i] R).reverse := by
    rw [productTree, List.range_succ, List.map_append, List.reverse_append]
    rfl
  have top : List.Forall₂ (Scaled P (h + 2) 1) (productLevel^[h] R) ((productLevel^[h] R).map
      fun N : ℕ => (P % N).toNat * 2 ^ (sizeinbase2 N + (h + 2)) / N) := by
    rw [List.forall₂_map_right_iff, List.forall₂_same]
    intro N member
    rw [sizeinbase2_of_pos (level_pos pos h N member)]
    exact Scaled.root P (h + 2) (level_pos pos h N member)
  have leaves := remainderLevels_scaled pos h top
  have few : 2 ^ h * (1 + 1) - 1 < 2 ^ (h + 2) := by
    have := Nat.two_pow_pos h
    rw [pow_add]
    omega
  rw [remainderTree, levels]
  refine forall₂_zipWith leaves fun r member t close => ?_
  rw [sizeinbase2_of_pos (pos r member)]
  exact close.finish (pos r member) few

end CadoNfs.Ecm

/-!
# Dividing out smooth parts

`smoothness_test` of `sieve/ecm/batch.cpp`.
-/

namespace CadoNfs.Ecm
open Lib

/-- Why a call does not return: a write or a read past the end of an array, or a loop that is cut off. -/
inductive Failure
  | stackOverflow
  | pastEnd
  | outOfFuel
  deriving DecidableEq

def maxDepth : ℕ := 32

-- `for(;;)`, cut off after `fuel` iterations.
def divideOut : ℕ → ℕ → ℕ → Except Failure ℕ
  | 0, _, _ => .error .outOfFuel
  | fuel + 1, T, R =>
    let T := T.gcd R
    if T = 1 then .ok R else divideOut fuel T (R / T)

def smoothnessTest (R : List ℕ) (P : ℤ) : Except Failure (List ℕ) :=
  if R.length = 0 then .ok R
  else if P = 1 then .ok R
  else
    if maxDepth < treeHeight R.length + 1 then .error .stackOverflow
    else (R.zip (remainderTree (productTree R) P R)).mapM fun (r, t) => divideOut r t r

variable {P : ℤ}

theorem divideOut_eq {fuel T R : ℕ} (pos : 0 < R) (enough : R ≤ fuel) (same : SamePrimes P T R) :
    divideOut fuel T R = .ok (R / smoothPart P R) := by
  induction fuel generalizing T R with
  | zero => omega
  | succ fuel ih =>
    have gpos : 0 < T.gcd R := Nat.gcd_pos_of_pos_right T pos
    have split : T.gcd R * (R / T.gcd R) = R := Nat.mul_div_cancel' (Nat.gcd_dvd_right T R)
    have rest : 0 < R / T.gcd R := Nat.div_pos (Nat.gcd_le_right T pos) gpos
    unfold divideOut
    by_cases one : T.gcd R = 1
    · have rough : smoothPart P R = 1 := smoothPart_of_rough fun p prime divides divides' => by
        have common : p ∣ T.gcd R := Nat.dvd_gcd ((same p prime divides).mpr divides') divides
        rw [one] at common
        exact prime.one_lt.ne' (Nat.dvd_one.mp common)
      simp only [if_pos one, rough, Nat.div_one]
    · have smooth : smoothPart P (T.gcd R) = T.gcd R := smoothPart_of_smooth gpos.ne' fun p prime divides =>
        (same p prime (divides.trans (Nat.gcd_dvd_right T R))).mp (divides.trans (Nat.gcd_dvd_left T R))
      have less : R / T.gcd R < R := Nat.div_lt_self pos (by omega)
      have parts : R / smoothPart P R = R / T.gcd R / smoothPart P (R / T.gcd R) := by
        conv_lhs => rw [← split]
        rw [smoothPart_mul P gpos.ne' rest.ne', smooth, Nat.mul_div_mul_left _ _ gpos]
      simp only [if_neg one]
      rw [ih rest (by omega) same.gcd, parts]

theorem mapM_divideOut {R T : List ℕ} (pos : ∀ r ∈ R, 0 < r)
    (same : List.Forall₂ (fun r t => SamePrimes P t r) R T) :
    ((R.zip T).mapM fun (r, t) => divideOut r t r) = .ok (R.map fun r => r / smoothPart P r) := by
  induction same with
  | nil => rfl
  | cons here _ ih =>
    rw [List.forall_mem_cons] at pos
    have head := divideOut_eq pos.1 le_rfl here
    simp only [List.zip_cons_cons, List.mapM_cons, head, ih pos.2]
    rfl

theorem smoothPart_one (r : ℕ) : smoothPart 1 r = 1 :=
  smoothPart_of_rough fun p prime _ divides =>
    prime.one_lt.ne' (Int.natCast_dvd_natCast.mp (divides.trans (by norm_num)) |> Nat.dvd_one.mp)

theorem deep_iff (n : ℕ) : maxDepth < treeHeight n + 1 ↔ 2 ^ 31 < n := by
  rw [treeHeight_eq, ← Nat.lt_clog_iff_pow_lt (by norm_num), maxDepth]
  omega

theorem smoothnessTest_eq {R : List ℕ} (pos : ∀ r ∈ R, 0 < r) (few : P = 1 ∨ R.length ≤ 2 ^ 31) :
    smoothnessTest R P = .ok (R.map fun r => r / smoothPart P r) := by
  unfold smoothnessTest
  by_cases none : R.length = 0
  · rw [if_pos none, List.eq_nil_of_length_eq_zero none]
    rfl
  rw [if_neg none]
  by_cases one : P = 1
  · rw [if_pos one, one]
    simp [smoothPart_one]
  · rw [if_neg one, if_neg ((deep_iff _).not.mpr (not_lt.mpr (few.resolve_left one)))]
    exact mapM_divideOut pos ((remainderTree_spec P pos).imp fun r t spec => .of_modEq spec.2)

theorem smoothnessTest_deep {R : List ℕ} (composite : P ≠ 1) (many : 2 ^ 31 < R.length) :
    smoothnessTest R P = .error .stackOverflow := by
  rw [smoothnessTest, if_neg (by omega), if_neg composite, if_pos ((deep_iff _).mpr many)]

/-- The array of the widths has room for the levels of at most `2^31` cofactors. -/
theorem smoothnessTest_iff (P : ℤ) {R : List ℕ} (pos : ∀ r ∈ R, 0 < r) :
    List.Forall₂ (fun r t : ℕ => t ≤ r ∧ (t : ℤ) ≡ P [ZMOD r]) R (remainderTree (productTree R) P R) ∧
    (smoothnessTest R P = .ok (R.map fun r => r / smoothPart P r) ↔ P = 1 ∨ R.length ≤ 2 ^ 31) := by
  refine ⟨remainderTree_spec P pos, fun returned => ?_, smoothnessTest_eq pos⟩
  by_contra large
  rw [not_or, not_le] at large
  rw [smoothnessTest_deep large.1 large.2] at returned
  cases returned

theorem smoothnessTest_iff_small :
    List.Forall₂ (fun r t : ℕ => t ≤ r ∧ (t : ℤ) ≡ 6 [ZMOD r]) [12, 35, 7]
      (remainderTree (productTree [12, 35, 7]) 6 [12, 35, 7]) ∧
    (smoothnessTest [12, 35, 7] 6 = .ok ([12, 35, 7].map fun r => r / smoothPart 6 r) ↔
      (6 : ℤ) = 1 ∨ [12, 35, 7].length ≤ 2 ^ 31) :=
  smoothnessTest_iff 6 (by decide)

theorem smoothnessTest_overflows : ¬ ∀ (P : ℤ) (R : List ℕ), R ≠ [] → (∀ r ∈ R, 0 < r) →
    smoothnessTest R P = .ok (R.map fun r => r / smoothPart P r) := by
  intro always
  obtain ⟨n, many⟩ : ∃ n : ℕ, n = 2 ^ 31 + 1 := ⟨_, rfl⟩
  have returned := always 2 (List.replicate n 1)
    (fun empty => by
      have := congrArg List.length empty
      rw [List.length_replicate, List.length_nil] at this
      omega)
    (fun r member => by
      rw [List.eq_of_mem_replicate member]
      exact Nat.one_pos)
  rw [smoothnessTest_deep (by decide) (by rw [List.length_replicate]; omega)] at returned
  cases returned

end CadoNfs.Ecm
