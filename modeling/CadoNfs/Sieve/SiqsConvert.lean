import CadoNfs.Sieve.SiqsSpecialQ

/-!
# Coordinates for a special-q of the quadratic sieve

`convert_ab_to_ij` finds the sign of every prime from the residue of `a`, and undoes the Gray code on the way.
-/

namespace CadoNfs.Sieve
open Lib Lib.GrayCode

namespace SiqsSpecialQData

section
variable {q : BitVec 64} (positive : 0 < q.toNat)
include positive

theorem mpzTdivUint64_toNat (x : ℤ) : (mpzTdivUint64 x q).toNat = x.natAbs % q.toNat := by
  have below := Nat.mod_lt x.natAbs positive
  have wide := q.isLt
  rw [mpzTdivUint64, BitVec.toNat_ofNat, Nat.mod_eq_of_lt (by omega)]

theorem sub_mpzTdivUint64 (x : ℤ) (away : ¬ (q.toNat : ℤ) ∣ x) :
    (q - mpzTdivUint64 x q).toNat = q.toNat - x.natAbs % q.toNat := by
  have below := Nat.mod_lt x.natAbs positive
  have wide := q.isLt
  have nonzero : x.natAbs % q.toNat ≠ 0 := fun zero =>
    away (Int.natCast_dvd.mpr (Nat.dvd_of_mod_eq_zero zero))
  rw [BitVec.toNat_sub, mpzTdivUint64_toNat positive]
  omega

omit positive in
theorem neg_natAbs_mod {a : ℤ} (negative : a < 0) (away : ¬ (q.toNat : ℤ) ∣ a) :
    a % q.toNat = q.toNat - (a.natAbs % q.toNat : ℕ) := by
  obtain ⟨n, rfl⟩ : ∃ n : ℕ, a = -n := ⟨a.natAbs, by omega⟩
  rw [Int.natAbs_neg, Int.natAbs_natCast, Int.neg_emod, if_neg (by rwa [dvd_neg] at away), Int.natAbs_natCast]
  push_cast
  rfl

theorem amodqk_toNat {a : ℤ} (away : ¬ (q.toNat : ℤ) ∣ a) : ((amodqk a q).toNat : ℤ) = a % q.toNat := by
  unfold amodqk
  split
  · rename_i negative
    have below := Nat.mod_lt a.natAbs positive
    rw [sub_mpzTdivUint64 positive a away, neg_natAbs_mod negative away]
    omega
  · rename_i nonnegative
    rw [mpzTdivUint64_toNat positive, Int.natCast_mod, Int.natAbs_of_nonneg (by omega)]

theorem sign_of_residue {a R : ℤ} {minus : Bool} (low : 0 ≤ R) (odd : ¬ (q.toNat : ℤ) ∣ 2 * R)
    (residue : (q.toNat : ℤ) ∣ a - signed minus R) : (mpzTdivUint64 R q = amodqk a q ↔ minus = false) ∧
      (minus = true → q - mpzTdivUint64 R q = amodqk a q) := by
  have awayR : ¬ (q.toNat : ℤ) ∣ R := fun dvd => odd (dvd.mul_left 2)
  have away : ¬ (q.toNat : ℤ) ∣ a := fun dvd => by
    have part := (dvd_sub_right dvd).mp residue
    cases minus with
    | false => exact awayR part
    | true => exact awayR ((dvd_neg).mp part)
  have own : ((mpzTdivUint64 R q).toNat : ℤ) = R % q.toNat := by
    rw [mpzTdivUint64_toNat positive, Int.natCast_mod, Int.natAbs_of_nonneg low]
  have value := amodqk_toNat positive away
  have same : mpzTdivUint64 R q = amodqk a q ↔ R % q.toNat = a % q.toNat := by
    rw [← own, ← value]
    exact ⟨fun equal => by rw [equal], fun equal => BitVec.eq_of_toNat_eq (by exact_mod_cast equal)⟩
  cases minus with
  | false =>
    have equal : R % q.toNat = a % q.toNat := Int.modEq_iff_dvd.mpr residue
    exact ⟨iff_of_true (same.mpr equal) rfl, nofun⟩
  | true =>
    have opposite : (q.toNat : ℤ) ∣ a - -R := residue
    constructor
    · refine iff_of_false (fun equal => odd ?_) (by decide)
      have difference : (q.toNat : ℤ) ∣ a - R := Int.ModEq.dvd (same.mp equal)
      have total := dvd_sub opposite difference
      rwa [show a - -R - (a - R) = 2 * R by ring] at total
    · intro _
      apply BitVec.eq_of_toNat_eq
      have reduced : -R % q.toNat = a % q.toNat := Int.modEq_iff_dvd.mpr opposite
      have below := Nat.mod_lt R.natAbs positive
      rw [Int.neg_emod, if_neg awayR, ← value, ← own, mpzTdivUint64_toNat positive, Int.natAbs_natCast] at reduced
      rw [sub_mpzTdivUint64 positive R awayR]
      omega

end

theorem bitLoop_decodes (ndebug : Bool) {a : ℤ} {target : BitVec 32} {factors : List (BitVec 64 × ℤ)} {k : ℕ}
    (spec : ∀ m q R, factors[m]? = some (q, R) → 0 < q.toNat ∧ 0 ≤ R ∧ ¬ (q.toNat : ℤ) ∣ 2 * R ∧
      (q.toNat : ℤ) ∣ a - signed ((gray target).getLsbD (m + k)) R)
    {mask : BitVec 64} (ones : Ones k mask) {j : BitVec 32} (decodes : Decodes target k j) (rj : ℤ) :
    ∃ word, Decodes target (factors.length + k) word ∧ bitLoop ndebug a factors mask j rj =
      .ok (word, rj + signedSum (fun m => (gray target).getLsbD (m + k)) (factors.map Prod.snd)) := by
  induction factors generalizing k mask j rj with
  | nil => exact ⟨j, by simpa using decodes, by simp [bitLoop, signedSum]⟩
  | cons factor rest ih =>
    obtain ⟨q, R⟩ := factor
    obtain ⟨positive, low, odd, residue⟩ := spec 0 q R rfl
    rw [Nat.zero_add] at residue
    obtain ⟨equal, opposite⟩ := sign_of_residue positive low odd residue
    have later : ∀ m q R, rest[m]? = some (q, R) → 0 < q.toNat ∧ 0 ≤ R ∧ ¬ (q.toNat : ℤ) ∣ 2 * R ∧
        (q.toNat : ℤ) ∣ a - signed ((gray target).getLsbD (m + (k + 1))) R := by
      intro m q R there
      have := spec (m + 1) q R there
      rwa [show m + 1 + k = m + (k + 1) by omega] at this
    have next := decodes.step (ones.setWidth (show 32 ≤ 64 by norm_num))
    have shifted : (fun m => (gray target).getLsbD (m + 1 + k)) = fun m => (gray target).getLsbD (m + (k + 1)) := by
      funext m
      rw [show m + 1 + k = m + (k + 1) by omega]
    rw [bitLoop, List.map_cons, signedSum, shifted, Nat.zero_add, List.length_cons,
      show rest.length + 1 + k = rest.length + (k + 1) by omega]
    cases sign : (gray target).getLsbD k with
    | false =>
      rw [sign, if_neg (by decide)] at next
      rw [if_pos (equal.mpr sign)]
      obtain ⟨word, done, run⟩ := ih later ones.step next (rj + R)
      refine ⟨word, done, ?_⟩
      rw [run, signed, if_neg (by decide), add_assoc]
    | true =>
      rw [sign, if_pos rfl] at next
      rw [if_neg (fun same => by rw [equal.mp same] at sign; exact absurd sign (by decide)), assert_of (opposite sign)]
      obtain ⟨word, done, run⟩ := ih later ones.step next (rj - R)
      refine ⟨word, done, ?_⟩
      change bitLoop ndebug a rest _ _ _ = _
      rw [run, signed, if_pos rfl, sub_eq_add_neg, add_assoc]

section
variable {roots : BitVec 64 → List (BitVec 64)} {Q : SiqsSpecialQData} (valid : Valid roots Q)
include valid

theorem length_eq : Q.crtDataModq.length = Q.primeFactors.length := by
  rw [valid.components.length, List.length_map]

omit valid in
theorem modulus_of {k : ℕ} {q : BitVec 64} (there : Q.primeFactors[k]? = some q) :
    (Q.primeFactors.map fun q => (q.toNat : ℤ))[k]? = some (q.toNat : ℤ) := by
  rw [List.getElem?_map, there]
  rfl

theorem dvd_p {q : BitVec 64} (member : q ∈ Q.primeFactors) : (q.toNat : ℤ) ∣ Q.p := by
  rw [valid.p_eq]
  exact Int.natCast_dvd_natCast.mpr (List.dvd_prod (List.mem_map_of_mem member))

theorem p_pos : 0 < Q.p := by
  rw [valid.p_eq]
  have positive : 0 < product Q.primeFactors := List.prod_pos (by
    intro q member
    obtain ⟨q, there, rfl⟩ := List.mem_map.mp member
    exact (valid.prime q there).pos)
  exact_mod_cast positive

theorem rootFromJ_residue (j : BitVec 32) {k : ℕ} {q : BitVec 64} {R : ℤ} (modulus : Q.primeFactors[k]? = some q)
    (number : Q.crtDataModq[k]? = some R) :
    (q.toNat : ℤ) ∣ Q.rootFromJ j - signed ((gray j).getLsbD k) R := by
  rw [rootFromJ_eq]
  exact valid.components.residue _ (modulus_of modulus) number

theorem convertAbToIjMpz_root (ndebug : Bool) (i j i' j' : BitVec 32) (small : j.toNat < 2 ^ Q.primeFactors.length) :
    Q.convertAbToIjMpz ndebug (Q.rootFromJ j + Q.p * i.toInt) 1 i' j' = .ok (true, i, j) := by
  have zipped : (Q.primeFactors.zip Q.crtDataModq).map Prod.snd = Q.crtDataModq :=
    List.map_snd_zip (length_eq valid).le
  have long : (Q.primeFactors.zip Q.crtDataModq).length = Q.primeFactors.length := by
    rw [List.length_zip, length_eq valid, min_self]
  have spec : ∀ m q R, (Q.primeFactors.zip Q.crtDataModq)[m]? = some (q, R) → 0 < q.toNat ∧ 0 ≤ R ∧
      ¬ (q.toNat : ℤ) ∣ 2 * R ∧
      (q.toNat : ℤ) ∣ Q.rootFromJ j + Q.p * i.toInt - signed ((gray j).getLsbD (m + 0)) R := by
    intro m q R there
    obtain ⟨modulus, number⟩ := List.getElem?_zip_eq_some.mp there
    have member := List.mem_of_getElem? modulus
    refine ⟨(valid.prime q member).pos, (valid.half R (List.mem_of_getElem? number)).1,
      valid.components.odd m _ R (modulus_of modulus) number, ?_⟩
    rw [add_sub_right_comm]
    exact dvd_add (rootFromJ_residue valid j modulus number) ((dvd_p valid member).mul_right _)
  obtain ⟨word, decodes, run⟩ := bitLoop_decodes ndebug spec ones_zero (decodes_zero j) 0
  rw [long, Nat.add_zero] at decodes
  obtain rfl := decodes.eq small
  rw [zipped, zero_add] at run
  have sum : signedSum (fun m => (gray word).getLsbD (m + 0)) Q.crtDataModq = Q.rootFromJ word :=
    (rootFromJ_eq word).symm
  rw [sum] at run
  have difference : Q.rootFromJ word - (Q.rootFromJ word + Q.p * i.toInt) = Q.p * -i.toInt := by ring
  have low := BitVec.le_toInt i
  have high := BitVec.toInt_lt (x := i)
  rw [convertAbToIjMpz, if_neg (by decide), run]
  change (assert ndebug (Q.p ∣ Q.rootFromJ word - (Q.rootFromJ word + Q.p * i.toInt)) >>= _) = _
  rw [difference, assert_of (Dvd.intro _ rfl)]
  change (if _ then _ else _) = _
  rw [Int.mul_ediv_cancel_left _ (p_pos valid).ne', neg_neg, if_pos (by omega), SpecialQData.mpzGetSi_eq low high,
    BitVec.ofInt_toInt]
  rfl

theorem rootFromJ_delta (j : BitVec 32) : Q.rootFromJ j = Q.r + Q.deltaToR j := by
  have loops := rootLoop_delta Q.crtDataModq (grayCodeFromJ j) 0 0
  rw [mul_zero, sub_zero, zero_add] at loops
  rw [rootFromJ, deltaToR, valid.r_eq, loops, sub_eq_add_neg]

theorem rootFromJ_root (j : BitVec 32) {q : BitVec 64} (member : q ∈ Q.primeFactors) :
    ∃ x ∈ roots q, (q.toNat : ℤ) ∣ Q.rootFromJ j - x.toNat := by
  obtain ⟨k, modulus⟩ := List.mem_iff_getElem?.mp member
  have inside : k < Q.crtDataModq.length := by
    rw [length_eq valid]
    exact (List.getElem?_eq_some_iff.mp modulus).1
  have number : Q.crtDataModq[k]? = some (Q.crtDataModq.get ⟨k, inside⟩) := by simp
  obtain ⟨x, root, near⟩ := valid.root k q _ modulus number ((gray j).getLsbD k)
  refine ⟨x, root, ?_⟩
  have total := dvd_add (rootFromJ_residue valid j modulus number) near
  rwa [sub_add_sub_cancel] at total

theorem rootFromJ_signs {j : BitVec 32} {minus : ℕ → Bool} (same : Q.p ∣ Q.rootFromJ j - signedSum minus Q.crtDataModq)
    {k : ℕ} (inside : k < Q.primeFactors.length) : (gray j).getLsbD k = minus k := by
  rw [rootFromJ_eq] at same
  apply valid.components.signs _ (by simpa using inside)
  intro q member
  obtain ⟨q, there, rfl⟩ := List.mem_map.mp member
  exact (dvd_p valid there).trans same

theorem rootFromJ_distinct {j j' : BitVec 32} (small : j.toNat < 2 ^ Q.primeFactors.length)
    (small' : j'.toNat < 2 ^ Q.primeFactors.length) (same : Q.p ∣ Q.rootFromJ j - Q.rootFromJ j') : j = j' := by
  rw [rootFromJ_eq j'] at same
  exact eq_of_gray small small' fun k inside => rootFromJ_signs valid same inside

theorem rootFromJ_not_opposite (nonempty : Q.primeFactors ≠ []) {j j' : BitVec 32}
    (small : j.toNat < 2 ^ (Q.primeFactors.length - 1)) (small' : j'.toNat < 2 ^ (Q.primeFactors.length - 1)) :
    ¬ Q.p ∣ Q.rootFromJ j + Q.rootFromJ j' := by
  intro opposite
  have positive := List.length_pos_of_ne_nil nonempty
  rw [rootFromJ_eq j', ← sub_neg_eq_add, ← signedSum_not] at opposite
  have flipped := rootFromJ_signs valid opposite (show Q.primeFactors.length - 1 < Q.primeFactors.length by omega)
  rw [getLsbD_gray_of_small small le_rfl, getLsbD_gray_of_small small' le_rfl] at flipped
  exact absurd flipped (by decide)

/-! ## The conversion in 64 bits -/

theorem rootFromJ_bounds {j : BitVec 32} (small : j.toNat < 2 ^ (Q.primeFactors.length - 1)) :
    -((Q.primeFactors.length - 1 : ℕ) * Q.p) ≤ 2 * Q.rootFromJ j ∧
      2 * Q.rootFromJ j ≤ Q.primeFactors.length * Q.p := by
  rw [rootFromJ_eq]
  constructor
  · exact le_signedSum valid.half (p_pos valid).le _ _ fun k high => getLsbD_gray_of_small small high
  · rw [← length_eq valid]
    exact signedSum_le valid.half _

end

def Fits (x : ℤ) : Prop := -2 ^ 63 ≤ x ∧ x < 2 ^ 63

theorem mpzGetSi_of_fits {x : ℤ} (fits : Fits x) : SpecialQData.mpzGetSi x = .ofInt 64 x := by
  obtain ⟨low, high⟩ := fits
  unfold SpecialQData.mpzGetSi
  split
  · rw [Int.emod_eq_of_lt (by omega) (by omega)]
  · rw [Int.emod_eq_of_lt (by omega) (by omega)]
    congr 1
    ring

theorem convertIjToAb_exact {Q : SiqsSpecialQData} {i j : BitVec 32} (root : Fits (Q.rootFromJ j)) (modulus : Fits Q.p)
    (value : Fits (Q.rootFromJ j + Q.p * i.toInt)) :
    ((Q.convertIjToAb i j).1.toInt, ((Q.convertIjToAb i j).2.toNat : ℤ)) = Q.convertIjToAbMpz i j := by
  have word : (Q.convertIjToAb i j).1 = .ofInt 64 (Q.rootFromJ j + Q.p * i.toInt) := by
    change SpecialQData.mpzGetSi (Q.rootFromJ j) + SpecialQData.mpzGetSi Q.p * i.signExtend 64 = _
    rw [mpzGetSi_of_fits root, mpzGetSi_of_fits modulus, BitVec.ofInt_add, BitVec.ofInt_mul]
    rfl
  rw [word, BitVec.toInt_ofInt_eq_self (by norm_num) (by simpa using value.1) (by simpa using value.2)]
  rfl

theorem convertAbToIj_root {roots : BitVec 64 → List (BitVec 64)} {Q : SiqsSpecialQData} (valid : Valid roots Q)
    {i j : BitVec 32} (small : j.toNat < 2 ^ Q.primeFactors.length) (root : Fits (Q.rootFromJ j)) (modulus : Fits Q.p)
    (value : Fits (Q.rootFromJ j + Q.p * i.toInt)) (ndebug : Bool) (i' j' : BitVec 32) :
    Q.convertAbToIj ndebug (Q.convertIjToAb i j).1 (Q.convertIjToAb i j).2 i' j' = .ok (true, i, j) := by
  obtain ⟨a, b⟩ := Prod.mk.inj (convertIjToAb_exact root modulus value)
  rw [convertAbToIj, a, b]
  exact convertAbToIjMpz_root valid ndebug i j i' j' small

theorem fits_of_chooseSieveArea {roots : BitVec 64 → List (BitVec 64)} {factors : List (BitVec 64)}
    {Q : SiqsSpecialQData}
    (valid : Valid roots Q) (same : Q.primeFactors = factors) {logA logI : ℕ} {J : BitVec 32}
    (area : chooseSieveArea false roots logA factors = .ok (some (logI, Q, J))) {i j : BitVec 32}
    (left : -(2 ^ logI / 2) ≤ i.toInt) (right : i.toInt < 2 ^ logI / 2) (below : j < J) :
    j.toNat < 2 ^ (factors.length - 1) ∧ Fits (Q.rootFromJ j) ∧ Fits Q.p ∧ Fits (Q.rootFromJ j + Q.p * i.toInt) := by
  unfold chooseSieveArea at area
  simp only [Bool.not_false, true_and] at area
  split at area
  · exact absurd area (by simp)
  rename_i narrow
  cases run : ofSpecialQ roots factors with
  | error failure =>
    rw [run] at area
    exact absurd area (by simp [bind, Except.bind])
  | ok Q' =>
    rw [run] at area
    obtain ⟨width, rfl, height⟩ : logA - (factors.length - 1) = logI ∧ Q' = Q ∧ 1#32 <<< (factors.length - 1) = J := by
      simpa [bind, Except.bind, pure, Except.pure] using area
    rw [width] at narrow
    have rows : j.toNat < 2 ^ (factors.length - 1) := by
      rw [← height, BitVec.lt_def, BitVec.toNat_shiftLeft, Nat.shiftLeft_eq] at below
      exact below.trans_le ((Nat.mod_le _ _).trans (by simp))
    have bound : product factors * 2 ^ (logI - 1) + product factors * (factors.length / 2) < 2 ^ 63 := by
      rw [← Nat.shiftLeft_eq]
      exact Nat.size_le.mp (not_lt.mp narrow)
    have positive := p_pos valid
    obtain ⟨low, high⟩ := rootFromJ_bounds valid (by rwa [same])
    have p_eq := valid.p_eq
    rw [same] at low high p_eq
    have half : (2 : ℤ) ^ logI / 2 = 2 ^ (logI - 1) := by
      cases logI with
      | zero => norm_num at left right; omega
      | succ logI => rw [pow_succ, Int.mul_ediv_cancel _ (by norm_num), Nat.add_sub_cancel]
    rw [half] at left right
    have bound' : Q'.p * 2 ^ (logI - 1) + Q'.p * (factors.length / 2 : ℕ) < 2 ^ 63 := by
      rw [p_eq]
      exact_mod_cast bound
    have one : (1 : ℤ) ≤ 2 ^ (logI - 1) := one_le_pow₀ (by norm_num)
    generalize (2 : ℤ) ^ (logI - 1) = E at left right bound' one
    have parity : (factors.length : ℤ) ≤ 2 * (factors.length / 2 : ℕ) + 1 := by omega
    have parity' : ((factors.length - 1 : ℕ) : ℤ) ≤ 2 * (factors.length / 2 : ℕ) := by omega
    have nonnegative : (0 : ℤ) ≤ (factors.length / 2 : ℕ) := Int.natCast_nonneg _
    generalize ((factors.length / 2 : ℕ) : ℤ) = h at bound' parity parity' nonnegative
    have upper := mul_le_mul_of_nonneg_right parity positive.le
    have lower := mul_le_mul_of_nonneg_right parity' positive.le
    have large := mul_le_mul_of_nonneg_left one positive.le
    have east := mul_le_mul_of_nonneg_left (show i.toInt ≤ E - 1 by omega) positive.le
    have west := mul_le_mul_of_nonneg_left left positive.le
    have rest := mul_nonneg positive.le nonnegative
    refine ⟨rows, ⟨?_, ?_⟩, ⟨?_, ?_⟩, ?_, ?_⟩ <;>
      linarith only [low, high, bound', positive, upper, lower, large, east, west, rest]

/-- The conversions are inverse, in multiprecision integers for all `i` and `j`, and in 64 bits where the numbers
fit. The `r_j` are the roots modulo the special-q, one for every choice of signs, each once up to the sign. -/
theorem siqsConvert_roundTrip {c : ℤ} {roots : BitVec 64 → List (BitVec 64)} {factors : List (BitVec 64)}
    (prime : ∀ q ∈ factors, q.toNat.Prime) (distinct : factors.Nodup) (exact : ∀ q ∈ factors, IsRoots c q (roots q))
    {Q : SiqsSpecialQData} (built : ofSpecialQ roots factors = .ok Q) :
    (∀ i j : BitVec 32, j.toNat < 2 ^ factors.length → ∀ (ndebug : Bool) (i' j' : BitVec 32),
      Q.convertAbToIjMpz ndebug (Q.convertIjToAbMpz i j).1 (Q.convertIjToAbMpz i j).2 i' j' = .ok (true, i, j)) ∧
    (∀ i j : BitVec 32, j.toNat < 2 ^ factors.length → Fits (Q.rootFromJ j) → Fits Q.p →
      Fits (Q.rootFromJ j + Q.p * i.toInt) →
      ∀ (ndebug : Bool) (i' j' : BitVec 32),
        Q.convertAbToIj ndebug (Q.convertIjToAb i j).1 (Q.convertIjToAb i j).2 i' j' = .ok (true, i, j)) ∧
    (∀ (logA logI : ℕ) (J : BitVec 32), chooseSieveArea false roots logA factors = .ok (some (logI, Q, J)) →
      ∀ i j : BitVec 32, -(2 ^ logI / 2) ≤ i.toInt → i.toInt < 2 ^ logI / 2 → j < J →
        Fits (Q.rootFromJ j) ∧ Fits Q.p ∧ Fits (Q.rootFromJ j + Q.p * i.toInt) ∧ ∀ (ndebug : Bool) (i' j' : BitVec 32),
          Q.convertAbToIj ndebug (Q.convertIjToAb i j).1 (Q.convertIjToAb i j).2 i' j' = .ok (true, i, j)) ∧
    (∀ j : BitVec 32, Q.rootFromJ j = Q.r + Q.deltaToR j ∧ Q.p ∣ Q.rootFromJ j ^ 2 + c ∧
      ∀ (k : ℕ) (q : BitVec 64) (R : ℤ), factors[k]? = some q → Q.crtDataModq[k]? = some R →
        (q.toNat : ℤ) ∣ Q.rootFromJ j - signed ((grayCodeFromJ j).getLsbD k) R ∧
          ∀ minus : Bool, ∃ x ∈ roots q, (q.toNat : ℤ) ∣ signed minus R - x.toNat) ∧
    (∀ j j' : BitVec 32, j.toNat < 2 ^ factors.length → j'.toNat < 2 ^ factors.length →
      Q.p ∣ Q.rootFromJ j - Q.rootFromJ j' → j = j') ∧
    (factors ≠ [] → ∀ j j' : BitVec 32, j.toNat < 2 ^ (factors.length - 1) → j'.toNat < 2 ^ (factors.length - 1) →
      ¬ Q.p ∣ Q.rootFromJ j + Q.rootFromJ j') := by
  obtain ⟨rfl, valid⟩ := valid_of_built prime distinct exact built
  refine ⟨?_, ?_, ?_, ?_, ?_, ?_⟩
  · intro i j small ndebug i' j'
    exact convertAbToIjMpz_root valid ndebug i j i' j' small
  · intro i j small root modulus value
    exact convertAbToIj_root valid small root modulus value
  · intro logA logI J area i j left right below
    obtain ⟨rows, root, modulus, value⟩ := fits_of_chooseSieveArea valid rfl area left right below
    have small := rows.trans_le (Nat.pow_le_pow_right (show 0 < 2 by norm_num) (Nat.sub_le _ 1))
    exact ⟨root, modulus, value, convertAbToIj_root valid small root modulus value⟩
  · intro j
    refine ⟨rootFromJ_delta valid j, ?_, ?_⟩
    · obtain ⟨primes, apart⟩ := primes_toNat prime distinct
      rw [valid.p_eq]
      apply prod_dvd_of_primes primes apart
      intro q member
      obtain ⟨q, there, rfl⟩ := List.mem_map.mp member
      obtain ⟨x, root, near⟩ := rootFromJ_root valid j there
      have square := near.mul_left (Q.rootFromJ j + x.toNat)
      have total := dvd_add square ((exact q there).root x root)
      rwa [show (Q.rootFromJ j + x.toNat) * (Q.rootFromJ j - x.toNat) + ((x.toNat : ℤ) ^ 2 + c) = Q.rootFromJ j ^ 2 + c
        by ring] at total
    · intro k q R modulus number
      exact ⟨rootFromJ_residue valid j modulus number, valid.root k q R modulus number⟩
  · intro j j' small small' same
    exact rootFromJ_distinct valid small small' same
  · intro nonempty j j' small small'
    exact rootFromJ_not_opposite valid nonempty small small'

theorem siqsConvert_roundTrip_fifteen : (SiqsSpecialQData.mk 15 8 [3, 5] [5, 3]).convertAbToIjMpz false
    ((SiqsSpecialQData.mk 15 8 [3, 5] [5, 3]).convertIjToAbMpz (-7) 2).1
    ((SiqsSpecialQData.mk 15 8 [3, 5] [5, 3]).convertIjToAbMpz (-7) 2).2 0 0 = .ok (true, -7, 2) := by
  have prime : ∀ q ∈ [3#64, 5#64], q.toNat.Prime := by
    intro q member
    rcases List.mem_pair.mp member with rfl | rfl
    · exact Nat.prime_three
    · exact Nat.prime_five
  have exact : ∀ q ∈ [3#64, 5#64], IsRoots (-4) q (if q = 3 then [1#64, 2#64] else [2#64, 3#64]) := by
    intro q member
    rcases List.mem_pair.mp member with rfl | rfl
    · exact isRoots_pair (by decide) (by decide) (by decide) (by norm_num) (by norm_num)
    · exact isRoots_pair (by decide) (by decide) (by decide) (by norm_num) (by norm_num)
  have built : ofSpecialQ (fun q => if q = 3 then [1, 2] else [2, 3]) [3#64, 5#64] = .ok ⟨15, 8, [3, 5], [5, 3]⟩ := by
    decide +kernel
  exact (siqsConvert_roundTrip prime (by decide) exact built).1 (-7) 2 (by decide) false 0 0

end SiqsSpecialQData
end CadoNfs.Sieve
