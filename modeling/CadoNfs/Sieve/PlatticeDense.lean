import CadoNfs.Sieve.StartingPoint

/-!
# Lattices in three words

`plattice_info_dense_t` of `sieve/las-plattice.hpp` keeps 20 bits of each coordinate. The ordinates are saturated, and
the abscissas are taken to be below `I`, which the second one of a vertical lattice need not be.
-/

namespace CadoNfs.Sieve

structure PlatticeInfoDense where
  pack0 : BitVec 32
  pack1 : BitVec 32
  pack2 : BitVec 32
  deriving DecidableEq

namespace PlatticeInfoDense

def mask8 : BitVec 32 := (1 <<< 8) - 1
def mask16 : BitVec 32 := (1 <<< 16) - 1
def mask20 : BitVec 32 := (1 <<< 20) - 1

def saturate (j : BitVec 32) : BitVec 32 := if mask20 < j then mask20 else j

def packWords (mi0 j0 i1 j1 : BitVec 32) (hint : BitVec 16) : PlatticeInfoDense :=
  let j0 := saturate j0
  let j1 := saturate j1
  ⟨(mi0 &&& mask20) ||| (i1 <<< 20),
    ((i1 >>> 12) &&& mask8) ||| ((j0 &&& mask20) <<< 8) ||| (j1 <<< 28),
    ((j1 >>> 4) &&& mask16) ||| (hint.setWidth 32 <<< 16)⟩

def pack (pli : PlatticeInfo) (hint : BitVec 16) : PlatticeInfoDense :=
  if pli.i1 = 1 ∧ pli.j1 = 0 then packWords (.allOnes 32) pli.j0 1 0 hint
  else if pli.i1 = 0 ∧ pli.j1 = 1 then packWords (.allOnes 32) pli.j0 0 1 hint
  else packWords pli.mi0 pli.j0 pli.i1 pli.j1 hint

def unpackWords (d : PlatticeInfoDense) : PlatticeInfo where
  mi0 := d.pack0 &&& mask20
  j0 := (d.pack1 >>> 8) &&& mask20
  i1 := (d.pack0 >>> 20) ||| ((d.pack1 &&& mask8) <<< 12)
  j1 := (d.pack1 >>> 28) ||| ((d.pack2 &&& mask16) <<< 4)

def unpack (d : PlatticeInfoDense) (logI : ℕ) : PlatticeInfo :=
  let pli := d.unpackWords
  if pli.i1 = 1 ∧ pli.j1 = 0 then { pli with mi0 := (1#32 <<< logI) - 1 }
  else if pli.i1 = 0 ∧ pli.j1 = 1 then { pli with j0 := (1#32 <<< logI) + 1 }
  else pli

theorem and_low {x mask : BitVec 32} {k : ℕ} (ones : mask.toNat = 2 ^ k - 1) :
    (x &&& mask).toNat = x.toNat % 2 ^ k := by
  rw [BitVec.toNat_and, ones, Nat.and_two_pow_sub_one_eq_mod]

theorem or_high {x y : BitVec 32} {k h : ℕ} (low : x.toNat < 2 ^ k) (high : y.toNat = 2 ^ k * h) :
    (x ||| y).toNat = x.toNat + 2 ^ k * h := by
  rw [BitVec.toNat_or, high, Nat.or_comm, ← Nat.two_pow_add_eq_or_of_lt low, Nat.add_comm]

theorem shiftLeft_field (x : BitVec 32) {k l : ℕ} (width : k + l = 32) :
    (x <<< k).toNat = 2 ^ k * (x.toNat % 2 ^ l) := by
  have power : 2 ^ 32 = 2 ^ k * 2 ^ l := by rw [← pow_add, width]
  rw [BitVec.toNat_shiftLeft, Nat.shiftLeft_eq, Nat.mul_comm, power, Nat.mul_mod_mul_left]

theorem shiftRight_field (x : BitVec 32) (k : ℕ) : (x >>> k).toNat = x.toNat / 2 ^ k := by
  rw [BitVec.toNat_ushiftRight, Nat.shiftRight_eq_div_pow]

theorem saturate_toNat (j : BitVec 32) : (saturate j).toNat = min j.toNat (2 ^ 20 - 1) := by
  rw [saturate]
  have ones : mask20.toNat = 2 ^ 20 - 1 := rfl
  split
  · rename_i large
    rw [BitVec.lt_def, ones] at large
    rw [ones]
    omega
  · rename_i small
    rw [BitVec.lt_def, ones] at small
    omega

variable (mi0 j0 i1 j1 : BitVec 32) (hint : BitVec 16)

theorem pack0_toNat :
    (packWords mi0 j0 i1 j1 hint).pack0.toNat = mi0.toNat % 2 ^ 20 + 2 ^ 20 * (i1.toNat % 2 ^ 12) := by
  have low : (mi0 &&& mask20).toNat = mi0.toNat % 2 ^ 20 := and_low (by decide)
  have sum := or_high (by rw [low]; exact Nat.mod_lt _ (by norm_num))
    (shiftLeft_field i1 (show 20 + 12 = 32 by norm_num))
  rw [low] at sum
  exact sum

theorem pack1_toNat : (packWords mi0 j0 i1 j1 hint).pack1.toNat =
    i1.toNat / 2 ^ 12 % 2 ^ 8 + 2 ^ 8 * (saturate j0).toNat + 2 ^ 28 * ((saturate j1).toNat % 2 ^ 4) := by
  have bound : (saturate j0).toNat < 2 ^ 20 := by
    rw [saturate_toNat]
    omega
  have low : ((i1 >>> 12) &&& mask8).toNat = i1.toNat / 2 ^ 12 % 2 ^ 8 := by
    rw [and_low (k := 8) (by decide), shiftRight_field]
  have middle : ((saturate j0 &&& mask20) <<< 8).toNat = 2 ^ 8 * (saturate j0).toNat := by
    rw [shiftLeft_field _ (show 8 + 24 = 32 by norm_num), and_low (k := 20) (by decide), Nat.mod_eq_of_lt bound,
      Nat.mod_eq_of_lt (by omega)]
  have two := or_high (by rw [low]; exact Nat.mod_lt _ (by norm_num)) middle
  rw [low] at two
  have three := or_high (by rw [two]; omega) (shiftLeft_field (saturate j1) (show 28 + 4 = 32 by norm_num))
  rw [two] at three
  exact three

theorem pack2_toNat : (packWords mi0 j0 i1 j1 hint).pack2.toNat =
    (saturate j1).toNat / 2 ^ 4 + 2 ^ 16 * hint.toNat := by
  have bound : (saturate j1).toNat < 2 ^ 20 := by
    rw [saturate_toNat]
    omega
  have low : ((saturate j1 >>> 4) &&& mask16).toNat = (saturate j1).toNat / 2 ^ 4 := by
    rw [and_low (k := 16) (by decide), shiftRight_field, Nat.mod_eq_of_lt (by omega)]
  have high : (hint.setWidth 32 <<< 16).toNat = 2 ^ 16 * hint.toNat := by
    have := hint.isLt
    rw [shiftLeft_field _ (show 16 + 16 = 32 by norm_num), BitVec.toNat_setWidth, Nat.mod_eq_of_lt (by omega),
      Nat.mod_eq_of_lt (by omega)]
  have sum := or_high (by rw [low]; omega) high
  rw [low] at sum
  exact sum

theorem unpackWords_packWords : let u := (packWords mi0 j0 i1 j1 hint).unpackWords
    u.mi0.toNat = mi0.toNat % 2 ^ 20 ∧ u.j0 = saturate j0 ∧ u.i1.toNat = i1.toNat % 2 ^ 20 ∧ u.j1 = saturate j1 := by
  have p0 := pack0_toNat mi0 j0 i1 j1 hint
  have p1 := pack1_toNat mi0 j0 i1 j1 hint
  have p2 := pack2_toNat mi0 j0 i1 j1 hint
  generalize packWords mi0 j0 i1 j1 hint = d at p0 p1 p2
  have bound0 : (saturate j0).toNat < 2 ^ 20 := by
    rw [saturate_toNat]
    omega
  have bound1 : (saturate j1).toNat < 2 ^ 20 := by
    rw [saturate_toNat]
    omega
  refine ⟨?_, ?_, ?_, ?_⟩
  · change (d.pack0 &&& mask20).toNat = _
    rw [and_low (k := 20) (by decide), p0]
    omega
  · apply BitVec.eq_of_toNat_eq
    change ((d.pack1 >>> 8) &&& mask20).toNat = _
    rw [and_low (k := 20) (by decide), shiftRight_field, p1]
    omega
  · change ((d.pack0 >>> 20) ||| ((d.pack1 &&& mask8) <<< 12)).toNat = _
    rw [or_high (k := 12) (by rw [shiftRight_field, p0]; omega) (shiftLeft_field _ (show 12 + 20 = 32 by norm_num)),
      shiftRight_field, and_low (k := 8) (by decide), p0, p1]
    omega
  · apply BitVec.eq_of_toNat_eq
    change ((d.pack1 >>> 28) ||| ((d.pack2 &&& mask16) <<< 4)).toNat = _
    rw [or_high (k := 4) (by rw [shiftRight_field, p1]; omega) (shiftLeft_field _ (show 4 + 28 = 32 by norm_num)),
      shiftRight_field, and_low (k := 16) (by decide), p1, p2]
    omega

/-! ## The lattices that come back -/

section
variable (d : PlatticeInfoDense) (logI : ℕ)

theorem unpack_i1 : (d.unpack logI).i1 = d.unpackWords.i1 := by
  simp only [unpack]
  split
  · rfl
  · split <;> rfl

theorem unpack_j1 : (d.unpack logI).j1 = d.unpackWords.j1 := by
  simp only [unpack]
  split
  · rfl
  · split <;> rfl

theorem unpack_j0 (right : d.unpackWords.i1 ≠ 0) : (d.unpack logI).j0 = d.unpackWords.j0 := by
  simp only [unpack]
  split
  · rfl
  · rw [if_neg fun orthogonal => right orthogonal.1]

theorem skipped_unpack (right : d.unpackWords.i1 ≠ 0) : (d.unpack logI).skipped = true ↔
    d.unpackWords.j1 = 0 ∨ d.unpackWords.j0.toNat = 2 ^ 20 - 1 ∨ d.unpackWords.j1.toNat = 2 ^ 20 - 1 := by
  have saturated (j : BitVec 32) : j = (1 <<< 20) - 1 ↔ j.toNat = 2 ^ 20 - 1 :=
    ⟨fun same => by rw [same]; rfl, fun same => BitVec.eq_of_toNat_eq same⟩
  rw [PlatticeInfo.skipped, decide_eq_true_eq, unpack_i1, unpack_j1, unpack_j0 d logI right, saturated, saturated]
  exact ⟨fun skips => skips.resolve_left right, .inr⟩

theorem skipped_of_i1 (zero : d.unpackWords.i1 = 0) : (d.unpack logI).skipped = true := by
  rw [PlatticeInfo.skipped, decide_eq_true_eq, unpack_i1]
  exact .inl zero

theorem skipped_of_j1 (zero : d.unpackWords.j1 = 0) : (d.unpack logI).skipped = true := by
  rw [PlatticeInfo.skipped, decide_eq_true_eq, unpack_j1]
  exact .inr (.inl zero)

end

theorem unpack_pack_of_narrow {s : PlatticeInfo} {logI : ℕ} (hint : BitVec 16) (mi0 : s.mi0.toNat < 2 ^ 20)
    (i1 : s.i1.toNat < 2 ^ 20) (generic : ¬ (s.i1 = 1 ∧ s.j1 = 0) ∧ ¬ (s.i1 = 0 ∧ s.j1 = 1)) :
    (pack s hint).unpack logI = s ∨ ((pack s hint).unpack logI).skipped = true := by
  have packed : pack s hint = packWords s.mi0 s.j0 s.i1 s.j1 hint := by
    rw [pack, if_neg generic.1, if_neg generic.2]
  obtain ⟨first, second, third, fourth⟩ := unpackWords_packWords s.mi0 s.j0 s.i1 s.j1 hint
  rw [← packed] at first second third fourth
  rw [Nat.mod_eq_of_lt mi0] at first
  rw [Nat.mod_eq_of_lt i1] at third
  have right : (pack s hint).unpackWords.i1 = s.i1 := BitVec.eq_of_toNat_eq third
  by_cases zero : s.i1 = 0
  · exact .inr (skipped_of_i1 _ _ (right.trans zero))
  by_cases large : 2 ^ 20 - 1 ≤ s.j0.toNat ∨ 2 ^ 20 - 1 ≤ s.j1.toNat
  · right
    rw [skipped_unpack _ _ (by rwa [right]), second, fourth, saturate_toNat, saturate_toNat]
    omega
  · left
    have j0 : saturate s.j0 = s.j0 := BitVec.eq_of_toNat_eq (by rw [saturate_toNat]; omega)
    have j1 : saturate s.j1 = s.j1 := BitVec.eq_of_toNat_eq (by rw [saturate_toNat]; omega)
    rw [unpack, right, fourth, j1, if_neg generic.1, if_neg generic.2]
    obtain ⟨a, b, c, d⟩ := s
    calc
      (pack ⟨a, b, c, d⟩ hint).unpackWords = ⟨(pack ⟨a, b, c, d⟩ hint).unpackWords.mi0, saturate b, c, saturate d⟩ := by
        rw [← second, ← fourth]
        exact congrArg (fun x => PlatticeInfo.mk _ _ x _) right
      _ = ⟨a, b, c, d⟩ := by rw [j0, j1, BitVec.eq_of_toNat_eq first]

/-- A lattice that the constructor leaves comes back from the three words, or is skipped, unless it is vertical with a
second vector that is too far to the right for 20 bits. -/
theorem unpack_pack_iff {logI : ℕ} (le : logI ≤ 20) {s : PlatticeInfo} (produced : PlatticeInfo.Produced logI s)
    (hint : BitVec 16) :
    ((pack s hint).unpack logI = s ∨ ((pack s hint).unpack logI).skipped = true) ↔
      s.i1.toNat < 2 ^ 20 ∨ 2 ^ 20 ∣ s.i1.toNat ∨ s.j1 = 0 := by
  have width : logI < 32 := by omega
  have sieved := produced.sieved width
  obtain ⟨mi0, j0, i1, -⟩ := PlatticeInfo.checkPostConditions_exact width sieved.post
  have limit : 2 ^ logI ≤ 2 ^ 20 := Nat.pow_le_pow_right (by norm_num) le
  by_cases first : s.i1 = 1 ∧ s.j1 = 0
  · have packed : pack s hint = packWords (.allOnes 32) s.j0 1 0 hint := if_pos first
    have zero : (pack s hint).unpackWords.j1 = 0 := by
      rw [packed]
      exact (unpackWords_packWords _ _ _ _ _).2.2.2
    exact iff_of_true (.inr (skipped_of_j1 _ _ zero)) (.inr (.inr first.2))
  by_cases second : s.i1 = 0 ∧ s.j1 = 1
  · have packed : pack s hint = packWords (.allOnes 32) s.j0 0 1 hint := by rw [pack, if_neg first, if_pos second]
    have zero : (pack s hint).unpackWords.i1 = 0 := by
      rw [packed]
      exact BitVec.eq_of_toNat_eq (unpackWords_packWords _ _ _ _ _).2.2.1
    exact iff_of_true (.inr (skipped_of_i1 _ _ zero)) (.inr (.inl (by rw [second.1]; exact dvd_zero _)))
  by_cases narrow : s.i1.toNat < 2 ^ 20
  · exact iff_of_true (unpack_pack_of_narrow hint (by omega) narrow ⟨first, second⟩) (.inl narrow)
  have packed : pack s hint = packWords s.mi0 s.j0 s.i1 s.j1 hint := by rw [pack, if_neg first, if_neg second]
  obtain ⟨-, low, right, high⟩ := unpackWords_packWords s.mi0 s.j0 s.i1 s.j1 hint
  rw [← packed] at low right high
  have zero : s.mi0.toNat = 0 := i1.resolve_left (by omega)
  have lower := sieved.vertical (BitVec.eq_of_toNat_eq zero)
  have fits := sieved.fits
  rw [PlatticeInfo.det, zero, Nat.zero_mul, Nat.zero_add] at fits
  have rows : s.j0.toNat < 2 ^ 12 := by
    by_contra large
    have product := Nat.mul_le_mul (not_lt.mp large) (not_lt.mp narrow)
    omega
  have different : (pack s hint).unpack logI ≠ s := fun same => by
    have kept := congrArg (fun r => r.i1.toNat) same
    simp only [unpack_i1, right] at kept
    omega
  rw [or_iff_right different, or_iff_right narrow]
  by_cases multiple : 2 ^ 20 ∣ s.i1.toNat
  · have none : (pack s hint).unpackWords.i1 = 0 :=
      BitVec.eq_of_toNat_eq (right.trans (Nat.mod_eq_zero_of_dvd multiple))
    exact iff_of_true (skipped_of_i1 _ _ none) (.inl multiple)
  · have some : (pack s hint).unpackWords.i1 ≠ 0 := fun none => by
      rw [none] at right
      exact multiple (Nat.dvd_of_mod_eq_zero right.symm)
    have flat : saturate s.j1 = 0 ↔ s.j1 = 0 := by
      have value := saturate_toNat s.j1
      constructor
      · intro none
        rw [none, show (0 : BitVec 32).toNat = 0 from rfl] at value
        exact BitVec.eq_of_toNat_eq (show s.j1.toNat = 0 by omega)
      · intro none
        rw [none]
        rfl
    rw [skipped_unpack _ _ some, low, high, saturate_toNat, saturate_toNat, flat, or_iff_right multiple]
    constructor
    · rintro (none | saturated | saturated)
      · exact none
      · omega
      · omega
    · exact .inl

theorem unpack_pack_iff_eleven :
    ((pack ⟨7, 4, 1, 1⟩ 0).unpack 3 = ⟨7, 4, 1, 1⟩ ∨ ((pack ⟨7, 4, 1, 1⟩ 0).unpack 3).skipped = true) ↔
      BitVec.toNat 1#32 < 2 ^ 20 ∨ 2 ^ 20 ∣ BitVec.toNat 1#32 ∨ (1 : BitVec 32) = 0 :=
  unpack_pack_iff (by decide) PlatticeInfo.produced_eleven 0

/-- For `q = 3^20` and the root `2 * 3^13` the lattice is vertical with `i1 = 3^13`, which comes back as 545747. -/
theorem unpack_pack_truncates : ¬ ∀ (logI : ℕ), logI ≤ 20 → ∀ s : PlatticeInfo, PlatticeInfo.Produced logI s →
    ∀ hint : BitVec 16, (pack s hint).unpack logI = s ∨ ((pack s hint).unpack logI).skipped = true := by
  intro always
  have produced : PlatticeInfo.Produced 16 ⟨0, 2187, 1594323, 1094⟩ :=
    ⟨false, false, 3486784401, 3188646, fun _ => 0, by decide, by decide, by decide, .inl (by decide)⟩
  have packed : (pack ⟨0, 2187, 1594323, 1094⟩ 0).unpack 16 = ⟨0, 2187, 545747, 1094⟩ := by decide
  have either := always 16 (by decide) _ produced 0
  rw [packed] at either
  exact absurd either (by decide)

end PlatticeInfoDense
end CadoNfs.Sieve
