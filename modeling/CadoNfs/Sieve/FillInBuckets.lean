import CadoNfs.Lib.ForwardWalk
import CadoNfs.Sieve.BucketArray
import CadoNfs.Sieve.PlatticeEnumerator

/-!
# Filling the buckets

`fill_in_buckets_toplevel` and `fill_in_buckets_lowlevel` of `sieve/las-fill-in-buckets.inl`, without sublattices, for
one lattice.
-/

namespace CadoNfs.Sieve
open Lib

namespace PlatticeEnumerator

structure Fence where
  maskI : BitVec 32
  evenMask : BitVec 64
  last : BitVec 64

def Fence.new (logI J : ℕ) : Fence :=
  ⟨PlatticeEnumerator.maskI logI, (1#64 <<< logI) ||| 1#64, BitVec.ofNat 64 J <<< logI⟩

def Fence.capped (logI J : ℕ) (cap : BitVec 64) : Fence :=
  let F := Fence.new logI J
  { F with last := if cap < F.last then cap else F.last }

variable (F : Fence) (e : PlatticeEnumerator)

def done : Bool := F.last ≤ e.x

def probablyCoprime : Bool := e.x &&& F.evenMask ≠ 0

def finish : PlatticeEnumerator := { e with x := .allOnes 64 }

def advanceToNextArea : PlatticeEnumerator := if e.x ≠ .allOnes 64 then { e with x := e.x - F.last } else e

/-- With `BUCKET_SIEVE_POWERS`. The number of positions that are skipped. -/
def advanceToEndOfRowOrSmallestRegion (mask : BitVec 32) : ℕ × PlatticeEnumerator :=
  let rest := mask.setWidth 64 - (e.x &&& mask.setWidth 64)
  if 1 < e.incStep then
    let n := rest / e.incStep
    (n.toNat, { e with x := e.x + n * e.incStep })
  else (rest.toNat, { e with x := e.x ||| mask.setWidth 64 })

def isProjectiveLike (logI : ℕ) : Bool := e.incStep >>> logI = 0

def isVerticalLine : Bool := e.incStep = .allOnes 64

end PlatticeEnumerator

namespace PlatticeInfo

def isDiscarded (p : PlatticeInfo) : Bool := p.mi0 = 0 ∧ p.j0 = 0

def isVerticalLine (p : PlatticeInfo) (logI : ℕ) : Bool := p.i1 >>> logI ≠ 0

end PlatticeInfo

/-- The parameters of the two functions. A position in a bucket has 16 bits at the first level, and 32 bits above
it. -/
structure FillConfig where
  logI : ℕ
  logBucketRegion : ℕ
  logBucketRegionStep : ℕ
  level : ℕ
  toplevel : ℕ
  logI_pos : 0 < logI
  logI_lt : logI < 32
  small : logBucketRegion ≤ 16
  wide : logBucketRegion + 2 * logBucketRegionStep ≤ 32
  level_pos : 0 < level
  level_lt : level < 3
  toplevel_pos : 0 < toplevel
  toplevel_le : toplevel ≤ 3

namespace FillConfig
open PlatticeEnumerator

variable (c : FillConfig)

def logB (level : ℕ) : ℕ := c.logBucketRegion + (level - 1) * c.logBucketRegionStep

def maskB1I : BitVec 32 := (1#32 <<< min (c.logB 1) c.logI) - 1#32

def brIndex (level : ℕ) (x : BitVec 64) : ℕ := x.toNat % 2 ^ c.logB level % 2 ^ if level = 1 then 16 else 32

def pushUpdate (level hint : ℕ) (e : PlatticeEnumerator) : Push ShortHint :=
  .update (e.x.toNat / 2 ^ c.logB level) ⟨c.brIndex level e.x, ⟨hint⟩⟩

def pushRowUpdate (level sliceIndex hint : ℕ) (e : PlatticeEnumerator) : Push ShortHint :=
  let n := (e.advanceToEndOfRowOrSmallestRegion c.maskB1I).1
  .row (e.x.toNat / 2 ^ c.logB level) ⟨⟨c.brIndex level e.x, ⟨hint⟩⟩, sliceIndex, e.incStep.toNat, n⟩

def fillRows (F : Fence) (level sliceIndex hint : ℕ) (e : PlatticeEnumerator) :
    Option (List (Push ShortHint) × PlatticeEnumerator) :=
  emitUntil (done F) (fun e => [c.pushRowUpdate level sliceIndex hint e])
    (fun e => (e.advanceToEndOfRowOrSmallestRegion c.maskB1I).2.next F.maskI) F.last.toNat e

def fillUpdates (F : Fence) (level hint : ℕ) (e : PlatticeEnumerator) :
    Option (List (Push ShortHint) × PlatticeEnumerator) :=
  emitUntil (done F) (fun e => if e.probablyCoprime F then [c.pushUpdate level hint e] else []) (·.next F.maskI)
    F.last.toNat e

def fillInBucketsToplevel (J sliceIndex hint : ℕ) (pli : PlatticeInfo) : Option (List (Push ShortHint)) :=
  let F := Fence.new c.logI J
  let ple := (start pli c.logI).next F.maskI -- skip (0,0)
  if pli.isDiscarded then some []
  else if ple.isProjectiveLike c.logI then (c.fillRows F c.toplevel sliceIndex hint ple).map Prod.fst
  else if pli.isVerticalLine c.logI then some (if ple.done F then [] else [c.pushUpdate c.toplevel hint ple])
  else (c.fillUpdates F c.toplevel hint ple).map Prod.fst

def area : ℕ := 2 ^ c.logB (c.level + 1)

def areaFence (J : ℕ) : Fence := Fence.capped c.logI J (.ofNat 64 c.area)

def fillInBucketsLowlevel (J sliceIndex hint : ℕ) (pleOrig : PlatticeEnumerator) :
    Option (List (Push ShortHint) × PlatticeEnumerator) :=
  let F := c.areaFence J
  let filled :=
    if pleOrig.isProjectiveLike c.logI then c.fillRows F c.level sliceIndex hint pleOrig
    else if pleOrig.isVerticalLine then
      if pleOrig.done F then some ([], pleOrig) else some ([c.pushUpdate c.level hint pleOrig], pleOrig.finish)
    else c.fillUpdates F c.level hint pleOrig
  filled.map fun (pushes, ple) => (pushes, advanceToNextArea F { pleOrig with x := ple.x })

def fillAreas (J sliceIndex hint : ℕ) : ℕ → PlatticeEnumerator → Option (List (List (Push ShortHint)))
  | 0, _ => some []
  | n + 1, e => do
    let (pushes, e) ← c.fillInBucketsLowlevel J sliceIndex hint e
    let rest ← fillAreas J sliceIndex hint n e
    some (pushes :: rest)

end FillConfig

def Push.located (logB : ℕ) : Push ShortHint → List (BucketUpdate ShortHint)
  | update N u => [⟨N * 2 ^ logB + u.x, u.hint⟩]
  | row N ru => (List.range (ru.n + 1)).map fun t => ⟨N * 2 ^ logB + ru.x + t * ru.inc, ru.hint⟩

namespace FillConfig
open PlatticeEnumerator

variable (c : FillConfig)

def locatedAreas : ℕ → List (List (Push ShortHint)) → List (BucketUpdate ShortHint)
  | _, [] => []
  | o, pushes :: rest =>
    (pushes.flatMap (Push.located (c.logB c.level))).map (fun u => { u with x := u.x + o }) ++ locatedAreas
      (o + c.area) rest

structure Reduced (p : PlatticeInfo) : Prop where
  post : p.checkPostConditions (sieveWidth c.logI) = true
  det : p.det < 2 ^ 32

/-- The calls for `n` areas that cover the sieve region push what the walk of the toplevel pushes: the same
updates, each once, at their positions. -/
def SameUpdates (J n sliceIndex hint : ℕ) (p : PlatticeInfo) : Prop :=
  ∃ whole parts, c.fillInBucketsToplevel J sliceIndex hint p = some whole ∧
    c.fillAreas J sliceIndex hint n ((start p c.logI).next (maskI c.logI)) = some parts ∧
    (c.locatedAreas 0 parts).filter (·.x < J * 2 ^ c.logI) = whole.flatMap (Push.located (c.logB c.toplevel)) ∧
    (whole.flatMap (Push.located (c.logB c.toplevel))).Pairwise (·.x < ·.x)

def Agrees (p : PlatticeInfo) (J : ℕ) : Prop :=
  ∀ n, J * 2 ^ c.logI ≤ n * c.area → ∀ sliceIndex hint, c.SameUpdates J n sliceIndex hint p

end FillConfig

end CadoNfs.Sieve

/-!
# The walks that fill the buckets

The loops follow walks on the positions without wrap-around.
-/

namespace CadoNfs.Sieve
open Lib PlatticeEnumerator

namespace PlatticeInfo
variable {p : PlatticeInfo} {logI x : ℕ}

def nextAt (p : PlatticeInfo) (logI x : ℕ) : ℕ :=
  x + (if 2 ^ logI ≤ p.i1.toNat + x % 2 ^ logI then p.j0.toNat * 2 ^ logI - p.mi0.toNat else 0) +
    if x % 2 ^ logI < p.mi0.toNat then p.j1.toNat * 2 ^ logI + p.i1.toNat else 0

section
variable (width : logI < 32) (post : p.checkPostConditions (sieveWidth logI) = true)
include width post

theorem lt_nextAt (x : ℕ) : x < p.nextAt logI x := by
  obtain ⟨mi0, j0, i1, wide⟩ := checkPostConditions_exact width post
  have once := Nat.mul_le_mul_right (2 ^ logI) (show 1 ≤ p.j0.toNat from j0)
  unfold nextAt
  split_ifs with warp step step
  · omega
  · omega
  · omega
  · omega

omit width post in
theorem nextAt_add (k : ℕ) : p.nextAt logI (x + k * 2 ^ logI) = p.nextAt logI x + k * 2 ^ logI := by
  unfold nextAt
  rw [Nat.add_mul_mod_self_right]
  omega

theorem stripBasis_next (x : ℕ) : (stripBasis width post).next x = (p.nextAt logI x : ℕ) := by
  obtain ⟨mi0, j0, i1, wide⟩ := checkPostConditions_exact width post
  have once := Nat.mul_le_mul_right (2 ^ logI) (show 1 ≤ p.j0.toNat from j0)
  have column : (x : ℤ) % 2 ^ logI = ((x % 2 ^ logI : ℕ) : ℤ) := by
    push_cast
    rfl
  have warp : ((2 : ℤ) ^ logI - p.i1.toNat ≤ (x : ℤ) % 2 ^ logI) ↔ 2 ^ logI ≤ p.i1.toNat + x % 2 ^ logI := by
    rw [column, sub_le_iff_le_add']
    exact_mod_cast Iff.rfl
  have step : ((x : ℤ) % 2 ^ logI < (p.mi0.toNat : ℤ)) ↔ x % 2 ^ logI < p.mi0.toNat := by
    rw [column]
    exact_mod_cast Iff.rfl
  simp only [StripBasis.next, stripBasis, warp, step, nextAt]
  have cast : ((p.j0.toNat * 2 ^ logI - p.mi0.toNat : ℕ) : ℤ) = p.j0.toNat * 2 ^ logI - p.mi0.toNat := by
    rw [Nat.cast_sub (by omega)]
    push_cast
    rfl
  split_ifs <;> push_cast [cast] <;> rfl

theorem nextAt_le (det : p.det < 2 ^ 32) (x : ℕ) : p.nextAt logI x ≤ x + 2 ^ 63 + 2 ^ 33 := by
  obtain ⟨mi0, j0, i1, wide⟩ := checkPostConditions_exact width post
  have small := two_pow_le_sign width
  have first := Nat.mul_le_mul p.j0.isLt.le small
  have second := Nat.mul_le_mul p.j1.isLt.le small
  unfold PlatticeInfo.det at det
  have short : min p.j0.toNat p.j1.toNat * 2 ^ logI < 2 ^ 32 := by
    calc min p.j0.toNat p.j1.toNat * 2 ^ logI ≤ min p.j0.toNat p.j1.toNat * (p.i1.toNat + p.mi0.toNat) :=
          Nat.mul_le_mul_left _ wide
      _ = p.mi0.toNat * min p.j0.toNat p.j1.toNat + min p.j0.toNat p.j1.toNat * p.i1.toNat := by ring
      _ ≤ p.mi0.toNat * p.j1.toNat + p.j0.toNat * p.i1.toNat :=
          Nat.add_le_add (Nat.mul_le_mul_left _ (min_le_right _ _)) (Nat.mul_le_mul_right _ (min_le_left _ _))
      _ < 2 ^ 32 := det
  have both : p.j0.toNat * 2 ^ logI + p.j1.toNat * 2 ^ logI ≤ 2 ^ 63 + 2 ^ 32 := by
    rcases le_total p.j0.toNat p.j1.toNat with le | le
    · rw [min_eq_left le] at short
      omega
    · rw [min_eq_right le] at short
      omega
  unfold nextAt
  by_cases step : x % 2 ^ logI < p.mi0.toNat
  · have notVertical : p.i1.toNat < 2 ^ logI := i1.resolve_right (by omega)
    split_ifs
    · omega
    · omega
  · split_ifs
    · omega
    · omega

end

structure At (p : PlatticeInfo) (logI : ℕ) (e : PlatticeEnumerator) (x : ℕ) : Prop where
  eq : e = p.enumeratorAt logI x
  lt : x < 2 ^ 64 - 1

variable {e : PlatticeEnumerator}

theorem At.toNat (at' : p.At logI e x) : e.x.toNat = x := by
  obtain ⟨rfl, lt⟩ := at'
  change (BitVec.ofInt 64 x).toNat = x
  rw [BitVec.ofInt_natCast, BitVec.toNat_ofNat]
  omega

theorem at_of_toNat (incs : e = { start p logI with x := e.x }) (lt : e.x.toNat < 2 ^ 64 - 1) :
    p.At logI e e.x.toNat := by
  refine ⟨incs.trans ?_, lt⟩
  unfold enumeratorAt
  rw [BitVec.ofInt_natCast, BitVec.ofNat_toNat, BitVec.setWidth_eq]

theorem At.set (at' : p.At logI e x) {y : BitVec 64} {n : ℕ} (value : y.toNat = n) (lt : n < 2 ^ 64 - 1) :
    p.At logI { e with x := y } n := by
  obtain ⟨rfl, -⟩ := at'
  subst value
  exact at_of_toNat rfl lt

theorem At.next (at' : p.At logI e x) (width : logI < 32) (post : p.checkPostConditions (sieveWidth logI) = true)
    (det : p.det < 2 ^ 32) (small : x < 2 ^ 62 + 2 ^ 31) : p.At logI (e.next (maskI logI)) (p.nextAt logI x) := by
  have bound := nextAt_le width post det x
  refine ⟨?_, by omega⟩
  rw [at'.eq, next_at width post, stripBasis_next width post]

theorem start_at (width : logI < 32) : p.At logI (start p logI) (2 ^ (logI - 1)) := by
  have small := Nat.pow_le_pow_right (show 0 < 2 by norm_num) (show logI - 1 ≤ 31 by omega)
  refine ⟨?_, by omega⟩
  rw [start_eq]
  push_cast
  rfl

end PlatticeInfo

namespace PlatticeEnumerator
variable {logI J : ℕ}

theorem toNat_fence (width : logI < 32) (small : J < 2 ^ 31) : (Fence.new logI J).last.toNat = J * 2 ^ logI := by
  have bound := Nat.mul_le_mul small.le (PlatticeInfo.two_pow_le_sign width)
  have : (BitVec.ofNat 64 J).toNat = J := by
    rw [BitVec.toNat_ofNat]
    omega
  change (BitVec.ofNat 64 J <<< logI).toNat = _
  rw [BitVec.toNat_shiftLeft, this, Nat.shiftLeft_eq]
  omega

theorem toNat_capped (width : logI < 32) (small : J < 2 ^ 31) {cap : ℕ} (fits : cap < 2 ^ 64) :
    (Fence.capped logI J (.ofNat 64 cap)).last.toNat = min (J * 2 ^ logI) cap := by
  have whole := toNat_fence width small
  have value : (BitVec.ofNat 64 cap).toNat = cap := by
    rw [BitVec.toNat_ofNat]
    omega
  change (if BitVec.ofNat 64 cap < (Fence.new logI J).last then BitVec.ofNat 64 cap else _).toNat = _
  split_ifs with less
  · rw [BitVec.lt_def, value, whole] at less
    rw [value, min_eq_right less.le]
  · rw [BitVec.lt_def, value, whole] at less
    rw [whole, min_eq_left (not_lt.mp less)]

theorem probablyCoprime_iff {F : Fence} {e : PlatticeEnumerator} (width : logI < 32)
    (mask : F.evenMask = (1#64 <<< logI) ||| 1#64) :
    e.probablyCoprime F = true ↔ e.x.toNat % 2 ≠ 0 ∨ e.x.toNat / 2 ^ logI % 2 ≠ 0 := by
  have bits : e.x &&& F.evenMask = 0#64 ↔ e.x.getLsbD 0 = false ∧ e.x.getLsbD logI = false := by
    rw [mask]
    constructor
    · intro zero
      have bit (i : ℕ) : (e.x &&& ((1#64 <<< logI) ||| 1#64)).getLsbD i = false := by
        rw [zero]
        exact BitVec.getLsbD_zero
      have low := bit 0
      have high := bit logI
      simp only [BitVec.getLsbD_and, BitVec.getLsbD_or, BitVec.getLsbD_shiftLeft, BitVec.getLsbD_one,
        Nat.sub_self] at low high
      constructor
      · simpa using low
      · simpa [show logI < 64 by omega] using high
    · rintro ⟨low, high⟩
      apply BitVec.eq_of_getLsbD_eq
      intro i inside
      rw [BitVec.getLsbD_zero, BitVec.getLsbD_and]
      by_cases first : i = 0
      · rw [first, low, Bool.false_and]
      · by_cases second : i = logI
        · rw [second, high, Bool.false_and]
        · have none : ((1#64 <<< logI) ||| 1#64).getLsbD i = false := by
            simp only [BitVec.getLsbD_or, BitVec.getLsbD_shiftLeft, BitVec.getLsbD_one]
            simp
            omega
          rw [none, Bool.and_false]
  have odd (i : ℕ) : e.x.getLsbD i = false ↔ ¬ e.x.toNat / 2 ^ i % 2 ≠ 0 := by
    rw [BitVec.getLsbD, Nat.testBit_eq_decide_div_mod_eq, decide_eq_false_iff_not]
    omega
  unfold probablyCoprime
  rw [decide_eq_true_iff]
  change ¬ (e.x &&& F.evenMask = 0#64) ↔ _
  rw [bits, odd, odd, pow_zero, Nat.div_one]
  tauto

end PlatticeEnumerator

namespace FillConfig
variable {c : FillConfig} {p : PlatticeInfo}

theorem Reduced.lt_nextAt (reduced : c.Reduced p) (x : ℕ) : x < p.nextAt c.logI x :=
  PlatticeInfo.lt_nextAt c.logI_lt reduced.post x

theorem Reduced.i1_pos (reduced : c.Reduced p) : 0 < p.i1.toNat := by
  obtain ⟨mi0, -, -, wide⟩ := PlatticeInfo.checkPostConditions_exact c.logI_lt reduced.post
  omega

def updateWalk (reduced : c.Reduced p) : ForwardWalk where
  next := p.nextAt c.logI
  emit x := if x % 2 ≠ 0 ∨ x / 2 ^ c.logI % 2 ≠ 0 then [x] else []
  lt_next := reduced.lt_nextAt

def block (c : FillConfig) : ℕ := 2 ^ min (c.logB 1) c.logI

def skipped (c : FillConfig) (p : PlatticeInfo) (x : ℕ) : ℕ := (c.block - 1 - x % c.block) / p.i1.toNat

def rowWalk (reduced : c.Reduced p) : ForwardWalk where
  next x := p.nextAt c.logI (x + c.skipped p x * p.i1.toNat)
  emit x := (List.range (c.skipped p x + 1)).map fun t => x + t * p.i1.toNat
  lt_next _ := (Nat.le_add_right _ _).trans_lt (reduced.lt_nextAt _)

theorem updateWalk_periodic (reduced : c.Reduced p) : (updateWalk reduced).Periodic (2 * 2 ^ c.logI) := by
  refine ⟨fun x => PlatticeInfo.nextAt_add 2, fun x => ?_⟩
  have column : (x + 2 * 2 ^ c.logI) % 2 = x % 2 := Nat.add_mul_mod_self_left ..
  have row : (x + 2 * 2 ^ c.logI) / 2 ^ c.logI % 2 = x / 2 ^ c.logI % 2 := by
    rw [Nat.add_mul_div_right _ _ (Nat.two_pow_pos _), Nat.add_mod_right]
  change (if _ then _ else _) = List.map _ (if _ then _ else _)
  rw [column, row]
  split_ifs
  · rfl
  · rfl

theorem eq_of_mem_updateWalk {reduced : c.Reduced p} {x y : ℕ} (member : y ∈ (updateWalk reduced).emit x) : y = x := by
  change y ∈ (if _ then _ else _) at member
  split_ifs at member
  · exact List.mem_singleton.mp member
  · cases member

theorem updateWalk_ordered (reduced : c.Reduced p) : (updateWalk reduced).Ordered := by
  refine ⟨fun x y member => (eq_of_mem_updateWalk member).ge,
    fun x y member => eq_of_mem_updateWalk member ▸ reduced.lt_nextAt x, fun x => ?_⟩
  change (if _ then _ else _ : List ℕ).Pairwise _
  split_ifs
  · exact List.pairwise_singleton _ _
  · exact .nil

theorem updateWalk_closed (reduced : c.Reduced p) (bound : ℕ) :
    ∀ x < bound, ∀ y ∈ (updateWalk reduced).emit x, y < bound :=
  fun _ below _ member => eq_of_mem_updateWalk member ▸ below

theorem block_pos (c : FillConfig) : 0 < c.block := Nat.two_pow_pos _

theorem block_dvd_row (c : FillConfig) : c.block ∣ 2 ^ c.logI := Nat.pow_dvd_pow 2 (min_le_right _ _)

theorem skipped_le (p : PlatticeInfo) (x : ℕ) : x % c.block + c.skipped p x * p.i1.toNat < c.block := by
  have positive := c.block_pos
  have less := Nat.mod_lt x positive
  have most : c.skipped p x * p.i1.toNat ≤ c.block - 1 - x % c.block := Nat.div_mul_le_self ..
  omega

theorem rowWalk_periodic (reduced : c.Reduced p) : (rowWalk reduced).Periodic (2 ^ c.logI) := by
  have same (x : ℕ) : c.skipped p (x + 2 ^ c.logI) = c.skipped p x := by
    obtain ⟨k, split⟩ := c.block_dvd_row
    unfold skipped
    rw [split, Nat.add_mul_mod_self_left]
  refine ⟨fun x => ?_, fun x => ?_⟩
  · have next (y : ℕ) : p.nextAt c.logI (y + 1 * 2 ^ c.logI) = p.nextAt c.logI y + 1 * 2 ^ c.logI :=
      PlatticeInfo.nextAt_add 1
    rw [Nat.one_mul] at next
    change p.nextAt c.logI _ = p.nextAt c.logI _ + _
    rw [same, Nat.add_right_comm, next]
  · change List.map _ (List.range (c.skipped p _ + 1)) = List.map _ (List.map _ _)
    rw [same, List.map_map]
    exact List.map_congr_left fun t _ => Nat.add_right_comm ..

theorem rowWalk_ordered (reduced : c.Reduced p) : (rowWalk reduced).Ordered := by
  have positive := reduced.i1_pos
  refine ⟨fun x y member => ?_, fun x y member => ?_, fun x => ?_⟩
  · obtain ⟨t, -, rfl⟩ := List.mem_map.mp member
    exact Nat.le_add_right _ _
  · obtain ⟨t, inside, rfl⟩ := List.mem_map.mp member
    have le : t * p.i1.toNat ≤ c.skipped p x * p.i1.toNat :=
      Nat.mul_le_mul_right _ (Nat.lt_succ_iff.mp (List.mem_range.mp inside))
    exact (Nat.add_le_add_left le x).trans_lt (reduced.lt_nextAt _)
  · change ((List.range _).map _).Pairwise _
    rw [List.pairwise_map]
    exact List.pairwise_lt_range.imp fun {t t'} less => Nat.add_lt_add_left
      (Nat.mul_lt_mul_of_pos_right less positive) x

theorem rowWalk_closed (reduced : c.Reduced p) {bound : ℕ} (divides : c.block ∣ bound) :
    ∀ x < bound, ∀ y ∈ (rowWalk reduced).emit x, y < bound := by
  obtain ⟨k, rfl⟩ := divides
  intro x below y member
  obtain ⟨t, inside, rfl⟩ := List.mem_map.mp member
  have le : t * p.i1.toNat ≤ c.skipped p x * p.i1.toNat :=
    Nat.mul_le_mul_right _ (Nat.lt_succ_iff.mp (List.mem_range.mp inside))
  have last := c.skipped_le p x
  have split := Nat.div_add_mod x c.block
  have quotient : x / c.block + 1 ≤ k := Nat.div_lt_of_lt_mul below
  have high := Nat.mul_le_mul_left c.block quotient
  rw [Nat.mul_add] at high
  omega

section
variable {level : ℕ} {e : PlatticeEnumerator} {x : ℕ}

theorem brIndex_eq (low : 0 < level) (high : level ≤ 3) (x : BitVec 64) :
    c.brIndex level x = x.toNat % 2 ^ c.logB level := by
  have positive := Nat.two_pow_pos (c.logB level)
  have small := c.small
  have wide := c.wide
  have bits : 2 ^ c.logB level ≤ 2 ^ if level = 1 then 16 else 32 := by
    apply Nat.pow_le_pow_right (by norm_num)
    unfold logB
    split_ifs with first
    · rw [first, Nat.sub_self, Nat.zero_mul]
      exact small
    · have steps := Nat.mul_le_mul_right c.logBucketRegionStep (show level - 1 ≤ 2 by omega)
      omega
  exact Nat.mod_eq_of_lt ((Nat.mod_lt _ positive).trans_le bits)

theorem located_pushUpdate (low : 0 < level) (high : level ≤ 3) (hint : ℕ) (e : PlatticeEnumerator) :
    (c.pushUpdate level hint e).located (c.logB level) = [⟨e.x.toNat, ⟨hint⟩⟩] := by
  change [(⟨_ / _ * _ + c.brIndex level e.x, ⟨hint⟩⟩ : BucketUpdate ShortHint)] = _
  rw [brIndex_eq low high, Nat.div_add_mod']

theorem toNat_maskB1I (c : FillConfig) : (c.maskB1I.setWidth 64).toNat = c.block - 1 := by
  have width := c.logI_lt
  have positive := c.block_pos
  have small : c.block ≤ 2 ^ 31 := Nat.pow_le_pow_right (by norm_num) (by omega)
  have one : (1#32 <<< min (c.logB 1) c.logI).toNat = c.block := toNat_sieveWidth (by omega)
  have mask : c.maskB1I.toNat = c.block - 1 := by
    rw [maskB1I, BitVec.toNat_sub_of_le (by rw [BitVec.le_def, one]; exact positive), one]
    rfl
  rw [BitVec.toNat_setWidth, mask]
  omega

theorem toNat_rest (e : PlatticeEnumerator) :
    (c.maskB1I.setWidth 64 - (e.x &&& c.maskB1I.setWidth 64)).toNat = c.block - 1 - e.x.toNat % c.block := by
  have less := Nat.mod_lt e.x.toNat c.block_pos
  have column : (e.x &&& c.maskB1I.setWidth 64).toNat = e.x.toNat % c.block := by
    rw [BitVec.toNat_and, toNat_maskB1I, block, Nat.and_two_pow_sub_one_eq_mod]
  rw [BitVec.toNat_sub_of_le (by rw [BitVec.le_def, column, toNat_maskB1I]; omega), column, toNat_maskB1I]

theorem toNat_or_mask (e : PlatticeEnumerator) :
    (e.x ||| c.maskB1I.setWidth 64).toNat = e.x.toNat + (c.block - 1 - e.x.toNat % c.block) := by
  have less := Nat.mod_lt e.x.toNat c.block_pos
  have split := Nat.div_add_mod e.x.toNat c.block
  have last : e.x.toNat + (c.block - 1 - e.x.toNat % c.block) = c.block * (e.x.toNat / c.block) + (c.block - 1) := by
    omega
  rw [BitVec.toNat_or, toNat_maskB1I, last]
  unfold block at less ⊢
  apply Nat.eq_of_testBit_eq
  intro i
  rw [Nat.testBit_or, Nat.testBit_two_pow_mul_add _ (Nat.sub_lt (Nat.two_pow_pos _) Nat.one_pos),
    Nat.testBit_two_pow_sub_one]
  split_ifs with inside
  · rw [decide_eq_true inside, Bool.or_true]
  · rw [decide_eq_false inside, Bool.or_false, Nat.testBit_div_two_pow]
    congr 1
    omega

/-! ## The kinds of lattices -/

theorem isVerticalLine_basis : p.isVerticalLine c.logI = true ↔ 2 ^ c.logI ≤ p.i1.toNat := by
  unfold PlatticeInfo.isVerticalLine
  rw [decide_eq_true_iff]
  exact PlatticeInfo.shift_ne_zero p c.logI

theorem getIncStep_lt (narrow : p.i1.toNat < 2 ^ c.logI) : (p.getIncStep c.logI).toNat < 2 ^ 64 - 1 := by
  have bound := Nat.mul_le_mul p.j1.isLt.le (PlatticeInfo.two_pow_le_sign c.logI_lt)
  have small := PlatticeInfo.two_pow_le_sign c.logI_lt
  rw [PlatticeInfo.toNat_getIncStep c.logI_lt narrow]
  omega

theorem isVerticalLine_at (at' : p.At c.logI e x) : e.isVerticalLine = true ↔ 2 ^ c.logI ≤ p.i1.toNat := by
  obtain ⟨rfl, -⟩ := at'
  change decide (p.getIncStep c.logI = .allOnes 64) = true ↔ _
  rw [decide_eq_true_iff]
  constructor
  · intro ones
    by_contra narrow
    have less := getIncStep_lt (not_le.mp narrow)
    rw [ones, BitVec.toNat_allOnes] at less
    omega
  · intro vertical
    exact if_pos ((PlatticeInfo.shift_ne_zero p c.logI).mpr vertical)

theorem isProjectiveLike_at (at' : p.At c.logI e x) :
    e.isProjectiveLike c.logI = true ↔ p.i1.toNat < 2 ^ c.logI ∧ p.j1.toNat = 0 := by
  obtain ⟨rfl, -⟩ := at'
  have positive := Nat.two_pow_pos c.logI
  have value : p.getIncStep c.logI >>> c.logI = 0 ↔ (p.getIncStep c.logI).toNat < 2 ^ c.logI := by
    rw [BitVec.toNat_eq, BitVec.toNat_ushiftRight, Nat.shiftRight_eq_div_pow]
    change _ / _ = 0 ↔ _
    rw [Nat.div_eq_zero_iff_lt positive]
  change decide (p.getIncStep c.logI >>> c.logI = 0) = true ↔ _
  rw [decide_eq_true_iff, value]
  by_cases narrow : p.i1.toNat < 2 ^ c.logI
  · rw [PlatticeInfo.toNat_getIncStep c.logI_lt narrow]
    constructor
    · intro less
      refine ⟨narrow, ?_⟩
      by_contra rows
      have := Nat.mul_le_mul_right (2 ^ c.logI) (Nat.one_le_iff_ne_zero.mpr rows)
      omega
    · rintro ⟨-, zero⟩
      rwa [zero, Nat.zero_mul, Nat.zero_add]
  · have ones : p.getIncStep c.logI = .allOnes 64 :=
      if_pos ((PlatticeInfo.shift_ne_zero p c.logI).mpr (not_lt.mp narrow))
    have bound := PlatticeInfo.two_pow_le_sign c.logI_lt
    rw [ones, BitVec.toNat_allOnes]
    omega

theorem incStep_at (at' : p.At c.logI e x) (narrow : p.i1.toNat < 2 ^ c.logI) (flat : p.j1.toNat = 0) :
    e.incStep.toNat = p.i1.toNat := by
  obtain ⟨rfl, -⟩ := at'
  change (p.getIncStep c.logI).toNat = _
  rw [PlatticeInfo.toNat_getIncStep c.logI_lt narrow, flat, Nat.zero_mul, Nat.zero_add]

theorem advance_at (reduced : c.Reduced p) (at' : p.At c.logI e x) (narrow : p.i1.toNat < 2 ^ c.logI)
    (flat : p.j1.toNat = 0) (small : x < 2 ^ 62) :
    (e.advanceToEndOfRowOrSmallestRegion c.maskB1I).1 = c.skipped p x ∧
      p.At c.logI (e.advanceToEndOfRowOrSmallestRegion c.maskB1I).2 (x + c.skipped p x * p.i1.toNat) := by
  have inc := incStep_at at' narrow flat
  have position := at'.toNat
  have rest := toNat_rest (c := c) e
  have block : c.block ≤ 2 ^ 31 := Nat.pow_le_pow_right (by norm_num) (by have := c.logI_lt; omega)
  have most := c.skipped_le p x
  have bound : x + c.skipped p x * p.i1.toNat < 2 ^ 64 - 1 := by omega
  rw [position] at rest
  unfold PlatticeEnumerator.advanceToEndOfRowOrSmallestRegion
  dsimp only
  split_ifs with several
  · have count : ((c.maskB1I.setWidth 64 - (e.x &&& c.maskB1I.setWidth 64)) / e.incStep).toNat = c.skipped p x := by
      rw [BitVec.toNat_udiv, rest, inc]
      rfl
    refine ⟨count, at'.set ?_ bound⟩
    rw [BitVec.toNat_add, BitVec.toNat_mul, count, inc, position]
    omega
  · have one : p.i1.toNat = 1 := by
      rw [BitVec.lt_def, inc] at several
      have := reduced.i1_pos
      change ¬ 1 < _ at several
      omega
    have count : c.block - 1 - x % c.block = c.skipped p x := by
      unfold skipped
      rw [one, Nat.div_one]
    refine ⟨rest.trans count, at'.set ?_ bound⟩
    rw [toNat_or_mask, position, count, one, Nat.mul_one]

theorem located_pushRowUpdate (reduced : c.Reduced p) (at' : p.At c.logI e x) (narrow : p.i1.toNat < 2 ^ c.logI)
    (flat : p.j1.toNat = 0) (small : x < 2 ^ 62) (low : 0 < level) (high : level ≤ 3) (sliceIndex hint : ℕ) :
    (c.pushRowUpdate level sliceIndex hint e).located (c.logB level) =
      ((rowWalk reduced).emit x).map fun y => ⟨y, ⟨hint⟩⟩ := by
  change (List.range (_ + 1)).map (fun t => (⟨_ / _ * _ + c.brIndex level e.x + t * e.incStep.toNat, ⟨hint⟩⟩ :
    BucketUpdate ShortHint)) = ((List.range (_ + 1)).map _).map _
  rw [(advance_at reduced at' narrow flat small).1, brIndex_eq low high, Nat.div_add_mod', at'.toNat,
    incStep_at at' narrow flat, List.map_map]
  rfl

structure Stops (c : FillConfig) (F : Fence) (bound : ℕ) : Prop where
  maskI : F.maskI = maskI c.logI
  evenMask : F.evenMask = (1#64 <<< c.logI) ||| 1#64
  last : F.last.toNat = bound
  le : bound ≤ 2 ^ 62

theorem fence_stops {J : ℕ} (small : J < 2 ^ 31) : c.Stops (Fence.new c.logI J) (J * 2 ^ c.logI) := by
  refine ⟨rfl, rfl, toNat_fence c.logI_lt small, ?_⟩
  calc J * 2 ^ c.logI ≤ 2 ^ 31 * 2 ^ 31 := Nat.mul_le_mul small.le (PlatticeInfo.two_pow_le_sign c.logI_lt)
    _ = 2 ^ 62 := by norm_num

theorem logB_area (c : FillConfig) : c.logB (c.level + 1) ≤ 32 := by
  have wide := c.wide
  have level := c.level_lt
  have steps := Nat.mul_le_mul_right c.logBucketRegionStep (show c.level + 1 - 1 ≤ 2 by omega)
  unfold logB
  omega

theorem areaFence_stops {J : ℕ} (small : J < 2 ^ 31) : c.Stops (c.areaFence J) (min (J * 2 ^ c.logI) c.area) := by
  have fits : c.area ≤ 2 ^ 32 := Nat.pow_le_pow_right (by norm_num) c.logB_area
  exact ⟨rfl, rfl, toNat_capped c.logI_lt small (by omega), (min_le_left _ _).trans (fence_stops (c := c) small).le⟩

variable {F : Fence} {bound : ℕ}

theorem done_iff (stops : c.Stops F bound) (at' : p.At c.logI e x) : e.done F = true ↔ bound ≤ x := by
  unfold PlatticeEnumerator.done
  rw [decide_eq_true_iff, BitVec.le_def, stops.last, at'.toNat]

theorem fillUpdates_at (reduced : c.Reduced p) (stops : c.Stops F bound) (low : 0 < level) (high : level ≤ 3) (hint : ℕ)
    (at' : p.At c.logI e x) : ∃ l last, c.fillUpdates F level hint e = some (l, last) ∧
      l.flatMap (Push.located (c.logB level)) = ((updateWalk reduced).run bound x).1.map (⟨·, ⟨hint⟩⟩) ∧
      p.At c.logI last ((updateWalk reduced).run bound x).2 := by
  apply emitUntil_walk (p.At c.logI) (fun s x at' => done_iff stops at')
  · intro s x at' below
    rw [stops.maskI]
    have le := stops.le
    exact at'.next c.logI_lt reduced.post reduced.det (by omega)
  · intro s x at' below
    have coprime := probablyCoprime_iff (e := s) c.logI_lt stops.evenMask
    rw [at'.toNat] at coprime
    change List.flatMap _ (if _ then _ else _) = List.map _ (if _ then _ else _)
    by_cases odd : s.probablyCoprime F = true
    · rw [if_pos odd, if_pos (coprime.mp odd), List.flatMap_singleton, located_pushUpdate low high, at'.toNat]
      rfl
    · rw [if_neg odd, if_neg (coprime.not.mp odd)]
      rfl
  · exact at'
  · rw [stops.last]
    exact Nat.sub_le ..

theorem fillRows_at (reduced : c.Reduced p) (stops : c.Stops F bound) (narrow : p.i1.toNat < 2 ^ c.logI)
    (flat : p.j1.toNat = 0) (low : 0 < level) (high : level ≤ 3) (sliceIndex hint : ℕ) (at' : p.At c.logI e x) :
    ∃ l last, c.fillRows F level sliceIndex hint e = some (l, last) ∧
      l.flatMap (Push.located (c.logB level)) = ((rowWalk reduced).run bound x).1.map (⟨·, ⟨hint⟩⟩) ∧
      p.At c.logI last ((rowWalk reduced).run bound x).2 := by
  have block : c.block ≤ 2 ^ 31 := Nat.pow_le_pow_right (by norm_num) (by have := c.logI_lt; omega)
  apply emitUntil_walk (p.At c.logI) (fun s x at' => done_iff stops at')
  · intro s x at' below
    have small := below.trans_le stops.le
    have most := c.skipped_le p x
    rw [stops.maskI]
    exact (advance_at reduced at' narrow flat small).2.next c.logI_lt reduced.post reduced.det (by omega)
  · intro s x at' below
    rw [List.flatMap_singleton]
    exact located_pushRowUpdate reduced at' narrow flat (below.trans_le stops.le) low high sliceIndex hint
  · exact at'
  · rw [stops.last]
    exact Nat.sub_le ..

end

end FillConfig

end CadoNfs.Sieve
