import CadoNfs.Lib.ExceptRun
import CadoNfs.Linalg.MfBal

/-!
# What `mf_bal` computes

The sizes of the permutations are those of the balancing, the residues come round to one that is invertible, and each
permutation deals all the rows or columns into equal slices.
-/

namespace CadoNfs.Linalg.MfBal
open Utils

def chunk (s x : ℕ) : ℕ := ((x + s - 1) / s + 7) / 8 * 8

theorem le_chunk {s : ℕ} (positive : 0 < s) (x : ℕ) : x ≤ s * chunk s x := by
  have split := Nat.div_add_mod (x + s - 1) s
  have rest := Nat.mod_lt (x + s - 1) positive
  have up : (x + s - 1) / s ≤ chunk s x := by
    unfold chunk
    omega
  have scaled := Nat.mul_le_mul_left s up
  omega

theorem iceildiv_toNat {x : Word} {s : ℕ} (positive : 0 < s) (small : s < 2 ^ 32) :
    (iceildiv x (BitVec.ofNat 32 s)).toNat = (x.toNat + s - 1) / s := by
  have divisor : (BitVec.ofNat 32 s).toNat = s := Nat.mod_eq_of_lt small
  unfold iceildiv
  by_cases zero : x = 0
  · rw [zero]
    simp only [ne_eq, not_true_eq_false, if_false]
    rw [sub_zero, add_zero, BitVec.toNat_udiv]
    change 0 / _ = (0 + s - 1) / s
    rw [Nat.zero_div, Nat.div_eq_of_lt (by omega)]
  · have some : x.toNat ≠ 0 := fun none => zero (BitVec.eq_of_toNat_eq none)
    have lt := x.isLt
    have pred : (x - 1).toNat = x.toNat - 1 := by
      rw [BitVec.toNat_sub_of_le]
      · rfl
      · rw [BitVec.le_def]
        change 1 ≤ _
        omega
    have less : (x.toNat - 1) / s ≤ x.toNat - 1 := Nat.div_le_self ..
    rw [if_pos zero, BitVec.toNat_add, BitVec.toNat_udiv, divisor, pred, Nat.mod_eq_of_lt]
    · rw [show x.toNat + s - 1 = x.toNat - 1 + s by omega, Nat.add_div_right _ positive]
      rfl
    · change (x.toNat - 1) / s + 1 < 2 ^ 32
      omega

theorem alignFrom_toNat {fuel : ℕ} {b : Word} (enough : (8 - b.toNat % 8) % 8 ≤ fuel)
    (fits : (b.toNat + 7) / 8 * 8 < 2 ^ 32) : (alignFrom fuel b).toNat = (b.toNat + 7) / 8 * 8 := by
  have rest (b : Word) : (b % minimumItemsInBwcChunks).toNat = b.toNat % 8 := BitVec.toNat_umod
  induction fuel generalizing b with
  | zero =>
    rw [alignFrom]
    omega
  | succ fuel ih =>
    rw [alignFrom]
    by_cases aligned : b % minimumItemsInBwcChunks = 0
    · have zero := rest b
      rw [aligned] at zero
      change 0 = _ at zero
      rw [if_neg (not_not.mpr aligned)]
      omega
    · have some : b.toNat % 8 ≠ 0 := fun none => aligned (BitVec.eq_of_toNat_eq ((rest b).trans none))
      have next : (b + 1).toNat = b.toNat + 1 := by
        rw [BitVec.toNat_add]
        exact Nat.mod_eq_of_lt (by change b.toNat + 1 < 2 ^ 32; omega)
      rw [if_pos aligned, ih (by rw [next]; omega) (by rw [next]; omega), next]
      omega

theorem alignChunk_toNat {b : Word} (fits : (b.toNat + 7) / 8 * 8 < 2 ^ 32) :
    (alignChunk b).toNat = (b.toNat + 7) / 8 * 8 :=
  alignFrom_toNat (by omega) fits

theorem wordMax_toNat (h i : Word) : (wordMax h i).toNat = max h.toNat i.toNat := by
  unfold wordMax
  split_ifs with greater
  · exact (max_eq_left (BitVec.lt_def.mp greater).le).symm
  · exact (max_eq_right (not_lt.mp fun less => greater (BitVec.lt_def.mpr less))).symm

/-- A grid whose product fits an int, for a matrix whose padded sizes fit 32 bits. -/
structure MfBalArgs.Fits (mba : MfBalArgs) (rows cols : ℕ) : Prop where
  nh : 0 < mba.nh
  nv : 0 < mba.nv
  grid : mba.nh * mba.nv < 2 ^ 31
  rows : mba.nh * mba.nv * chunk (mba.nh * mba.nv) rows < 2 ^ 32
  cols : mba.nh * mba.nv * chunk (mba.nh * mba.nv) cols < 2 ^ 32

namespace MfBalArgs
variable {mba : MfBalArgs} {nrows ncols matsize : Word}

theorem sideBlock_toNat (positive : 0 < mba.nh * mba.nv) (grid : mba.nh * mba.nv < 2 ^ 31)
    (fits : mba.nh * mba.nv * chunk (mba.nh * mba.nv) matsize.toNat < 2 ^ 32) :
    (mba.sideBlock matsize).toNat = chunk (mba.nh * mba.nv) matsize.toNat := by
  have ceil := iceildiv_toNat (x := matsize) positive (by omega)
  have one := Nat.le_mul_of_pos_left (chunk (mba.nh * mba.nv) matsize.toNat) positive
  unfold sideBlock
  rw [alignChunk_toNat (by rw [ceil]; exact one.trans_lt fits), ceil]
  rfl

theorem padded_eq : mba.padded nrows ncols matsize =
    BitVec.ofNat 32 (mba.nh * mba.nv) * mba.block nrows ncols matsize := by
  unfold padded padding
  rw [add_sub_cancel, mul_comm mba.nv]

theorem blocks_toNat (grid : mba.nh * mba.nv < 2 ^ 31) :
    (BitVec.ofNat 32 (mba.nh * mba.nv)).toNat = mba.nh * mba.nv := Nat.mod_eq_of_lt (by omega)

theorem Fits.positive (fits : mba.Fits nrows.toNat ncols.toNat) : 0 < mba.nh * mba.nv := Nat.mul_pos fits.nh fits.nv

theorem Fits.rowBlock (fits : mba.Fits nrows.toNat ncols.toNat) :
    (mba.sideBlock nrows).toNat = chunk (mba.nh * mba.nv) nrows.toNat :=
  sideBlock_toNat fits.positive fits.grid fits.rows

theorem Fits.colBlock (fits : mba.Fits nrows.toNat ncols.toNat) :
    (mba.sideBlock ncols).toNat = chunk (mba.nh * mba.nv) ncols.toNat :=
  sideBlock_toNat fits.positive fits.grid fits.cols

theorem Fits.padded_toNat (fits : mba.Fits nrows.toNat ncols.toNat) (side : matsize = nrows ∨ matsize = ncols) :
    (mba.padded nrows ncols matsize).toNat = mba.nh * mba.nv * (mba.block nrows ncols matsize).toNat ∧
      matsize.toNat ≤ (mba.padded nrows ncols matsize).toNat := by
  have bound : mba.nh * mba.nv * (mba.block nrows ncols matsize).toNat < 2 ^ 32 ∧
      chunk (mba.nh * mba.nv) matsize.toNat ≤ (mba.block nrows ncols matsize).toNat := by
    unfold block
    split_ifs
    · rcases side with rfl | rfl
      · rw [fits.rowBlock]
        exact ⟨fits.rows, le_rfl⟩
      · rw [fits.colBlock]
        exact ⟨fits.cols, le_rfl⟩
    · rw [wordMax_toNat, fits.rowBlock, fits.colBlock]
      constructor
      · rcases max_choice (chunk (mba.nh * mba.nv) nrows.toNat) (chunk (mba.nh * mba.nv) ncols.toNat) with most | most
        · rw [most]
          exact fits.rows
        · rw [most]
          exact fits.cols
      · rcases side with rfl | rfl
        · exact le_max_left ..
        · exact le_max_right ..
  have size : (mba.padded nrows ncols matsize).toNat = mba.nh * mba.nv * (mba.block nrows ncols matsize).toNat := by
    rw [padded_eq, BitVec.toNat_mul, blocks_toNat fits.grid, Nat.mod_eq_of_lt bound.1]
  refine ⟨size, ?_⟩
  rw [size]
  exact (le_chunk fits.positive _).trans (Nat.mul_le_mul_left _ bound.2)

theorem wordMax_mul {s a b : Word} (left : s.toNat * a.toNat < 2 ^ 32) (right : s.toNat * b.toNat < 2 ^ 32) :
    wordMax (s * a) (s * b) = s * wordMax a b := by
  apply BitVec.eq_of_toNat_eq
  have most : s.toNat * max a.toNat b.toNat < 2 ^ 32 := by
    rcases max_choice a.toNat b.toNat with same | same
    · rwa [same]
    · rwa [same]
  rw [wordMax_toNat, BitVec.toNat_mul, BitVec.toNat_mul, BitVec.toNat_mul, wordMax_toNat, Nat.mod_eq_of_lt left,
    Nat.mod_eq_of_lt right, Nat.mod_eq_of_lt most, Nat.mul_max_mul_left]

theorem Fits.setRowColCount (fits : mba.Fits nrows.toNat ncols.toNat) (bal : Balancing)
    (nh : bal.nh = BitVec.ofNat 32 mba.nh) (nv : bal.nv = BitVec.ofNat 32 mba.nv) (rows : bal.nrows = nrows)
    (cols : bal.ncols = ncols) (replicate : bal.has flagReplicate = !mba.rectangular) :
    (balancingSetRowColCount bal).trows = mba.padded nrows ncols nrows ∧
      (balancingSetRowColCount bal).tcols = mba.padded nrows ncols ncols := by
  have blocks : bal.nh * bal.nv = BitVec.ofNat 32 (mba.nh * mba.nv) := by rw [nh, nv, BitVec.ofNat_mul]
  unfold balancingSetRowColCount
  dsimp only
  rw [padded_eq, padded_eq, blocks, rows, cols, replicate]
  change Balancing.trows (if _ then { bal with
      trows := wordMax (_ * mba.sideBlock nrows) (_ * mba.sideBlock ncols)
      tcols := wordMax (_ * mba.sideBlock nrows) (_ * mba.sideBlock ncols) }
    else { bal with trows := _ * mba.sideBlock nrows, tcols := _ * mba.sideBlock ncols }) = _ ∧
    Balancing.tcols (if _ then { bal with
      trows := wordMax (_ * mba.sideBlock nrows) (_ * mba.sideBlock ncols)
      tcols := wordMax (_ * mba.sideBlock nrows) (_ * mba.sideBlock ncols) }
    else { bal with trows := _ * mba.sideBlock nrows, tcols := _ * mba.sideBlock ncols }) = _
  have whole : wordMax (BitVec.ofNat 32 (mba.nh * mba.nv) * mba.sideBlock nrows)
      (BitVec.ofNat 32 (mba.nh * mba.nv) * mba.sideBlock ncols) =
      BitVec.ofNat 32 (mba.nh * mba.nv) * wordMax (mba.sideBlock nrows) (mba.sideBlock ncols) := by
    apply wordMax_mul
    · rw [blocks_toNat fits.grid, fits.rowBlock]
      exact fits.rows
    · rw [blocks_toNat fits.grid, fits.colBlock]
      exact fits.cols
  unfold block
  cases mba.rectangular with
  | true => exact ⟨rfl, rfl⟩
  | false => exact ⟨whole, whole⟩

theorem Fits.gridsize_dvd (fits : mba.Fits nrows.toNat ncols.toNat) (side : matsize = nrows ∨ matsize = ncols)
    (grid : Side) : (mba.padded nrows ncols matsize).toNat % mba.gridsize grid = 0 := by
  rw [(fits.padded_toNat side).1]
  apply Nat.mod_eq_zero_of_dvd
  cases grid with
  | row => exact (Dvd.intro _ rfl : mba.nh ∣ mba.nh * mba.nv).mul_right _
  | column => exact (Dvd.intro_left _ rfl : mba.nv ∣ mba.nh * mba.nv).mul_right _

end MfBalArgs

/-! ## The decorrelating shuffle -/

def turnsToOne (m a : ℕ) : ℕ := if a ≤ 1 then 1 - a else m + 1 - a

theorem invertibleFrom_spec {m fuel a : ℕ} (big : 1 < m) (reduced : a < m) (enough : turnsToOne m a < fuel) :
    ∃ a' ai, invertibleFrom m fuel a = some (a', ai) ∧ a' < m ∧ ai < m ∧ a' * ai % m = 1 := by
  induction fuel generalizing a with
  | zero => cases enough
  | succ fuel ih =>
    obtain ⟨found, none⟩ := @ModUl.inv_spec a m big
    rw [invertibleFrom]
    cases inverse : ModUl.inv a m with
    | some ai =>
      obtain ⟨lt, one⟩ := found ai inverse
      exact ⟨a, ai, rfl, reduced, lt, one⟩
    | none =>
      have other : a ≠ 1 := by
        rintro rfl
        exact none inverse (Nat.gcd_one_left m)
      have next : ModUl.addUl a 1 m = (a + 1) % m := by
        unfold ModUl.addUl
        rw [Nat.mod_eq_of_lt big, ModUl.addmod_eq reduced big.le]
      apply ih
      · rw [next]
        exact Nat.mod_lt _ (by omega)
      · rw [next]
        unfold turnsToOne at *
        by_cases last : a + 1 = m
        · rw [last, Nat.mod_self]
          rw [if_neg (by omega)] at enough
          rw [if_pos (by omega)]
          omega
        · rw [Nat.mod_eq_of_lt (by omega)]
          split_ifs at enough ⊢ <;> omega

theorem decorrelate_spec {fuel : ℕ} {mba : MfBalArgs} {nrows ncols : Word}
    (search : mba.skipDecorrelatingPermutation = true ∨
      2 ≤ min nrows.toNat ncols.toNat ∧ min nrows.toNat ncols.toNat ≤ fuel) :
    ∃ shuf, decorrelate fuel mba nrows ncols = .ok shuf ∧
      (shuf.1.1.toNat * shuf.2.1.toNat : ZMod (min nrows.toNat ncols.toNat)) = 1 ∧
      (shuf.2.1.toNat * shuf.1.2.toNat + shuf.2.2.toNat : ZMod (min nrows.toNat ncols.toNat)) = 0 := by
  unfold decorrelate
  by_cases skip : mba.skipDecorrelatingPermutation = true
  · rw [if_pos skip]
    refine ⟨_, rfl, ?_, ?_⟩
    · simp
    · simp
  obtain ⟨big, enough⟩ := search.resolve_left skip
  rw [if_neg skip]
  dsimp only
  have small : min nrows.toNat ncols.toNat < 2 ^ 32 := (min_le_left _ _).trans_lt nrows.isLt
  generalize min nrows.toNat ncols.toNat = m at *
  have reduced : ModUl.setUl ncols.toNat.sqrt m < m := Nat.mod_lt _ (by omega)
  have turns : turnsToOne m (ModUl.setUl ncols.toNat.sqrt m) < fuel := by
    unfold turnsToOne
    split_ifs <;> omega
  obtain ⟨a, ai, found, left, right, one⟩ := invertibleFrom_spec (by omega) reduced turns
  rw [if_neg (by omega), found]
  have word {x : ℕ} (lt : x < m) : (BitVec.ofNat 32 x).toNat = x := Nat.mod_eq_of_lt (lt.trans small)
  have residue : ModUl.setUl 42 m < m := Nat.mod_lt _ (by omega)
  have product : ModUl.mul ai (ModUl.setUl 42 m) m < m := Nat.mod_lt _ (by omega)
  have negated : ModUl.neg (ModUl.mul ai (ModUl.setUl 42 m) m) m < m := by
    rw [ModUl.neg_eq product]
    exact Nat.mod_lt _ (by omega)
  refine ⟨_, rfl, ?_, ?_⟩
  · rw [word left, word right, ← Nat.cast_mul, ← Nat.cast_one, ZMod.natCast_eq_natCast_iff', one,
      Nat.mod_eq_of_lt (by omega)]
  · rw [word right, word residue, word negated, ModUl.neg_eq product, ZMod.natCast_mod, Nat.cast_sub product.le,
      ZMod.natCast_self, zero_sub]
    unfold ModUl.mul
    rw [ZMod.natCast_mod, Nat.cast_mul, add_neg_cancel]

structure Permutes (perm : List Word) (size ns : ℕ) : Prop where
  bijection : (perm.map BitVec.toNat).Perm (List.range size)
  slices : ∃ slices : List (List Word), slices.flatten = perm ∧ slices.length = ns ∧ ∀ r ∈ slices, r.length = size / ns

theorem Permutes.length {perm : List Word} {size ns : ℕ} (permutes : Permutes perm size ns) : perm.length = size := by
  have length := permutes.bijection.length_eq
  rwa [List.length_map, List.length_range] at length

theorem permuteSide_spec (lib : HeapLibrary) {entries : List (Word × Word)} {n : Word} {ns : ℕ}
    (numbers : entries.map Prod.snd = (List.range n.toNat).map (BitVec.ofNat 32))
    (even : n.toNat % ns = 0) : ∃ perm, permuteSide lib true entries ns = .ok perm ∧ Permutes perm n.toNat ns := by
  have length : entries.length = n.toNat := by
    have same := congrArg List.length numbers
    rwa [List.length_map, List.length_map, List.length_range] at same
  obtain ⟨slices, ran, count, each, perm⟩ := shuffleRtable_spec lib (by rwa [length])
  refine ⟨slices.flatten, ?_, ?_, slices, rfl, count, fun r member => by rw [each r member, length]⟩
  · unfold permuteSide
    rw [if_pos rfl, ran]
    rfl
  · have back : ((List.range n.toNat).map (BitVec.ofNat 32)).map BitVec.toNat = List.range n.toNat := by
      rw [List.map_map]
      apply (List.map_congr_left fun r member => ?_).trans (List.map_id _)
      have lt := List.mem_range.mp member
      exact Nat.mod_eq_of_lt (lt.trans n.isLt)
    rw [← back, ← numbers]
    exact perm.map _

theorem weighSide_spec {bal : BalancingHeader} (inverts : bal.Inverts) (weighs : Bool) {matsize n : Word}
    (side : bal.shuffled ≤ matsize.toNat) (room : matsize.toNat ≤ n.toNat) (file : List Word) (ncoeffs : BitVec 64) :
    weighSide bal weighs matsize n file ncoeffs = .error .inconsistent ∨
      ∃ weighed, weighSide bal weighs matsize n file ncoeffs = .ok weighed ∧
        (weighs → weighed.entries.map Prod.snd = (List.range n.toNat).map (BitVec.ofNat 32)) := by
  unfold weighSide
  rw [if_neg (fun less => absurd (BitVec.lt_def.mp less) (not_lt.mpr room))]
  dsimp only
  cases weighs with
  | false => exact .inr ⟨_, rfl, nofun⟩
  | true =>
    rw [if_pos rfl, if_pos fun r inside => ⟨shuffle_unshuffle inverts r, unshuffle_lt side inside⟩]
    unfold countCoeffs
    dsimp only
    split_ifs
    · exact .inl rfl
    · refine .inr ⟨_, rfl, fun _ => ?_⟩
      unfold rankedWeights
      rw [List.map_map]
      rfl
    · refine .inr ⟨_, rfl, fun _ => ?_⟩
      unfold rankedWeights
      rw [List.map_map]
      rfl

theorem Reorder.weighs_of_permutes {reorder : Reorder} {larger : Bool} {side : Side}
    (permutes : reorder.permutes larger side) : reorder.weighs side := by
  cases reorder with
  | auto => rfl
  | _ => exact permutes

theorem Reorder.both_of_permutes {reorder : Reorder} {larger : Bool} (rows : reorder.permutes larger .row)
    (columns : reorder.permutes larger .column) : reorder = .both := by
  cases reorder with
  | both => rfl
  | none => cases rows
  | rows => cases columns
  | columns => cases rows
  | auto =>
    cases larger with
    | true => cases rows
    | false => cases columns

/-- What is asked of a balancing: each permutation that is present deals into equal slices, the shuffle is undone,
and the file gives the balancing back. -/
structure Balanced (mba : MfBalArgs) (larger : Bool) (nrows ncols : Word) (bal : Balancing) : Prop where
  trows : bal.trows = mba.padded nrows ncols nrows
  tcols : bal.tcols = mba.padded nrows ncols ncols
  hasRowperm : bal.has flagRowperm = mba.reorder.permutes larger .row
  hasColperm : bal.has flagColperm = mba.reorder.permutes larger .column
  rowperm : bal.has flagRowperm → Permutes bal.rowperm bal.trows.toNat mba.nh
  colperm : bal.has flagColperm → Permutes bal.colperm bal.tcols.toNat mba.nv
  unshuffle : ∀ r, balancingPreUnshuffle bal.toBalancingHeader (balancingPreShuffle bal.toBalancingHeader r) = r
  shuffle : ∀ r, balancingPreShuffle bal.toBalancingHeader (balancingPreUnshuffle bal.toBalancingHeader r) = r
  beyond : ∀ r, min nrows.toNat ncols.toNat ≤ r → balancingPreUnshuffle bal.toBalancingHeader r = r
  readBack : ∃ bal', balancingRead (balancingWriteInner bal) = some bal' ∧ bal.Same bal'

theorem flagsOf_and (rows columns rectangular : Bool) :
    (flagsOf rows columns rectangular &&& flagRowperm ≠ 0 ↔ rows = true) ∧
    (flagsOf rows columns rectangular &&& flagColperm ≠ 0 ↔ columns = true) ∧
    (flagsOf rows columns rectangular &&& flagReplicate ≠ 0 ↔ rectangular = false) := by
  revert rows columns rectangular
  decide

theorem has_flagsOf (bal : BalancingHeader) {rows columns rectangular : Bool}
    (flags : bal.flags = flagsOf rows columns rectangular) :
    bal.has flagRowperm = rows ∧ bal.has flagColperm = columns ∧ bal.has flagReplicate = !rectangular := by
  obtain ⟨hasRows, hasColumns, replicate⟩ := flagsOf_and rows columns rectangular
  unfold BalancingHeader.has
  rw [flags]
  refine ⟨?_, ?_, ?_⟩
  · rw [Bool.eq_iff_iff, decide_eq_true_iff]
    exact hasRows
  · rw [Bool.eq_iff_iff, decide_eq_true_iff]
    exact hasColumns
  · rw [Bool.eq_iff_iff, decide_eq_true_iff, Bool.not_eq_true']
    exact replicate

theorem setRowColCount_perms (bal : Balancing) :
    (balancingSetRowColCount bal).rowperm = bal.rowperm ∧ (balancingSetRowColCount bal).colperm = bal.colperm := by
  unfold balancingSetRowColCount
  dsimp only
  split_ifs
  · exact ⟨rfl, rfl⟩
  · exact ⟨rfl, rfl⟩

theorem balancingFinalize_spec {bal : Balancing} (consistent : bal.consistent) :
    ∃ bal' checksum, balancingFinalize bal = some bal' ∧
      bal'.toBalancingHeader = { bal.toBalancingHeader with checksum := checksum } ∧
      bal'.trows = (balancingSetRowColCount bal).trows ∧ bal'.tcols = (balancingSetRowColCount bal).tcols ∧
      bal'.rowperm = bal.rowperm ∧ bal'.colperm = bal.colperm := by
  have header := setRowColCount_header bal
  obtain ⟨rowperm, colperm⟩ := setRowColCount_perms bal
  refine ⟨{ balancingSetRowColCount bal with checksum := balancingChecksum (balancingSetRowColCount bal) },
    balancingChecksum (balancingSetRowColCount bal), ?_, ?_, rfl, rfl, rowperm, colperm⟩
  · unfold balancingFinalize
    exact if_pos (by rwa [header])
  · exact congrArg (fun h : BalancingHeader =>
      { h with checksum := balancingChecksum (balancingSetRowColCount bal) }) header

theorem filled_balanced {mba : MfBalArgs} {larger : Bool} {nrows ncols : Word} {shuf : (Word × Word) × (Word × Word)}
    {rows columns : Weighed} {rowperm colperm : List Word} (fits : mba.Fits nrows.toNat ncols.toNat)
    (inverts : (initialBalancing mba nrows ncols shuf).Inverts) (allowed : mba.reorder = .both → mba.rectangular = true)
    (dealt : mba.reorder.permutes larger .row → Permutes rowperm (mba.padded nrows ncols nrows).toNat mba.nh)
    (dealt' : mba.reorder.permutes larger .column → Permutes colperm (mba.padded nrows ncols ncols).toNat mba.nv) :
    ∃ bal, balancingFinalize (filledBalancing (initialBalancing mba nrows ncols shuf)
        (flagsOf (mba.reorder.permutes larger .row) (mba.reorder.permutes larger .column) mba.rectangular)
        rows columns rowperm colperm) = some bal ∧ Balanced mba larger nrows ncols bal := by
  generalize filled : filledBalancing (initialBalancing mba nrows ncols shuf)
    (flagsOf (mba.reorder.permutes larger .row) (mba.reorder.permutes larger .column) mba.rectangular)
    rows columns rowperm colperm = start
  have flags : start.flags =
      flagsOf (mba.reorder.permutes larger .row)
        (mba.reorder.permutes larger .column) mba.rectangular := by rw [← filled]; rfl
  obtain ⟨hasRows, hasColumns, replicate⟩ := has_flagsOf _ flags
  have consistent : start.consistent := by
    unfold BalancingHeader.consistent
    rw [hasRows, hasColumns, replicate, Bool.not_eq_true', Bool.and_eq_false_iff, Bool.and_eq_false_iff]
    cases permutes : mba.reorder.permutes larger .row with
    | false => exact .inl (.inl rfl)
    | true =>
      cases permutes' : mba.reorder.permutes larger .column with
      | false => exact .inl (.inr rfl)
      | true => exact .inr (by rw [allowed (Reorder.both_of_permutes permutes permutes')]; rfl)
  obtain ⟨bal, checksum, finalized, header, trows, tcols, rowperm', colperm'⟩ := balancingFinalize_spec consistent
  obtain ⟨size, size'⟩ := fits.setRowColCount start (by rw [← filled]; rfl) (by rw [← filled]; rfl)
    (by rw [← filled]; rfl) (by rw [← filled]; rfl) replicate
  have here : bal.nh = BitVec.ofNat 32 mba.nh ∧ bal.nv = BitVec.ofNat 32 mba.nv ∧ bal.nrows = nrows ∧
    bal.ncols = ncols := by
    rw [header, ← filled]
    exact ⟨rfl, rfl, rfl, rfl⟩
  have flags' : bal.flags =
      flagsOf (mba.reorder.permutes larger .row) (mba.reorder.permutes larger .column) mba.rectangular := by
    rw [header]
    exact flags
  obtain ⟨hasRows', hasColumns', replicate'⟩ := has_flagsOf _ flags'
  have inverts' : bal.toBalancingHeader.Inverts := by
    rw [header, ← filled]
    exact ⟨inverts.slope, inverts.offset⟩
  have again := fits.setRowColCount { toBalancingHeader := bal.toBalancingHeader } here.1 here.2.1 here.2.2.1
    here.2.2.2 replicate'
  have rowSpec : bal.has flagRowperm → Permutes bal.rowperm bal.trows.toNat mba.nh := by
    rw [hasRows', trows, size, rowperm', ← filled]
    exact dealt
  have colSpec : bal.has flagColperm → Permutes bal.colperm bal.tcols.toNat mba.nv := by
    rw [hasColumns', tcols, size', colperm', ← filled]
    exact dealt'
  have nonzero {n : ℕ} (positive : 0 < n) (small : n < 2 ^ 31) : BitVec.ofNat 32 n ≠ 0 := by
    intro zero
    have same := congrArg BitVec.toNat zero
    change n % 2 ^ 32 = 0 at same
    omega
  have finished : bal.Finished := by
    have grid := fits.grid
    refine ⟨by rw [header, ← filled]; rfl, by rw [header, ← filled]; rfl, ?_, ?_, ?_, ?_, ?_, ?_, ?_⟩
    · rw [header]
      exact consistent
    · rw [here.1]
      exact nonzero fits.nh ((Nat.le_mul_of_pos_right _ fits.nv).trans_lt grid)
    · rw [here.2.1]
      exact nonzero fits.nv ((Nat.le_mul_of_pos_left _ fits.nh).trans_lt grid)
    · rw [again.1, trows, size]
    · rw [again.2, tcols, size']
    · exact fun flag => (rowSpec flag).length
    · exact fun flag => (colSpec flag).length
  refine ⟨bal, finalized, trows.trans size, tcols.trans size', hasRows', hasColumns', rowSpec, colSpec,
    unshuffle_shuffle inverts', shuffle_unshuffle inverts', ?_, balancingRead_write finished⟩
  intro r outside
  unfold balancingPreUnshuffle BalancingHeader.shuffled
  rw [here.2.2.1, here.2.2.2, min_comm, if_pos outside]

theorem readMfileHeader_spec (mba : MfBalArgs) (nrows : Word) (mfile : Option ℕ) :
    readMfileHeader mba nrows mfile = .error .oddCoeffs ∨ ∃ ncoeffs, readMfileHeader mba nrows mfile = .ok ncoeffs := by
  cases mfile with
  | none => exact .inr ⟨_, rfl⟩
  | some size =>
    unfold readMfileHeader
    dsimp only
    split_ifs
    · exact .inl rfl
    · exact .inr ⟨_, rfl⟩
    · exact .inr ⟨_, rfl⟩

theorem permuteSide_cases (lib : HeapLibrary) {weighed : Weighed} {reorder : Reorder} (larger : Bool) {side : Side}
    {n : Word} {ns : ℕ} (numbers : reorder.weighs side →
      weighed.entries.map Prod.snd = (List.range n.toNat).map (BitVec.ofNat 32))
    (even : n.toNat % ns = 0) :
    ∃ perm, permuteSide lib (reorder.permutes larger side) weighed.entries ns = .ok perm ∧
      (reorder.permutes larger side → Permutes perm n.toNat ns) := by
  cases permutes : reorder.permutes larger side with
  | false => exact ⟨_, rfl, nofun⟩
  | true =>
    obtain ⟨perm, ran, spec⟩ := permuteSide_spec lib (numbers (Reorder.weighs_of_permutes permutes)) even
    exact ⟨perm, ran, fun _ => spec⟩

variable (lib : Side → HeapLibrary) (larger : Bool) (fuel : ℕ) {mba : MfBalArgs} (mfile : Option ℕ)
  {rwfile cwfile : List Word}

/-- A run ends with such a balancing, unless the files do not agree. -/
theorem mfBal_balanced (fits : mba.Fits rwfile.length cwfile.length)
    (search : mba.skipDecorrelatingPermutation = true ∨
      2 ≤ min rwfile.length cwfile.length ∧ min rwfile.length cwfile.length ≤ fuel)
    (allowed : mba.reorder = .both → mba.rectangular = true) :
    (mfBal lib larger fuel mba mfile rwfile cwfile = .error .oddCoeffs ∨
      mfBal lib larger fuel mba mfile rwfile cwfile = .error .inconsistent) ∨
    ∃ bal, mfBal lib larger fuel mba mfile rwfile cwfile = .ok bal ∧
      Balanced mba larger (BitVec.ofNat 32 rwfile.length) (BitVec.ofNat 32 cwfile.length) bal := by
  have rows : (BitVec.ofNat 32 rwfile.length).toNat = rwfile.length :=
    Nat.mod_eq_of_lt ((le_chunk (Nat.mul_pos fits.nh fits.nv) _).trans_lt fits.rows)
  have cols : (BitVec.ofNat 32 cwfile.length).toNat = cwfile.length :=
    Nat.mod_eq_of_lt ((le_chunk (Nat.mul_pos fits.nh fits.nv) _).trans_lt fits.cols)
  rw [← rows, ← cols] at fits search
  unfold mfBal
  generalize BitVec.ofNat 32 rwfile.length = nrows at *
  generalize BitVec.ofNat 32 cwfile.length = ncols at *
  obtain ⟨shuf, found, slope, offset⟩ := decorrelate_spec search
  have inverts : (initialBalancing mba nrows ncols shuf).Inverts := by
    rw [min_comm] at slope offset
    exact ⟨slope, offset⟩
  have within : (initialBalancing mba nrows ncols shuf).shuffled ≤ nrows.toNat := min_le_right ..
  have within' : (initialBalancing mba nrows ncols shuf).shuffled ≤ ncols.toNat := min_le_left ..
  dsimp only
  rw [found]
  rcases readMfileHeader_spec mba nrows mfile with odd | ⟨ncoeffs, head⟩
  · rw [odd]
    exact .inl (.inl rfl)
  rw [head]
  change (Except.bind (weighSide _ _ _ _ _ _) _ = _ ∨ Except.bind (weighSide _ _ _ _ _ _) _ = _) ∨
    ∃ bal, Except.bind (weighSide _ _ _ _ _ _) _ = _ ∧ _
  obtain ⟨rowSize, rowRoom⟩ := fits.padded_toNat (.inl rfl)
  obtain ⟨colSize, colRoom⟩ := fits.padded_toNat (.inr rfl)
  rcases weighSide_spec inverts (mba.reorder.weighs .row) within rowRoom rwfile ncoeffs with off |
    ⟨rows, weighed, numbers⟩
  · rw [off]
    exact .inl (.inr rfl)
  rw [weighed]
  rcases weighSide_spec inverts (mba.reorder.weighs .column) within' colRoom cwfile rows.ncoeffs with
    off | ⟨columns, weighed', numbers'⟩
  · refine .inl (.inr ?_)
    simp only [Except.bind]
    change Except.bind (weighSide _ _ _ _ _ _) _ = _
    rw [off]
    rfl
  obtain ⟨rowperm, permuted, dealt⟩ := permuteSide_cases (lib .row) larger numbers (fits.gridsize_dvd (.inl rfl) .row)
  obtain ⟨colperm, permuted', dealt'⟩ :=
    permuteSide_cases (lib .column) larger numbers' (fits.gridsize_dvd (.inr rfl) .column)
  refine .inr ?_
  simp only [Except.bind, bind, weighed', permuted, permuted']
  obtain ⟨bal, finalized, balanced⟩ := filled_balanced fits inverts allowed dealt dealt'
  exact ⟨bal, by rw [finalized], balanced⟩

theorem not_both_square {bal : Balancing} (both : mba.reorder = .both) (square : mba.rectangular = false) :
    mfBal lib larger fuel mba mfile rwfile cwfile ≠ .ok bal := by
  intro ran
  unfold mfBal at ran
  dsimp only at ran
  obtain ⟨ncoeffs, -, ran⟩ := CadoNfs.Lib.bind_ok.mp ran
  obtain ⟨start, -, ran⟩ := CadoNfs.Lib.bind_ok.mp ran
  obtain ⟨rows, -, ran⟩ := CadoNfs.Lib.bind_ok.mp ran
  obtain ⟨columns, -, ran⟩ := CadoNfs.Lib.bind_ok.mp ran
  obtain ⟨rowperm, -, ran⟩ := CadoNfs.Lib.bind_ok.mp ran
  obtain ⟨colperm, -, ran⟩ := CadoNfs.Lib.bind_ok.mp ran
  rw [both, square] at ran
  have flags : flagsOf (Reorder.permutes larger .both .row) (Reorder.permutes larger .both .column) false =
      flagsOf true true false := rfl
  rw [flags] at ran
  obtain ⟨hasRows, hasColumns, replicate⟩ := has_flagsOf
    (filledBalancing start (flagsOf true true false) rows columns rowperm colperm).toBalancingHeader rfl
  have none : balancingFinalize (filledBalancing start (flagsOf true true false) rows columns rowperm colperm) =
    none := by
    unfold balancingFinalize
    apply if_neg
    unfold BalancingHeader.consistent
    rw [setRowColCount_header, hasRows, hasColumns, replicate]
    decide
  rw [none] at ran
  cases ran

theorem heapCompare_trans {a b c : Bucket} (first : heapCompare a b = true) (second : heapCompare b c = true) :
    heapCompare a c = true := by
  unfold heapCompare at *
  split_ifs at * <;> simp_all
  omega

theorem heapCompare_irrefl (a : Bucket) : heapCompare a a = false := by
  unfold heapCompare
  split_ifs <;> simp

theorem exists_best {heap : List Bucket} (some : heap ≠ []) :
    ∃ best ∈ heap, ∀ b ∈ heap, heapCompare best b = false := by
  induction heap with
  | nil => exact absurd rfl some
  | cons first heap ih =>
    by_cases last : heap = []
    · rw [last]
      exact ⟨first, List.mem_singleton_self first, fun b only => by
        rw [List.mem_singleton.mp only, heapCompare_irrefl]⟩
    obtain ⟨best, inside, top⟩ := ih last
    cases better : heapCompare best first with
    | false =>
      refine ⟨best, List.mem_cons_of_mem _ inside, fun b member => ?_⟩
      rcases List.mem_cons.mp member with rfl | later
      · exact better
      · exact top b later
    | true =>
      refine ⟨first, List.mem_cons_self, fun b member => ?_⟩
      rcases List.mem_cons.mp member with rfl | later
      · exact heapCompare_irrefl b
      · by_contra other
        have beyond := heapCompare_trans better (Bool.eq_true_of_not_eq_false other)
        rw [top b later] at beyond
        cases beyond

def firstBest : HeapLibrary where
  top _ heap := heap.findIdx fun a => heap.all fun b => heapCompare a b = false
  top_lt _ heap some := by
    obtain ⟨best, inside, top⟩ := exists_best some
    apply List.findIdx_lt_length_of_exists
    exact ⟨best, inside, List.all_eq_true.mpr fun b member => decide_eq_true (top b member)⟩
  top_best _ heap best found b member := by
    obtain ⟨inside, rfl⟩ := List.getElem?_eq_some_iff.mp found
    have all := List.findIdx_getElem (w := inside)
    exact of_decide_eq_true (List.all_eq_true.mp all b member)

theorem mfBal_balanced_three :
    (mfBal (fun _ => firstBest) true 2 ⟨2, 1, false, false, false, .auto⟩ none [2, 1, 1] [1, 3] = .error .oddCoeffs ∨
      mfBal (fun _ => firstBest) true 2 ⟨2, 1, false, false, false, .auto⟩ none [2, 1, 1]
        [1, 3] = .error .inconsistent) ∨
    ∃ bal, mfBal (fun _ => firstBest) true 2 ⟨2, 1, false, false, false, .auto⟩ none [2, 1, 1] [1, 3] = .ok bal ∧
      Balanced ⟨2, 1, false, false, false, .auto⟩ true 3 2 bal :=
  mfBal_balanced _ _ _ _ ⟨by decide, by decide, by decide, by decide, by decide⟩ (.inr (by decide)) nofun

/-- Two rows and two columns are not permuted on both sides of a square matrix, and a file of 2^32 - 1 row weights
is read into an array of no item. -/
theorem mfBal_unbalanced :
    (∀ lib larger fuel bal, mfBal lib larger fuel ⟨1, 1, false, false, false, .both⟩ none [1, 1] [1, 1] ≠ .ok bal) ∧
    ∀ lib larger fuel, mfBal lib larger fuel ⟨1, 1, false, true, true, .none⟩ none (List.replicate (2 ^ 32 - 1) 0)
      [1, 1] =
      .error .undefined := by
  constructor
  · intro lib larger fuel bal
    exact not_both_square lib larger fuel none rfl rfl
  · intro lib larger fuel
    unfold mfBal
    rw [List.length_replicate]
    have short : MfBalArgs.padded ⟨1, 1, false, true, true, .none⟩ (BitVec.ofNat 32 (2 ^ 32 - 1)) (BitVec.ofNat 32 2)
        (BitVec.ofNat 32 (2 ^ 32 - 1)) < BitVec.ofNat 32 (2 ^ 32 - 1) := by decide
    have start : decorrelate fuel ⟨1, 1, false, true, true, .none⟩ (BitVec.ofNat 32 (2 ^ 32 - 1)) (BitVec.ofNat 32 2) =
        .ok ((1, 0), (1, 0)) := rfl
    dsimp only [List.length_cons, List.length_nil, Nat.zero_add, Nat.reduceAdd]
    rw [start]
    apply CadoNfs.Lib.bind_error.mpr
    refine .inr ⟨0, rfl, CadoNfs.Lib.bind_error.mpr (.inr ⟨_, rfl, CadoNfs.Lib.bind_error.mpr (.inl ?_)⟩)⟩
    unfold weighSide
    exact if_pos short

end CadoNfs.Linalg.MfBal
