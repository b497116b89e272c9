import CadoNfs.Utils.ModUl

/-!
# Balancings

`struct balancing` of `linalg/bwc/balancing.hpp` with the functions of `balancing.cpp`: the sizes after padding, the
decorrelating shuffle, the checksum and the file. A file is the list of its 32-bit words. `none` is a failed
assertion or an exit.
-/

namespace CadoNfs.Linalg.MfBal

open Utils

abbrev Word := BitVec 32

def flagColperm : Word := 1
def flagRowperm : Word := 2
def flagReplicate : Word := 8
def balancingMagic : Word := 0xba1a0000
def minimumItemsInBwcChunks : Word := 8

structure BalancingHeader where
  zero : Word := 0
  magic : Word := 0
  nh : Word := 0
  nv : Word := 0
  nrows : Word := 0
  ncols : Word := 0
  nzrows : Word := 0
  nzcols : Word := 0
  ncoeffs : BitVec 64 := 0
  checksum : Word := 0
  flags : Word := 0
  pshuf : Word × Word := (0, 0)
  pshufInv : Word × Word := (0, 0)

structure Balancing extends BalancingHeader where
  trows : Word := 0
  tcols : Word := 0
  rowperm : List Word := []
  colperm : List Word := []

def balancingInit : Balancing := { magic := balancingMagic }

def BalancingHeader.has (bal : BalancingHeader) (flag : Word) : Bool := bal.flags &&& flag ≠ 0

def iceildiv (x y : Word) : Word := (x - if x ≠ 0 then 1 else 0) / y + if x ≠ 0 then 1 else 0

def alignFrom : ℕ → Word → Word
  | 0, b => b
  | fuel + 1, b => if b % minimumItemsInBwcChunks ≠ 0 then alignFrom fuel (b + 1) else b

def alignChunk (b : Word) : Word := alignFrom 8 b

def wordMax (h i : Word) : Word := if h > i then h else i

def balancingSetRowColCount (bal : Balancing) : Balancing :=
  let s := bal.nh * bal.nv
  let trows := s * alignChunk (iceildiv bal.nrows s)
  let tcols := s * alignChunk (iceildiv bal.ncols s)
  if bal.has flagReplicate then { bal with trows := wordMax trows tcols, tcols := wordMax trows tcols }
  else { bal with trows := trows, tcols := tcols }

/-! ## The decorrelating shuffle -/

def balancingIndexShuffleCommon (r n : ℕ) (shuf : Word × Word) : ℕ :=
  ModUl.add (ModUl.mul (ModUl.setUl r n) (ModUl.setUl shuf.1.toNat n) n) (ModUl.setUl shuf.2.toNat n) n

def BalancingHeader.shuffled (bal : BalancingHeader) : ℕ := min bal.ncols.toNat bal.nrows.toNat

def balancingPreShuffle (bal : BalancingHeader) (r : ℕ) : ℕ :=
  if bal.shuffled ≤ r then r else balancingIndexShuffleCommon r bal.shuffled bal.pshuf

def balancingPreUnshuffle (bal : BalancingHeader) (r : ℕ) : ℕ :=
  if bal.shuffled ≤ r then r else balancingIndexShuffleCommon r bal.shuffled bal.pshufInv

structure CrcLfsr where
  t : ℕ → Word
  i : Word
  r : Word

def CrcLfsr.turn1 (l : CrcLfsr) (c : Word) : CrcLfsr × Word :=
  let w := (c >>> (31 &&& (31 ^^^ l.r))) ^^^ (c <<< (31 &&& -l.r))
  let i := (l.i - 1) &&& 31
  let w := w ^^^ l.t i.toNat
  let w := w ^^^ l.t ((i + 22) &&& 31).toNat
  let w := w ^^^ l.t ((i + 2) &&& 31).toNat
  let w := w ^^^ l.t ((i + 1) &&& 31).toNat
  let w := (w >>> 1) ^^^ (3486328325 &&& -(w &&& 1))
  (⟨Function.update l.t i.toNat w, i, l.r + 11⟩, w)

def crcLfsrInit : CrcLfsr :=
  (List.range 96).foldl (fun l k => (l.turn1 (0xdeadbeef / BitVec.ofNat 32 (k + 1))).1) ⟨BitVec.ofNat 32, 0, 0⟩

def CrcLfsr.turn32Little (l : CrcLfsr) (data : List Word) : CrcLfsr × Word :=
  (data.flatMap fun (c : Word) => (List.range 4).map fun j : ℕ => (c >>> (8 * j)) &&& 0xff).foldl
    (fun s c => s.1.turn1 c) (l, 0)

/-! ## Finishing, writing and reading -/

def BalancingHeader.consistent (bal : BalancingHeader) : Bool :=
  !(bal.has flagRowperm && bal.has flagColperm && bal.has flagReplicate)

def balancingChecksum (bal : Balancing) : Word :=
  let s : CrcLfsr × Word := (crcLfsrInit, 0)
  let s := if bal.has flagRowperm then s.1.turn32Little (bal.rowperm.take bal.trows.toNat) else s
  let s := if bal.has flagColperm then s.1.turn32Little (bal.colperm.take bal.tcols.toNat) else s
  if bal.has flagReplicate then s.2 &&& ~~~0xff else s.2

def balancingFinalize (bal : Balancing) : Option Balancing :=
  let bal := balancingSetRowColCount bal
  if bal.consistent then some { bal with checksum := balancingChecksum bal } else none

def headerWords (bal : BalancingHeader) : List Word :=
  [bal.zero, bal.magic, bal.nh, bal.nv, bal.nrows, bal.ncols, bal.nzrows, bal.nzcols,
    bal.ncoeffs.setWidth 32, (bal.ncoeffs >>> 32).setWidth 32, bal.checksum, bal.flags,
    bal.pshuf.1, bal.pshuf.2, bal.pshufInv.1, bal.pshufInv.2]

def writePerm (flag : Bool) (n : Word) (perm : List Word) : List Word := if flag then perm.take n.toNat else []

def balancingWriteInner (bal : Balancing) : List Word :=
  headerWords bal.toBalancingHeader ++ (writePerm (bal.has flagRowperm) bal.trows bal.rowperm ++
    writePerm (bal.has flagColperm) bal.tcols bal.colperm)

def balancingReadHeaderInner : List Word → Option (BalancingHeader × List Word)
  | zero :: magic :: nh :: nv :: nrows :: ncols :: nzrows :: nzcols :: low :: high :: checksum :: flags :: a :: b :: ai ::
      bi :: rest =>
    let bal : BalancingHeader := ⟨zero, magic, nh, nv, nrows, ncols, nzrows, nzcols,
      (high.setWidth 64 <<< 32) ||| low.setWidth 64, checksum, flags, (a, b), (ai, bi)⟩
    if zero ≠ 0 ∨ magic ≠ balancingMagic then none
    else if bal.consistent ∧ nh ≠ 0 ∧ nv ≠ 0 then some (bal, rest) else none
  | _ => none

def readPerm (flag : Bool) (n : Word) (file : List Word) : Option (List Word × List Word) :=
  if flag then if n.toNat ≤ file.length then some (file.take n.toNat, file.drop n.toNat) else none
  else some ([], file)

def balancingRead (file : List Word) : Option Balancing := do
  let (header, rest) ← balancingReadHeaderInner file
  let bal := balancingSetRowColCount { toBalancingHeader := header }
  let (rowperm, rest) ← readPerm (bal.has flagRowperm) bal.trows rest
  let (colperm, _) ← readPerm (bal.has flagColperm) bal.tcols rest
  some { bal with rowperm := rowperm, colperm := colperm }

end CadoNfs.Linalg.MfBal

/-!
# The shuffle and the file of a balancing

The affine shuffle is inverted below the smaller one of the two sizes and leaves the rest alone; what is written is
read back, but for the arrays that the flags do not announce.
-/

namespace CadoNfs.Linalg.MfBal
open Utils

theorem balancingIndexShuffleCommon_eq {r n : ℕ} (positive : 0 < n) (shuf : Word × Word) :
    balancingIndexShuffleCommon r n shuf = (r * shuf.1.toNat + shuf.2.toNat) % n := by
  unfold balancingIndexShuffleCommon ModUl.add ModUl.mul ModUl.setUl
  rw [ModUl.addmod_eq (Nat.mod_lt _ positive) (Nat.mod_lt _ positive).le, ← Nat.mul_mod, ← Nat.add_mod]

structure BalancingHeader.Inverts (bal : BalancingHeader) : Prop where
  slope : (bal.pshuf.1.toNat * bal.pshufInv.1.toNat : ZMod bal.shuffled) = 1
  offset : (bal.pshufInv.1.toNat * bal.pshuf.2.toNat + bal.pshufInv.2.toNat : ZMod bal.shuffled) = 0

variable {bal : BalancingHeader}

theorem cast_shuffle {r n : ℕ} (positive : 0 < n) (shuf : Word × Word) :
    (balancingIndexShuffleCommon r n shuf : ZMod n) = r * shuf.1.toNat + shuf.2.toNat := by
  rw [balancingIndexShuffleCommon_eq positive, ZMod.natCast_mod]
  push_cast
  rfl

theorem shuffle_lt {r n : ℕ} (positive : 0 < n) (shuf : Word × Word) : balancingIndexShuffleCommon r n shuf < n := by
  rw [balancingIndexShuffleCommon_eq positive]
  exact Nat.mod_lt _ positive

theorem shuffle_back {r n : ℕ} {shuf shuf' : Word × Word} (inside : r < n)
    (back : ((r * shuf.1.toNat + shuf.2.toNat) * shuf'.1.toNat + shuf'.2.toNat : ZMod n) = r) :
    balancingIndexShuffleCommon (balancingIndexShuffleCommon r n shuf) n shuf' = r := by
  have positive : 0 < n := by omega
  rw [← cast_shuffle positive, ← cast_shuffle positive, ZMod.natCast_eq_natCast_iff',
    Nat.mod_eq_of_lt (shuffle_lt positive _), Nat.mod_eq_of_lt inside] at back
  exact back

theorem unshuffle_shuffle (inverts : bal.Inverts) (r : ℕ) :
    balancingPreUnshuffle bal (balancingPreShuffle bal r) = r := by
  unfold balancingPreUnshuffle balancingPreShuffle
  by_cases outside : bal.shuffled ≤ r
  · rw [if_pos outside, if_pos outside]
  · rw [if_neg outside, if_neg (not_le.mpr (shuffle_lt (by omega) _))]
    apply shuffle_back (not_le.mp outside)
    linear_combination (r : ZMod bal.shuffled) * inverts.slope + inverts.offset

theorem shuffle_unshuffle (inverts : bal.Inverts) (r : ℕ) :
    balancingPreShuffle bal (balancingPreUnshuffle bal r) = r := by
  unfold balancingPreUnshuffle balancingPreShuffle
  by_cases outside : bal.shuffled ≤ r
  · rw [if_pos outside, if_pos outside]
  · rw [if_neg outside, if_neg (not_le.mpr (shuffle_lt (by omega) _))]
    apply shuffle_back (not_le.mp outside)
    linear_combination (r - bal.pshuf.2.toNat : ZMod bal.shuffled) * inverts.slope +
      (bal.pshuf.1.toNat : ZMod bal.shuffled) * inverts.offset

theorem unshuffle_lt {r n : ℕ} (le : bal.shuffled ≤ n) (inside : r < n) : balancingPreUnshuffle bal r < n := by
  unfold balancingPreUnshuffle
  by_cases outside : bal.shuffled ≤ r
  · rwa [if_pos outside]
  · rw [if_neg outside]
    exact (shuffle_lt (by omega) _).trans_le le

structure Balancing.Same (bal bal' : Balancing) : Prop where
  header : bal'.toBalancingHeader = bal.toBalancingHeader
  trows : bal'.trows = bal.trows
  tcols : bal'.tcols = bal.tcols
  rowperm : bal.has flagRowperm → bal'.rowperm = bal.rowperm
  colperm : bal.has flagColperm → bal'.colperm = bal.colperm

structure Balancing.Finished (bal : Balancing) : Prop where
  zero : bal.zero = 0
  magic : bal.magic = balancingMagic
  consistent : bal.consistent
  nh : bal.nh ≠ 0
  nv : bal.nv ≠ 0
  trows : bal.trows = (balancingSetRowColCount { toBalancingHeader := bal.toBalancingHeader }).trows
  tcols : bal.tcols = (balancingSetRowColCount { toBalancingHeader := bal.toBalancingHeader }).tcols
  rowperm : bal.has flagRowperm → bal.rowperm.length = bal.trows.toNat
  colperm : bal.has flagColperm → bal.colperm.length = bal.tcols.toNat

theorem join_halves (x : BitVec 64) :
    ((x >>> 32).setWidth 32).setWidth 64 <<< 32 ||| (x.setWidth 32).setWidth 64 = x := by
  apply BitVec.eq_of_getLsbD_eq
  intro i inside
  by_cases low : i < 32
  · simp [low, inside]
  · have high : 32 + (i - 32) = i := by omega
    have small : i - 32 < 32 := by omega
    simp [low, inside, high, small]

theorem readHeader_words {bal : Balancing} (finished : bal.Finished) (rest : List Word) :
    balancingReadHeaderInner (headerWords bal.toBalancingHeader ++ rest) = some (bal.toBalancingHeader, rest) := by
  simp only [headerWords, List.cons_append, List.nil_append, balancingReadHeaderInner, join_halves]
  rw [if_neg, if_pos]
  · exact ⟨finished.consistent, finished.nh, finished.nv⟩
  · rintro (zero | magic)
    · exact zero finished.zero
    · exact magic finished.magic

theorem readPerm_write {flag : Bool} {n : Word} {perm : List Word} (length : flag → perm.length = n.toNat)
    (rest : List Word) : readPerm flag n (writePerm flag n perm ++ rest) = some (if flag then perm else [], rest) := by
  unfold readPerm writePerm
  cases flag with
  | false => rfl
  | true =>
    have length := length rfl
    simp only [if_true]
    rw [← length, List.take_length, if_pos (by rw [List.length_append]; omega), List.take_left, List.drop_left]

theorem setRowColCount_header (bal : Balancing) :
    (balancingSetRowColCount bal).toBalancingHeader = bal.toBalancingHeader := by
  unfold balancingSetRowColCount
  dsimp only
  split_ifs <;> rfl

theorem balancingRead_write {bal : Balancing} (finished : bal.Finished) :
    ∃ bal', balancingRead (balancingWriteInner bal) = some bal' ∧ bal.Same bal' := by
  have header := setRowColCount_header { toBalancingHeader := bal.toBalancingHeader }
  have trows := finished.trows
  have tcols := finished.tcols
  have last := readPerm_write finished.colperm []
  rw [List.append_nil] at last
  unfold balancingRead balancingWriteInner
  rw [readHeader_words finished]
  simp only [Option.bind_eq_bind, Option.bind_some]
  generalize balancingSetRowColCount { toBalancingHeader := bal.toBalancingHeader } = sized at *
  rw [header, ← trows, ← tcols, readPerm_write finished.rowperm, Option.bind_some, last, Option.bind_some]
  refine ⟨_, rfl, rfl, rfl, rfl, ?_, ?_⟩
  · exact fun flag => if_pos flag
  · exact fun flag => if_pos flag

end CadoNfs.Linalg.MfBal
