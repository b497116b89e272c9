import CadoNfs.Lib.Decimal

/-!
# History lines

`merge` writes each row operation as a line of decimal numbers and `replay` reads it back
(`sreportn`, `addFatherToSons` and `merge_do` in `filter/merge.cpp`, `parse_hisfile_line` in
`filter/sparse.c`, `doAllAdds` in `filter/replay.cpp`), for `SIZEOF_INDEX=4`. Signed arithmetic
wraps modulo `2^32`, as the compiled code does.
-/

namespace CadoNfs.Filter
open Lib

abbrev Index := BitVec 32

-- The same 32 bits, read by `BitVec.toInt`.
abbrev IndexSigned := BitVec 32

def printLd (z : Int) : List Char :=
  if z < 0 then '-' :: Nat.toDigits 10 z.natAbs else Nat.toDigits 10 z.natAbs

def lineEnd : Option Index → List Char
  | some j => ' ' :: '#' :: (Nat.toDigits 10 j.toNat ++ ['\n'])
  | none => ['\n']

def sreportn (ind : List IndexSigned) (j : Option Index) : List Char :=
  List.intercalate [' '] (ind.map fun i => printLd i.toInt) ++ lineEnd j

/-- The row operations `merge_do` reports: a row alone is discarded, otherwise the source row is
added to the target row, and destroyed or kept. -/
inductive RowOp
  | alone (i : Index)
  | destroyed (i j : Index)
  | kept (i j : Index)
  deriving DecidableEq

namespace RowOp

def source : RowOp → Index
  | alone i | destroyed i _ | kept i _ => i

def targets : RowOp → List Index
  | alone _ => []
  | destroyed _ j | kept _ j => [j]

def destroy : RowOp → Bool
  | alone _ | destroyed _ _ => true
  | kept _ _ => false

def entries : RowOp → List IndexSigned
  | alone i => [i]
  | destroyed i j => [i, j]
  | kept i j => [-(i + 1), j]

def line (op : RowOp) (pivot : Option Index) : List Char := sreportn op.entries pivot

end RowOp

def charValue (c : Char) : IndexSigned := BitVec.ofInt 32 ((c.toNat : Int) - 48)

/-- The first loop of `parse_hisfile_line`: the slots of `ind` before the current one, the current
one and the rest of the text from the newline or `#` on; `none` when the text ends before. -/
def parseEntries (before : List IndexSigned) (current : IndexSigned) :
    List Char → Option (List IndexSigned × IndexSigned × List Char)
  | [] => none
  | c :: t =>
      if c = '\n' ∨ c = '#' then some (before, current, c :: t)
      else if c = ' ' then parseEntries (before ++ [current]) 0 t
      else parseEntries before (10 * current + charValue c) t

def parsePivot (j : Index) : List Char → Option Index
  | [] => none
  | c :: t => if c = '\n' then some j else parsePivot (10 * j + charValue c) t

structure HisfileLine where
  ni : Nat
  ind : List IndexSigned
  j : Index
  deriving DecidableEq

def parseSign : List Char → IndexSigned × List Char
  | [] => (1, [])
  | c :: t => if c = '-' then (-1, t) else (1, c :: t)

def parseRest (sg : IndexSigned) (before : List IndexSigned) (current : IndexSigned) :
    List Char → Option HisfileLine
  | [] => none
  | c :: t =>
      let ind := (before ++ [current]).modifyHead (sg * ·)
      if c = '#' then (parsePivot 0 t).map fun j => ⟨before.length, ind, j⟩
      else some ⟨before.length + 1, ind, -1⟩

def parseHisfileLine (t : List Char) : Option HisfileLine :=
  (parseEntries [] 0 (parseSign t).2).bind fun r => parseRest (parseSign t).1 r.1 r.2.1 r.2.2

structure Addition where
  i0 : Index
  targets : List Index
  destroy : Bool
  j : Index
  deriving DecidableEq

def Addition.ofNumbers (ind0 : IndexSigned) (targets : List IndexSigned) (j : Index) : Addition :=
  if ind0.toInt < 0 then ⟨-ind0 - 1, targets, false, j⟩ else ⟨ind0, targets, true, j⟩

def decodeLine (t : List Char) : Option Addition :=
  (parseHisfileLine t).map fun l =>
    .ofNumbers (l.ind.headD 0) ((l.ind.take l.ni).drop 1) l.j

def RowOp.addition (op : RowOp) (pivot : Option Index) : Addition :=
  ⟨op.source, op.targets, op.destroy, pivot.getD (-1)⟩

/-! ## Decoding what was written -/

theorem charValue_eq_digitValue {c : Char} (digit : 48 ≤ c.toNat) :
    charValue c = (digitValue c : BitVec 32) := by
  have nat : (c.toNat : Int) - 48 = ((c.toNat - 48 : Nat) : Int) := by omega
  rw [charValue, nat, digitValue]
  simp

theorem parseEntries_digits (before : List IndexSigned) (current : IndexSigned) (text rest : List Char)
    (digits : ∀ c ∈ text, 48 ≤ c.toNat) :
    parseEntries before current (text ++ rest) =
      parseEntries before (readDigits current text) rest := by
  induction text generalizing current with
  | nil => rfl
  | cons c text ih =>
    have digit := digits c (by simp)
    have newline : c ≠ '\n' := by rintro rfl; simp at digit
    have hash : c ≠ '#' := by rintro rfl; simp at digit
    have blank : c ≠ ' ' := by rintro rfl; simp at digit
    simp only [List.cons_append, parseEntries, newline, hash, blank, or_self, if_false,
      readDigits_cons, charValue_eq_digitValue digit]
    exact ih _ fun c member => digits c (by simp [member])

theorem parsePivot_digits (j : Index) (text : List Char) (digits : ∀ c ∈ text, 48 ≤ c.toNat) :
    parsePivot j (text ++ ['\n']) = some (readDigits j text) := by
  induction text generalizing j with
  | nil => rfl
  | cons c text ih =>
    have digit := digits c (by simp)
    have newline : c ≠ '\n' := by rintro rfl; simp at digit
    simp only [List.cons_append, parsePivot, newline, if_false, readDigits_cons,
      charValue_eq_digitValue digit]
    exact ih _ fun c member => digits c (by simp [member])

theorem toDigits_digits (n : Nat) : ∀ c ∈ Nat.toDigits 10 n, 48 ≤ c.toNat :=
  fun _ member => (isDigit_of_mem_toDigits member).1

theorem toInt_neg_iff (b : IndexSigned) : b.toInt < 0 ↔ 2 ^ 31 ≤ b.toNat := by
  have := BitVec.toInt_eq_toNat_cond b
  have := b.isLt
  omega

theorem natCast_eq_natCast_iff (m n : Nat) :
    (m : IndexSigned) = (n : IndexSigned) ↔ m % 2 ^ 32 = n % 2 ^ 32 := by
  rw [← BitVec.toNat_inj, BitVec.natCast_eq_ofNat, BitVec.natCast_eq_ofNat, BitVec.toNat_ofNat,
    BitVec.toNat_ofNat]

theorem neg_natAbs_cast_of_neg {b : IndexSigned} (neg : b.toInt < 0) :
    -(b.toInt.natAbs : IndexSigned) = b := by
  apply BitVec.eq_of_toNat_eq
  have := BitVec.toInt_eq_toNat_cond b
  have := b.isLt
  simp only [BitVec.natCast_eq_ofNat, BitVec.toNat_neg, BitVec.toNat_ofNat]
  omega

theorem natAbs_cast_of_nonneg {b : IndexSigned} (nonneg : ¬ b.toInt < 0) :
    (b.toInt.natAbs : IndexSigned) = b := by
  rw [show b.toInt.natAbs = b.toNat by have := BitVec.toInt_eq_toNat_cond b; omega]
  simp

-- What a number other than the first of its line is read as: its minus sign counts as the digit
-- `-3`.
def readEntry (b : IndexSigned) : IndexSigned :=
  if b.toInt < 0 then
    10 ^ (Nat.toDigits 10 b.toInt.natAbs).length * -3 + (b.toInt.natAbs : IndexSigned)
  else b

theorem parseEntries_printLd (before : List IndexSigned) (b : IndexSigned) (rest : List Char) :
    parseEntries before 0 (printLd b.toInt ++ rest) = parseEntries before (readEntry b) rest := by
  by_cases neg : b.toInt < 0
  · have minus : charValue '-' = -3 := by decide
    simp only [printLd, neg, if_true, List.cons_append, parseEntries, readEntry]
    rw [if_neg (by decide), if_neg (by decide), parseEntries_digits _ _ _ _ (toDigits_digits _),
      readDigits_toDigits, minus]
    simp
  · simp only [printLd, neg, if_false, readEntry]
    rw [parseEntries_digits _ _ _ _ (toDigits_digits _), readDigits_zero_toDigits,
      natAbs_cast_of_nonneg neg]

theorem readEntry_eq_iff (b : IndexSigned) :
    readEntry b = b ↔ b.toNat < 2 ^ 31 ∨ b = 2179869184 := by
  by_cases neg : b.toInt < 0
  · have upper := (toInt_neg_iff b).mp neg
    rw [readEntry, if_pos neg]
    have isNeg := neg_natAbs_cast_of_neg neg
    have natAbs : b.toInt.natAbs = 2 ^ 32 - b.toNat := by
      have := BitVec.toInt_eq_toNat_cond b
      omega
    have bounds := toDigits_length_bounds b.toInt.natAbs
    generalize (Nat.toDigits 10 b.toInt.natAbs).length = d at bounds
    generalize b.toInt.natAbs = k at natAbs isNeg bounds
    have doubled : (10 ^ d * -3 + (k : IndexSigned) = b) ↔
        (k + k) % 2 ^ 32 = (10 ^ d + 10 ^ d + 10 ^ d) % 2 ^ 32 := by
      have power : (10 : IndexSigned) ^ d = ((10 ^ d : Nat) : IndexSigned) := by
        rw [Nat.cast_pow]
        rfl
      have three : (-3 : IndexSigned) = -(1 + 1 + 1) := by decide
      rw [← natCast_eq_natCast_iff, ← isNeg, power, three]
      simp only [Nat.cast_add]
      constructor
      · intro h
        linear_combination h
      · intro h
        linear_combination h
    have lt := b.isLt
    have d_le : d ≤ 10 := by
      by_contra large
      have : 10 ^ 10 ≤ 10 ^ (d - 1) := Nat.pow_le_pow_right (by norm_num) (by omega)
      omega
    have d_pos : d ≠ 0 := by
      rintro rfl
      omega
    rw [doubled, ← BitVec.toNat_inj, show (2179869184 : IndexSigned).toNat = 2179869184 from rfl]
    interval_cases d <;> omega
  · simp only [readEntry, neg, if_false, true_iff]
    left
    have := (toInt_neg_iff b).not.mp neg
    omega
-- The sign of the first number is set aside before its digits are read and put back after, so
-- that number is read back as the same 32 bits whatever its sign.
theorem parseSign_printLd (a : IndexSigned) (rest : List Char) :
    ∃ sg current, sg * current = a ∧ ∃ text, parseSign (printLd a.toInt ++ rest) = (sg, text) ∧
      parseEntries [] 0 text = parseEntries [] current rest := by
  by_cases neg : a.toInt < 0
  · refine ⟨-1, -a, by ring, Nat.toDigits 10 a.toInt.natAbs ++ rest, ?_, ?_⟩
    · simp [printLd, neg, parseSign]
    · rw [parseEntries_digits _ _ _ _ (toDigits_digits _), readDigits_zero_toDigits,
        ← neg_natAbs_cast_of_neg neg, neg_neg, neg_natAbs_cast_of_neg neg]
  · refine ⟨1, a, one_mul a, Nat.toDigits 10 a.toInt.natAbs ++ rest, ?_, ?_⟩
    · have digits := toDigits_digits a.toInt.natAbs
      have nonempty := Nat.toDigits_ne_nil (n := a.toInt.natAbs) (b := 10)
      simp only [printLd, neg, if_false]
      cases text : Nat.toDigits 10 a.toInt.natAbs with
      | nil => exact absurd text nonempty
      | cons c t =>
        have first := digits c (by simp [text])
        have minus : c ≠ '-' := by rintro rfl; simp at first
        simp [parseSign, minus]
    · rw [parseEntries_digits _ _ _ _ (toDigits_digits _), readDigits_zero_toDigits,
        natAbs_cast_of_nonneg neg]

theorem parseRest_lineEnd (sg : IndexSigned) (before : List IndexSigned) (current : IndexSigned)
    (pivot : Option Index) : ∃ extra,
    (parseEntries before current (lineEnd pivot)).bind
        (fun r => parseRest sg r.1 r.2.1 r.2.2) =
      some ⟨before.length + 1, (before ++ [current] ++ extra).modifyHead (sg * ·),
        pivot.getD (-1)⟩ := by
  cases pivot with
  | none => exact ⟨[], by simp [lineEnd, parseEntries, parseRest]⟩
  | some j =>
    have digits : parsePivot 0 (Nat.toDigits 10 j.toNat ++ ['\n']) = some j := by
      rw [parsePivot_digits 0 _ (toDigits_digits j.toNat), readDigits_zero_toDigits]
      simp
    exact ⟨[0], by simpa [lineEnd, parseEntries, parseRest] using digits⟩

theorem parseRest_numbers (sg : IndexSigned) (bs before : List IndexSigned) (current : IndexSigned)
    (pivot : Option Index) : ∃ extra,
    (parseEntries before current
        (bs.flatMap (fun b => ' ' :: printLd b.toInt) ++ lineEnd pivot)).bind
        (fun r => parseRest sg r.1 r.2.1 r.2.2) =
      some ⟨before.length + 1 + bs.length,
        (before ++ [current] ++ bs.map readEntry ++ extra).modifyHead (sg * ·),
        pivot.getD (-1)⟩ := by
  induction bs generalizing before current with
  | nil => simpa using parseRest_lineEnd sg before current pivot
  | cons b bs ih =>
    obtain ⟨extra, parsed⟩ := ih (before ++ [current]) (readEntry b)
    refine ⟨extra, ?_⟩
    have blank : parseEntries before current
        ((b :: bs).flatMap (fun b => ' ' :: printLd b.toInt) ++ lineEnd pivot) =
        parseEntries (before ++ [current]) (readEntry b)
          (bs.flatMap (fun b => ' ' :: printLd b.toInt) ++ lineEnd pivot) := by
      rw [List.flatMap_cons, List.cons_append, List.cons_append, parseEntries, if_neg (by decide),
        if_pos rfl, List.append_assoc, parseEntries_printLd]
    rw [blank, parsed]
    simp [Nat.add_comm, Nat.add_left_comm, Nat.add_assoc]

theorem intercalate_cons (x : List Char) (xs : List (List Char)) :
    List.intercalate [' '] (x :: xs) = x ++ xs.flatMap (' ' :: ·) := by
  induction xs generalizing x with
  | nil => simp [List.intercalate]
  | cons y ys ih =>
    have step : List.intercalate [' '] (x :: y :: ys) = x ++ ' ' :: List.intercalate [' '] (y :: ys) := by
      simp [List.intercalate]
    rw [step, ih]
    simp

theorem decodeLine_sreportn (a : IndexSigned) (bs : List IndexSigned) (pivot : Option Index) :
    decodeLine (sreportn (a :: bs) pivot) =
      some (.ofNumbers a (bs.map readEntry) (pivot.getD (-1))) := by
  have text : sreportn (a :: bs) pivot =
      printLd a.toInt ++ (bs.flatMap (fun b => ' ' :: printLd b.toInt) ++ lineEnd pivot) := by
    simp [sreportn, intercalate_cons, List.flatMap_map]
  obtain ⟨sg, current, value, rest, sign, first⟩ := parseSign_printLd a
    (bs.flatMap (fun b => ' ' :: printLd b.toInt) ++ lineEnd pivot)
  obtain ⟨extra, parsed⟩ := parseRest_numbers sg bs [] current pivot
  have line : parseHisfileLine (sreportn (a :: bs) pivot) =
      some ⟨1 + bs.length, a :: (bs.map readEntry ++ extra), pivot.getD (-1)⟩ := by
    rw [parseHisfileLine, text, sign]
    simp only [first, parsed]
    simp [value]
  rw [decodeLine, line]
  simp [Nat.add_comm 1]

theorem kept_toInt_neg_iff (i : Index) : (-(i + 1) : IndexSigned).toInt < 0 ↔ i.toNat < 2 ^ 31 := by
  rw [toInt_neg_iff, BitVec.toNat_neg, BitVec.toNat_add, show (1 : Index).toNat = 1 from rfl]
  have := i.isLt
  omega

theorem ofNumbers_eq_iff (op : RowOp) (targets : List IndexSigned) (j : Index)
    (pivot : Option Index) :
    Addition.ofNumbers (op.entries.headD 0) targets j = op.addition pivot ↔
      op.source.toNat < 2 ^ 31 ∧ targets = op.targets ∧ j = pivot.getD (-1) := by
  have positive (i : Index) : ¬ i.toInt < 0 ↔ i.toNat < 2 ^ 31 := by
    rw [toInt_neg_iff, not_le]
  cases op with
  | alone i | destroyed i t =>
    rw [RowOp.source, ← positive i]
    by_cases neg : i.toInt < 0 <;>
      simp [Addition.ofNumbers, RowOp.entries, RowOp.addition, RowOp.destroy, RowOp.source, neg]
  | kept i t =>
    rw [RowOp.source, ← kept_toInt_neg_iff i]
    have restored : -(-(i + 1) : IndexSigned) - 1 = i := by ring
    by_cases neg : (-(i + 1) : IndexSigned).toInt < 0
    · simp only [Addition.ofNumbers, RowOp.entries, List.headD_cons, neg, if_true, restored]
      simp [RowOp.addition, RowOp.destroy, RowOp.source]
    · simp only [Addition.ofNumbers, RowOp.entries, List.headD_cons, neg, if_false]
      simp [RowOp.addition, RowOp.destroy]

theorem decodeLine_line (op : RowOp) (pivot : Option Index) : decodeLine (op.line pivot) =
    some (.ofNumbers (op.entries.headD 0) (op.targets.map readEntry) (pivot.getD (-1))) := by
  cases op <;> exact decodeLine_sreportn _ _ pivot

theorem decodeLine_line_iff (op : RowOp) (pivot : Option Index) :
    decodeLine (op.line pivot) = some (op.addition pivot) ↔
      op.source.toNat < 2 ^ 31 ∧ ∀ t ∈ op.targets, t.toNat < 2 ^ 31 ∨ t = 2179869184 := by
  rw [decodeLine_line, Option.some.injEq, ofNumbers_eq_iff]
  have targets : op.targets.map readEntry = op.targets ↔
      ∀ t ∈ op.targets, t.toNat < 2 ^ 31 ∨ t = 2179869184 := by
    simp only [← readEntry_eq_iff]
    cases op <;> simp [RowOp.targets]
  rw [targets]
  simp

theorem decodeLine_line_of_lt {op : RowOp} (source : op.source.toNat < 2 ^ 31)
    (targets : ∀ t ∈ op.targets, t.toNat < 2 ^ 31) (pivot : Option Index) :
    decodeLine (op.line pivot) = some (op.addition pivot) := by
  have same : op.targets.map readEntry = op.targets.map id :=
    List.map_congr_left fun t member => (readEntry_eq_iff t).mpr (.inl (targets t member))
  rw [decodeLine_line, Option.some.injEq, ofNumbers_eq_iff, same, List.map_id]
  exact ⟨source, rfl, rfl⟩

def sanityCheckMatrixSizes (nrows ncols : Nat) : Bool := nrows >>> 32 == 0 && ncols >>> 32 == 0

def fetchNrowsNcols (nr nc : Nat) : Bool := !(nr ≥ 2 ^ 32 - 1) && !(nc ≥ 2 ^ 32 - 1)

-- A row of index `2^31` is discarded by `merge`; `replay` keeps row `2^31 - 1` instead.
theorem decodeLine_upper_half : ¬ ∀ (nrows ncols : Nat) (op : RowOp) (pivot : Option Index),
    sanityCheckMatrixSizes nrows ncols → fetchNrowsNcols nrows ncols →
    op.source.toNat < nrows → (∀ t ∈ op.targets, t.toNat < nrows) →
    decodeLine (op.line pivot) = some (op.addition pivot) := by
  intro decodes
  have discarded := decodes (2 ^ 31 + 1) (2 ^ 31) (.alone (2 ^ 31)) none
    (by decide) (by decide) (by decide) (by simp [RowOp.targets])
  exact absurd discarded (by decide)

end CadoNfs.Filter
