import CadoNfs.Utils.RelationInts

/-!
# Relation lines

Lines of the documented grammar with integer exponents, and when `primes_block::parse` adds their exponents up.
-/

namespace CadoNfs.Utils.FilterIo
open Lib PrimeType

namespace Line

variable {base bits : ℕ} (L : Line base bits) {σ : Type} [LinearOrder σ]

def entries (T : PrimeType σ ℤ) : List (Prime σ ℤ) := T.entries 0 L.words

def runs (T : PrimeType σ ℤ) : List (Prime σ ℤ) := FilterIo.runs (L.entries T)

/-- `parse` returns the sum of the exponents that each side and prime has in the line, and no overflow is on the way. -/
def AddsUp (T : PrimeType σ ℤ) (t : AbType) : Prop :=
  ∃ R s, (T.inInts intExponents).parse t base '\n' L.text = some (Relation.ints R, s) ∧ Collates (L.entries T) R.primes

/-- An `int` holds the digits of every exponent, the sums in the runs of the line, and those of the sorted runs. -/
structure InInts (T : PrimeType σ ℤ) : Prop where
  digits : ∀ x ∈ L.entries T, x.e.natAbs < 2 ^ 31
  collated : ∀ n, ∀ x ∈ FilterIo.runs ((L.entries T).take n), InInt x.e
  compressed : FilterIo.InInts intExponent.compress [] (intExponent.sort (L.runs T))

variable {T : PrimeType σ ℤ} {t : AbType}

theorem parse_eq (integers : T.exponent = intExponent) (same_bits : T.bits = bits) :
    (T.inInts intExponents).parse t base '\n' L.text = (L.ab.cast t base).map fun w =>
      (⟨L.ab.block t base w, intExponents.sortAndCompress (((L.entries T).map readEntry).foldl
        intExponents.appendOrCollate []).reverse, L.words.length⟩, ['\n']) := by
  have nonempty : L.words.map (List.map Word.ints) ≠ [] :=
    fun none => L.nonempty (List.map_eq_nil_iff.mp (List.map_eq_nil_iff.mp none))
  have reads : ∀ side ∈ L.words.map (List.map Word.ints), ∀ w ∈ side, (T.inInts intExponents).Reads w := by
    intro side member w inside
    obtain ⟨words, in_words, rfl⟩ := List.mem_map.mp member
    obtain ⟨v, in_side, rfl⟩ := List.mem_map.mp inside
    exact (L.reads integers same_bits words in_words v in_side).ints integers
  have parsed := parse_text (t := t) (s := []) L.ab_wf L.base_le nonempty reads
  rw [sidesText_ints, entries_ints, List.length_map] at parsed
  exact parsed

theorem addsUp_iff (integers : T.exponent = intExponent) (same_bits : T.bits = bits) :
    L.AddsUp T t ↔ L.ab.Fits t base ∧ L.InInts T ∧ Collates (L.runs T) (intExponent.sortAndCompress (L.runs T)) := by
  have of_runs {result : List (Prime σ ℤ)} : Collates (L.entries T) result ↔ Collates (L.runs T) result := by
    constructor <;> rintro ⟨sorted, nonzero, total⟩ <;> refine ⟨sorted, nonzero, fun k => ?_⟩
    · rw [total, runs, total_runs]
    · rw [total, runs, total_runs]
  have prefixes : (∀ n, ∀ x ∈ FilterIo.runs ((L.entries T).take n), InInt x.e) ↔
      FilterIo.InInts intExponent.appendOrCollate [] (L.entries T) := by
    refine forall_congr' fun n => ?_
    rw [← appendOrCollate_eq_runs]
    exact forall_congr' fun x => by rw [List.mem_reverse]
  rw [AddsUp, AbText.fits_iff, L.parse_eq integers same_bits, of_runs.symm]
  by_cases digits : ∀ x ∈ L.entries T, x.e.natAbs < 2 ^ 31
  · have small : (L.entries T).map readEntry = (L.entries T).map Prime.ints :=
      List.map_congr_left fun x member => readEntry_eq (digits x member)
    have range : ∀ x ∈ L.entries T, InInt x.e := fun x member => by
      have := digits x member
      constructor <;> omega
    rw [small]
    constructor
    · rintro ⟨R, s, parsed, collates⟩
      obtain ⟨w, fits, eq⟩ := Option.map_eq_some_iff.mp parsed
      obtain ⟨⟨first, second⟩, same⟩ := (sortAndCompress_ints range).mp (congrArg (fun r => r.1.primes) eq)
      exact ⟨⟨w, fits⟩, ⟨digits, prefixes.mpr first, second⟩, same ▸ collates⟩
    · rintro ⟨⟨w, fits⟩, inInts, collates⟩
      have result := (sortAndCompress_ints range).mpr ⟨⟨prefixes.mp inInts.collated, inInts.compressed⟩, rfl⟩
      rw [fits, result]
      exact ⟨⟨L.ab.block t base w, intExponent.sortAndCompress (L.runs T), L.words.length⟩, ['\n'], rfl, collates⟩
  · refine iff_of_false ?_ fun all => digits all.2.1.digits
    rintro ⟨R, s, parsed, -⟩
    obtain ⟨w, -, eq⟩ := Option.map_eq_some_iff.mp parsed
    push Not at digits
    obtain ⟨x, member, large⟩ := digits
    refine not_undefined R.primes ?_
    rw [← show _ = R.primes.map Prime.ints from congrArg (fun r => r.1.primes) eq]
    refine undefined_sortAndCompress ?_
    obtain ⟨y, inside, bottom⟩ := checks_appendOrCollate.undefined_foldl (s := [])
      ⟨readEntry x, List.mem_append_left _ (List.mem_map_of_mem member), if_neg (not_lt.mpr large)⟩
    exact ⟨y, List.mem_reverse.mpr inside, bottom⟩

end Line

/-- The primes of a line add up if an `int` holds all that is computed, no index is left with zeros only, and, with
sides, no prime meets itself on the side before. -/
theorem Line.addsUp {base bits : ℕ} (L : Line base bits) (t : AbType) :
    (L.AddsUp (indexedType bits) t ↔ L.ab.Fits t base ∧ L.InInts (indexedType bits) ∧
        ∀ k, NoLoneZero k (L.runs (indexedType bits))) ∧
      (L.ab.Fits t base ∧ L.InInts (sieveType bits) ∧
          (∀ k, NoLoneZero k (L.runs (sieveType bits)) ∧ NoMerge k (L.runs (sieveType bits))) →
        L.AddsUp (sieveType bits) t) ∧
      ((∀ x ∈ L.runs (sieveType bits), x.e ≠ 0) →
        (L.AddsUp (sieveType bits) t ↔ L.ab.Fits t base ∧ L.InInts (sieveType bits) ∧
          ∀ k, NoMerge k (L.runs (sieveType bits)))) := by
  have indexed := L.addsUp_iff (T := indexedType bits) (t := t) rfl rfl
  have sieve := L.addsUp_iff (T := sieveType bits) (t := t) rfl rfl
  rw [indexed, sieve]
  refine ⟨and_congr_right fun _ => and_congr_right fun _ => ⟨noLoneZero_of_collates, fun no_lone => ?_⟩, ?_,
    fun nonzero => ?_⟩
  · exact collates_sortAndCompress (fun x _ => no_lone x.key) fun x _ => noMerge_unit
  · rintro ⟨fits, inInts, conditions⟩
    exact ⟨fits, inInts, collates_sortAndCompress (fun x _ => (conditions x.key).1) fun x _ => (conditions x.key).2⟩
  · have no_lone := noLoneZero_of_nonzero nonzero
    refine and_congr_right fun _ => and_congr_right fun _ => ⟨fun collates k => ?_, fun no_merge => ?_⟩
    · exact noMerge_of_forall (noMerge_of_collates (fun x _ => no_lone x.key) collates) k
    · exact collates_sortAndCompress (fun x _ => no_lone x.key) fun x _ => no_merge x.key

section
variable (digit : Char)

def lineSides : List (List PrimeText) := [[⟨false, ['5'], none⟩], [⟨false, [digit], none⟩]]

def lineAb : AbText := ⟨false, ['1'], ['1'], none⟩

theorem lineAb_wf : lineAb.WellFormed 10 where
  a := by simp [Digits, lineAb]; decide
  b := by simp [Digits, lineAb]; decide
  activeSides := nofun

theorem lineSides_ne : lineSides digit ≠ [] := nofun

theorem lineSides_wf (small : ugly digit < 16) : ∀ side ∈ lineSides digit, ∀ x ∈ side, x.WellFormed 64 := by
  have wf (c : Char) (small : ugly c < 16) : PrimeText.WellFormed 64 ⟨false, [c], none⟩ :=
    ⟨⟨nofun, by simpa [Digits] using small, nofun⟩, by
      rw [valueOf_cons, valueOf_nil, zero_mul, zero_add]
      exact small.trans (by decide)⟩
  simpa [lineSides] using ⟨wf '5' (by decide), wf digit small⟩

def lineOf (small : ugly digit < 16) : Line 10 64 :=
  ⟨lineAb, lineSides digit, by decide, lineAb_wf, lineSides_ne digit, lineSides_wf digit small⟩

end

theorem inInt_take {σ : Type} {f : List (Prime σ ℤ) → List (Prime σ ℤ)} {l : List (Prime σ ℤ)}
    (all : ∀ n < l.length + 1, ∀ x ∈ f (l.take n), InInt x.e) (n : ℕ) : ∀ x ∈ f (l.take n), InInt x.e := by
  rcases Nat.lt_or_ge n (l.length + 1) with inside | beyond
  · exact all n inside
  · have whole := all _ (Nat.lt_succ_self _)
    rwa [List.take_length, ← List.take_of_length_le (Nat.le_of_succ_le beyond)] at whole

theorem Line.addsUp_five_seven : (lineOf '7' (by decide)).AddsUp (indexedType 64) .uint64 ∧
    (lineOf '7' (by decide)).AddsUp (sieveType 64) .uint64 := by
  have fits : (lineOf '7' (by decide)).ab.Fits .uint64 10 := fun _ => by decide
  have indices : (lineOf '7' (by decide)).InInts (indexedType 64) :=
    ⟨by decide, inInt_take (f := FilterIo.runs) (by decide),
      fun n => inInt_take (f := fun l => l.foldl intExponent.compress []) (by decide) n⟩
  have sides : (lineOf '7' (by decide)).InInts (sieveType 64) :=
    ⟨by decide, inInt_take (f := FilterIo.runs) (by decide),
      fun n => inInt_take (f := fun l => l.foldl intExponent.compress []) (by decide) n⟩
  have nonzero : ∀ x ∈ (lineOf '7' (by decide)).runs (sieveType 64), x.e ≠ 0 := by decide
  obtain ⟨indexed, -, sieve⟩ := Line.addsUp (lineOf '7' (by decide)) .uint64
  exact ⟨indexed.mpr ⟨fits, indices, noLoneZero_of_nonzero (by decide)⟩,
    (sieve nonzero).mpr ⟨fits, sides, noMerge_of_one_side (by decide)⟩⟩

theorem Line.not_addsUp_five_five : ¬(lineOf '5' (by decide)).AddsUp (sieveType 64) .uint64 := by
  intro adds
  have second := ((lineOf '5' (by decide)).addsUp_iff rfl rfl |>.mp adds).2.2.total (toLex (1, 5))
  revert second
  decide

end CadoNfs.Utils.FilterIo
