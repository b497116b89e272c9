import CadoNfs.Utils.RelationFormat

/-!
# Round trips of relations

What `parse` gives back of a relation that `format_to` printed, in terms of the words that are printed for each prime.
-/

namespace CadoNfs.Utils.FilterIo
open Lib ExponentType PrimeType

variable {σ : Type} [LinearOrder σ]

section
variable {n bits : ℕ} {c : Char} {s : Text}

theorem countP_le_length (i : ℕ) (first : Bool) (xs : List ℤ) :
    xs.countP (· ≠ 0) ≤ (formatTerms i first xs).length + if first then 1 else 0 := by
  induction xs generalizing i first with
  | nil => simp
  | cons x xs ih =>
    by_cases zero : x = 0
    · simpa [formatTerms, zero] using ih (i + 1) first
    · have later := ih (i + 1) false
      simp only [Bool.false_eq_true, if_false, Nat.add_zero] at later
      have count : (x :: xs).countP (· ≠ 0) = xs.countP (· ≠ 0) + 1 := by simp [zero]
      rw [formatTerms, if_neg zero, formatTerm_eq zero, count]
      cases first with
      | true =>
        simp only [List.length_append, if_true]
        omega
      | false =>
        have sign : (if x < 0 then ['-'] else if (false : Bool) then [] else ['+']).length = 1 := by
          by_cases negative : x < 0 <;> simp [negative]
        rw [List.length_append, List.length_append, sign]
        simp only [Bool.false_eq_true, if_false]
        omega

theorem exists_ne_zero {e : List ℤ} (nonzero : (exponentVector n).isZero e = false) : ∃ x ∈ e, x ≠ 0 := by
  simpa [exponentVector] using nonzero

theorem parse_formatTerms {e : List ℤ} (length : e.length = n) (nonzero : (exponentVector n).isZero e = false)
    (ends : c = ',' ∨ c = ':' ∨ c = '\n') :
    (exponentVector n).parse (formatTerms 0 true e ++ c :: s) = some (readBack e, c :: s) := by
  have few := countP_le_length 0 true e
  subst length
  refine parseTerms_text 0 true _ e (fun _ => exists_ne_zero nonzero) ends ?_
  rw [List.length_append, List.length_cons]
  simp only [if_true] at few
  omega

theorem readBack_one : readBack (exponentVector n).one = (exponentVector n).one := by
  refine readBack_eq_iff.mpr ⟨?_, ?_⟩
  · rw [exponentVector, List.getElem?_cons_succ, List.getElem?_replicate]
    split_ifs <;> rfl
  · rintro ⟨-, y, found, negative⟩
    have zero := List.mem_of_find?_eq_some found
    rw [exponentVector, List.tail_cons] at zero
    have eq := (List.mem_replicate.mp zero).2
    omega

end

/-! ## Values of the types -/

namespace Relation

variable {E : Type}

/-- A value of a relation type with its primes sorted and nonzero exponents. -/
structure Valid (T : PrimeType σ E) (t : AbType) (R : Relation σ E) : Prop where
  ab : R.ab.InRange t
  p : ∀ x ∈ R.primes, x.p < 2 ^ min T.bits 64
  nonzero : ∀ x ∈ R.primes, T.exponent.isZero x.e = false
  sorted : R.primes.Pairwise fun x y => T.exponent.lePrime x y

def SidesInRange (R : Relation ℤ E) : Prop := ∀ x ∈ R.primes, 0 ≤ x.side ∧ x.side < R.nsides

variable {t : AbType} {base bits n : ℕ}

theorem exponentVector_order (n : ℕ) (e f : List ℤ) : (exponentVector n).le e f ↔ e ≤ f := decide_eq_true_iff

theorem Valid.rank_sorted [LinearOrder E] {T : PrimeType σ E} {R : Relation σ E} (valid : R.Valid T t)
    (order : ∀ e f, T.exponent.le e f ↔ e ≤ f) : R.primes.Pairwise fun x y => x.rank ≤ y.rank :=
  valid.sorted.imp (lePrime_iff order).mp

theorem side_le_of_rank_le [LinearOrder E] {x y : Prime ℤ E} (le : x.rank ≤ y.rank) : x.side ≤ y.side := by
  simp only [Prime.rank, Prod.Lex.toLex_le_toLex] at le
  exact le.elim le_of_lt fun same => same.1.le

theorem roundTripsSides_iff [LinearOrder E] {T : PrimeType ℤ E} {R : Relation ℤ E} {words : Prime ℤ E → List (Word E)}
    (side : ∀ k, T.side k = k) (order : ∀ e f, T.exponent.le e f ↔ e ≤ f) (one_lt : 1 < base) (small : base ≤ 16)
    (valid : R.Valid T t) (sides : R.SidesInRange) (prints : ∀ x ∈ R.primes, T.Prints x (words x)) :
    R.RoundTrips T t base (formatSides T base) ↔ R.ab.Readable t ∧ 0 < R.nsides ∧
      T.exponent.sortAndCompress (T.exponent.collate
        (R.primes.flatMap fun x => (words x).map fun w => ⟨x.side, w.p, w.e⟩)) = R.primes := by
  have reads : ∀ side ∈ Relation.sides words R.primes R.nsides.toNat, ∀ w ∈ side, T.Reads w := by
    intro side member w inside
    obtain ⟨k, -, rfl⟩ := List.mem_map.mp member
    obtain ⟨x, in_primes, in_words⟩ := List.mem_flatMap.mp inside
    exact (prints x (List.mem_of_mem_filter in_primes)).reads w in_words
  have below : R.primes.filter (fun x => x.side < (R.nsides.toNat : ℤ)) = R.primes :=
    List.filter_eq_self.mpr fun x member => by
      have := sides x member
      simp only [decide_eq_true_eq]
      omega
  have nonempty : Relation.sides words R.primes R.nsides.toNat ≠ [] ↔ 0 < R.nsides := by
    rw [Relation.sides, Ne, List.map_eq_nil_iff, List.range_eq_nil]
    omega
  rw [reads_roundTrips_iff one_lt small valid.ab (formatSides_eq sides prints) reads, nonempty,
    entries_sides words side ((valid.rank_sorted order).imp side_le_of_rank_le)
      (fun x member => (sides x member).1), below]
  rfl

theorem roundTripsIndices_iff {T : PrimeType Unit E} {R : Relation Unit E} {words : Prime Unit E → List (Word E)}
    (one_lt : 1 < base) (small : base ≤ 16) (valid : R.Valid T t) (prints : ∀ x ∈ R.primes, T.Prints x (words x)) :
    R.RoundTrips T t base (formatIndices T base) ↔ R.ab.Readable t ∧
      T.exponent.sortAndCompress (T.exponent.collate
        (R.primes.flatMap fun x => (words x).map fun w => ⟨x.side, w.p, w.e⟩)) = R.primes := by
  have reads : ∀ side ∈ [R.primes.flatMap words], ∀ w ∈ side, T.Reads w := by
    intro side member w inside
    rw [List.mem_singleton.mp member] at inside
    obtain ⟨x, in_primes, in_words⟩ := List.mem_flatMap.mp inside
    exact (prints x in_primes).reads w in_words
  have entries : T.entries 0 [R.primes.flatMap words] =
      R.primes.flatMap fun x => (words x).map fun w => ⟨x.side, w.p, w.e⟩ := by
    simp [PrimeType.entries, List.map_flatMap]
  rw [reads_roundTrips_iff one_lt small valid.ab (formatIndices_eq prints) reads, entries]
  exact and_congr_right fun _ => ⟨fun both => both.2, fun eq => ⟨fun no => absurd no (List.cons_ne_nil _ _), eq⟩⟩

theorem nonzero_of_valid {T : PrimeType σ ℤ} {R : Relation σ ℤ} (integers : T.exponent = intExponent)
    (valid : R.Valid T t) :
    ∀ x ∈ R.primes, x.e ≠ 0 := by
  intro x member
  have := valid.nonzero x member
  rw [integers] at this
  exact of_decide_eq_false this

omit [LinearOrder σ] in
theorem copies_entries (bits base : ℕ) (primes : List (Prime σ ℤ)) :
    (primes.flatMap fun x => (copies bits base x).map fun w => (⟨x.side, w.p, w.e⟩ : Prime σ ℤ)) =
      (primes.map (reread bits base)).flatMap unary := by
  rw [List.flatMap_map]
  exact List.flatMap_congr fun x _ => copies_eq

theorem indexed_primes_iff {R : Relation Unit ℤ} (valid : R.Valid (indexedType bits) t) :
    intExponent.sortAndCompress (intExponent.collate
      (R.primes.flatMap fun x => (copies bits 16 x).map fun w => ⟨x.side, w.p, w.e⟩)) = R.primes ↔
        Separated R.primes := by
  have nonzero := nonzero_of_valid rfl valid
  have same : R.primes.map (reread bits 16) = R.primes :=
    (List.map_congr_left fun x member => reread_eq (valid.p x member)).trans (List.map_id _)
  rw [copies_entries, same, collate_flatMap_unary nonzero,
    sortAndCompress_collate_iff intExponent_order (valid.rank_sorted intExponent_order) rfl]
  exact ⟨fun both => both.1, fun separated => ⟨separated, .refl _⟩⟩

end Relation

end CadoNfs.Utils.FilterIo
