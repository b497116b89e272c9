import CadoNfs.Utils.ExponentRoundTrip
import CadoNfs.Utils.RelationInts

/-!
# Round trips of the relation types

For each of the four types of relations, exactly the relations that `parse` gives back from what `format_to` printed.
-/

namespace CadoNfs.Utils.FilterIo
open Lib ExponentType PrimeType

variable {σ : Type} [LinearOrder σ]

section
variable (bits n : ℕ)

def sieveInts : PrimeType ℤ (WithBot ℤ) := (sieveType bits).inInts intExponents

-- The loop goes up to `-e`.
def indexedInts : PrimeType Unit (WithBot ℤ) :=
  let T := (indexedType bits).inInts intExponents
  { T with format := fun x => if intExponents.neg x.e = ⊥ then none else T.format x }

def tnfsSievedInts : PrimeType ℤ (WithBot (List ℤ)) := (tnfsSievedType bits n).inInts (intVectors n)

def tnfsIndexedInts : PrimeType Unit (WithBot (List ℤ)) := (tnfsIndexedType bits n).inInts (intVectors n)

end

/-! ## Exponents in unary -/

section
variable {x : Prime σ ℤ} {s : List (Prime σ (WithBot ℤ))}

def InRange (s : List (Prime σ (WithBot ℤ))) : Prop := ∀ y ∈ s, ∀ e : ℤ, y.e = e → InInt e

theorem add_add {y : WithBot ℤ} {a u : ℤ} (range : ∀ e : ℤ, y = e → InInt e)
    (signs : 0 ≤ a ∧ 0 ≤ u ∨ a ≤ 0 ∧ u ≤ 0) :
    intExponents.add (intExponents.add y a) u = intExponents.add y ((a + u : ℤ)) := by
  cases y with
  | bot => rfl
  | coe v =>
    have inside := range v rfl
    rw [add_ints, add_ints]
    by_cases first : InInt (v + a)
    · rw [if_pos first, add_ints, add_assoc]
    · have later : ¬ InInt (v + (a + u)) := by
        unfold InInt at *
        omega
      rw [if_neg first, if_neg later]
      rfl

theorem InRange.append (range : InRange s) (here : InInt x.e) : InRange (intExponents.appendOrCollate s x.ints) := by
  have alone (s : List (Prime σ (WithBot ℤ))) (range : InRange s) : InRange (x.ints :: s) := by
    intro y member e value
    rcases List.mem_cons.mp member with rfl | member
    · exact WithBot.coe_injective value ▸ here
    · exact range y member e value
  cases s with
  | nil => exact alone [] nofun
  | cons y s =>
    by_cases same : x.p = y.p ∧ y.side = x.side
    · have one : intExponents.appendOrCollate (y :: s) x.ints = { y with e := intExponents.add y.e x.e } :: s := if_pos same
      rw [one]
      intro z member e value
      rcases List.mem_cons.mp member with rfl | member
      · cases start : y.e with
        | bot =>
          rw [show intExponents.add y.e x.e = ⊥ from add_undefined (.inl start)] at value
          cases value
        | coe v =>
          dsimp only at value
          rw [start, add_ints] at value
          split_ifs at value with fits
          · exact WithBot.coe_injective value ▸ fits
          · cases value
      · exact range z (.tail _ member) e value
    · have one : intExponents.appendOrCollate (y :: s) x.ints = x.ints :: y :: s := if_neg same
      rw [one]
      exact alone (y :: s) range

theorem append_twice (side : σ) (p : ℕ) (range : InRange s) {a u : ℤ} (fits : InInt (a + u))
    (signs : 0 ≤ a ∧ 0 ≤ u ∨ a ≤ 0 ∧ u ≤ 0) :
    intExponents.appendOrCollate (intExponents.appendOrCollate s (Prime.ints ⟨side, p, a⟩)) (Prime.ints ⟨side, p, u⟩) =
      intExponents.appendOrCollate s (Prime.ints ⟨side, p, a + u⟩) := by
  have alone (s : List (Prime σ (WithBot ℤ))) :
      intExponents.appendOrCollate (Prime.ints ⟨side, p, a⟩ :: s) (Prime.ints ⟨side, p, u⟩) =
        Prime.ints ⟨side, p, a + u⟩ :: s := by
    have one : intExponents.appendOrCollate (Prime.ints ⟨side, p, a⟩ :: s) (Prime.ints ⟨side, p, u⟩) =
        ⟨side, p, intExponents.add a u⟩ :: s := if_pos ⟨rfl, rfl⟩
    rw [one, add_ints, if_pos fits]
    rfl
  cases s with
  | nil => exact alone []
  | cons y s =>
    by_cases same : p = y.p ∧ y.side = side
    · have one (e : ℤ) (y' : Prime σ (WithBot ℤ)) (same : p = y'.p ∧ y'.side = side) :
          intExponents.appendOrCollate (y' :: s) (Prime.ints ⟨side, p, e⟩) =
            { y' with e := intExponents.add y'.e e } :: s := if_pos same
      have two := one u { y with e := intExponents.add y.e a } same
      rw [one a y same, one (a + u) y same, two]
      dsimp only
      rw [add_add (range y (.head _)) signs]
    · have one (e : ℤ) : intExponents.appendOrCollate (y :: s) (Prime.ints ⟨side, p, e⟩) =
          Prime.ints ⟨side, p, e⟩ :: y :: s := if_neg same
      rw [one a, one (a + u)]
      exact alone (y :: s)

theorem append_replicate (side : σ) (p : ℕ) (range : InRange s) {u : ℤ} (n : ℕ) (fits : InInt ((n + 1 : ℕ) * u))
    (small : u = 1 ∨ u = -1) :
    (List.replicate (n + 1) (Prime.ints ⟨side, p, u⟩)).foldl intExponents.appendOrCollate s =
      intExponents.appendOrCollate s (Prime.ints ⟨side, p, (n + 1 : ℕ) * u⟩) := by
  induction n with
  | zero =>
    rw [Nat.zero_add, Nat.cast_one, one_mul]
    rfl
  | succ n ih =>
    have before : InInt ((n + 1 : ℕ) * u) := by
      unfold InInt at *
      rcases small with rfl | rfl <;> omega
    have last : ((n + 1 + 1 : ℕ) : ℤ) * u = (n + 1 : ℕ) * u + u := by
      push_cast
      ring
    rw [last] at fits ⊢
    rw [List.replicate_succ', List.foldl_append, ih before]
    exact append_twice side p range fits (by rcases small with rfl | rfl <;> omega)

theorem foldl_unary (range : InRange s) (nonzero : x.e ≠ 0) (fits : InInt x.e) :
    ((unary x).map Prime.ints).foldl intExponents.appendOrCollate s = intExponents.appendOrCollate s x.ints := by
  obtain ⟨n, eq⟩ := Nat.exists_eq_succ_of_ne_zero (Int.natAbs_ne_zero.mpr nonzero)
  have value : ((n + 1 : ℕ) : ℤ) * (if x.e < 0 then -1 else 1) = x.e := by
    split_ifs <;> omega
  have replicated := append_replicate x.side x.p range n (value ▸ fits) (by split_ifs <;> simp)
  rw [value] at replicated
  rw [unary, eq, List.map_replicate]
  exact replicated

theorem foldl_flatMap_unary {xs : List (Prime σ ℤ)} (range : InRange s)
    (values : ∀ x ∈ xs, x.e ≠ 0 ∧ InInt x.e) :
    ((xs.flatMap unary).map Prime.ints).foldl intExponents.appendOrCollate s =
      (xs.map Prime.ints).foldl intExponents.appendOrCollate s := by
  induction xs generalizing s with
  | nil => rfl
  | cons x xs ih =>
    obtain ⟨⟨nonzero, fits⟩, later⟩ := List.forall_mem_cons.mp values
    rw [List.flatMap_cons, List.map_append, List.foldl_append, foldl_unary range nonzero fits, List.map_cons,
      List.foldl_cons, ih (range.append fits) later]

end

theorem mapM_eq_none {α β : Type} {f : α → Option β} {l : List α} {x : α} (inside : x ∈ l) (none : f x = none) :
    l.mapM f = Option.none := by
  induction l with
  | nil => cases inside
  | cons y l ih =>
    rw [List.mapM_cons]
    rcases List.mem_cons.mp inside with rfl | inside
    · rw [none]
      rfl
    · rw [ih inside]
      cases f y <;> rfl

/-! ## Values with `int` exponents -/

section
variable {E : Type} [LinearOrder E] {bits base : ℕ} {t : AbType} {R : Relation σ E} {T : PrimeType σ E}
  {primes : List (Prime σ E)}

theorem sorted_ints (sorted : primes.Pairwise fun x y => x.rank ≤ y.rank) :
    (primes.map Prime.ints).Pairwise fun x y => x.rank ≤ y.rank := by
  refine List.pairwise_map.mpr (sorted.imp fun {x y} le => ?_)
  simpa [Prime.rank, Prime.ints, Prod.Lex.toLex_le_toLex] using le

omit [LinearOrder σ] [LinearOrder E] in
theorem separated_ints : Separated (primes.map Prime.ints) ↔ Separated primes := List.isChain_map _

omit [LinearOrder σ] [LinearOrder E] in
theorem perm_ints {ps qs : List (Prime σ E)} : (ps.map Prime.ints).Perm (qs.map Prime.ints) ↔ ps.Perm qs :=
  List.map_perm_map_iff ints_injective

theorem Relation.Valid.ints (valid : R.Valid T t) (order : ∀ e f, T.exponent.le e f ↔ e ≤ f) (fits : E → Bool)
    (parse : Text → Option (WithBot E × Text)) : R.ints.Valid (T.inInts (T.exponent.inInts fits parse)) t where
  ab := valid.ab
  p x member := by
    obtain ⟨y, inside, rfl⟩ := List.mem_map.mp member
    exact valid.p y inside
  nonzero x member := by
    obtain ⟨y, inside, rfl⟩ := List.mem_map.mp member
    exact valid.nonzero y inside
  sorted := (sorted_ints (valid.rank_sorted order)).imp (lePrime_iff fun _ _ => decide_eq_true_iff).mpr

theorem unary_iff {xs primes : List (Prime σ ℤ)} (sorted : primes.Pairwise fun x y => x.rank ≤ y.rank)
    (values : ∀ x ∈ xs, x.e ≠ 0 ∧ InInt x.e) (length : xs.length = primes.length) :
    intExponents.sortAndCompress (intExponents.collate ((xs.flatMap unary).map Prime.ints)) = primes.map Prime.ints ↔
      Separated primes ∧ xs.Perm primes := by
  have collated : intExponents.collate ((xs.flatMap unary).map Prime.ints) = intExponents.collate (xs.map Prime.ints) :=
    congrArg List.reverse (foldl_flatMap_unary nofun values)
  rw [collated, sortAndCompress_collate_iff (fun _ _ => decide_eq_true_iff) (sorted_ints sorted) (by simpa using length),
    separated_ints, perm_ints]

def intCopies (bits base : ℕ) (x : Prime σ (WithBot ℤ)) : List (Word (WithBot ℤ)) :=
  (copies bits base ⟨x.side, x.p, x.e.unbotD 0⟩).map Word.ints

omit [LinearOrder σ] in
theorem intCopies_entries (bits base : ℕ) (primes : List (Prime σ ℤ)) :
    ((primes.map Prime.ints).flatMap fun x => (intCopies bits base x).map fun w => (⟨x.side, w.p, w.e⟩ :
      Prime σ (WithBot ℤ))) = ((primes.map (reread bits base)).flatMap unary).map Prime.ints := by
  rw [← Relation.copies_entries, List.flatMap_map, List.map_flatMap]
  refine List.flatMap_congr fun x _ => ?_
  change (List.map Word.ints (copies bits base x)).map _ = List.map _ (List.map _ _)
  rw [List.map_map, List.map_map]
  refine List.map_congr_left fun w member => ?_
  have small : w.e.natAbs < 2 ^ 31 := by
    rw [(List.mem_replicate.mp member).2]
    change (PrimeText.signed (decide (x.e < 0)) 1).natAbs < 2 ^ 31
    unfold PrimeText.signed
    split_ifs <;> decide
  exact readEntry_eq (x := ⟨x.side, w.p, w.e⟩) small

theorem PrimeType.Prints.ints {T : PrimeType σ ℤ} {x : Prime σ ℤ} {words : List (Word ℤ)} (prints : T.Prints x words)
    (integers : T.exponent = intExponent) : (T.inInts intExponents).Prints x.ints (words.map Word.ints) where
  nonempty none := prints.nonempty (List.map_eq_nil_iff.mp none)
  format := by
    have same := sidesText_ints [words]
    simp only [sidesText, List.map_cons, List.map_nil, List.flatMap_cons, List.flatMap_nil, List.append_nil,
      List.cons.injEq, true_and] at same
    rw [same]
    exact prints.format
  reads w member := by
    obtain ⟨v, inside, rfl⟩ := List.mem_map.mp member
    exact (prints.reads v inside).ints integers

end

namespace Relation
variable {base bits n : ℕ} {t : AbType}

omit [LinearOrder σ] in
theorem reread_values {R : Relation σ ℤ} (nonzero : ∀ x ∈ R.primes, x.e ≠ 0) (range : ∀ x ∈ R.primes, InInt x.e)
    (bits base : ℕ) : ∀ x ∈ R.primes.map (reread bits base), x.e ≠ 0 ∧ InInt x.e := by
  intro x member
  obtain ⟨y, inside, rfl⟩ := List.mem_map.mp member
  exact ⟨nonzero y inside, range y inside⟩

theorem sieve_iff {R : Relation ℤ ℤ} (one_lt : 1 < base) (small : base ≤ 16) (valid : R.Valid (sieveType bits) t)
    (range : ∀ x ∈ R.primes, InInt x.e) (sides : R.SidesInRange) (nonneg : ∀ x ∈ R.primes, 0 ≤ x.e) :
    R.ints.RoundTrips (sieveInts bits) t base (formatSides (sieveInts bits) base) ↔ R.ab.Readable t ∧ 0 < R.nsides ∧
      Separated R.primes ∧ (R.primes.map (reread bits 10)).Perm R.primes := by
  have nonzero := nonzero_of_valid rfl valid
  have prints : ∀ x ∈ R.ints.primes, (sieveInts bits).Prints x (intCopies bits 10 x) := by
    intro x member
    obtain ⟨y, inside, rfl⟩ := List.mem_map.mp member
    exact (prints_sieve (lt_of_le_of_ne (nonneg y inside) (nonzero y inside).symm)).ints rfl
  have sides : R.ints.SidesInRange := by
    intro x member
    obtain ⟨y, inside, rfl⟩ := List.mem_map.mp member
    exact sides y inside
  rw [roundTripsSides_iff (T := sieveInts bits) (fun _ => rfl) (fun _ _ => decide_eq_true_iff) one_lt small
    (valid.ints intExponent_order _ _) sides prints]
  refine and_congr_right fun _ => and_congr_right fun _ => ?_
  have entries := intCopies_entries bits 10 R.primes
  change intExponents.sortAndCompress (intExponents.collate ((R.primes.map Prime.ints).flatMap _)) =
    R.primes.map Prime.ints ↔ _
  rw [entries, unary_iff (valid.rank_sorted intExponent_order) (reread_values nonzero range bits 10)
    (List.length_map ..)]

theorem indexed_iff {R : Relation Unit ℤ} (one_lt : 1 < base) (small : base ≤ 16)
    (valid : R.Valid (indexedType bits) t) (range : ∀ x ∈ R.primes, InInt x.e) :
    R.ints.RoundTrips (indexedInts bits) t base (formatIndices (indexedInts bits) base) ↔
      R.ab.Readable t ∧ Separated R.primes ∧ ∀ x ∈ R.primes, x.e ≠ -2 ^ 31 := by
  have nonzero := nonzero_of_valid rfl valid
  have negated {x : Prime Unit ℤ} (inside : x ∈ R.primes) : intExponents.neg x.e = ⊥ ↔ x.e = -2 ^ 31 := by
    have fits := range x inside
    change defined (fun e => decide (InInt e)) (-x.e) = ⊥ ↔ _
    unfold defined
    simp only [decide_eq_true_eq]
    split_ifs with other
    · refine iff_of_false WithBot.coe_ne_bot fun least => ?_
      rw [least] at other
      exact absurd other (by decide)
    · refine iff_of_true rfl ?_
      unfold InInt at *
      omega
  by_cases least : ∃ x ∈ R.primes, x.e = -2 ^ 31
  · obtain ⟨x, inside, value⟩ := least
    refine iff_of_false ?_ fun all => all.2.2 x inside value
    rintro ⟨text, formatted, -⟩
    have none : (indexedInts bits).format x.ints = none := if_pos ((negated inside).mpr value)
    have fails := mapM_eq_none (List.mem_map_of_mem inside) none
    unfold formatIndices formatPrimes at formatted
    rw [show R.ints.primes.mapM (indexedInts bits).format = Option.none from fails] at formatted
    cases formatted
  · push Not at least
    have prints : ∀ x ∈ R.ints.primes, (indexedInts bits).Prints x (intCopies bits 16 x) := by
      intro x member
      obtain ⟨y, inside, rfl⟩ := List.mem_map.mp member
      have printed : (indexedType bits).Prints y (copies bits 16 y) := prints_indexed (nonzero y inside)
      obtain ⟨nonempty, format, reads⟩ := printed.ints rfl
      exact ⟨nonempty, (if_neg ((negated inside).not.mpr (least y inside))).trans format,
        fun w member => ⟨(reads w member).head, (reads w member).parse⟩⟩
    have valid' := valid.ints intExponent_order (fun e => InInt e) fun _ => none
    have same : R.primes.map (reread bits 16) = R.primes :=
      (List.map_congr_left fun x member => reread_eq (valid.p x member)).trans (List.map_id _)
    rw [roundTripsIndices_iff (T := indexedInts bits) one_lt small ⟨valid'.ab, valid'.p, valid'.nonzero, valid'.sorted⟩
      prints]
    refine and_congr_right fun _ => ?_
    have entries := intCopies_entries bits 16 R.primes
    change intExponents.sortAndCompress (intExponents.collate ((R.primes.map Prime.ints).flatMap _)) =
      R.primes.map Prime.ints ↔ _
    rw [entries, same, unary_iff (valid.rank_sorted intExponent_order) (fun x member => ⟨nonzero x member, range x member⟩)
      rfl]
    exact ⟨fun both => ⟨both.1, least⟩, fun all => ⟨all.1, .refl _⟩⟩

end Relation

/-! ## Exponents that are vectors -/

section
variable {n bits : ℕ} {e : List ℤ}

def vectorValue (n : ℕ) (e : List ℤ) : WithBot (List ℤ) :=
  if e = (exponentVector n).one then e else readVector n (formatVector e ++ [','])

def vectorWord (n : ℕ) (x : Prime σ (WithBot (List ℤ))) : Word (WithBot (List ℤ)) :=
  let e := x.e.unbotD []
  ⟨Nat.toDigits 16 x.p ++ if e = (exponentVector n).one then [] else '/' :: formatTerms 0 true e, x.p, vectorValue n e⟩

theorem pos_of_vector (length : e.length = n) (nonzero : (exponentVector n).isZero e = false) : 0 < n := by
  obtain ⟨x, member, -⟩ := exists_ne_zero nonzero
  exact length ▸ List.length_pos_of_mem member

theorem parseVector_terminated (length : e.length = n) (nonzero : (exponentVector n).isZero e = false) :
    ∃ v : Option (List ℤ), ∀ s, Terminated s → parseVector n (formatVector e ++ s) = v.map (·, s) := by
  obtain ⟨p, terms, text⟩ := formatTerms_text (i := 0) (exists_ne_zero nonzero)
  have wellFormed : p.WellFormed := fun t among => by
    rw [terms] at among
    obtain ⟨j, x, -, -, rfl⟩ := mem_entryTerms.mp among
    exact entryTerm_wellFormed _ x
  obtain ⟨l, -, -, -, parse⟩ := PolyText.parseVector_text (pos_of_vector length nonzero) wellFormed
  refine ⟨if TermsFit n (sumOf n []) l then some (sumOf n l) else none, fun s terminated => ?_⟩
  rw [formatVector, text, parse s terminated]
  split_ifs
  · rfl
  · rfl

theorem parse_intVectors {c : Char} {s : Text} (length : e.length = n) (nonzero : (exponentVector n).isZero e = false)
    (ends : c = ',' ∨ c = ':' ∨ c = '\n') :
    (intVectors n).parse (formatTerms 0 true e ++ c :: s) = some (readVector n (formatVector e ++ [',']), c :: s) := by
  obtain ⟨v, read⟩ := parseVector_terminated length nonzero
  have here : readVector n (formatVector e ++ c :: s) = readVector n (formatVector e ++ [',']) := by
    unfold readVector
    rw [read _ ⟨c, s, rfl, ends.imp_right (Or.imp_right .inl)⟩, read _ ⟨',', [], rfl, .inl rfl⟩]
    cases v <;> rfl
  change ((exponentVector n).parse (formatTerms 0 true e ++ c :: s)).map _ = _
  rw [parse_formatTerms length nonzero ends, ← here]
  rfl

theorem vectorValue_iff (small : n < 2 ^ 31) (length : e.length = n) (nonzero : (exponentVector n).isZero e = false)
    (range : ∀ x ∈ e, InInt x) : vectorValue n e = e ↔ Readable e ∧ -2 ^ 31 ∉ e := by
  unfold vectorValue
  split_ifs with one
  · refine iff_of_true rfl ⟨one ▸ readBack_eq_iff.mp readBack_one, fun least => ?_⟩
    rw [one] at least
    rcases List.mem_cons.mp least with eq | member
    · cases eq
    · cases List.eq_of_mem_replicate member
  · obtain ⟨v, read⟩ := parseVector_terminated length nonzero
    have comma : Terminated [','] := ⟨',', [], rfl, .inl rfl⟩
    rw [← parseVector_formatVector (pos_of_vector length nonzero) small length range (exists_ne_zero nonzero) comma]
    unfold readVector
    rw [read _ comma]
    cases v with
    | none => exact iff_of_false nofun nofun
    | some w =>
      constructor
      · intro same
        rw [show w = e from Option.some.inj same]
        rfl
      · intro same
        rw [show w = e from congrArg Prod.fst (Option.some.inj same)]
        rfl

structure IsTnfs (n bits : ℕ) (T : PrimeType σ (List ℤ)) : Prop where
  bits : T.bits = bits
  exponent : T.exponent = exponentVector n
  format : ∀ x, T.format x = formatTnfs n x.p x.e

variable {T : PrimeType σ (List ℤ)} {x : Prime σ (List ℤ)}

theorem IsTnfs.prints (tnfs : IsTnfs n bits T) (lt : x.p < 2 ^ min bits 64) (length : x.e.length = n)
    (nonzero : (exponentVector n).isZero x.e = false) : (T.inInts (intVectors n)).Prints x.ints [vectorWord n x.ints] where
  nonempty := nofun
  format := by
    change T.format x = _
    rw [tnfs.format, formatTnfs, nonzero]
    simp [sideText, vectorWord, Prime.ints]
    rfl
  reads := by
    intro w member
    obtain rfl := List.mem_singleton.mp member
    obtain ⟨d, t, digits⟩ := List.exists_cons_of_ne_nil (Nat.toDigits_ne_nil (n := x.p) (b := 16))
    have digit := AbBlock.digits_toDigits (show 1 < 16 by decide) le_rfl x.p
    have d_digit := digit d (digits ▸ List.mem_cons_self ..)
    have text : (vectorWord n x.ints).text =
        Nat.toDigits 16 x.p ++ if x.e = (exponentVector n).one then [] else '/' :: formatTerms 0 true x.e := rfl
    refine ⟨⟨d, t ++ _, by rw [text, digits, List.cons_append], ?_, ?_⟩, ?_⟩
    · rintro rfl
      exact absurd d_digit (by decide)
    · rintro rfl
      exact absurd d_digit (by decide)
    · intro st c s ends
      have not_minus (u : Text) : (cur (Nat.toDigits 16 x.p ++ u) == '-') = false := by
        rw [digits]
        refine beq_eq_false_iff_ne.mpr ?_
        rintro minus
        rw [show d = '-' from minus] at d_digit
        exact absurd d_digit (by decide)
      have value := AbBlock.valueOf_toDigits (show 1 < 16 by decide) le_rfl x.p
      have p_eq : x.p % 2 ^ 64 % 2 ^ T.bits = x.p := by
        rw [tnfs.bits, Nat.mod_eq_of_lt (lt.trans_le (Nat.pow_le_pow_right two_pos (min_le_right ..))),
          Nat.mod_eq_of_lt (lt.trans_le (Nat.pow_le_pow_right two_pos (min_le_left ..)))]
      rw [text, parsePrime]
      by_cases one : x.e = (exponentVector n).one
      · have stop : ugly c = 255 := by rcases ends with rfl | rfl | rfl <;> rfl
        have not_slash : c ≠ '/' := by rcases ends with rfl | rfl | rfl <;> decide
        have word : (vectorWord n x.ints).e = x.e := if_pos one
        simp only [one, if_true, List.append_nil, not_minus, Bool.false_eq_true, if_false, digit.readNumber le_rfl stop,
          value, PrimeType.inInts, p_eq, cur_cons, not_slash, word]
        rfl
      · have word : (vectorWord n x.ints).e = readVector n (formatVector x.e ++ [',']) := if_neg one
        simp only [one, if_false, List.append_assoc, List.cons_append, not_minus, Bool.false_eq_true,
          digit.readNumber (c := '/') le_rfl rfl, value, PrimeType.inInts, p_eq, cur_cons, if_true, List.tail_cons,
          parse_intVectors length nonzero ends, word]
        rfl

theorem Relation.Valid.prints {R : Relation σ (List ℤ)} {t : AbType} (valid : R.Valid T t) (tnfs : IsTnfs n bits T)
    (length : ∀ x ∈ R.primes, x.e.length = n) :
    ∀ x ∈ R.ints.primes, (T.inInts (intVectors n)).Prints x [vectorWord n x] := by
  intro x member
  obtain ⟨y, inside, rfl⟩ := List.mem_map.mp member
  exact tnfs.prints (tnfs.bits ▸ valid.p y inside) (length y inside) (tnfs.exponent ▸ valid.nonzero y inside)

omit [LinearOrder σ] in
theorem vectorWord_entries (primes : List (Prime σ (List ℤ))) :
    ((primes.map Prime.ints).flatMap fun x => [vectorWord n x].map fun w => (⟨x.side, w.p, w.e⟩ :
      Prime σ (WithBot (List ℤ)))) = primes.map fun x => { x.ints with e := vectorValue n x.e } := by
  rw [List.flatMap_map]
  exact List.map_eq_flatMap.symm

theorem vectors_iff {primes : List (Prime σ (List ℤ))} (sorted : primes.Pairwise fun x y => x.rank ≤ y.rank)
    (small : n < 2 ^ 31) (values : ∀ x ∈ primes, x.e.length = n ∧ (exponentVector n).isZero x.e = false ∧
      ∀ c ∈ x.e, InInt c) :
    (intVectors n).sortAndCompress ((intVectors n).collate (primes.map fun x => { x.ints with e := vectorValue n x.e })) =
      primes.map Prime.ints ↔ Separated primes ∧ ∀ x ∈ primes, Readable x.e ∧ -2 ^ 31 ∉ x.e := by
  have read {x : Prime σ (List ℤ)} (member : x ∈ primes) : vectorValue n x.e = x.e ↔ Readable x.e ∧ -2 ^ 31 ∉ x.e := by
    obtain ⟨length, nonzero, range⟩ := values x member
    exact vectorValue_iff small length nonzero range
  rw [sortAndCompress_collate_iff (fun _ _ => decide_eq_true_iff) (sorted_ints sorted)
    ((List.length_map ..).trans (List.length_map ..).symm), separated_ints]
  refine and_congr_right fun separated => ⟨fun perm x member => ?_, fun readable => ?_⟩
  · have inside := perm.mem_iff.mp (List.mem_map_of_mem member)
    have distinct : ((primes.map Prime.ints).map Prime.key).Nodup :=
      List.pairwise_map.mpr (sorted_distinct (sorted_ints sorted) (separated_ints.mpr separated))
    have same : ({ x.ints with e := vectorValue n x.e } : Prime σ (WithBot (List ℤ))) = x.ints :=
      List.inj_on_of_nodup_map distinct inside (List.mem_map_of_mem member) rfl
    exact (read member).mp (congrArg Prime.e same)
  · refine .of_eq (List.map_congr_left fun x member => ?_)
    rw [(read member).mpr (readable x member)]
    rfl

end

namespace Relation
variable {base bits n : ℕ} {t : AbType}

theorem tnfsSieved_iff {R : Relation ℤ (List ℤ)} (one_lt : 1 < base) (small : base ≤ 16) (few : n < 2 ^ 31)
    (valid : R.Valid (tnfsSievedType bits n) t) (sides : R.SidesInRange)
    (vectors : ∀ x ∈ R.primes, x.e.length = n ∧ ∀ c ∈ x.e, InInt c) :
    R.ints.RoundTrips (tnfsSievedInts bits n) t base (formatSides (tnfsSievedInts bits n) base) ↔ R.ab.Readable t ∧
      0 < R.nsides ∧ Separated R.primes ∧ ∀ x ∈ R.primes, FilterIo.Readable x.e ∧ -2 ^ 31 ∉ x.e := by
  have tnfs : IsTnfs n bits (tnfsSievedType bits n) := ⟨rfl, rfl, fun _ => rfl⟩
  have sides : R.ints.SidesInRange := by
    intro x member
    obtain ⟨y, inside, rfl⟩ := List.mem_map.mp member
    exact sides y inside
  rw [roundTripsSides_iff (T := tnfsSievedInts bits n) (fun _ => rfl) (fun _ _ => decide_eq_true_iff) one_lt small
    (valid.ints (exponentVector_order n) _ _) sides (valid.prints tnfs fun x member => (vectors x member).1),
    show R.ints.primes = R.primes.map Prime.ints from rfl,
    vectorWord_entries]
  exact and_congr_right fun _ => and_congr_right fun _ => vectors_iff (valid.rank_sorted (exponentVector_order n)) few
    fun x member => ⟨(vectors x member).1, valid.nonzero x member, (vectors x member).2⟩

theorem tnfsIndexed_iff {R : Relation Unit (List ℤ)} (one_lt : 1 < base) (small : base ≤ 16) (few : n < 2 ^ 31)
    (valid : R.Valid (tnfsIndexedType bits n) t) (vectors : ∀ x ∈ R.primes, x.e.length = n ∧ ∀ c ∈ x.e, InInt c) :
    R.ints.RoundTrips (tnfsIndexedInts bits n) t base (formatIndices (tnfsIndexedInts bits n) base) ↔ R.ab.Readable t ∧
      Separated R.primes ∧ ∀ x ∈ R.primes, FilterIo.Readable x.e ∧ -2 ^ 31 ∉ x.e := by
  have tnfs : IsTnfs n bits (tnfsIndexedType bits n) := ⟨rfl, rfl, fun _ => rfl⟩
  rw [roundTripsIndices_iff (T := tnfsIndexedInts bits n) one_lt small (valid.ints (exponentVector_order n) _ _)
      (valid.prints tnfs fun x member => (vectors x member).1),
    show R.ints.primes = R.primes.map Prime.ints from rfl, vectorWord_entries]
  exact and_congr_right fun _ => vectors_iff (valid.rank_sorted (exponentVector_order n)) few
    fun x member => ⟨(vectors x member).1, valid.nonzero x member, (vectors x member).2⟩

/-- The relations that come back, in each format. -/
theorem formats_roundTrip (base : ℕ) (one_lt : 1 < base) (small : base ≤ 16) (t : AbType) (bits n : ℕ)
    (few : n < 2 ^ 31) :
    (∀ R : Relation ℤ ℤ, R.Valid (sieveType bits) t → (∀ x ∈ R.primes, InInt x.e) → R.SidesInRange →
      (∀ x ∈ R.primes, 0 ≤ x.e) →
      (R.ints.RoundTrips (sieveInts bits) t base (formatSides (sieveInts bits) base) ↔ R.ab.Readable t ∧ 0 < R.nsides ∧
        Separated R.primes ∧ (R.primes.map (reread bits 10)).Perm R.primes)) ∧
    (∀ R : Relation Unit ℤ, R.Valid (indexedType bits) t → (∀ x ∈ R.primes, InInt x.e) →
      (R.ints.RoundTrips (indexedInts bits) t base (formatIndices (indexedInts bits) base) ↔ R.ab.Readable t ∧
        Separated R.primes ∧ ∀ x ∈ R.primes, x.e ≠ -2 ^ 31)) ∧
    (∀ R : Relation ℤ (List ℤ), R.Valid (tnfsSievedType bits n) t → R.SidesInRange →
      (∀ x ∈ R.primes, x.e.length = n ∧ ∀ c ∈ x.e, InInt c) →
      (R.ints.RoundTrips (tnfsSievedInts bits n) t base (formatSides (tnfsSievedInts bits n) base) ↔ R.ab.Readable t ∧
        0 < R.nsides ∧ Separated R.primes ∧ ∀ x ∈ R.primes, FilterIo.Readable x.e ∧ -2 ^ 31 ∉ x.e)) ∧
    ∀ R : Relation Unit (List ℤ), R.Valid (tnfsIndexedType bits n) t →
      (∀ x ∈ R.primes, x.e.length = n ∧ ∀ c ∈ x.e, InInt c) →
      (R.ints.RoundTrips (tnfsIndexedInts bits n) t base (formatIndices (tnfsIndexedInts bits n) base) ↔
        R.ab.Readable t ∧ Separated R.primes ∧ ∀ x ∈ R.primes, FilterIo.Readable x.e ∧ -2 ^ 31 ∉ x.e) :=
  ⟨fun _ => sieve_iff one_lt small, fun _ => indexed_iff one_lt small, fun _ => tnfsSieved_iff one_lt small few,
    fun _ => tnfsIndexed_iff one_lt small few⟩

theorem formats_roundTrip_five :
    (ints ⟨⟨1, 1, (0, 1)⟩, [⟨0, 5, 1⟩], 2⟩ : Relation ℤ (WithBot ℤ)).RoundTrips (sieveInts 64) .uint64 10
      (formatSides (sieveInts 64) 10) ∧
    (ints ⟨⟨1, 1, (0, 1)⟩, [⟨(), 5, -1⟩], 1⟩ : Relation Unit (WithBot ℤ)).RoundTrips (indexedInts 64) .uint64 16
      (formatIndices (indexedInts 64) 16) ∧
    (ints ⟨⟨1, 1, (0, 1)⟩, [⟨0, 5, [0, -2]⟩], 2⟩ : Relation ℤ (WithBot (List ℤ))).RoundTrips (tnfsSievedInts 64 2)
      .uint64 10 (formatSides (tnfsSievedInts 64 2) 10) ∧
    (ints ⟨⟨1, 1, (0, 1)⟩, [⟨(), 5, [0, -2]⟩], 1⟩ : Relation Unit (WithBot (List ℤ))).RoundTrips (tnfsIndexedInts 64 2)
      .uint64 16 (formatIndices (tnfsIndexedInts 64 2) 16) := by
  have ab : AbBlock.InRange .uint64 ⟨1, 1, (0, 1)⟩ := fun _ => by decide
  have readable : AbBlock.Readable .uint64 ⟨1, 1, (0, 1)⟩ := ⟨fun _ => by decide, by decide, rfl⟩
  have term : FilterIo.Readable [0, -2] := ⟨rfl, by decide⟩
  have fits : InInt 1 ∧ InInt (-1) ∧ InInt 0 ∧ InInt (-2) := by decide
  obtain ⟨sieve, -, tnfsSieved, -⟩ := formats_roundTrip 10 (by decide) (by decide) .uint64 64 2 (by decide)
  obtain ⟨-, indexed, -, tnfsIndexed⟩ := formats_roundTrip 16 (by decide) (by decide) .uint64 64 2 (by decide)
  refine ⟨(sieve _ ⟨ab, by simp [sieveType], by simp [sieveType, intExponent], List.pairwise_singleton ..⟩
    (by simpa using fits.1) (by simp [SidesInRange])
    (by simp)).mpr ⟨readable, by decide, List.isChain_singleton _, by decide⟩,
    (indexed _ ⟨ab, by simp [indexedType], by simp [indexedType, intExponent], List.pairwise_singleton ..⟩
      (by simpa using fits.2.1)).mpr ⟨readable, List.isChain_singleton _, by simp⟩,
    (tnfsSieved _ ⟨ab, by simp [tnfsSievedType], by simp [tnfsSievedType, exponentVector], List.pairwise_singleton ..⟩
      (by simp [SidesInRange]) (by simpa using fits.2.2)).mpr
        ⟨readable, by decide, List.isChain_singleton _, by simpa using term⟩,
    (tnfsIndexed _ ⟨ab, by simp [tnfsIndexedType], by simp [tnfsIndexedType, exponentVector],
      List.pairwise_singleton ..⟩
      (by simpa using fits.2.2)).mpr ⟨readable, List.isChain_singleton _, by simpa using term⟩⟩

theorem not_roundTrips_eleven :
    ¬(ints ⟨⟨1, 1, (0, 1)⟩, [⟨0, 11, 1⟩], 2⟩ : Relation ℤ (WithBot ℤ)).RoundTrips (sieveInts 64) .uint64 10
      (formatSides (sieveInts 64) 10) := by
  rintro ⟨text, formatted, R', s, parsed, -, primes⟩
  obtain rfl : ['1', ',', '1', ':', '1', '1', ':'] = text := Option.some.inj (Eq.trans (by decide) formatted)
  have read : (sieveInts 64).parse .uint64 10 '\n' ['1', ',', '1', ':', '1', '1', ':', '\n'] =
      some (ints ⟨⟨1, 1, (0, 1)⟩, [⟨0, 17, 1⟩], 2⟩, ['\n']) := rfl
  cases read.symm.trans parsed
  cases primes

end Relation

end CadoNfs.Utils.FilterIo
