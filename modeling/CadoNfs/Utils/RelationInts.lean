import CadoNfs.Utils.ExponentVector
import CadoNfs.Utils.RelationFormat

/-!
# Exponents in `int` arithmetic

The exponents of the relation types are `int`s. After an overflow an exponent is undefined, which is `⊥` here, and so is
every exponent that is computed from it.
-/

namespace CadoNfs.Utils.FilterIo
open Lib ExponentType PrimeType

variable {σ E : Type}

def defined (fits : E → Bool) (e : E) : WithBot E := if fits e then e else ⊥

def ExponentType.inInts [LinearOrder E] (X : ExponentType E) (fits : E → Bool)
    (parse : Text → Option (WithBot E × Text)) : ExponentType (WithBot E) where
  one := X.one
  add
    | some e, some f => defined fits (X.add e f)
    | _, _ => ⊥
  neg
    | some e => defined fits (X.neg e)
    | none => ⊥
  isZero
    | some e => X.isZero e
    | none => false
  le e f := e ≤ f
  parse

-- The digits are read before the sign is taken.
def readExponent (e : ℤ) : WithBot ℤ := if e.natAbs < 2 ^ 31 then e else ⊥

def intExponents : ExponentType (WithBot ℤ) :=
  intExponent.inInts (fun e => InInt e) fun s => (intExponent.parse s).map fun (e, t) => (readExponent e, t)

def readVector (n : ℕ) (s : Text) : WithBot (List ℤ) := (parseVector n s).map Prod.fst

def intVectors (n : ℕ) : ExponentType (WithBot (List ℤ)) :=
  (exponentVector n).inInts (fun e => e.all fun x => InInt x) fun s =>
    ((exponentVector n).parse s).map fun (_, t) => (readVector n s, t)

def Prime.ints (x : Prime σ E) : Prime σ (WithBot E) := ⟨x.side, x.p, x.e⟩

def Relation.ints (R : Relation σ E) : Relation σ (WithBot E) := ⟨R.ab, R.primes.map Prime.ints, R.nsides⟩

def PrimeType.inInts (T : PrimeType σ E) (X : ExponentType (WithBot E)) : PrimeType σ (WithBot E) where
  bits := T.bits
  side := T.side
  exponent := X
  format x :=
    match x.e with
    | some e => T.format ⟨x.side, x.p, e⟩
    | none => none

/-! ## What an overflow leaves -/

def Undefined (primes : List (Prime σ (WithBot E))) : Prop := ∃ x ∈ primes, x.e = ⊥

theorem not_undefined (primes : List (Prime σ E)) : ¬ Undefined (primes.map Prime.ints) := by
  rintro ⟨x, member, undefined⟩
  obtain ⟨y, -, rfl⟩ := List.mem_map.mp member
  cases undefined

theorem ints_injective : Function.Injective (Prime.ints : Prime σ E → Prime σ (WithBot E)) := by
  rintro ⟨side, p, e⟩ ⟨side', p', e'⟩ same
  cases same
  rfl

theorem add_ints (e f : ℤ) : intExponents.add e f = if InInt (e + f) then ((e + f : ℤ) : WithBot ℤ) else ⊥ := by
  change defined (fun e => decide (InInt e)) (e + f) = _
  unfold defined
  simp only [decide_eq_true_eq]

theorem add_undefined {e f : WithBot ℤ} (undefined : e = ⊥ ∨ f = ⊥) : intExponents.add e f = ⊥ := by
  rcases undefined with rfl | rfl
  · rfl
  · cases e <;> rfl

structure Checks (f : List (Prime σ (WithBot ℤ)) → Prime σ (WithBot ℤ) → List (Prime σ (WithBot ℤ)))
    (g : List (Prime σ ℤ) → Prime σ ℤ → List (Prime σ ℤ)) : Prop where
  fits : ∀ s x, (∀ y ∈ s, InInt y.e) → InInt x.e →
    (∀ y ∈ g s x, InInt y.e) ∧ f (s.map Prime.ints) x.ints = (g s x).map Prime.ints ∨
      ¬ (∀ y ∈ g s x, InInt y.e) ∧ Undefined (f (s.map Prime.ints) x.ints)
  stays : ∀ s x, Undefined (x :: s) → Undefined (f s x)

theorem checks_cons {s : List (Prime σ ℤ)} (x y : Prime σ ℤ) (range : ∀ z ∈ s, InInt z.e) :
    (∀ z ∈ { y with e := y.e + x.e } :: s, InInt z.e) ∧
        { y.ints with e := intExponents.add y.e x.e } :: s.map Prime.ints =
          ({ y with e := y.e + x.e } :: s).map Prime.ints ∨
      ¬ (∀ z ∈ { y with e := y.e + x.e } :: s, InInt z.e) ∧
        Undefined ({ y.ints with e := intExponents.add y.e x.e } :: s.map Prime.ints) := by
  rw [add_ints]
  by_cases fits : InInt (y.e + x.e)
  · refine .inl ⟨fun z member => ?_, ?_⟩
    · rcases List.mem_cons.mp member with rfl | member
      · exact fits
      · exact range z member
    · rw [if_pos fits]
      rfl
  · refine .inr ⟨fun all => fits (all _ (.head _)), _, List.mem_cons_self .., ?_⟩
    exact if_neg fits

variable [LinearOrder σ]

theorem checks_appendOrCollate :
    Checks (σ := σ) intExponents.appendOrCollate intExponent.appendOrCollate where
  fits s x range here := by
    cases s with
    | nil => exact .inl ⟨List.forall_mem_cons.mpr ⟨here, range⟩, rfl⟩
    | cons y s =>
      by_cases same : x.p = y.p ∧ y.side = x.side
      · have one : intExponent.appendOrCollate (y :: s) x = { y with e := y.e + x.e } :: s := if_pos same
        have two : intExponents.appendOrCollate ((y :: s).map Prime.ints) x.ints =
            { y.ints with e := intExponents.add y.e x.e } :: s.map Prime.ints := if_pos same
        rw [one, two]
        exact checks_cons x y fun z member => range z (.tail _ member)
      · have one : intExponent.appendOrCollate (y :: s) x = x :: y :: s := if_neg same
        rw [one]
        exact .inl ⟨List.forall_mem_cons.mpr ⟨here, range⟩, if_neg same⟩
  stays s x undefined := by
    cases s with
    | nil => exact undefined
    | cons y s =>
      by_cases same : x.p = y.p ∧ y.side = x.side
      · have one : intExponents.appendOrCollate (y :: s) x = { y with e := intExponents.add y.e x.e } :: s := if_pos same
        rw [one]
        obtain ⟨z, member, bottom⟩ := undefined
        rcases List.mem_cons.mp member with rfl | member
        · exact ⟨_, List.mem_cons_self .., add_undefined (.inr bottom)⟩
        · rcases List.mem_cons.mp member with rfl | member
          · exact ⟨_, List.mem_cons_self .., add_undefined (.inl bottom)⟩
          · exact ⟨z, List.mem_cons_of_mem _ member, bottom⟩
      · have one : intExponents.appendOrCollate (y :: s) x = x :: y :: s := if_neg same
        rwa [one]

omit [LinearOrder σ] in
theorem checks_compress : Checks (σ := σ) intExponents.compress intExponent.compress where
  fits s x range here := by
    cases s with
    | nil => exact .inl ⟨List.forall_mem_cons.mpr ⟨here, range⟩, rfl⟩
    | cons y s =>
      have rest : ∀ z ∈ s, InInt z.e := fun z member => range z (.tail _ member)
      by_cases same : x.p = y.p
      · have two : intExponents.compress ((y :: s).map Prime.ints) x.ints =
            if intExponents.isZero (intExponents.add y.e x.e) then s.map Prime.ints
            else { y.ints with e := intExponents.add y.e x.e } :: s.map Prime.ints := if_pos same
        rw [compress_same same, two]
        by_cases zero : y.e + x.e = 0
        · have sum : intExponents.add (y.e : WithBot ℤ) x.e = (0 : ℤ) := by
            rw [add_ints, zero, if_pos (by decide)]
          have drop : intExponent.isZero (intExponent.add y.e x.e) = true := decide_eq_true zero
          rw [if_pos drop, sum]
          exact .inl ⟨rest, rfl⟩
        · have keep : ¬ intExponent.isZero (intExponent.add y.e x.e) = true := by
            rw [show intExponent.isZero (intExponent.add y.e x.e) = decide (y.e + x.e = 0) from rfl, decide_eq_true_iff]
            exact zero
          have keep' : ¬ intExponents.isZero (intExponents.add y.e x.e) = true := by
            rw [add_ints]
            split_ifs
            · exact keep
            · exact Bool.false_ne_true
          rw [if_neg keep, if_neg keep']
          exact checks_cons x y rest
      · rw [compress_fresh (by rintro z ⟨⟩; exact same)]
        exact .inl ⟨List.forall_mem_cons.mpr ⟨here, range⟩, if_neg same⟩
  stays s x undefined := by
    cases s with
    | nil => exact undefined
    | cons y s =>
      by_cases same : x.p = y.p
      · rw [compress_same same]
        obtain ⟨z, member, bottom⟩ := undefined
        have kept (bottom : intExponents.add y.e x.e = ⊥) : Undefined
            (if intExponents.isZero (intExponents.add y.e x.e) then s else { y with e := intExponents.add y.e x.e } :: s) := by
          rw [bottom]
          exact ⟨_, List.mem_cons_self .., rfl⟩
        rcases List.mem_cons.mp member with rfl | member
        · exact kept (add_undefined (.inr bottom))
        · rcases List.mem_cons.mp member with rfl | member
          · exact kept (add_undefined (.inl bottom))
          · split_ifs
            · exact ⟨z, member, bottom⟩
            · exact ⟨z, List.mem_cons_of_mem _ member, bottom⟩
      · rw [compress_fresh (by rintro z ⟨⟩; exact same)]
        exact undefined

/-- No exponent that a loop computes on the way leaves the range of an `int`. -/
def InInts (g : List (Prime σ ℤ) → Prime σ ℤ → List (Prime σ ℤ)) (s xs : List (Prime σ ℤ)) : Prop :=
  ∀ n, ∀ x ∈ (xs.take n).foldl g s, InInt x.e

section
omit [LinearOrder σ]
variable {f : List (Prime σ (WithBot ℤ)) → Prime σ (WithBot ℤ) → List (Prime σ (WithBot ℤ))}
  {g : List (Prime σ ℤ) → Prime σ ℤ → List (Prime σ ℤ)} (checks : Checks f g)
include checks

theorem Checks.undefined_foldl {s xs : List (Prime σ (WithBot ℤ))} (undefined : Undefined (xs ++ s)) :
    Undefined (xs.foldl f s) := by
  induction xs generalizing s with
  | nil => exact undefined
  | cons x xs ih =>
    obtain ⟨z, member, bottom⟩ := undefined
    have one := checks.stays s x
    refine ih ?_
    rcases List.mem_cons.mp member with rfl | member
    · obtain ⟨y, inside, bottom⟩ := one ⟨z, List.mem_cons_self .., bottom⟩
      exact ⟨y, List.mem_append_right _ inside, bottom⟩
    · rcases List.mem_append.mp member with later | before
      · exact ⟨z, List.mem_append_left _ later, bottom⟩
      · obtain ⟨y, inside, bottom⟩ := one ⟨z, List.mem_cons_of_mem _ before, bottom⟩
        exact ⟨y, List.mem_append_right _ inside, bottom⟩

theorem Checks.foldl_ints {s xs : List (Prime σ ℤ)} (before : ∀ x ∈ s, InInt x.e) (range : ∀ x ∈ xs, InInt x.e) :
    InInts g s xs ∧ (xs.map Prime.ints).foldl f (s.map Prime.ints) = (xs.foldl g s).map Prime.ints ∨
      ¬ InInts g s xs ∧ Undefined ((xs.map Prime.ints).foldl f (s.map Prime.ints)) := by
  induction xs generalizing s with
  | nil =>
    refine .inl ⟨fun n x member => ?_, rfl⟩
    rw [List.take_nil] at member
    exact before x member
  | cons x xs ih =>
    obtain ⟨here, later⟩ := List.forall_mem_cons.mp range
    rw [List.map_cons, List.foldl_cons]
    rcases checks.fits s x before here with ⟨inInt, same⟩ | ⟨beyond, undefined⟩
    · have steps : InInts g s (x :: xs) ↔ InInts g (g s x) xs := by
        refine ⟨fun all n => all (n + 1), fun all n => ?_⟩
        cases n with
        | zero => exact before
        | succ n => exact all n
      rw [steps, same]
      exact ih inInt later
    · refine .inr ⟨fun all => beyond (all 1), checks.undefined_foldl ?_⟩
      obtain ⟨z, member, bottom⟩ := undefined
      exact ⟨z, List.mem_append_right _ member, bottom⟩

end

theorem sort_ints (primes : List (Prime σ ℤ)) :
    intExponents.sort (primes.map Prime.ints) = (intExponent.sort primes).map Prime.ints := by
  refine (List.map_insertionSort _ _ _ _ fun x _ y _ => ?_).symm
  have le : intExponents.le x.e y.e = intExponent.le x.e y.e := by
    change decide ((x.e : WithBot ℤ) ≤ y.e) = decide (x.e ≤ y.e)
    simp only [WithBot.coe_le_coe]
  change intExponent.lePrime x y = true ↔ intExponents.lePrime x.ints y.ints = true
  unfold lePrime
  rw [show intExponents.le x.ints.e y.ints.e = intExponent.le x.e y.e from le]
  rfl

theorem undefined_sortAndCompress {l : List (Prime σ (WithBot ℤ))} (undefined : Undefined l) :
    Undefined (intExponents.sortAndCompress l) := by
  obtain ⟨z, member, bottom⟩ := undefined
  have perm := intExponents.perm_sort l
  obtain ⟨y, inside, bottom⟩ := checks_compress.undefined_foldl (s := [])
    ⟨z, List.mem_append_left _ (perm.mem_iff.mpr member), bottom⟩
  exact ⟨y, List.mem_reverse.mpr inside, bottom⟩

theorem sortAndCompress_ints {xs primes : List (Prime σ ℤ)} (range : ∀ x ∈ xs, InInt x.e) :
    intExponents.sortAndCompress ((xs.map Prime.ints).foldl intExponents.appendOrCollate []).reverse =
        primes.map Prime.ints ↔
      (InInts intExponent.appendOrCollate [] xs ∧ InInts intExponent.compress [] (intExponent.sort (runs xs))) ∧
        intExponent.sortAndCompress (runs xs) = primes := by
  have never {l : List (Prime σ (WithBot ℤ))} (undefined : Undefined l) : l ≠ primes.map Prime.ints :=
    fun same => not_undefined primes (same ▸ undefined)
  rcases checks_appendOrCollate.foldl_ints (s := []) nofun range with ⟨first, same⟩ | ⟨beyond, undefined⟩
  · rw [List.map_nil] at same
    rw [same, ← List.map_reverse, appendOrCollate_eq_runs]
    have fits : ∀ x ∈ intExponent.sort (runs xs), InInt x.e := by
      intro x member
      have inside := (intExponent.perm_sort _).mem_iff.mp member
      rw [← appendOrCollate_eq_runs, List.mem_reverse, ← List.take_length (l := xs)] at inside
      exact first _ x inside
    change ((intExponents.sort _).foldl _ []).reverse = _ ↔ _ ∧ ((intExponent.sort _).foldl _ []).reverse = _
    rw [sort_ints]
    rcases checks_compress.foldl_ints (s := []) nofun fits with ⟨second, same⟩ | ⟨beyond, undefined⟩
    · rw [List.map_nil] at same
      rw [same, ← List.map_reverse, (List.map_injective_iff.mpr ints_injective).eq_iff]
      exact ⟨fun eq => ⟨⟨first, second⟩, eq⟩, And.right⟩
    · refine iff_of_false (never ?_) fun all => beyond all.1.2
      obtain ⟨z, member, bottom⟩ := undefined
      exact ⟨z, List.mem_reverse.mpr member, bottom⟩
  · refine iff_of_false (never (undefined_sortAndCompress ?_)) fun all => beyond all.1.1
    obtain ⟨z, member, bottom⟩ := undefined
    exact ⟨z, List.mem_reverse.mpr member, bottom⟩

/-! ## What is read -/

def readEntry (x : Prime σ ℤ) : Prime σ (WithBot ℤ) := ⟨x.side, x.p, readExponent x.e⟩

def Word.ints (w : Word ℤ) : Word (WithBot ℤ) := ⟨w.text, w.p, readExponent w.e⟩

omit [LinearOrder σ] in
theorem readEntry_eq {x : Prime σ ℤ} (small : x.e.natAbs < 2 ^ 31) : readEntry x = x.ints := by
  unfold readEntry readExponent
  rw [if_pos small]
  rfl

theorem neg_readExponent (e : ℤ) : intExponents.neg (readExponent e) = readExponent (-e) := by
  unfold readExponent
  rw [Int.natAbs_neg]
  by_cases small : e.natAbs < 2 ^ 31
  · have fits : InInt (-e) := by constructor <;> omega
    rw [if_pos small, if_pos small]
    exact if_pos (decide_eq_true fits)
  · rw [if_neg small, if_neg small]
    rfl

namespace PrimeType
variable {T : PrimeType σ ℤ}

theorem Reads.ints {w : Word ℤ} (reads : T.Reads w) (integers : T.exponent = intExponent) :
    (T.inInts intExponents).Reads w.ints where
  head := reads.head
  parse st c s ends := by
    have one := reads.parse ⟨st.side, st.sorted, []⟩ c s ends
    unfold parsePrime at one ⊢
    dsimp only [PrimeType.inInts, Word.ints] at one ⊢
    rw [integers] at one
    generalize readNumber ugly 16 0 (if (cur (w.text ++ c :: s) == '-') = true then (w.text ++ c :: s).tail
      else w.text ++ c :: s) = r at one ⊢
    obtain ⟨v, u⟩ := r
    -- an exponent `e` that is read is `readExponent e` in the other type, and so is its opposite
    have sign (e : ℤ) : (if (cur (w.text ++ c :: s) == '-') = true then intExponents.neg (readExponent e)
        else readExponent e) = readExponent (if (cur (w.text ++ c :: s) == '-') = true then -e else e) := by
      split_ifs
      · exact neg_readExponent e
      · rfl
    let result (t : Text) (e : WithBot ℤ) : Option (State σ (WithBot ℤ) × Text) := some (⟨st.side, st.sorted,
      intExponents.appendOrCollate st.primes ⟨T.side st.side, v % 2 ^ 64 % 2 ^ T.bits, e⟩⟩, t)
    have same {e : ℤ} {t : Text} (eq : some ((⟨st.side, st.sorted,
        intExponent.appendOrCollate [] ⟨T.side st.side, v % 2 ^ 64 % 2 ^ T.bits, e⟩⟩ : State σ ℤ), t) =
        some (⟨st.side, st.sorted, intExponent.appendOrCollate [] ⟨T.side st.side, w.p, w.e⟩⟩, c :: s)) :
        v % 2 ^ 64 % 2 ^ T.bits = w.p ∧ e = w.e ∧ t = c :: s := by
      simp only [Option.some.injEq, Prod.mk.injEq, State.mk.injEq, appendOrCollate, List.cons.injEq, Prime.mk.injEq,
        true_and, and_true] at eq
      exact ⟨eq.1.1, eq.1.2, eq.2⟩
    by_cases slash : cur u = '/'
    · rw [if_pos slash] at one ⊢
      obtain ⟨⟨e, t⟩, read, eq⟩ := Option.bind_eq_some_iff.mp one
      obtain ⟨p, value, rfl⟩ := same eq
      change ((intExponent.parse u.tail).map _).bind _ = _
      rw [read, ← p, ← value]
      exact congrArg (result (c :: s)) (sign e)
    · rw [if_neg slash] at one ⊢
      obtain ⟨p, value, rfl⟩ := same one
      rw [← p, ← value]
      exact congrArg (result (c :: s)) (sign 1)

omit [LinearOrder σ] in
theorem sidesText_ints (sides : List (List (Word ℤ))) : sidesText (sides.map (List.map Word.ints)) = sidesText sides := by
  simp only [sidesText, sideText, List.flatMap_map, List.map_map]
  rfl

omit [LinearOrder σ] in
theorem entries_ints (k : ℤ) (sides : List (List (Word ℤ))) :
    (T.inInts intExponents).entries k (sides.map (List.map Word.ints)) = (T.entries k sides).map readEntry := by
  induction sides generalizing k with
  | nil => rfl
  | cons words sides ih =>
    rw [List.map_cons, entries, entries, ih, List.map_append, List.map_map, List.map_map]
    rfl

end PrimeType

end CadoNfs.Utils.FilterIo
