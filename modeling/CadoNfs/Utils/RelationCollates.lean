import CadoNfs.Lib.Collapse
import CadoNfs.Utils.RelationBlocks

/-!
# Collating and compressing the primes of a relation

`append_or_collate` merges neighbours with the same side and the same prime.
-/

namespace CadoNfs.Utils.FilterIo
open Lib

variable {σ E : Type}

/-! ## The order of the entries -/

namespace Prime

def key (x : Prime σ E) : σ ×ₗ ℕ := toLex (x.side, x.p)

def rank (x : Prime σ E) : σ ×ₗ ℕ ×ₗ E := toLex (x.side, toLex (x.p, x.e))

theorem rank_injective : Function.Injective (rank : Prime σ E → σ ×ₗ ℕ ×ₗ E) := by
  rintro ⟨side, p, e⟩ ⟨side', p', e'⟩ same
  simp only [rank, EmbeddingLike.apply_eq_iff_eq, Prod.mk.injEq] at same
  obtain ⟨rfl, rfl, rfl⟩ := same
  rfl

theorem key_eq_iff {x y : Prime σ E} : x.key = y.key ↔ x.side = y.side ∧ x.p = y.p := by
  simp [key]

theorem key_le_of_rank_le [LinearOrder σ] [LinearOrder E] {x y : Prime σ E} (le : x.rank ≤ y.rank) : x.key ≤ y.key := by
  simp only [rank, key, Prod.Lex.toLex_le_toLex] at le ⊢
  exact le.imp id (And.imp id fun before => before.elim le_of_lt fun same => same.1.le)

theorem le_of_rank_le [LinearOrder σ] [LinearOrder E] {x y : Prime σ E} (le : x.rank ≤ y.rank)
    (same : x.key = y.key) : x.e ≤ y.e := by
  obtain ⟨side, p⟩ := key_eq_iff.mp same
  simpa [rank, Prod.Lex.toLex_le_toLex, side, p] using le

end Prime

namespace ExponentType

section
variable [LinearOrder σ] (X : ExponentType E) (primes : List (Prime σ E))

variable {X} in
theorem lePrime_iff [LinearOrder E] (order : ∀ e f, X.le e f ↔ e ≤ f) {x y : Prime σ E} :
    X.lePrime x y ↔ x.rank ≤ y.rank := by
  simp [lePrime, Prime.rank, Prod.Lex.toLex_le_toLex, order]

def sort (primes : List (Prime σ E)) : List (Prime σ E) := primes.insertionSort fun x y => X.lePrime x y

theorem perm_sort : (X.sort primes).Perm primes := List.perm_insertionSort ..

variable {X} in
theorem sort_sorted [LinearOrder E] (order : ∀ e f, X.le e f ↔ e ≤ f) :
    (X.sort primes).Pairwise fun x y => x.rank ≤ y.rank := by
  have total : Std.Total fun x y : Prime σ E => X.lePrime x y = true :=
    ⟨fun x y => by simpa [lePrime_iff order] using le_total x.rank y.rank⟩
  have trans : IsTrans (Prime σ E) fun x y => X.lePrime x y = true :=
    ⟨fun x y z => by simpa [lePrime_iff order] using le_trans⟩
  exact (List.pairwise_insertionSort _ primes).imp (lePrime_iff order).mp

end

/-! ## One step of `sort_and_compress` -/

def Separated (primes : List (Prime σ E)) : Prop := primes.IsChain fun x y => x.p ≠ y.p

def Fresh (p : ℕ) (primes : List (Prime σ E)) : Prop := ∀ y ∈ primes.head?, p ≠ y.p

variable {X : ExponentType E} {x y : Prime σ E} {primes : List (Prime σ E)}

theorem compress_fresh (fresh : Fresh x.p primes) : X.compress primes x = x :: primes := by
  cases primes with
  | nil => rfl
  | cons y primes => exact if_neg (fresh y rfl)

theorem compress_same (same : x.p = y.p) : X.compress (y :: primes) x =
    if X.isZero (X.add y.e x.e) then primes else { y with e := X.add y.e x.e } :: primes := if_pos same

theorem Separated.fresh (separated : Separated (y :: primes)) : Fresh y.p primes := by
  intro z last
  cases primes with
  | nil => cases last
  | cons w primes =>
    obtain rfl := Option.some.inj last
    exact (List.isChain_cons_cons.mp separated).1

theorem Separated.cons (separated : Separated primes) (fresh : Fresh x.p primes) : Separated (x :: primes) := by
  cases primes with
  | nil => exact List.isChain_singleton x
  | cons y primes => exact List.isChain_cons_cons.mpr ⟨fresh y rfl, separated⟩

theorem Separated.tail (separated : Separated (y :: primes)) : Separated primes := List.IsChain.tail separated

theorem Separated.compress (separated : Separated primes) : Separated (X.compress primes x) := by
  cases primes with
  | nil => exact List.isChain_singleton x
  | cons y primes =>
    by_cases same : x.p = y.p
    · rw [compress_same same]
      split_ifs
      · exact separated.tail
      · exact separated.tail.cons (x := { y with e := X.add y.e x.e }) separated.fresh
    · have fresh : Fresh x.p (y :: primes) := by rintro z ⟨⟩; exact same
      rw [compress_fresh fresh]
      exact separated.cons fresh

theorem Separated.foldl (separated : Separated primes) (xs : List (Prime σ E)) :
    Separated (xs.foldl X.compress primes) := by
  induction xs generalizing primes with
  | nil => exact separated
  | cons x xs ih => exact ih separated.compress

theorem sortAndCompress_separated [LinearOrder σ] : Separated (X.sortAndCompress primes) := by
  have separated : Separated ((X.sort primes).foldl X.compress []) := Separated.foldl .nil _
  exact (List.isChain_reverse.mpr separated).imp fun _ _ other => other.symm

theorem key_mem_compress {y : Prime σ E} (member : y ∈ X.compress primes x) :
    y.key = x.key ∨ ∃ z ∈ primes, y.key = z.key := by
  cases primes with
  | nil => exact .inl (by rw [List.mem_singleton.mp member])
  | cons z primes =>
    by_cases same : x.p = z.p
    · rw [compress_same same] at member
      split_ifs at member
      · exact .inr ⟨y, List.mem_cons_of_mem _ member, rfl⟩
      · rcases List.mem_cons.mp member with rfl | member
        · exact .inr ⟨z, List.mem_cons_self .., rfl⟩
        · exact .inr ⟨y, List.mem_cons_of_mem _ member, rfl⟩
    · rw [compress_fresh (by rintro w ⟨⟩; exact same)] at member
      rcases List.mem_cons.mp member with rfl | member
      · exact .inl rfl
      · exact .inr ⟨y, member, rfl⟩

theorem key_mem_foldl {xs : List (Prime σ E)} (member : y ∈ xs.foldl X.compress primes) :
    ∃ z, (z ∈ xs ∨ z ∈ primes) ∧ y.key = z.key := by
  induction xs generalizing primes with
  | nil => exact ⟨y, .inr member, rfl⟩
  | cons x xs ih =>
    obtain ⟨z, inside | inside, same⟩ := ih member
    · exact ⟨z, .inl (.tail _ inside), same⟩
    · rcases key_mem_compress inside with eq | ⟨w, inside, eq⟩
      · exact ⟨x, .inl (.head _), same.trans eq⟩
      · exact ⟨w, .inr inside, same.trans eq⟩

theorem mem_foldl_of_ne {xs : List (Prime σ E)} (member : y ∈ primes) (other : ∀ x ∈ xs, x.p ≠ y.p) :
    y ∈ xs.foldl X.compress primes := by
  induction xs generalizing primes with
  | nil => exact member
  | cons x xs ih =>
    rw [List.forall_mem_cons] at other
    refine ih ?_ other.2
    cases primes with
    | nil => cases member
    | cons z primes =>
      by_cases same : x.p = z.p
      · have inside : y ∈ primes := (List.mem_cons.mp member).resolve_left fun eq => other.1 (eq ▸ same)
        rw [compress_same same]
        split_ifs
        · exact inside
        · exact List.mem_cons_of_mem _ inside
      · rw [compress_fresh (by rintro w ⟨⟩; exact same)]
        exact List.mem_cons_of_mem _ member

/-! ## Entries that stay as they are -/

theorem foldl_compress_separated {xs : List (Prime σ E)} (separated : Separated (xs.reverse ++ primes)) :
    xs.foldl X.compress primes = xs.reverse ++ primes := by
  induction xs generalizing primes with
  | nil => rfl
  | cons x xs ih =>
    rw [List.reverse_cons, List.append_assoc, List.singleton_append] at separated ⊢
    have last : Separated (x :: primes) := List.IsChain.right_of_append separated
    rw [List.foldl_cons, compress_fresh last.fresh, ih separated]

theorem sortAndCompress_eq_self [LinearOrder σ] [LinearOrder E] (order : ∀ e f, X.le e f ↔ e ≤ f)
    (sorted : primes.Pairwise fun x y => x.rank ≤ y.rank) (separated : Separated primes) {other : List (Prime σ E)}
    (perm : other.Perm primes) : X.sortAndCompress other = primes := by
  have sort : X.sort other = primes :=
    List.Perm.eq_of_pairwise (fun _ _ _ _ le ge => Prime.rank_injective (le_antisymm le ge))
      (sort_sorted other order) sorted
      ((X.perm_sort other).trans perm)
  have kept : primes.foldl X.compress [] = primes.reverse ++ [] := foldl_compress_separated
    (by rw [List.append_nil]; exact (List.isChain_reverse.mpr separated).imp fun _ _ other => other.symm)
  change ((X.sort other).foldl X.compress []).reverse = primes
  rw [sort, kept, List.append_nil, List.reverse_reverse]

end ExponentType

end CadoNfs.Utils.FilterIo

/-!
# The exponents of a relation, added up

The runs of a list of entries are what `append_or_collate` leaves. The result adds up the exponents of each side and
prime exactly, unless runs of zeros remain or runs of two sides meet.
-/

namespace CadoNfs.Utils.FilterIo
open Lib ExponentType

variable {σ : Type} {k k' : σ ×ₗ ℕ} {xs ys all before s : List (Prime σ ℤ)} {es : List ℤ}

/-! ## The entries of one key -/

def ofKey (k : σ ×ₗ ℕ) (e : ℤ) : Prime σ ℤ := ⟨(ofLex k).1, (ofLex k).2, e⟩

@[simp] theorem ofKey_key (e : ℤ) : (ofKey k e).key = k := rfl

@[simp] theorem ofKey_e (e : ℤ) : (ofKey k e).e = e := rfl

theorem compress_merge {y : Prime σ ℤ} (same : (ofLex k).2 = y.p) (e : ℤ) :
    intExponent.compress (y :: s) (ofKey k e) = if y.e + e = 0 then s else { y with e := y.e + e } :: s := by
  refine (compress_same (X := intExponent) same).trans ?_
  simp [intExponent]

theorem foldl_group_fresh (es : List ℤ) (fresh : Fresh (ofLex k).2 s) (cell : Option ℤ) :
    (es.map (ofKey k)).foldl intExponent.compress (cell.toList.map (ofKey k) ++ s) =
      (collapse cell es).toList.map (ofKey k) ++ s := by
  induction es generalizing cell with
  | nil => rfl
  | cons e es ih =>
    rw [List.map_cons, List.foldl_cons, collapse_cons, ← ih]
    congr 1
    cases cell with
    | none => exact compress_fresh fresh
    | some x =>
      refine (compress_merge (y := ofKey k x) rfl e).trans ?_
      by_cases cancels : x + e = 0 <;> simp [collapseTerm, cancels, ofKey]

theorem foldl_group_merge {y : Prime σ ℤ} (same : (ofLex k).2 = y.p) (stays : ∀ n, 0 < n → (es.take n).sum ≠ -y.e) :
    (es.map (ofKey k)).foldl intExponent.compress (y :: s) = { y with e := y.e + es.sum } :: s := by
  induction es generalizing y with
  | nil => simp
  | cons e es ih =>
    have first : y.e + e ≠ 0 :=
      fun cancels => stays 1 one_pos (by simpa using (neg_eq_of_add_eq_zero_right cancels).symm)
    rw [List.map_cons, List.foldl_cons, compress_merge same, if_neg first]
    refine (ih (y := { y with e := y.e + e }) same fun n _ => ?_).trans ?_
    · have := stays (n + 1) n.succ_pos
      rw [List.take_succ_cons, List.sum_cons] at this
      intro sum
      exact this (by rw [sum]; ring)
    · simp [add_assoc]

theorem foldl_group_cancel {y : Prime σ ℤ} (same : (ofLex k).2 = y.p) (fresh : Fresh (ofLex k).2 s) (nonzero : y.e ≠ 0)
    {n : ℕ} (cancels : (es.take n).sum = -y.e) :
    ∃ cell : Option ℤ, (es.map (ofKey k)).foldl intExponent.compress (y :: s) = cell.toList.map (ofKey k) ++ s := by
  induction es generalizing y n with
  | nil => exact absurd (by simpa using cancels.symm) nonzero
  | cons e es ih =>
    rw [List.map_cons, List.foldl_cons, compress_merge same]
    by_cases first : y.e + e = 0
    · rw [if_pos first]
      exact ⟨_, foldl_group_fresh es fresh none⟩
    · rw [if_neg first]
      cases n with
      | zero => exact absurd (by simpa using cancels.symm) nonzero
      | succ n =>
        rw [List.take_succ_cons, List.sum_cons] at cancels
        exact ih (y := { y with e := y.e + e }) same first (n := n) (by linarith)

variable [LinearOrder σ]

/-! ## Exponents of a key -/

def exponentsAt (k : σ ×ₗ ℕ) (xs : List (Prime σ ℤ)) : List ℤ := (xs.filter fun x => x.key = k).map Prime.e

def total (k : σ ×ₗ ℕ) (xs : List (Prime σ ℤ)) : ℤ := (exponentsAt k xs).sum

@[simp] theorem exponentsAt_nil : exponentsAt k [] = [] := rfl

theorem exponentsAt_append : exponentsAt k (xs ++ ys) = exponentsAt k xs ++ exponentsAt k ys := by
  simp [exponentsAt]

theorem exponentsAt_eq_nil_iff : exponentsAt k xs = [] ↔ ∀ x ∈ xs, x.key ≠ k := by
  simp [exponentsAt, List.filter_eq_nil_iff]

@[simp] theorem exponentsAt_map_ofKey : exponentsAt k (es.map (ofKey k)) = es := by
  induction es with
  | nil => rfl
  | cons e es ih => simpa [exponentsAt] using ih

theorem map_ofKey_exponentsAt : (exponentsAt k xs).map (ofKey k) = xs.filter fun x => x.key = k := by
  rw [exponentsAt, List.map_map]
  refine (List.map_congr_left fun x member => ?_).trans (List.map_id _)
  obtain rfl := of_decide_eq_true (List.mem_filter.mp member).2
  rfl

theorem exponentsAt_perm (perm : xs.Perm ys) : (exponentsAt k xs).Perm (exponentsAt k ys) := (perm.filter _).map _

@[simp] theorem total_nil : total k ([] : List (Prime σ ℤ)) = 0 := rfl

theorem total_append : total k (xs ++ ys) = total k xs + total k ys := by
  rw [total, exponentsAt_append, List.sum_append, total, total]

theorem total_cons (x : Prime σ ℤ) : total k (x :: xs) = (if x.key = k then x.e else 0) + total k xs := by
  by_cases same : x.key = k <;> simp [total, exponentsAt, same]

theorem total_eq_zero (other : ∀ x ∈ xs, x.key ≠ k) : total k xs = 0 := by
  rw [total, exponentsAt_eq_nil_iff.mpr other, List.sum_nil]

theorem total_of_perm (perm : xs.Perm ys) : total k xs = total k ys := (exponentsAt_perm perm).sum_eq

theorem exists_of_total_ne (nonzero : total k xs ≠ 0) : ∃ x ∈ xs, x.key = k := by
  by_contra none
  push Not at none
  exact nonzero (total_eq_zero none)

def runs : List (Prime σ ℤ) → List (Prime σ ℤ)
  | [] => []
  | x :: xs =>
    match runs xs with
    | y :: ys => if x.key = y.key then { y with e := x.e + y.e } :: ys else x :: y :: ys
    | [] => [x]

theorem runs_congr (x : Prime σ ℤ) (same : runs xs = runs ys) : runs (x :: xs) = runs (x :: ys) := by
  simp only [runs, same]

theorem runs_cons_same {x y : Prime σ ℤ} (xs : List (Prime σ ℤ)) (same : x.key = y.key) :
    runs (x :: y :: xs) = runs ({ x with e := x.e + y.e } :: xs) := by
  obtain ⟨side, p, e⟩ := x
  obtain ⟨side', p', e'⟩ := y
  obtain ⟨rfl, rfl⟩ := Prime.key_eq_iff.mp same
  simp only [runs]
  cases runs xs with
  | nil => simp [Prime.key]
  | cons z zs =>
    have key (e : ℤ) : (⟨side, p, e⟩ : Prime σ ℤ).key = toLex (side, p) := rfl
    by_cases eq : (toLex (side, p) : σ ×ₗ ℕ) = z.key
    · have merged (e : ℤ) : ({ z with e } : Prime σ ℤ).key = z.key := rfl
      simp only [key, eq, if_true, merged, add_assoc]
    · simp only [key, eq, if_false, if_true]

theorem runs_cons_other {x y : Prime σ ℤ} (other : x.key ≠ y.key) : runs (x :: y :: xs) = x :: runs (y :: xs) := by
  rw [runs]
  have head : ∃ z zs, runs (y :: xs) = z :: zs ∧ z.key = y.key := by
    rw [runs]
    cases runs xs with
    | nil => exact ⟨y, [], rfl, rfl⟩
    | cons z zs =>
      by_cases same : y.key = z.key
      · exact ⟨_, zs, if_pos same, same.symm⟩
      · exact ⟨y, z :: zs, if_neg same, rfl⟩
  obtain ⟨z, zs, eq, key⟩ := head
  rw [eq]
  exact if_neg (key ▸ other)

theorem foldl_appendOrCollate (y : Prime σ ℤ) :
    (xs.foldl intExponent.appendOrCollate (y :: s)).reverse = s.reverse ++ runs (y :: xs) := by
  induction xs generalizing y s with
  | nil => simp [runs]
  | cons x xs ih =>
    by_cases same : x.p = y.p ∧ y.side = x.side
    · have collate : intExponent.appendOrCollate (y :: s) x = { y with e := y.e + x.e } :: s := if_pos same
      rw [List.foldl_cons, collate, ih, runs_cons_same xs (Prime.key_eq_iff.mpr ⟨same.2, same.1.symm⟩)]
    · have append : intExponent.appendOrCollate (y :: s) x = x :: y :: s := if_neg same
      rw [List.foldl_cons, append, ih,
        runs_cons_other fun eq => same ⟨(Prime.key_eq_iff.mp eq).2.symm, (Prime.key_eq_iff.mp eq).1⟩]
      simp

theorem appendOrCollate_eq_runs : (xs.foldl intExponent.appendOrCollate []).reverse = runs xs := by
  cases xs with
  | nil => rfl
  | cons x xs => exact foldl_appendOrCollate x

theorem total_runs : total k (runs xs) = total k xs := by
  induction xs with
  | nil => rfl
  | cons x xs ih =>
    rw [total_cons, ← ih, runs]
    cases runs xs with
    | nil => simp [total_cons]
    | cons y ys =>
      by_cases same : x.key = y.key
      · simp only [same, if_true, total_cons]
        have key : ({ y with e := x.e + y.e } : Prime σ ℤ).key = y.key := rfl
        rw [key]
        by_cases at_k : y.key = k
        · simp [at_k, add_assoc]
        · simp [at_k]
      · simp only [same, if_false, total_cons]

/-! ## What compressing gives -/

/-- `result` has one entry for each key of `xs` with a nonzero sum, in increasing order. -/
structure Collates (xs result : List (Prime σ ℤ)) : Prop where
  sorted : result.Pairwise fun x y => x.key < y.key
  nonzero : ∀ x ∈ result, x.e ≠ 0
  total : ∀ k, total k result = total k xs

/-- The exponents of `k` are not an odd number of zeros. -/
def NoLoneZero (k : σ ×ₗ ℕ) (xs : List (Prime σ ℤ)) : Prop :=
  (∀ e ∈ exponentsAt k xs, e = 0) → Even (exponentsAt k xs).length

/-- If the last key with a nonzero sum before `k` has the same prime, then the exponents of `k` add up to zero and no
partial sum of them, in increasing order, cancels that sum. -/
def NoMerge (k : σ ×ₗ ℕ) (xs : List (Prime σ ℤ)) : Prop :=
  ∀ k' < k, (ofLex k').2 = (ofLex k).2 → total k' xs ≠ 0 → (∀ k'', k' < k'' → k'' < k → total k'' xs = 0) →
    total k xs = 0 ∧ ∀ n, (((exponentsAt k xs).insertionSort (· ≤ ·)).take n).sum ≠ -total k' xs

theorem noMerge_of_forall (no_merge : ∀ x ∈ xs, NoMerge x.key xs) (k : σ ×ₗ ℕ) : NoMerge k xs := by
  by_cases occurs : ∃ x ∈ xs, x.key = k
  · obtain ⟨x, member, rfl⟩ := occurs
    exact no_merge x member
  · push Not at occurs
    intro k' _ _ nonzero _
    rw [total, exponentsAt_eq_nil_iff.mpr occurs]
    refine ⟨rfl, fun n => ?_⟩
    simpa using nonzero

theorem noMerge_of_one_side (one_side : ∀ x ∈ xs, ∀ y ∈ xs, x.p = y.p → x.side = y.side) (k : σ ×ₗ ℕ) :
    NoMerge k xs := by
  refine noMerge_of_forall (fun x member k' less same nonzero _ => ?_) k
  obtain ⟨y, inside, rfl⟩ := exists_of_total_ne nonzero
  have eq : y.key = x.key := Prime.key_eq_iff.mpr ⟨one_side y inside x member same, same⟩
  exact absurd less (eq ▸ lt_irrefl _)

theorem noLoneZero_of_nonzero (nonzero : ∀ x ∈ xs, x.e ≠ 0) (k : σ ×ₗ ℕ) : NoLoneZero k xs := by
  intro zeros
  cases exponents : exponentsAt k xs with
  | nil => exact Even.zero
  | cons e es =>
    have member : e ∈ exponentsAt k xs := exponents ▸ List.mem_cons_self ..
    obtain ⟨x, inside, rfl⟩ := List.mem_map.mp member
    exact absurd (zeros x.e member) (nonzero x (List.mem_of_mem_filter inside))

theorem Collates.total_eq (collates : Collates xs s) {x : Prime σ ℤ} (member : x ∈ s) :
    FilterIo.total x.key xs = x.e := by
  obtain ⟨l, r, rfl⟩ := List.append_of_mem member
  have sorted := collates.sorted
  rw [List.pairwise_append, List.pairwise_cons] at sorted
  rw [← collates.total, total_append, total_cons, if_pos rfl,
    total_eq_zero fun y inside => (sorted.2.2 y inside x (.head _)).ne,
    total_eq_zero fun y inside => (sorted.2.1.1 y inside).ne', zero_add, add_zero]

theorem Collates.exists_key (collates : Collates xs s) {x : Prime σ ℤ} (member : x ∈ s) : ∃ y ∈ xs, y.key = x.key :=
  exists_of_total_ne (by rw [collates.total_eq member]; exact collates.nonzero x member)

theorem Collates.extend (collates : Collates before s.reverse) (es : List ℤ) (after : ∀ x ∈ before, x.key < k) :
    Collates (before ++ es.map (ofKey k))
      ((if es.sum = 0 then none else some es.sum).toList.map (ofKey k) ++ s).reverse := by
  have below : ∀ x ∈ s, x.key < k := by
    intro x member
    obtain ⟨y, inside, same⟩ := collates.exists_key (List.mem_reverse.mpr member)
    exact same ▸ after y inside
  have group : FilterIo.total k (es.map (ofKey k)) = es.sum := by rw [FilterIo.total, exponentsAt_map_ofKey]
  have others {k'' : σ ×ₗ ℕ} (other : k'' ≠ k) : FilterIo.total k'' (es.map (ofKey k)) = 0 := by
    refine total_eq_zero fun x member => ?_
    obtain ⟨e, -, rfl⟩ := List.mem_map.mp member
    exact other.symm
  by_cases zero : es.sum = 0
  · refine ⟨by simpa [zero] using collates.sorted, by simpa [zero] using collates.nonzero, fun k'' => ?_⟩
    rw [if_pos zero, total_append, ← collates.total]
    by_cases same : k'' = k
    · rw [same, group, zero, add_zero]
      rfl
    · rw [others same, add_zero]
      rfl
  · rw [if_neg zero, show (some es.sum).toList.map (ofKey k) ++ s = ofKey k es.sum :: s from rfl, List.reverse_cons]
    refine ⟨?_, ?_, fun k'' => ?_⟩
    · refine List.pairwise_append.mpr ⟨collates.sorted, List.pairwise_singleton .., fun x member y last => ?_⟩
      rw [List.mem_singleton.mp last]
      exact below x (List.mem_reverse.mp member)
    · intro x member
      rcases List.mem_append.mp member with inside | last
      · exact collates.nonzero x inside
      · rw [List.mem_singleton.mp last]
        exact zero
    · rw [total_append, total_append, collates.total, total_cons, total_nil, add_zero, ofKey_key, ofKey_e]
      by_cases same : k'' = k
      · rw [same, if_pos rfl, group]
      · rw [if_neg (Ne.symm same), others same]

structure Split (all before : List (Prime σ ℤ)) (k : σ ×ₗ ℕ) (es : List ℤ) (after : List (Prime σ ℤ)) : Prop where
  eq : all = before ++ es.map (ofKey k) ++ after
  before : ∀ x ∈ before, x.key < k
  after : ∀ x ∈ after, k < x.key
  sorted : es.Pairwise (· ≤ ·)

variable {after : List (Prime σ ℤ)}

theorem exists_split (sorted : all.Pairwise fun x y => x.rank ≤ y.rank) (k : σ ×ₗ ℕ) :
    Split all (all.filter (·.key < k)) k (exponentsAt k all) (all.filter (k < ·.key)) where
  eq := by
    rw [map_ofKey_exponentsAt]
    exact filter_split (sorted.imp Prime.key_le_of_rank_le) k
  before x member := of_decide_eq_true (List.mem_filter.mp member).2
  after x member := of_decide_eq_true (List.mem_filter.mp member).2
  sorted := by
    refine List.pairwise_map.mpr ((sorted.filter _).imp_of_mem fun {x y} in_x in_y le => Prime.le_of_rank_le le ?_)
    exact (of_decide_eq_true (List.mem_filter.mp in_x).2).trans (of_decide_eq_true (List.mem_filter.mp in_y).2).symm

namespace Split

variable (split : Split all before k es after)
include split

theorem exponentsAt_eq : exponentsAt k all = es := by
  rw [split.eq, exponentsAt_append, exponentsAt_append, exponentsAt_map_ofKey,
    exponentsAt_eq_nil_iff.mpr fun x member => (split.before x member).ne,
    exponentsAt_eq_nil_iff.mpr fun x member => (split.after x member).ne', List.nil_append, List.append_nil]

theorem total_before (less : k' < k) : total k' all = total k' before := by
  have group : total k' (es.map (ofKey k)) = 0 := by
    refine total_eq_zero fun x member => ?_
    obtain ⟨e, -, rfl⟩ := List.mem_map.mp member
    exact less.ne'
  have rest : total k' after = 0 := total_eq_zero fun x member => (less.trans (split.after x member)).ne'
  rw [split.eq, total_append, total_append, group, rest, add_zero, add_zero]

theorem insertionSort_eq : (exponentsAt k all).insertionSort (· ≤ ·) = es := by
  rw [split.exponentsAt_eq]
  exact List.Pairwise.insertionSort_eq split.sorted

theorem total_between {y : Prime σ ℤ} (collates : Collates before (y :: s).reverse) {k'' : σ ×ₗ ℕ}
    (above : y.key < k'') (below : k'' < k) : total k'' all = 0 := by
  rw [split.total_before below, ← collates.total]
  refine total_eq_zero fun x member => ?_
  have sorted := List.pairwise_reverse.mp collates.sorted
  rcases List.mem_cons.mp (List.mem_reverse.mp member) with rfl | inside
  · exact above.ne
  · exact ((List.rel_of_pairwise_cons sorted inside).trans above).ne

theorem key_lt {y : Prime σ ℤ} (collates : Collates before s.reverse) (member : y ∈ s) : y.key < k := by
  obtain ⟨x, inside, same⟩ := collates.exists_key (List.mem_reverse.mpr member)
  exact same ▸ split.before x inside

theorem foldl_group (collates : Collates before s.reverse) (no_lone : NoLoneZero k all) (no_merge : NoMerge k all) :
    Collates (before ++ es.map (ofKey k)) ((es.map (ofKey k)).foldl intExponent.compress s).reverse := by
  have extend := collates.extend es split.before
  by_cases fresh : Fresh (ofLex k).2 s
  · have fold := foldl_group_fresh es fresh none
    have lone : collapse none es = if es.sum = 0 then none else some es.sum := by
      rw [collapse_sorted split.sorted, ← split.exponentsAt_eq]
      exact no_lone
    rw [lone] at fold
    rw [show (es.map (ofKey k)).foldl intExponent.compress s = _ from fold]
    exact extend
  · cases s with
    | nil => exact absurd (fun y none => absurd none (by simp)) fresh
    | cons y s =>
      have same : (ofLex k).2 = y.p := by
        by_contra other
        exact fresh (by rintro z ⟨⟩; exact other)
      have last := split.key_lt collates (.head _)
      have sum := (split.total_before last).trans (collates.total_eq (by simp))
      obtain ⟨zero, stays⟩ := no_merge y.key last same.symm (by rw [sum]; exact collates.nonzero y (by simp))
        fun k'' above below => split.total_between collates above below
      rw [total, split.exponentsAt_eq] at zero
      rw [split.insertionSort_eq, sum] at stays
      rw [foldl_group_merge same fun n _ => stays n, zero, add_zero]
      rw [if_pos zero] at extend
      exact extend

omit split

theorem next {x : Prime σ ℤ} (sorted : (x :: xs).Pairwise fun x y => x.rank ≤ y.rank)
    (below : ∀ y ∈ before, ∀ z ∈ x :: xs, y.key < z.key) (all_eq : all = before ++ x :: xs) :
    Split all before x.key (exponentsAt x.key (x :: xs)) ((x :: xs).filter (x.key < ·.key)) ∧
      x :: xs = (exponentsAt x.key (x :: xs)).map (ofKey x.key) ++ (x :: xs).filter (x.key < ·.key) := by
  have inner := exists_split sorted x.key
  have first : (x :: xs).filter (·.key < x.key) = [] := by
    refine List.filter_eq_nil_iff.mpr fun y member => ?_
    rcases List.mem_cons.mp member with rfl | inside
    · simp
    · simpa using Prime.key_le_of_rank_le (List.rel_of_pairwise_cons sorted inside)
  have eq := inner.eq
  rw [first, List.nil_append] at eq
  refine ⟨⟨?_, fun y member => below y member x (.head _), inner.after, inner.sorted⟩, eq⟩
  rw [all_eq, List.append_assoc, ← eq]

end Split

theorem below_after (below : ∀ y ∈ before, y.key < k) :
    ∀ y ∈ before ++ es.map (ofKey k), ∀ x ∈ xs.filter (k < ·.key), y.key < x.key := by
  intro y member x inside
  have above : k < x.key := of_decide_eq_true (List.mem_filter.mp inside).2
  rcases List.mem_append.mp member with old | new
  · exact (below y old).trans above
  · obtain ⟨e, -, rfl⟩ := List.mem_map.mp new
    exact above

theorem before_nil (xs : List (Prime σ ℤ)) : ∀ y ∈ ([] : List (Prime σ ℤ)), ∀ x ∈ xs, y.key < x.key := nofun

theorem collates_nil : Collates ([] : List (Prime σ ℤ)) ([] : List (Prime σ ℤ)).reverse := ⟨.nil, nofun, fun _ => rfl⟩

theorem length_filter_after (x : Prime σ ℤ) : ((x :: xs).filter (x.key < ·.key)).length ≤ xs.length := by
  rw [List.filter_cons_of_neg (by simp)]
  exact List.length_filter_le ..

theorem collates_foldl (sorted : xs.Pairwise fun x y => x.rank ≤ y.rank) (below : ∀ y ∈ before, ∀ x ∈ xs, y.key < x.key)
    (all_eq : all = before ++ xs) (collates : Collates before s.reverse) (no_lone : ∀ x ∈ xs, NoLoneZero x.key all)
    (no_merge : ∀ x ∈ xs, NoMerge x.key all) : Collates all (xs.foldl intExponent.compress s).reverse := by
  induction length : xs.length using Nat.strong_induction_on generalizing xs before s with
  | _ n ih =>
    cases xs with
    | nil =>
      rw [all_eq, List.append_nil]
      exact collates
    | cons x xs =>
      obtain ⟨split, eq⟩ := Split.next sorted below all_eq
      have step := split.foldl_group collates (no_lone x (.head _)) (no_merge x (.head _))
      have rest := ih _ (length ▸ Nat.lt_succ_of_le (length_filter_after x)) (sorted.filter _)
        (below_after split.before)
        split.eq step (fun y member => no_lone y (List.mem_of_mem_filter member))
        (fun y member => no_merge y (List.mem_of_mem_filter member)) rfl
      rw [eq, List.foldl_append]
      exact rest

theorem intExponent_order (e f : ℤ) : intExponent.le e f ↔ e ≤ f := decide_eq_true_iff

theorem noLoneZero_perm (perm : xs.Perm ys) : NoLoneZero k xs ↔ NoLoneZero k ys := by
  have keyed := exponentsAt_perm (k := k) perm
  simp only [NoLoneZero, keyed.mem_iff, keyed.length_eq]

theorem noMerge_perm (perm : xs.Perm ys) : NoMerge k xs ↔ NoMerge k ys := by
  have sorted : (exponentsAt k xs).insertionSort (· ≤ ·) = (exponentsAt k ys).insertionSort (· ≤ ·) :=
    List.Perm.eq_of_pairwise (fun _ _ _ _ => le_antisymm) (List.pairwise_insertionSort ..)
      (List.pairwise_insertionSort ..)
      (((List.perm_insertionSort ..).trans (exponentsAt_perm perm)).trans (List.perm_insertionSort ..).symm)
  simp only [NoMerge, total_of_perm perm, sorted]

theorem Collates.of_perm (collates : Collates xs s) (perm : xs.Perm ys) : Collates ys s :=
  ⟨collates.sorted, collates.nonzero, fun k => (collates.total k).trans (total_of_perm perm)⟩

theorem collates_sortAndCompress (no_lone : ∀ x ∈ xs, NoLoneZero x.key xs) (no_merge : ∀ x ∈ xs, NoMerge x.key xs) :
    Collates xs (intExponent.sortAndCompress xs) := by
  have perm := intExponent.perm_sort xs
  refine Collates.of_perm ?_ perm
  exact collates_foldl (sort_sorted xs intExponent_order) (before_nil _) rfl
    collates_nil
    (fun x member => (noLoneZero_perm perm).mpr (no_lone x (perm.mem_iff.mp member)))
    (fun x member => (noMerge_perm perm).mpr (no_merge x (perm.mem_iff.mp member)))

/-! ## What a merge loses -/

theorem not_collates_of_lost (nonzero : total k all ≠ 0) (gone : ∀ y ∈ s, y.key ≠ k) (past : ∀ x ∈ xs, x.key ≠ k) :
    ¬Collates all (xs.foldl intExponent.compress s).reverse := by
  intro collates
  rw [← collates.total] at nonzero
  obtain ⟨y, member, same⟩ := exists_of_total_ne nonzero
  obtain ⟨z, inside | inside, eq⟩ := key_mem_foldl (List.mem_reverse.mp member)
  · exact past z inside (eq ▸ same)
  · exact gone z inside (eq ▸ same)

namespace Split

variable (split : Split all before k es after)
include split

theorem not_noMerge (collates : Collates before s.reverse) (separated : Separated s) (merges : ¬NoMerge k all) :
    ¬Collates all (after.foldl intExponent.compress ((es.map (ofKey k)).foldl intExponent.compress s)).reverse := by
  simp only [NoMerge, not_forall] at merges
  obtain ⟨k', less, same, nonzero, between, merges⟩ := merges
  have inside := nonzero
  rw [split.total_before less, ← collates.total] at inside
  obtain ⟨z, member, key⟩ := exists_of_total_ne inside
  rw [List.mem_reverse] at member
  cases s with
  | nil => cases member
  | cons y s =>
    have last := split.key_lt collates (.head _)
    have sorted := List.pairwise_cons.mp (List.pairwise_reverse.mp collates.sorted)
    have sum := (split.total_before last).trans (collates.total_eq (by simp))
    have y_nonzero := collates.nonzero y (by simp)
    have y_key : y.key = k' := by
      rcases List.mem_cons.mp member with rfl | member
      · exact key
      · by_contra other
        have above : k' < y.key := key ▸ sorted.1 z member
        exact y_nonzero (sum ▸ between y.key above last)
    subst y_key
    rw [split.insertionSort_eq, sum, total, split.exponentsAt_eq, not_and_or] at merges
    by_cases stays : ∀ n, (es.take n).sum ≠ -y.e
    · have moved := merges.resolve_right fun other => other stays
      rw [foldl_group_merge same.symm fun n _ => stays n]
      refine not_collates_of_lost (k := k) (by rwa [total, split.exponentsAt_eq]) (fun w inside => ?_)
        fun x member => (split.after x member).ne'
      rcases List.mem_cons.mp inside with rfl | inside
      · exact last.ne
      · exact ((sorted.1 w inside).trans last).ne
    · push Not at stays
      obtain ⟨n, cancels⟩ := stays
      have fresh : Fresh (ofLex k).2 s := by
        rw [← same]
        exact separated.fresh
      obtain ⟨cell, fold⟩ := foldl_group_cancel same.symm fresh y_nonzero cancels
      rw [fold]
      refine not_collates_of_lost nonzero (fun w inside => ?_) fun x member => (last.trans (split.after x member)).ne'
      rcases List.mem_append.mp inside with new | old
      · obtain ⟨e, -, rfl⟩ := List.mem_map.mp new
        exact last.ne'
      · exact (sorted.1 w old).ne

end Split

theorem noMerge_foldl (sorted : xs.Pairwise fun x y => x.rank ≤ y.rank) (below : ∀ y ∈ before, ∀ x ∈ xs, y.key < x.key)
    (all_eq : all = before ++ xs) (collates : Collates before s.reverse) (separated : Separated s)
    (no_lone : ∀ x ∈ xs, NoLoneZero x.key all) (result : Collates all (xs.foldl intExponent.compress s).reverse) :
    ∀ x ∈ xs, NoMerge x.key all := by
  induction length : xs.length using Nat.strong_induction_on generalizing xs before s with
  | _ n ih =>
    cases xs with
    | nil => simp
    | cons x xs =>
      obtain ⟨split, eq⟩ := Split.next sorted below all_eq
      rw [eq, List.foldl_append] at result
      have here : NoMerge x.key all := by
        by_contra merges
        exact split.not_noMerge collates separated merges result
      have step := split.foldl_group collates (no_lone x (.head _)) here
      have rest := ih _ (length ▸ Nat.lt_succ_of_le (length_filter_after x)) (sorted.filter _)
        (below_after split.before)
        split.eq step (separated.foldl _) (fun y member => no_lone y (List.mem_of_mem_filter member)) result rfl
      intro y member
      rw [eq] at member
      rcases List.mem_append.mp member with group | later
      · obtain ⟨e, -, rfl⟩ := List.mem_map.mp group
        exact here
      · exact rest y later

theorem noMerge_of_collates (no_lone : ∀ x ∈ xs, NoLoneZero x.key xs)
    (result : Collates xs (intExponent.sortAndCompress xs)) :
    ∀ x ∈ xs, NoMerge x.key xs := by
  have perm := intExponent.perm_sort xs
  intro x member
  refine (noMerge_perm perm).mp (noMerge_foldl (sort_sorted xs intExponent_order) (before_nil _) rfl
    collates_nil .nil (fun y member => (noLoneZero_perm perm).mpr (no_lone y (perm.mem_iff.mp member)))
    (result.of_perm perm.symm) x (perm.mem_iff.mpr member))

theorem noMerge_unit {k : Unit ×ₗ ℕ} {xs : List (Prime Unit ℤ)} : NoMerge k xs := by
  intro k' less same
  obtain ⟨⟨⟩, p⟩ := k
  obtain ⟨⟨⟩, p'⟩ := k'
  have eq : p' = p := same
  exact absurd less (by rw [eq]; exact lt_irrefl _)

theorem p_ne_of_key_ne {x y : Prime Unit ℤ} (other : x.key ≠ y.key) : x.p ≠ y.p :=
  fun same => other (Prime.key_eq_iff.mpr ⟨rfl, same⟩)

theorem noLoneZero_of_collates {xs : List (Prime Unit ℤ)} (result : Collates xs (intExponent.sortAndCompress xs))
    (k : Unit ×ₗ ℕ) : NoLoneZero k xs := by
  have perm := intExponent.perm_sort xs
  refine (noLoneZero_perm perm).mp fun zeros => ?_
  by_contra odd
  have split := exists_split (sort_sorted xs intExponent_order) k
  change Collates xs ((intExponent.sort xs).foldl intExponent.compress []).reverse at result
  rw [split.eq, List.foldl_append, List.foldl_append] at result
  have fresh : Fresh (ofLex k).2 (((intExponent.sort xs).filter (·.key < k)).foldl intExponent.compress []) := by
    intro y last same
    obtain ⟨z, inside | inside, eq⟩ := key_mem_foldl (List.mem_of_mem_head? last)
    · exact (eq ▸ split.before z inside).ne (Prime.key_eq_iff (y := ofKey k 0) |>.mpr ⟨rfl, same.symm⟩)
    · cases inside
  have fold := foldl_group_fresh (exponentsAt k (intExponent.sort xs)) fresh none
  rw [collapse_lone_zero zeros odd, Option.toList_none, List.map_nil, List.nil_append] at fold
  rw [fold] at result
  refine result.nonzero (ofKey k 0) (List.mem_reverse.mpr ?_) rfl
  refine mem_foldl_of_ne (.head _) fun x member => ?_
  exact p_ne_of_key_ne (y := ofKey k 0) (split.after x member).ne'

end CadoNfs.Utils.FilterIo
