import CadoNfs.Utils.Renumber

/-!
# The code of an ideal

The pair (r, side) is stored as one number `vr`.
-/

namespace CadoNfs.Utils.Renumber

variable {w : ℕ} {R : Renumber} {p v : ℕ} {x y : PRSide}

def algebraicSides (R : Renumber) : List ℕ := (List.range R.nbPolys).filter fun side => some side ≠ R.rationalSide

def nbAlgebraic (R : Renumber) : ℕ := R.nbPolys - if R.rationalSide.isSome then 1 else 0

def sideRank (R : Renumber) (side : ℕ) : ℕ := if R.rationalSide.any (· < side) then side - 1 else side

def code (R : Renumber) (x : PRSide) : ℕ :=
  if some x.side = R.rationalSide then R.nbAlgebraic * (x.p + 1) else R.sideRank x.side * (x.p + 1) + x.r

def canonical (R : Renumber) (x : PRSide) : PRSide :=
  if some x.side = R.rationalSide then { x with r := 0 } else x

structure InRange (R : Renumber) (x : PRSide) : Prop where
  side : x.side < R.nbPolys
  root : x.r ≤ x.p

@[simp] theorem canonical_p : (R.canonical x).p = x.p := by
  unfold canonical
  split_ifs
  · rfl
  · rfl

@[simp] theorem canonical_side : (R.canonical x).side = x.side := by
  unfold canonical
  split_ifs
  · rfl
  · rfl

theorem canonical_of_ne (algebraic : some x.side ≠ R.rationalSide) : R.canonical x = x := if_neg algebraic

@[simp] theorem code_canonical : R.code (R.canonical x) = R.code x := by
  rw [code, code, canonical_side, canonical_p]
  split_ifs with rational
  · rfl
  · rw [canonical_of_ne rational]

theorem rationalSide_lt {side : ℕ} (rational : R.rationalSide = some side) : side < R.nbPolys :=
  (List.findIdx?_eq_some_iff_getElem.mp rational).1

theorem algebraicSides_none (none : R.rationalSide = none) : R.algebraicSides = List.range R.nbPolys := by
  rw [algebraicSides, List.filter_eq_self]
  simp [none]

theorem algebraicSides_some {side : ℕ} (rational : R.rationalSide = some side) :
    R.algebraicSides = (List.range R.nbPolys).eraseIdx side := by
  have inside := rationalSide_lt rational
  have index : (List.range R.nbPolys).idxOf side = side := by
    have bound : side < (List.range R.nbPolys).length := by rwa [List.length_range]
    have get : (List.range R.nbPolys)[side] = side := List.getElem_range _
    have place := List.nodup_range.idxOf_getElem side bound
    rwa [get] at place
  conv_rhs => rw [← index, List.eraseIdx_idxOf_eq_erase, List.nodup_range.erase_eq_filter]
  rw [algebraicSides, rational]
  exact List.filter_congr fun other _ => by simp [bne, beq_eq_decide]

theorem length_algebraicSides : R.algebraicSides.length = R.nbAlgebraic := by
  cases rational : R.rationalSide with
  | none => simp [algebraicSides_none rational, nbAlgebraic, rational]
  | some side =>
    have inside := rationalSide_lt rational
    simp [algebraicSides_some rational, nbAlgebraic, rational, List.length_eraseIdx, inside]

theorem getElem?_algebraicSides {i side : ℕ} :
    R.algebraicSides[i]? = some side ↔ side < R.nbPolys ∧ some side ≠ R.rationalSide ∧ R.sideRank side = i := by
  cases rational : R.rationalSide with
  | none =>
    simp only [algebraicSides_none rational, sideRank, rational, List.getElem?_eq_some_iff, List.getElem_range,
      List.length_range, Option.any_none, Bool.false_eq_true, if_false, ne_eq, reduceCtorEq, not_false_eq_true,
      true_and]
    constructor
    · rintro ⟨inside, rfl⟩
      exact ⟨inside, rfl⟩
    · rintro ⟨inside, rfl⟩
      exact ⟨inside, rfl⟩
  | some k =>
    have entry (j : ℕ) : (List.range R.nbPolys)[j]? = some side ↔ j < R.nbPolys ∧ j = side := by
      simp [List.getElem?_eq_some_iff]
    simp only [algebraicSides_some rational, sideRank, rational, List.getElem?_eraseIdx, Option.any_some,
      decide_eq_true_eq, ne_eq, Option.some.injEq]
    have inside := rationalSide_lt rational
    by_cases before : i < k
    · rw [if_pos before, entry]
      split_ifs
      · omega
      · omega
    · rw [if_neg before, entry]
      split_ifs
      · omega
      · omega

theorem findSide_eq (p : ℕ) (sides : List ℕ) (v : ℕ) :
    R.findSide p sides v =
      match (sides.filter fun side => some side ≠ R.rationalSide)[v / (p + 1)]? with
      | some side => .ok ⟨p, v % (p + 1), side⟩
      | none => .error (v - (sides.filter fun side => some side ≠ R.rationalSide).length * (p + 1)) := by
  induction sides generalizing v with
  | nil => simp [findSide]
  | cons side sides ih =>
    by_cases rational : some side = R.rationalSide
    · rw [findSide, if_pos rational, ih, List.filter_cons_of_neg (by simpa using rational)]
    · rw [findSide, if_neg rational, List.filter_cons_of_pos (by simpa using rational)]
      by_cases here : v ≤ p
      · rw [if_pos here, Nat.div_eq_of_lt (by omega), Nat.mod_eq_of_lt (by omega)]
        rfl
      · obtain ⟨v', rfl⟩ : ∃ v', v = v' + (p + 1) := ⟨v - (p + 1), by omega⟩
        rw [if_neg here, Nat.add_sub_cancel, ih, Nat.add_div_right v' p.succ_pos, Nat.add_mod_right,
          List.getElem?_cons_succ, List.length_cons, Nat.succ_mul, Nat.add_sub_add_right]

theorem findSide_code (range : R.InRange x) (algebraic : some x.side ≠ R.rationalSide) :
    R.findSide x.p (List.range R.nbPolys) (R.code x) = .ok x := by
  have place : R.algebraicSides[R.sideRank x.side]? = some x.side :=
    getElem?_algebraicSides.mpr ⟨range.side, algebraic, rfl⟩
  have small : x.r < x.p + 1 := Nat.lt_succ_of_le range.root
  have quotient : R.code x / (x.p + 1) = R.sideRank x.side := by
    rw [code, if_neg algebraic, Nat.mul_comm, Nat.mul_add_div x.p.succ_pos, Nat.div_eq_of_lt small, Nat.add_zero]
  have remainder : R.code x % (x.p + 1) = x.r := by
    rw [code, if_neg algebraic, Nat.mul_add_mod', Nat.mod_eq_of_lt small]
  rw [findSide_eq, ← algebraicSides, quotient, place, remainder]

theorem computePRSideFromPVr_code (range : R.InRange x) :
    R.computePRSideFromPVr x.p (R.code x) = .ok (R.canonical x) := by
  by_cases rational : some x.side = R.rationalSide
  · have past : R.algebraicSides[R.code x / (x.p + 1)]? = none := by
      rw [List.getElem?_eq_none_iff, length_algebraicSides, code, if_pos rational,
        Nat.mul_div_cancel _ x.p.succ_pos]
    have rest : R.findSide x.p (List.range R.nbPolys) (R.code x) = .error 0 := by
      rw [findSide_eq, ← algebraicSides, past, length_algebraicSides, code, if_pos rational, Nat.sub_self]
    rw [computePRSideFromPVr, rest, ← rational, canonical, if_pos rational]
    rfl
  · rw [computePRSideFromPVr, findSide_code range rational, canonical_of_ne rational]

theorem code_of_computePRSideFromPVr (ok : R.computePRSideFromPVr p v = .ok y) : y.p = p ∧ R.code y = v := by
  unfold computePRSideFromPVr at ok
  rw [findSide_eq, ← algebraicSides] at ok
  cases place : R.algebraicSides[v / (p + 1)]? with
  | some side =>
    obtain ⟨-, algebraic, rank⟩ := getElem?_algebraicSides.mp place
    simp only [place, Except.ok.injEq] at ok
    subst ok
    refine ⟨rfl, ?_⟩
    rw [code, if_neg algebraic, rank, Nat.mul_comm]
    exact Nat.div_add_mod v (p + 1)
  | none =>
    simp only [place, length_algebraicSides] at ok
    have large : R.nbAlgebraic * (p + 1) ≤ v := by
      rw [List.getElem?_eq_none_iff, length_algebraicSides] at place
      exact (Nat.le_div_iff_mul_le p.succ_pos).mp place
    cases rest : v - R.nbAlgebraic * (p + 1) with
    | zero =>
      cases rational : R.rationalSide with
      | none => simp [rest, rational] at ok
      | some side =>
        simp only [rest, rational, Except.ok.injEq] at ok
        subst ok
        refine ⟨rfl, ?_⟩
        rw [code, if_pos rational.symm]
        show R.nbAlgebraic * (p + 1) = v
        omega
    | succ rest' =>
      cases rational : R.rationalSide with
      | none => simp [rest, rational] at ok
      | some side => simp [rest, rational] at ok

theorem canonical_inj (left : R.InRange x) (right : R.InRange y) (prime : x.p = y.p) (same : R.code x = R.code y) :
    R.canonical x = R.canonical y := by
  have first := computePRSideFromPVr_code left
  rw [prime, same, computePRSideFromPVr_code right] at first
  exact (Except.ok.inj first).symm

theorem pRValue_natCast (w n : ℕ) : pRValue w n = n % 2 ^ w := by
  rw [pRValue]
  exact_mod_cast Int.toNat_natCast (n % 2 ^ w)

theorem pRValue_of_lt {n : ℕ} (small : n < 2 ^ w) : pRValue w n = n := by
  rw [pRValue_natCast, Nat.mod_eq_of_lt small]

theorem computeVrFromPRSide_eq (side : x.side < R.nbPolys) : R.computeVrFromPRSide w x = R.code x % 2 ^ w := by
  rw [← pRValue_natCast]
  unfold computeVrFromPRSide code
  dsimp only
  by_cases rational : some x.side = R.rationalSide
  · rw [if_pos rational, if_pos rational, computeVpFromP, vpFromP, nbAlgebraic, ← rational]
    congr 1
    push_cast [Nat.cast_sub (show (if (some x.side).isSome then 1 else 0) ≤ R.nbPolys by simp; omega)]
    ring
  · rw [if_neg rational, if_neg rational, sideRank]
    split_ifs with above
    · have positive : 1 ≤ x.side := by
        obtain ⟨k, -, less⟩ := (Option.any_eq_true _ _).mp above
        exact Nat.one_le_of_lt (of_decide_eq_true less)
      congr 1
      push_cast [Nat.cast_sub positive]
      ring
    · congr 1

end CadoNfs.Utils.Renumber

/-!
# Looking up ideals

`index_from_p_r` finds the first entry with the prime and the `vr` of an ideal, through the cache or by
dichotomy.
-/

namespace CadoNfs.Utils.Renumber

variable {w : ℕ} {R : Renumber} {entries : List (ℕ × ℕ)} {cache : List (Option ℕ)} {p v : ℕ} {x : PRSide}

/-! ## The entries of a prime -/

theorem exists_cut (sorted : entries.Pairwise fun a b => a.1 ≤ b.1) (member : (p, v) ∈ entries) :
    ∃ before u rest, entries = before ++ (p, u) :: rest ∧ Below before p := by
  induction entries with
  | nil => cases member
  | cons e entries ih =>
    obtain ⟨q, u⟩ := e
    obtain ⟨later, sorted⟩ := List.pairwise_cons.mp sorted
    by_cases same : q = p
    · exact ⟨[], u, entries, by rw [same]; rfl, nofun⟩
    · have inside : (p, v) ∈ entries := by
        cases member with
        | head => exact absurd rfl same
        | tail _ inside => exact inside
      obtain ⟨before, u', rest, rfl, below⟩ := ih sorted inside
      refine ⟨(q, u) :: before, u', rest, rfl, ?_⟩
      rw [Below, List.forall_mem_cons]
      exact ⟨lt_of_le_of_ne (later _ inside) same, below⟩

variable {before rest : List (ℕ × ℕ)} {u : ℕ}

theorem findIdx?_cut (below : Below before p) :
    ((before ++ (p, u) :: rest).findIdx? fun e => e.1 = p) = some before.length := by
  have none : (before.findIdx? fun e => e.1 = p) = none :=
    findIdx?_eq_none fun e member => (below e member).ne
  rw [List.findIdx?_append, none, List.findIdx?_cons, decide_eq_true rfl, if_pos rfl]
  simp

theorem findIdx_cut (below : Below before p) :
    ((before ++ (p, u) :: rest).findIdx fun e => p ≤ e.1) = before.length := by
  induction before with
  | nil => simp [List.findIdx_cons]
  | cons e before ih =>
    rw [Below, List.forall_mem_cons] at below
    rw [List.cons_append, List.findIdx_cons, decide_eq_false (not_le.mpr below.1), cond_false, ih below.2,
      List.length_cons]

theorem idxOf_cut (below : Below before p) :
    (before ++ (p, u) :: rest).idxOf (p, v) = before.length + ((p, u) :: rest).idxOf (p, v) := by
  rw [List.idxOf_append_of_notMem fun member => absurd (below _ member) (lt_irrefl p)]

def LowPrime (w : ℕ) (R : Renumber) (p : ℕ) : Prop := R.lpb.foldl max 0 < w → p < 2 ^ R.lpb.foldl max 0

theorem dichotomy_cut (low : R.LowPrime w p) (below : Below before p) :
    (R.withEntries (before ++ (p, u) :: rest) cache).dichotomy w p = .ok (before.length + R.aboveBad) := by
  have pass : ¬ (R.lpb.foldl max 0 < w ∧ p >>> R.lpb.foldl max 0 ≠ 0) := by
    rintro ⟨narrow, shifted⟩
    rw [Nat.shiftRight_eq_div_pow] at shifted
    exact shifted (Nat.div_eq_of_lt (low narrow))
  have inside : before.length ≠ (before ++ (p, u) :: rest).length := by
    rw [List.length_append, List.length_cons]
    omega
  unfold dichotomy withEntries
  dsimp only
  rw [if_neg pass, findIdx_cut below, if_neg inside]

theorem getFirstIteratorFromP_cut (of : CacheOf (before ++ (p, u) :: rest) cache) (low : R.LowPrime w p)
    (below : Below before p) :
    (R.withEntries (before ++ (p, u) :: rest) cache).getFirstIteratorFromP w p =
      .ok (before.length + R.aboveBad) := by
  unfold getFirstIteratorFromP
  by_cases cached : p < cache.length
  · have entry : cache[p]? = some (some before.length) := by rw [of.entry p cached, findIdx?_cut below]
    obtain ⟨inside, get⟩ := List.getElem?_eq_some_iff.mp entry
    have first : scanCache (cache.drop p) p = (p, some before.length) := by
      rw [List.drop_eq_getElem_cons inside, get]
      rfl
    have known : ¬ R.aboveBad + (before ++ (p, u) :: rest).length ≤ R.aboveBad + before.length := by
      rw [List.length_append, List.length_cons]
      omega
    simp only [withEntries, first, known, if_false, List.getElem?_append_right le_rfl, Nat.sub_self,
      List.getElem?_cons_zero, if_true]
  · have none : scanCache (cache.drop p) p = (p, none) := by
      rw [List.drop_eq_nil_of_le (not_lt.mp cached)]
      rfl
    simp only [withEntries]
    rw [none]
    exact dichotomy_cut low below

theorem findVr_eq {l : List (ℕ × ℕ)} (sorted : l.Pairwise fun a b => a.1 ≤ b.1) (least : ∀ e ∈ l, x.p ≤ e.1)
    (member : (x.p, v) ∈ l) (i : ℕ) : findVr x v l i = .ok (i + l.idxOf (x.p, v)) := by
  induction l generalizing i with
  | nil => cases member
  | cons e l ih =>
    obtain ⟨q, u⟩ := e
    obtain ⟨later, ordered⟩ := List.pairwise_cons.mp sorted
    rw [List.forall_mem_cons] at least
    have prime : q = x.p := by
      cases member with
      | head => rfl
      | tail _ inside => exact (later _ inside).antisymm least.1
    subst prime
    rw [findVr, if_neg (not_not.mpr rfl)]
    by_cases here : u = v
    · rw [if_pos here, here, List.idxOf_cons_self, Nat.add_zero]
    · have inside : (x.p, v) ∈ l := by
        cases member with
        | head => exact absurd rfl here
        | tail _ inside => exact inside
      rw [if_neg here, ih ordered least.2 inside, List.idxOf_cons_ne _ (by simpa using here)]
      congr 1
      omega

theorem indexFromPR_eq (of : CacheOf entries cache) (sorted : entries.Pairwise fun a b => a.1 ≤ b.1)
    (low : R.LowPrime w x.p) (positive : x.p ≠ 0) (good : (R.isBad x).1 = 0)
    (member : (x.p, R.computeVrFromPRSide w x) ∈ entries) :
    (R.withEntries entries cache).indexFromPR w x =
      .ok (R.aboveBad + entries.idxOf (x.p, R.computeVrFromPRSide w x)) := by
  obtain ⟨before, u, rest, rfl, below⟩ := exists_cut sorted member
  have tail := (List.pairwise_append.mp sorted).2.1
  have inside : (x.p, R.computeVrFromPRSide w x) ∈ (x.p, u) :: rest := by
    rcases List.mem_append.mp member with early | late
    · exact absurd (below _ early) (lt_irrefl _)
    · exact late
  have least : ∀ e ∈ (x.p, u) :: rest, x.p ≤ e.1 := by
    rw [List.forall_mem_cons]
    exact ⟨le_rfl, (List.pairwise_cons.mp tail).1⟩
  have first := getFirstIteratorFromP_cut (w := w) of low below
  have found := findVr_eq tail least inside (before.length + R.aboveBad)
  have bad : ((R.withEntries (before ++ (x.p, u) :: rest) cache).isBad x).1 = 0 := good
  have code : (R.withEntries (before ++ (x.p, u) :: rest) cache).computeVrFromPRSide w x =
      R.computeVrFromPRSide w x := rfl
  have drop : (R.withEntries (before ++ (x.p, u) :: rest) cache).flatData.drop
      (before.length + R.aboveBad - (R.withEntries (before ++ (x.p, u) :: rest) cache).aboveBad) =
      (x.p, u) :: rest := by
    show (before ++ (x.p, u) :: rest).drop (before.length + R.aboveBad - R.aboveBad) = _
    rw [Nat.add_sub_cancel, List.drop_left]
  unfold indexFromPR
  simp only [bad, ne_eq, not_true_eq_false, if_false, positive, first, code]
  rw [idxOf_cut below]
  simp only [bind, Except.bind, drop, found]
  congr 1
  omega

end CadoNfs.Utils.Renumber

/-!
# From indices to ideals and back

The indices of a table are the additional columns, the bad ideals, and then the entries.
-/

namespace CadoNfs.Utils.Renumber

variable {w : ℕ} {R : Renumber} {x : PRSide} {l : List (PRSide × ℕ)} {i : ℕ}

def nbBad (l : List (PRSide × ℕ)) : ℕ := (l.map Prod.snd).sum

theorem exists_pickBad (inside : i < nbBad l) : ∃ b ∈ l, pickBad i l = .ok b.1 := by
  induction l generalizing i with
  | nil => cases inside
  | cons b l ih =>
    rw [pickBad]
    split_ifs with here
    · exact ⟨b, List.mem_cons_self, rfl⟩
    · have rest : i - b.2 < nbBad l := by
        rw [nbBad, List.map_cons, List.sum_cons] at inside
        rw [nbBad]
        omega
      obtain ⟨b', member, pick⟩ := ih rest
      exact ⟨b', List.mem_cons_of_mem _ member, pick⟩

theorem lookupBad_of_notMem (other : ∀ b ∈ l, b.1 ≠ x) (first : ℕ) : (lookupBad x first l).1 = 0 := by
  induction l generalizing first with
  | nil => rfl
  | cons b l ih =>
    rw [List.forall_mem_cons] at other
    rw [lookupBad, if_neg other.1.symm]
    exact ih other.2 _

theorem lookupBad_pickBad (positive : ∀ b ∈ l, 0 < b.2) (pick : pickBad i l = .ok x) (first : ℕ) :
    ∃ j ≤ i, (lookupBad x first l).1 ≠ 0 ∧ (lookupBad x first l).2 = first + j ∧ pickBad j l = .ok x ∧
      ∀ k < j, pickBad k l ≠ .ok x := by
  induction l generalizing i first with
  | nil => cases pick
  | cons b l ih =>
    rw [List.forall_mem_cons] at positive
    by_cases same : x = b.1
    · refine ⟨0, i.zero_le, ?_, ?_, ?_, nofun⟩
      · rw [lookupBad, if_pos same]
        exact positive.1.ne'
      · rw [lookupBad, if_pos same, Nat.add_zero]
      · rw [pickBad, if_pos positive.1, same]
    · have past : ¬ i < b.2 := by
        intro here
        rw [pickBad, if_pos here] at pick
        exact same (Except.ok.inj pick).symm
      rw [pickBad, if_neg past] at pick
      obtain ⟨j, le, found, index, first', least⟩ := ih positive.2 pick (first + b.2)
      refine ⟨j + b.2, by omega, ?_, ?_, ?_, fun k less => ?_⟩
      · rwa [lookupBad, if_neg same]
      · rw [lookupBad, if_neg same, index]
        omega
      · rwa [pickBad, if_neg (by omega), Nat.add_sub_cancel]
      · rw [pickBad]
        split_ifs with here
        · exact fun ok => same (Except.ok.inj ok).symm
        · exact least _ (by omega)

/-! ## A table without entries -/

structure Ready (R : Renumber) : Prop where
  fresh : R.Fresh
  columns : R.aboveAdd = 0 ∨
    R.aboveAdd = if R.hasMergedAdditionalColumn then 1 else R.sidesOfAdditionalColumns.length
  bad : R.aboveBad = R.aboveAdd + nbBad R.badIdeals
  positive : ∀ b ∈ R.badIdeals, b.1.p ≠ 0 ∧ 0 < b.2
  greatest : ∀ b ∈ R.badIdeals, b.1.p ≤ R.badIdealsMaxP

theorem Ready.addBadIdeal (ready : R.Ready) {nbad : ℕ} (prime : x.p ≠ 0) (several : 0 < nbad) :
    (R.addBadIdeal x nbad).Ready := by
  refine ⟨⟨ready.fresh.flatData, ready.fresh.cache, rfl, rfl⟩, ready.columns, ?_, fun b member => ?_,
    fun b member => ?_⟩
  · show R.aboveBad + nbad = R.aboveAdd + nbBad (R.badIdeals ++ [(x, nbad)])
    rw [ready.bad, nbBad, nbBad, List.map_append, List.sum_append, Nat.add_assoc]
    simp
  · rcases List.mem_append.mp member with before | new
    · exact ready.positive b before
    · rw [List.mem_singleton.mp new]
      exact ⟨prime, several⟩
  · show b.1.p ≤ if R.badIdealsMaxP ≤ x.p then x.p else R.badIdealsMaxP
    rcases List.mem_append.mp member with before | new
    · have := ready.greatest b before
      split_ifs
      · omega
      · exact this
    · rw [List.mem_singleton.mp new]
      split_ifs with larger
      · exact le_rfl
      · exact (not_le.mp larger).le

theorem start_ready (poly : List SidePoly) (lpb : List ℕ) (forDl : Bool) {badIdeals : List (PRSide × ℕ)}
    (bad : ∀ b ∈ badIdeals, b.1.p ≠ 0 ∧ 0 < b.2) : (start poly lpb forDl badIdeals).Ready := by
  have run : ∀ (l : List (PRSide × ℕ)) (R : Renumber), (∀ b ∈ l, b.1.p ≠ 0 ∧ 0 < b.2) → R.Ready →
      (l.foldl (fun R b => R.addBadIdeal b.1 b.2) R).Ready := by
    intro l
    induction l with
    | nil => exact fun R _ ready => ready
    | cons b l ih =>
      intro R bad ready
      rw [List.forall_mem_cons] at bad
      exact ih _ bad.2 (ready.addBadIdeal bad.1.1 bad.1.2)
  refine run badIdeals _ bad ?_
  cases forDl with
  | false => exact ⟨⟨rfl, rfl, rfl, rfl⟩, .inl rfl, rfl, nofun, nofun⟩
  | true => exact ⟨⟨rfl, rfl, rfl, rfl⟩, .inr rfl, rfl, nofun, nofun⟩

/-! ## Additional columns and bad ideals -/

variable {entries : List (ℕ × ℕ)} {cache : List (Option ℕ)}

theorem isBad_column (ready : R.Ready) (side : ℕ) : (R.isBad ⟨0, 0, side⟩).1 = 0 := by
  unfold isBad
  split_ifs
  · rfl
  · refine lookupBad_of_notMem (fun b member same => ?_) _
    exact (ready.positive b member).1 (by rw [same])

theorem nodup_sidesOfAdditionalColumns : R.sidesOfAdditionalColumns.Nodup := List.nodup_range.filter _

theorem sides_of_merged (merged : R.hasMergedAdditionalColumn = true) : R.sidesOfAdditionalColumns = [0, 1] := by
  simp only [hasMergedAdditionalColumn, Bool.and_eq_true, decide_eq_true_eq] at merged
  have all : R.sidesOfAdditionalColumns = List.range R.nbPolys :=
    List.filter_sublist.eq_of_length (merged.2.trans (by rw [List.length_range, merged.1]))
  rw [all, merged.1]
  rfl

theorem indexFromPR_column {side : ℕ} (good : (R.isBad ⟨0, 0, side⟩).1 = 0) :
    R.indexFromPR w ⟨0, 0, side⟩ =
      if R.hasMergedAdditionalColumn then if side = 0 then .ok 0 else .error (.cannotFindPr ⟨0, 0, side⟩)
      else match R.sidesOfAdditionalColumns.idxOf? side with
        | some i => .ok i
        | none => .error (.cannotFindPr ⟨0, 0, side⟩) := by
  have pass : ¬ (R.isBad ⟨0, 0, side⟩).1 ≠ 0 := not_not.mpr good
  unfold indexFromPR
  exact (if_neg pass).trans (if_pos rfl)

theorem column_roundTrip (ready : R.Ready) (inside : i < R.aboveAdd) :
    ∃ x, (R.withEntries entries cache).pRFromIndex i = .ok x ∧
      (R.withEntries entries cache).indexFromPR w x = .ok i := by
  have columns : R.aboveAdd = if R.hasMergedAdditionalColumn then 1 else R.sidesOfAdditionalColumns.length := by
    rcases ready.columns with zero | columns
    · omega
    · exact columns
  have found (side : ℕ) : (R.withEntries entries cache).indexFromPR w ⟨0, 0, side⟩ = _ :=
    indexFromPR_column (isBad_column ready side)
  have pick {side : ℕ} (get : R.sidesOfAdditionalColumns[i]? = some side) :
      (R.withEntries entries cache).pRFromIndex i = .ok ⟨0, 0, side⟩ := by
    unfold pRFromIndex
    rw [if_pos (show i < (R.withEntries entries cache).aboveAdd from inside)]
    simp only [show (R.withEntries entries cache).sidesOfAdditionalColumns[i]? = some side from get]
  by_cases merged : R.hasMergedAdditionalColumn = true
  · obtain rfl : i = 0 := by
      rw [columns, if_pos merged] at inside
      omega
    refine ⟨_, pick (by rw [sides_of_merged merged]; rfl), ?_⟩
    rw [found, if_pos (show (R.withEntries entries cache).hasMergedAdditionalColumn = true from merged), if_pos rfl]
  · rw [columns, if_neg merged] at inside
    refine ⟨_, pick (List.getElem?_eq_getElem inside), ?_⟩
    have index : R.sidesOfAdditionalColumns.idxOf? R.sidesOfAdditionalColumns[i] = some i := by
      rw [List.idxOf?_eq_some_iff]
      refine ⟨inside, rfl, fun j less same => ?_⟩
      have := (nodup_sidesOfAdditionalColumns.getElem_inj_iff).mp same
      omega
    rw [found, if_neg (show ¬ (R.withEntries entries cache).hasMergedAdditionalColumn = true from merged)]
    simp only [show (R.withEntries entries cache).sidesOfAdditionalColumns = R.sidesOfAdditionalColumns from rfl, index]

theorem bad_roundTrip (ready : R.Ready) (above : R.aboveAdd ≤ i) (inside : i < R.aboveBad) :
    ∃ x j, (R.withEntries entries cache).pRFromIndex i = .ok x ∧
      (R.withEntries entries cache).indexFromPR w x = .ok j ∧ R.aboveAdd ≤ j ∧ j ≤ i ∧
      (R.withEntries entries cache).pRFromIndex j = .ok x ∧
      ∀ k < j, R.aboveAdd ≤ k → (R.withEntries entries cache).pRFromIndex k ≠ .ok x := by
  have pick {k : ℕ} (above : R.aboveAdd ≤ k) (inside : k < R.aboveBad) :
      (R.withEntries entries cache).pRFromIndex k = pickBad (k - R.aboveAdd) R.badIdeals := by
    unfold pRFromIndex
    rw [if_neg (show ¬ k < (R.withEntries entries cache).aboveAdd from not_lt.mpr above),
      if_pos (show k < (R.withEntries entries cache).aboveBad from inside)]
    rfl
  have bound : i - R.aboveAdd < nbBad R.badIdeals := by
    have := ready.bad
    omega
  obtain ⟨b, member, ideal⟩ := exists_pickBad bound
  obtain ⟨j, le, found, index, first, least⟩ :=
    lookupBad_pickBad (fun b member => (ready.positive b member).2) ideal R.aboveAdd
  have isBad : (R.withEntries entries cache).isBad b.1 = lookupBad b.1 R.aboveAdd R.badIdeals := by
    unfold Renumber.isBad
    exact if_neg (not_lt.mpr (ready.greatest b member))
  refine ⟨b.1, R.aboveAdd + j, by rw [pick above inside, ideal], ?_, Nat.le_add_right _ _, by omega, ?_, ?_⟩
  · unfold indexFromPR
    rw [isBad]
    simp only [found, ne_eq, not_false_eq_true, if_true, index]
  · rw [pick (Nat.le_add_right _ _) (by omega), Nat.add_sub_cancel_left, first]
  · intro k less above'
    rw [pick above' (by omega)]
    exact least _ (by omega)

variable {primes : List (ℕ × List (List ℕ))}

def cookedIdeals (n : ℕ) (primes : List (ℕ × List (List ℕ))) : List PRSide :=
  primes.flatMap fun P => (List.range n).flatMap fun side =>
    (P.2.getD side []).reverse.map fun r => ⟨P.1, r, side⟩

/-- What the builder cooks: bad ideals are taken off, and the rational side has one root. -/
structure Cooks (w : ℕ) (R : Renumber) (primes : List (ℕ × List (List ℕ))) : Prop where
  increasing : primes.Pairwise fun P Q => P.1 < Q.1
  prime : ∀ P ∈ primes, 0 < P.1 ∧ P.1 < 2 ^ w
  ordered : ∀ P ∈ primes, ∀ side < R.nbPolys, (P.2.getD side []).Pairwise (· < ·)
  rational : ∀ P ∈ primes, ∀ side, R.rationalSide = some side → (P.2.getD side []).length ≤ 1
  root : ∀ x ∈ cookedIdeals R.nbPolys primes, x.r ≤ x.p ∧ x.p < 2 ^ R.lpb.getD x.side 0
  good : ∀ x ∈ cookedIdeals R.nbPolys primes, (R.isBad x).1 = 0 ∧ (R.isBad (R.canonical x)).1 = 0

theorem mem_cookedIdeals {n : ℕ} :
    x ∈ cookedIdeals n primes ↔ ∃ P ∈ primes, x.p = P.1 ∧ x.side < n ∧ x.r ∈ P.2.getD x.side [] := by
  obtain ⟨p, r, side⟩ := x
  simp only [cookedIdeals, List.mem_flatMap, List.mem_map, List.mem_range, List.mem_reverse, PRSide.mk.injEq]
  constructor
  · rintro ⟨P, member, side, inside, r, root, rfl, rfl, rfl⟩
    exact ⟨P, member, rfl, inside, root⟩
  · rintro ⟨P, member, rfl, inside, root⟩
    exact ⟨P, member, side, inside, r, root, rfl, rfl, rfl⟩

theorem Cooks.inRange (cooks : R.Cooks w primes) (member : x ∈ cookedIdeals R.nbPolys primes) : R.InRange x := by
  obtain ⟨P, -, -, inside, -⟩ := mem_cookedIdeals.mp member
  exact ⟨inside, (cooks.root x member).1⟩

theorem Cooks.positive (cooks : R.Cooks w primes) (member : x ∈ cookedIdeals R.nbPolys primes) : x.p ≠ 0 := by
  obtain ⟨P, among, prime, -⟩ := mem_cookedIdeals.mp member
  rw [prime]
  exact (cooks.prime P among).1.ne'

theorem le_foldl_max (l : List ℕ) (side first : ℕ) :
    first ≤ l.foldl max first ∧ l.getD side 0 ≤ l.foldl max first := by
  induction l generalizing side first with
  | nil => exact ⟨le_rfl, Nat.zero_le _⟩
  | cons bound l ih =>
    rw [List.foldl_cons]
    refine ⟨(le_max_left _ _).trans (ih side _).1, ?_⟩
    cases side with
    | zero => exact (le_max_right _ _).trans (ih 0 _).1
    | succ side => exact (ih side _).2

theorem Cooks.low (cooks : R.Cooks w primes) (member : x ∈ cookedIdeals R.nbPolys primes) : R.LowPrime w x.p :=
  fun _ => (cooks.root x member).2.trans_le (Nat.pow_le_pow_right (by norm_num) (le_foldl_max R.lpb x.side 0).2)

theorem entriesOf_eq (cooks : R.Cooks w primes) :
    R.entriesOf w primes =
      (cookedIdeals R.nbPolys primes).map fun x => (x.p, R.computeVrFromPRSide w x) := by
  rw [entriesOf, cookedIdeals, List.map_flatMap]
  refine List.flatMap_congr fun P among => ?_
  have prime : pRValue w P.1 = P.1 := pRValue_of_lt (cooks.prime P among).2
  have root : ∀ side < R.nbPolys, ∀ r ∈ P.2.getD side [], pRValue w r = r := by
    intro side inside r member
    have bound := (cooks.root ⟨P.1, r, side⟩ (mem_cookedIdeals.mpr ⟨P, among, rfl, inside, member⟩)).1
    exact pRValue_of_lt (bound.trans_lt (cooks.prime P among).2)
  rw [cook_flat, List.map_flatMap]
  refine List.flatMap_congr fun side inside => ?_
  rw [List.map_map]
  refine List.map_congr_left fun r member => ?_
  rw [prime, root side (List.mem_range.mp inside) r (List.mem_reverse.mp member)]
  rfl

theorem canonical_pairwise (cooks : R.Cooks w primes) :
    (cookedIdeals R.nbPolys primes).Pairwise fun x y => R.canonical x ≠ R.canonical y := by
  have prime {x y : PRSide} (other : x.p ≠ y.p) : R.canonical x ≠ R.canonical y := fun same =>
    other (by rw [← canonical_p (R := R), same, canonical_p])
  have side {x y : PRSide} (other : x.side ≠ y.side) : R.canonical x ≠ R.canonical y := fun same =>
    other (by rw [← canonical_side (R := R), same, canonical_side])
  rw [cookedIdeals, List.pairwise_flatMap]
  refine ⟨fun P among => ?_, ?_⟩
  · rw [List.pairwise_flatMap]
    refine ⟨fun s inside => ?_, ?_⟩
    · rw [List.pairwise_map, List.pairwise_reverse]
      by_cases rational : R.rationalSide = some s
      · have short := cooks.rational P among s rational
        cases roots : P.2.getD s [] with
        | nil => exact .nil
        | cons r rest =>
          rw [roots] at short
          obtain rfl : rest = [] := by simpa using short
          exact List.pairwise_singleton _ _
      · refine (cooks.ordered P among s (List.mem_range.mp inside)).imp fun {r r'} less same => ?_
        rw [canonical_of_ne (Ne.symm rational), canonical_of_ne (Ne.symm rational)] at same
        exact less.ne' (congrArg PRSide.r same)
    · refine List.nodup_range.imp fun {s s'} other x left y right => side ?_
      obtain ⟨r, -, rfl⟩ := List.mem_map.mp left
      obtain ⟨r', -, rfl⟩ := List.mem_map.mp right
      exact other
  · refine cooks.increasing.imp fun {P Q} less x left y right => prime ?_
    obtain ⟨s, -, inside⟩ := List.mem_flatMap.mp left
    obtain ⟨s', -, inside'⟩ := List.mem_flatMap.mp right
    obtain ⟨r, -, rfl⟩ := List.mem_map.mp inside
    obtain ⟨r', -, rfl⟩ := List.mem_map.mp inside'
    exact less.ne

/-- An index above the bad ideals comes back, a bad ideal comes back to its first index, and so does an additional
column. Every cooked ideal is at its index, up to the root on the rational side. -/
structure RoundTrips (w : ℕ) (T : Renumber) (ideals : List PRSide) : Prop where
  entry : ∀ i, T.aboveBad ≤ i → i < T.aboveAll → ∃ x, T.pRFromIndex i = .ok x ∧ T.indexFromPR w x = .ok i
  bad : ∀ i, T.aboveAdd ≤ i → i < T.aboveBad → ∃ x j, T.pRFromIndex i = .ok x ∧ T.indexFromPR w x = .ok j ∧
    T.aboveAdd ≤ j ∧ j ≤ i ∧ T.pRFromIndex j = .ok x ∧ ∀ k < j, T.aboveAdd ≤ k → T.pRFromIndex k ≠ .ok x
  column : ∀ i < T.aboveAdd, ∃ x, T.pRFromIndex i = .ok x ∧ T.indexFromPR w x = .ok i
  ideal : ∀ x ∈ ideals, ∃ i, T.indexFromPR w x = .ok i ∧ T.pRFromIndex i = .ok (T.canonical x)

theorem computePRSideFromPVr_withEntries (p vr : ℕ) :
    (R.withEntries entries cache).computePRSideFromPVr p vr = R.computePRSideFromPVr p vr := by
  have side : (R.withEntries entries cache).findSide p (List.range R.nbPolys) vr =
      R.findSide p (List.range R.nbPolys) vr := by
    rw [findSide_eq, findSide_eq]
    rfl
  unfold computePRSideFromPVr
  rw [← side]
  rfl

theorem pRFromIndex_entry (ready : R.Ready) {k p vr : ℕ} (get : entries[k]? = some (p, vr)) :
    (R.withEntries entries cache).pRFromIndex (R.aboveBad + k) = R.computePRSideFromPVr p vr := by
  have order : R.aboveAdd ≤ R.aboveBad := by
    rw [ready.bad]
    exact Nat.le_add_right _ _
  have notColumn : ¬ R.aboveBad + k < (R.withEntries entries cache).aboveAdd :=
    not_lt.mpr (order.trans (Nat.le_add_right _ _))
  have notBad : ¬ R.aboveBad + k < (R.withEntries entries cache).aboveBad := not_lt.mpr (Nat.le_add_right _ _)
  have entry : (R.withEntries entries cache).flatData[R.aboveBad + k - (R.withEntries entries cache).aboveBad]? =
      some (p, vr) := by
    show entries[R.aboveBad + k - R.aboveBad]? = some (p, vr)
    rw [Nat.add_sub_cancel_left, get]
  unfold pRFromIndex
  rw [if_neg notColumn, if_neg notBad, entry]
  exact computePRSideFromPVr_withEntries p vr

theorem Cooks.mem_entries (cooks : R.Cooks w primes) (member : x ∈ cookedIdeals R.nbPolys primes) :
    (x.p, R.code x % 2 ^ w) ∈ R.entriesOf w primes := by
  rw [entriesOf_eq cooks, ← computeVrFromPRSide_eq (cooks.inRange member).side]
  exact List.mem_map_of_mem member

theorem Cooks.indexFromPR (cooks : R.Cooks w primes) (of : CacheOf (R.entriesOf w primes) cache)
    (member : x ∈ cookedIdeals R.nbPolys primes) {y : PRSide} (same : y = x ∨ y = R.canonical x) :
    (R.withEntries (R.entriesOf w primes) cache).indexFromPR w y =
      .ok (R.aboveBad + (R.entriesOf w primes).idxOf (x.p, R.code x % 2 ^ w)) := by
  have small : ∀ P ∈ primes, P.1 < 2 ^ w := fun P among => (cooks.prime P among).2
  have prime : y.p = x.p := by
    rcases same with rfl | rfl
    · rfl
    · exact canonical_p
  have code : R.computeVrFromPRSide w y = R.code x % 2 ^ w := by
    rcases same with rfl | rfl
    · exact computeVrFromPRSide_eq (cooks.inRange member).side
    · rw [computeVrFromPRSide_eq (by rw [canonical_side]; exact (cooks.inRange member).side), code_canonical]
  have good : (R.isBad y).1 = 0 := by
    rcases same with rfl | rfl
    · exact (cooks.good _ member).1
    · exact (cooks.good _ member).2
  have found := indexFromPR_eq (x := y) of (entriesOf_sorted small cooks.increasing) (prime ▸ cooks.low member)
    (prime ▸ cooks.positive member) good (by rw [prime, code]; exact cooks.mem_entries member)
  rwa [prime, code] at found

variable (cache) in
theorem Cooks.pRFromIndex (cooks : R.Cooks w primes) (ready : R.Ready)
    (member : x ∈ cookedIdeals R.nbPolys primes) :
    (R.withEntries (R.entriesOf w primes) cache).pRFromIndex
        (R.aboveBad + (R.entriesOf w primes).idxOf (x.p, R.code x % 2 ^ w)) =
      R.computePRSideFromPVr x.p (R.code x % 2 ^ w) := by
  have inside := List.idxOf_lt_length_of_mem (cooks.mem_entries member)
  exact pRFromIndex_entry ready (List.getElem?_eq_some_iff.mpr ⟨inside, List.getElem_idxOf inside⟩)

theorem Cooks.nodup_entries (cooks : R.Cooks w primes)
    (fits : ∀ x ∈ cookedIdeals R.nbPolys primes, R.code x < 2 ^ w) : (R.entriesOf w primes).Nodup := by
  rw [entriesOf_eq cooks, List.Nodup, List.pairwise_map]
  refine (canonical_pairwise cooks).imp_of_mem fun {x y} left right other same => other ?_
  obtain ⟨prime, code⟩ := Prod.mk.inj same
  rw [computeVrFromPRSide_eq (cooks.inRange left).side, computeVrFromPRSide_eq (cooks.inRange right).side,
    Nat.mod_eq_of_lt (fits x left), Nat.mod_eq_of_lt (fits y right)] at code
  exact canonical_inj (cooks.inRange left) (cooks.inRange right) prime code

theorem entry_roundTrip (cooks : R.Cooks w primes) (ready : R.Ready) (of : CacheOf (R.entriesOf w primes) cache)
    (fits : ∀ x ∈ cookedIdeals R.nbPolys primes, R.code x < 2 ^ w) (above : R.aboveBad ≤ i)
    (inside : i < R.aboveBad + (R.entriesOf w primes).length) :
    ∃ x, (R.withEntries (R.entriesOf w primes) cache).pRFromIndex i = .ok x ∧
      (R.withEntries (R.entriesOf w primes) cache).indexFromPR w x = .ok i := by
  obtain ⟨k, rfl⟩ := Nat.exists_eq_add_of_le above
  have bound : k < (R.entriesOf w primes).length := by omega
  have ideal : ∀ e ∈ R.entriesOf w primes, ∃ x ∈ cookedIdeals R.nbPolys primes, e = (x.p, R.code x % 2 ^ w) := by
    intro e among
    rw [entriesOf_eq cooks] at among
    obtain ⟨x, member, rfl⟩ := List.mem_map.mp among
    exact ⟨x, member, by rw [computeVrFromPRSide_eq (cooks.inRange member).side]⟩
  obtain ⟨x, member, entry⟩ := ideal _ (List.getElem_mem bound)
  have first : (R.entriesOf w primes).idxOf (x.p, R.code x % 2 ^ w) = k := by
    rw [← entry]
    exact (cooks.nodup_entries fits).idxOf_getElem k bound
  have decoded := cooks.pRFromIndex cache ready member
  have found := cooks.indexFromPR of member (.inr rfl)
  rw [first] at decoded found
  rw [Nat.mod_eq_of_lt (fits x member), computePRSideFromPVr_code (cooks.inRange member)] at decoded
  exact ⟨R.canonical x, decoded, found⟩

theorem Ready.roundTrips_exactly (ready : R.Ready) (cooks : R.Cooks w primes) :
    RoundTrips w (R.cookedTable w primes) (cookedIdeals R.nbPolys primes) ↔
      ∀ x ∈ cookedIdeals R.nbPolys primes, R.code x < 2 ^ w := by
  have small : ∀ P ∈ primes, P.1 < 2 ^ w := fun P among => (cooks.prime P among).2
  obtain ⟨cache, of, table⟩ := cookedTable_eq ready.fresh small cooks.increasing
  rw [table]
  constructor
  · intro trips x member
    obtain ⟨i, found, decoded⟩ := trips.ideal x member
    rw [cooks.indexFromPR of member (.inl rfl), Except.ok.injEq] at found
    rw [← found, cooks.pRFromIndex _ ready member] at decoded
    have code : R.code (R.canonical x) = R.code x % 2 ^ w := (code_of_computePRSideFromPVr decoded).2
    rw [code_canonical] at code
    rw [code]
    exact Nat.mod_lt _ (Nat.two_pow_pos w)
  · intro fits
    refine ⟨fun i above inside => entry_roundTrip cooks ready of fits above inside,
      fun i above inside => bad_roundTrip ready above inside, fun i inside => column_roundTrip ready inside,
      fun x member => ⟨_, cooks.indexFromPR of member (.inl rfl), ?_⟩⟩
    rw [cooks.pRFromIndex _ ready member, Nat.mod_eq_of_lt (fits x member)]
    exact computePRSideFromPVr_code (cooks.inRange member)

theorem roundTrips_iff (w : ℕ) (poly : List SidePoly) (lpb : List ℕ) (forDl : Bool) {badIdeals : List (PRSide × ℕ)}
    (bad : ∀ b ∈ badIdeals, b.1.p ≠ 0 ∧ 0 < b.2) {primes : List (ℕ × List (List ℕ))}
    (cooks : (start poly lpb forDl badIdeals).Cooks w primes) :
    RoundTrips w ((start poly lpb forDl badIdeals).cookedTable w primes)
        (cookedIdeals (start poly lpb forDl badIdeals).nbPolys primes) ↔
      ∀ x ∈ cookedIdeals (start poly lpb forDl badIdeals).nbPolys primes,
        (start poly lpb forDl badIdeals).code x < 2 ^ w :=
  (start_ready poly lpb forDl bad).roundTrips_exactly cooks

theorem roundTrips_iff_two :
    RoundTrips 32 ((start [⟨1, true⟩, ⟨3, false⟩] [10, 10] true [(⟨3, 1, 1⟩, 2)]).cookedTable 32
        [(2, [[0], [1, 2]]), (3, [[0], [0]])])
        (cookedIdeals (start [⟨1, true⟩, ⟨3, false⟩] [10, 10] true [(⟨3, 1, 1⟩, 2)]).nbPolys
          [(2, [[0], [1, 2]]), (3, [[0], [0]])]) ↔
      ∀ x ∈ cookedIdeals (start [⟨1, true⟩, ⟨3, false⟩] [10, 10] true [(⟨3, 1, 1⟩, 2)]).nbPolys
          [(2, [[0], [1, 2]]), (3, [[0], [0]])],
        (start [⟨1, true⟩, ⟨3, false⟩] [10, 10] true [(⟨3, 1, 1⟩, 2)]).code x < 2 ^ 32 :=
  roundTrips_iff 32 _ _ _ (by decide)
    ⟨by decide, by decide, by decide, by decide, by decide, by decide⟩

def wrappingPrimes : List (ℕ × List (List ℕ)) := [(2 ^ 63 - 25, [[], [], [48]])]

theorem roundTrips_wraps :
    checkNeededBits 64 (start [⟨3, true⟩, ⟨3, true⟩, ⟨3, true⟩] [63, 63, 63] false []).neededBits = true ∧
      (start [⟨3, true⟩, ⟨3, true⟩, ⟨3, true⟩] [63, 63, 63] false []).Cooks 64 wrappingPrimes ∧
      ¬ RoundTrips 64
        ((start [⟨3, true⟩, ⟨3, true⟩, ⟨3, true⟩] [63, 63, 63] false []).cookedTable 64 wrappingPrimes)
        (cookedIdeals 3 wrappingPrimes) := by
  refine ⟨by decide, ⟨by decide, by decide, by decide, by decide, by decide, by decide⟩, fun trips => ?_⟩
  have member : (⟨2 ^ 63 - 25, 48, 2⟩ : PRSide) ∈ cookedIdeals 3 wrappingPrimes := by decide
  obtain ⟨i, found, decoded⟩ := trips.ideal _ member
  have index : ((start [⟨3, true⟩, ⟨3, true⟩, ⟨3, true⟩] [63, 63, 63] false []).cookedTable 64
      wrappingPrimes).indexFromPR 64 ⟨2 ^ 63 - 25, 48, 2⟩ = .ok 0 := rfl
  have other : ((start [⟨3, true⟩, ⟨3, true⟩, ⟨3, true⟩] [63, 63, 63] false []).cookedTable 64
      wrappingPrimes).pRFromIndex 0 = .ok ⟨2 ^ 63 - 25, 0, 0⟩ := rfl
  rw [index, Except.ok.injEq] at found
  rw [← found, other, Except.ok.injEq] at decoded
  exact absurd decoded (by decide)

end CadoNfs.Utils.Renumber
