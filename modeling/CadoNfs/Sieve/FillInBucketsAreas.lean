import CadoNfs.Sieve.FillInBuckets

/-!
# The same updates, at once or in areas

The calls for the areas push the updates of the walk of the toplevel as long as the test for two even coordinates, and
the walk itself, may take the position in the area for the one in the sieve region.
-/

namespace CadoNfs.Sieve.FillConfig
open Lib PlatticeEnumerator

variable {c : FillConfig} {p : PlatticeInfo} {e : PlatticeEnumerator} {x J n sliceIndex hint : ℕ}

/-! ## Lattices that are not vertical lines -/

def walkOf (reduced : c.Reduced p) : ForwardWalk := if p.j1.toNat = 0 then rowWalk reduced else updateWalk reduced

theorem walkOf_periodic (reduced : c.Reduced p) : (walkOf reduced).Periodic (2 * 2 ^ c.logI) := by
  unfold walkOf
  split_ifs
  · exact (rowWalk_periodic reduced).mul 2
  · exact updateWalk_periodic reduced

theorem walkOf_next (reduced : c.Reduced p) (x : ℕ) :
    (walkOf reduced).next (x + 2 ^ c.logI) = (walkOf reduced).next x + 2 ^ c.logI := by
  unfold walkOf
  split_ifs
  · exact (rowWalk_periodic reduced).next x
  · have next : p.nextAt c.logI (x + 1 * 2 ^ c.logI) = p.nextAt c.logI x + 1 * 2 ^ c.logI := PlatticeInfo.nextAt_add 1
    rwa [Nat.one_mul] at next

theorem walkOf_ordered (reduced : c.Reduced p) : (walkOf reduced).Ordered := by
  unfold walkOf
  split_ifs
  · exact rowWalk_ordered reduced
  · exact updateWalk_ordered reduced

theorem block_dvd_area (c : FillConfig) : c.block ∣ c.area :=
  Nat.pow_dvd_pow 2 ((min_le_left _ _).trans
    (Nat.add_le_add_left (Nat.mul_le_mul_right _ (show 1 - 1 ≤ c.level + 1 - 1 by omega)) _))

theorem inAreas_closed (reduced : c.Reduced p) (J : ℕ) :
    ∀ x < J * 2 ^ c.logI, ∀ y ∈ ((walkOf reduced).inAreas c.area).emit x, y < J * 2 ^ c.logI := by
  unfold walkOf
  split_ifs
  · obtain ⟨k, whole⟩ := c.block_dvd_row.mul_left J
    rw [whole, Nat.mul_comm]
    exact ForwardWalk.inAreas_closed c.block_dvd_area (fun k => rowWalk_closed reduced (Nat.dvd_mul_left _ _)) k
  · have closed := ForwardWalk.inAreas_closed (W := updateWalk reduced) (one_dvd c.area)
      (fun k => updateWalk_closed reduced _) (J * 2 ^ c.logI)
    rwa [Nat.mul_one] at closed

def first (c : FillConfig) (p : PlatticeInfo) : ℕ := p.nextAt c.logI (2 ^ (c.logI - 1))

theorem first_at (reduced : c.Reduced p) : p.At c.logI ((start p c.logI).next (maskI c.logI)) (c.first p) := by
  have small := Nat.pow_le_pow_right (show 0 < 2 by norm_num) (show c.logI - 1 ≤ 31 by have := c.logI_lt; omega)
  exact (PlatticeInfo.start_at c.logI_lt).next c.logI_lt reduced.post reduced.det (by omega)

theorem not_discarded (reduced : c.Reduced p) : ¬ p.isDiscarded = true := by
  obtain ⟨-, j0, -, -⟩ := PlatticeInfo.checkPostConditions_exact c.logI_lt reduced.post
  unfold PlatticeInfo.isDiscarded
  rw [decide_eq_true_iff]
  rintro ⟨-, zero⟩
  rw [zero] at j0
  exact absurd j0 (by decide)

section
variable (reduced : c.Reduced p) (narrow : p.i1.toNat < 2 ^ c.logI)
include narrow

variable (sliceIndex hint) in
theorem fill_at {F : Fence} {bound level : ℕ} (stops : c.Stops F bound) (low : 0 < level) (high : level ≤ 3)
    (at' : p.At c.logI e x) :
    ∃ l last, (if e.isProjectiveLike c.logI then c.fillRows F level sliceIndex hint e else c.fillUpdates F level hint e) =
        some (l, last) ∧
      l.flatMap (Push.located (c.logB level)) = ((walkOf reduced).run bound x).1.map (⟨·, ⟨hint⟩⟩) ∧
      p.At c.logI last ((walkOf reduced).run bound x).2 := by
  have kind := isProjectiveLike_at at'
  unfold walkOf
  by_cases flat : p.j1.toNat = 0
  · rw [if_pos (kind.mpr ⟨narrow, flat⟩), if_pos flat]
    exact fillRows_at reduced stops narrow flat low high sliceIndex hint at'
  · rw [if_neg fun like => flat (kind.mp like).2, if_neg flat]
    exact fillUpdates_at reduced stops low high hint at'

variable (sliceIndex hint) in
theorem toplevel_at (small : J < 2 ^ 31) : ∃ whole, c.fillInBucketsToplevel J sliceIndex hint p = some whole ∧
    whole.flatMap (Push.located (c.logB c.toplevel)) =
      ((walkOf reduced).run (J * 2 ^ c.logI) (c.first p)).1.map (⟨·, ⟨hint⟩⟩) := by
  obtain ⟨l, last, ran, located, -⟩ := fill_at sliceIndex hint reduced narrow
    (fence_stops small) c.toplevel_pos c.toplevel_le (first_at reduced)
  have notVertical : ¬ p.isVerticalLine c.logI = true := isVerticalLine_basis.not.mpr (not_le.mpr narrow)
  refine ⟨l, ?_, located⟩
  unfold fillInBucketsToplevel
  dsimp only
  rw [if_neg (not_discarded reduced), if_neg notVertical, ← apply_ite (Option.map Prod.fst)]
  exact congrArg (Option.map Prod.fst) ran

variable (sliceIndex hint) in
theorem lowlevel_at (small : J < 2 ^ 31) (at' : p.At c.logI e x) :
    ∃ l next, c.fillInBucketsLowlevel J sliceIndex hint e = some (l, next) ∧
      l.flatMap (Push.located (c.logB c.level)) =
        ((walkOf reduced).run (min (J * 2 ^ c.logI) c.area) x).1.map (⟨·, ⟨hint⟩⟩) ∧
      p.At c.logI next (((walkOf reduced).run (min (J * 2 ^ c.logI) c.area) x).2 - min (J * 2 ^ c.logI) c.area) := by
  have stops := areaFence_stops (c := c) small
  obtain ⟨l, last, ran, located, there⟩ := fill_at sliceIndex hint reduced narrow
    stops c.level_pos c.level_lt.le at'
  have notVertical : ¬ e.isVerticalLine = true := (isVerticalLine_at at').not.mpr (not_le.mpr narrow)
  have place := there.toNat
  have past := ForwardWalk.le_run_last (W := walkOf reduced) (min (J * 2 ^ c.logI) c.area) x
  have moved : p.At c.logI { e with x := last.x } ((walkOf reduced).run (min (J * 2 ^ c.logI) c.area) x).2 :=
    at'.set place there.lt
  have unmarked : last.x ≠ .allOnes 64 := by
    intro marked
    have lt := there.lt
    rw [marked, BitVec.toNat_allOnes] at place
    omega
  refine ⟨l, advanceToNextArea (c.areaFence J) { e with x := last.x }, ?_, located, ?_⟩
  · unfold fillInBucketsLowlevel
    dsimp only
    rw [if_neg notVertical, ran]
    rfl
  · unfold advanceToNextArea
    dsimp only
    rw [if_pos unmarked]
    apply at'.set
    · rw [BitVec.toNat_sub_of_le (by rw [BitVec.le_def, stops.last, place]; exact past), stops.last, place]
    · exact (Nat.sub_le ..).trans_lt there.lt

variable (sliceIndex hint) in
theorem fillAreas_at (small : J < 2 ^ 31) (n : ℕ) (at' : p.At c.logI e x) :
    ∃ parts, c.fillAreas J sliceIndex hint n e = some parts ∧
      parts.map (List.flatMap (Push.located (c.logB c.level))) =
        ((walkOf reduced).areas (min (J * 2 ^ c.logI) c.area) n x).map (List.map (⟨·, ⟨hint⟩⟩)) := by
  induction n generalizing e x with
  | zero => exact ⟨[], rfl, rfl⟩
  | succ n ih =>
    obtain ⟨l, next, ran, located, there⟩ := lowlevel_at sliceIndex hint reduced narrow small at'
    obtain ⟨rest, later, same⟩ := ih there
    refine ⟨l :: rest, ?_, ?_⟩
    · rw [fillAreas, ran]
      change (c.fillAreas J sliceIndex hint n next).bind _ = _
      rw [later]
      rfl
    · rw [List.map_cons, located, same]
      rfl

end

theorem locatedAreas_eq {parts : List (List (Push ShortHint))} {ls : List (List ℕ)} (o : ℕ)
    (same : parts.map (List.flatMap (Push.located (c.logB c.level))) = ls.map (List.map (⟨·, ⟨hint⟩⟩))) :
    c.locatedAreas o parts = (ForwardWalk.placed c.area o ls).map (⟨·, ⟨hint⟩⟩) := by
  induction parts generalizing ls o with
  | nil =>
    rw [List.map_nil, eq_comm, List.map_eq_nil_iff] at same
    rw [same]
    rfl
  | cons pushes rest ih =>
    cases ls with
    | nil => cases same
    | cons l ls =>
      rw [List.map_cons, List.map_cons, List.cons.injEq] at same
      rw [locatedAreas, ForwardWalk.placed, ih _ same.2, same.1, List.map_append, List.map_map, List.map_map]
      rfl

theorem filter_areas (reduced : c.Reduced p) (covered : J * 2 ^ c.logI ≤ n * c.area) (x : ℕ) :
    (ForwardWalk.placed c.area 0 ((walkOf reduced).areas (min (J * 2 ^ c.logI) c.area) n x)).filter
      (· < J * 2 ^ c.logI) =
      (((walkOf reduced).inAreas c.area).run (J * 2 ^ c.logI) x).1 := by
  have ordered := (walkOf_ordered reduced).inAreas c.area
  have closed := inAreas_closed reduced J
  rcases le_total c.area (J * 2 ^ c.logI) with several | single
  · rw [min_eq_right several, ← ForwardWalk.areas_inAreas, ForwardWalk.placed_eq (ForwardWalk.inAreas_periodic _ _)]
    simp only [Nat.add_zero, List.map_id']
    exact ordered.filter_run covered closed x
  · rw [min_eq_left single]
    cases n with
    | zero =>
      have empty : J * 2 ^ c.logI = 0 := by omega
      rw [empty, ForwardWalk.run_done (Nat.zero_le x)]
      rfl
    | succ n =>
      have later : (ForwardWalk.placed c.area (0 + c.area) ((walkOf reduced).areas (J * 2 ^ c.logI) n
          (((walkOf reduced).run (J * 2 ^ c.logI) x).2 - J * 2 ^ c.logI))).filter (· < J * 2 ^ c.logI) = [] := by
        rw [List.filter_eq_nil_iff]
        intro y member
        have := ForwardWalk.le_placed _ y member
        simp only [decide_eq_true_eq]
        omega
      rw [ForwardWalk.areas, ForwardWalk.placed, List.filter_append, later, List.append_nil,
        ← ForwardWalk.run_inAreas single]
      simp only [Nat.add_zero, List.map_id']
      exact ordered.filter_run le_rfl closed x

theorem located_ordered {l : List ℕ} (sorted : l.Pairwise (· < ·)) :
    (l.map fun y => (⟨y, ⟨hint⟩⟩ : BucketUpdate ShortHint)).Pairwise (·.x < ·.x) := by
  rw [List.pairwise_map]
  exact sorted

theorem sameUpdates_iff (reduced : c.Reduced p) (narrow : p.i1.toNat < 2 ^ c.logI) (small : J < 2 ^ 31)
    (covered : J * 2 ^ c.logI ≤ n * c.area) :
    c.SameUpdates J n sliceIndex hint p ↔
      (((walkOf reduced).inAreas c.area).run (J * 2 ^ c.logI) (c.first p)).1 =
        ((walkOf reduced).run (J * 2 ^ c.logI) (c.first p)).1 := by
  obtain ⟨whole, ran, located⟩ := toplevel_at sliceIndex hint reduced narrow small
  obtain ⟨parts, filled, same⟩ := fillAreas_at sliceIndex hint reduced narrow small n (first_at reduced)
  have inside : (c.locatedAreas 0 parts).filter (·.x < J * 2 ^ c.logI) =
      (((walkOf reduced).inAreas c.area).run (J * 2 ^ c.logI) (c.first p)).1.map (⟨·, ⟨hint⟩⟩) := by
    rw [locatedAreas_eq 0 same, List.filter_map]
    exact congrArg _ (filter_areas reduced covered _)
  constructor
  · rintro ⟨whole', parts', ran', filled', agree, -⟩
    obtain rfl := Option.some.inj (ran.symm.trans ran')
    obtain rfl := Option.some.inj (filled.symm.trans filled')
    rw [inside, located] at agree
    exact List.map_injective_iff.mpr (fun x y same => congrArg BucketUpdate.x same) agree
  · intro agree
    refine ⟨whole, parts, ran, filled, ?_, ?_⟩
    · rw [inside, located, agree]
    · rw [located]
      exact located_ordered ((walkOf_ordered reduced).sorted_run _ _)

def hitAreas (bound : ℕ) : ℕ → ℕ → List (List ℕ)
  | 0, _ => []
  | n + 1, x => if bound ≤ x then [] :: hitAreas bound n (x - bound) else [x] :: List.replicate n []

theorem placed_replicate (area o n : ℕ) : ForwardWalk.placed area o (List.replicate n []) = [] := by
  induction n generalizing o with
  | zero => rfl
  | succ n ih =>
    rw [List.replicate_succ, ForwardWalk.placed, ih]
    rfl

theorem placed_hitAreas (area n o x : ℕ) :
    ForwardWalk.placed area o (hitAreas area n x) = if x < n * area then [x + o] else [] := by
  induction n generalizing o x with
  | zero =>
    rw [Nat.zero_mul, if_neg (Nat.not_lt_zero x)]
    rfl
  | succ n ih =>
    rw [Nat.succ_mul, hitAreas]
    by_cases later : area ≤ x
    · obtain ⟨y, rfl⟩ := Nat.exists_eq_add_of_le' later
      rw [if_pos later, ForwardWalk.placed, Nat.add_sub_cancel, ih, List.map_nil, List.nil_append]
      by_cases inside : y < n * area
      · rw [if_pos inside, if_pos (by omega)]
        congr 1
        omega
      · rw [if_neg inside, if_neg (by omega)]
    · rw [if_neg later, ForwardWalk.placed, placed_replicate, if_pos (by omega)]
      rfl

theorem filter_hitAreas (covered : J * 2 ^ c.logI ≤ n * c.area) (x : ℕ) :
    (ForwardWalk.placed c.area 0 (hitAreas (min (J * 2 ^ c.logI) c.area) n x)).filter (· < J * 2 ^ c.logI) =
      if J * 2 ^ c.logI ≤ x then [] else [x] := by
  rcases le_total c.area (J * 2 ^ c.logI) with several | single
  · rw [min_eq_right several, placed_hitAreas]
    by_cases inside : x < n * c.area
    · rw [if_pos inside]
      by_cases late : J * 2 ^ c.logI ≤ x
      · rw [if_pos late]
        exact List.filter_cons_of_neg (by simpa using late)
      · rw [if_neg late]
        exact List.filter_cons_of_pos (by simpa using late)
    · rw [if_neg inside, if_pos (covered.trans (not_lt.mp inside))]
      rfl
  · rw [min_eq_left single]
    cases n with
    | zero =>
      rw [if_pos (by omega)]
      rfl
    | succ n =>
      rw [hitAreas]
      by_cases late : J * 2 ^ c.logI ≤ x
      · rw [if_pos late, if_pos late, ForwardWalk.placed, List.map_nil, List.nil_append, List.filter_eq_nil_iff]
        intro y member
        have := ForwardWalk.le_placed _ y member
        simp only [decide_eq_true_eq]
        omega
      · rw [if_neg late, if_neg late, ForwardWalk.placed, placed_replicate]
        exact List.filter_cons_of_pos (by simpa using late)

section
variable (vertical : 2 ^ c.logI ≤ p.i1.toNat)
include vertical

theorem not_projectiveLike (at' : p.At c.logI e x) : ¬ e.isProjectiveLike c.logI = true :=
  (isProjectiveLike_at at').not.mpr fun like => like.1.not_ge vertical

theorem fillAreas_finished (at' : p.At c.logI e x) (n : ℕ) :
    c.fillAreas J sliceIndex hint n e.finish = some (List.replicate n []) := by
  have line : e.finish.isVerticalLine = true := (isVerticalLine_at at').mpr vertical
  have other : ¬ e.finish.isProjectiveLike c.logI = true :=
    show ¬ e.isProjectiveLike c.logI = true from not_projectiveLike vertical at'
  have done : e.finish.done (c.areaFence J) = true := by
    have := (c.areaFence J).last.isLt
    unfold PlatticeEnumerator.done finish
    rw [decide_eq_true_iff, BitVec.le_def, BitVec.toNat_allOnes]
    omega
  have ran : c.fillInBucketsLowlevel J sliceIndex hint e.finish = some ([], e.finish) := by
    unfold fillInBucketsLowlevel
    dsimp only
    rw [if_neg other, if_pos line, if_pos done]
    rfl
  induction n with
  | zero => rfl
  | succ n ih =>
    rw [fillAreas, ran]
    change (c.fillAreas J sliceIndex hint n e.finish).bind _ = _
    rw [ih]
    rfl

variable (sliceIndex hint) in
theorem fillAreas_vertical (small : J < 2 ^ 31) (n : ℕ) (at' : p.At c.logI e x) :
    ∃ parts, c.fillAreas J sliceIndex hint n e = some parts ∧
      parts.map (List.flatMap (Push.located (c.logB c.level))) =
        (hitAreas (min (J * 2 ^ c.logI) c.area) n x).map (List.map (⟨·, ⟨hint⟩⟩)) := by
  have stops := areaFence_stops (c := c) small
  induction n generalizing e x with
  | zero => exact ⟨[], rfl, rfl⟩
  | succ n ih =>
    have line : e.isVerticalLine = true := (isVerticalLine_at at').mpr vertical
    have other := not_projectiveLike vertical at'
    have done := done_iff stops at'
    have place := at'.toNat
    rw [hitAreas]
    by_cases late : min (J * 2 ^ c.logI) c.area ≤ x
    · have unmarked : e.x ≠ .allOnes 64 := by
        intro marked
        have lt := at'.lt
        rw [marked, BitVec.toNat_allOnes] at place
        omega
      have moved : p.At c.logI { e with x := e.x - (c.areaFence J).last } (x - min (J * 2 ^ c.logI) c.area) := by
        apply at'.set
        · rw [BitVec.toNat_sub_of_le (by rw [BitVec.le_def, stops.last, place]; exact late), stops.last, place]
        · exact (Nat.sub_le ..).trans_lt at'.lt
      have ran : c.fillInBucketsLowlevel J sliceIndex hint e =
        some ([], { e with x := e.x - (c.areaFence J).last }) := by
        unfold fillInBucketsLowlevel
        dsimp only
        rw [if_neg other, if_pos line, if_pos (done.mpr late)]
        exact congrArg (fun e => some (([] : List (Push ShortHint)), e)) (if_pos unmarked)
      obtain ⟨rest, later, same⟩ := ih moved
      refine ⟨[] :: rest, ?_, ?_⟩
      · rw [fillAreas, ran]
        change (c.fillAreas J sliceIndex hint n _).bind _ = _
        rw [later]
        rfl
      · rw [if_pos late, List.map_cons, List.map_cons, same]
        rfl
    · have ran : c.fillInBucketsLowlevel J sliceIndex hint e = some ([c.pushUpdate c.level hint e], e.finish) := by
        unfold fillInBucketsLowlevel
        dsimp only
        rw [if_neg other, if_pos line, if_neg (done.not.mpr late)]
        exact congrArg (fun e => some ([c.pushUpdate c.level hint _], e)) (if_neg (not_not.mpr rfl))
      refine ⟨[c.pushUpdate c.level hint e] :: List.replicate n [], ?_, ?_⟩
      · rw [fillAreas, ran]
        change (c.fillAreas J sliceIndex hint n e.finish).bind _ = _
        rw [fillAreas_finished vertical at']
        rfl
      · rw [if_neg late, List.map_cons, List.map_cons, List.flatMap_singleton,
          located_pushUpdate c.level_pos c.level_lt.le,
          place, List.map_replicate, List.map_replicate]
        rfl

variable (sliceIndex hint) in
theorem toplevel_vertical (reduced : c.Reduced p) (small : J < 2 ^ 31) :
    ∃ whole, c.fillInBucketsToplevel J sliceIndex hint p = some whole ∧
      whole.flatMap (Push.located (c.logB c.toplevel)) =
        (if J * 2 ^ c.logI ≤ c.first p then [] else [c.first p]).map (⟨·, ⟨hint⟩⟩) := by
  have at' := first_at reduced
  have other := not_projectiveLike vertical at'
  have line : p.isVerticalLine c.logI = true := isVerticalLine_basis.mpr vertical
  have done := done_iff (fence_stops small) at'
  let ple := (start p c.logI).next (maskI c.logI)
  refine ⟨if ple.done (Fence.new c.logI J) then [] else [c.pushUpdate c.toplevel hint ple], ?_, ?_⟩
  · unfold fillInBucketsToplevel
    dsimp only
    rw [if_neg (not_discarded reduced)]
    exact (if_neg other).trans (if_pos line)
  · by_cases late : J * 2 ^ c.logI ≤ c.first p
    · rw [if_pos late]
      exact congrArg _ (if_pos (done.mpr late))
    · rw [if_neg late]
      refine (congrArg _ (if_neg (done.not.mpr late))).trans ?_
      rw [List.flatMap_singleton, located_pushUpdate c.toplevel_pos c.toplevel_le]
      exact congrArg (fun x => [(⟨x, ⟨hint⟩⟩ : BucketUpdate ShortHint)]) at'.toNat

theorem sameUpdates_of_vertical (reduced : c.Reduced p) (small : J < 2 ^ 31) (covered : J * 2 ^ c.logI ≤ n * c.area) :
    c.SameUpdates J n sliceIndex hint p := by
  obtain ⟨whole, ran, located⟩ := toplevel_vertical sliceIndex hint vertical reduced small
  obtain ⟨parts, filled, same⟩ :=
    fillAreas_vertical sliceIndex hint vertical small n (first_at reduced)
  refine ⟨whole, parts, ran, filled, ?_, ?_⟩
  · rw [locatedAreas_eq 0 same, located, List.filter_map]
    exact congrArg _ (filter_hitAreas covered _)
  · rw [located]
    apply located_ordered
    split_ifs
    · exact .nil
    · exact List.pairwise_singleton _ _

end

/-! ## Where the position in the area may stand for the position -/

/-- At each position of the walk in the sieve region, the position in the area gives the same updates, and the same
next position or one beyond the region like it. -/
def Meets (reduced : c.Reduced p) (J : ℕ) : Prop :=
  2 ^ c.logI ≤ p.i1.toNat ∨ ∀ k, (walkOf reduced).next^[k] (c.first p) < J * 2 ^ c.logI →
    (walkOf reduced).Alike c.area (J * 2 ^ c.logI) ((walkOf reduced).next^[k] (c.first p))

theorem meets_of_wide (reduced : c.Reduced p) (wide : c.logI < c.logB (c.level + 1)) (J : ℕ) : Meets reduced J := by
  have divides : 2 * 2 ^ c.logI ∣ c.area := by
    rw [← pow_succ']
    exact Nat.pow_dvd_pow 2 wide
  refine .inr fun k _ => ?_
  obtain ⟨next, emit⟩ := (walkOf_periodic reduced).inAreas_eq divides ((walkOf reduced).next^[k] (c.first p))
  exact ⟨emit, .inl next⟩

theorem meets_of_projectiveLike (reduced : c.Reduced p) (flat : p.j1.toNat = 0) (rows : c.logI ≤ c.logB (c.level + 1))
    (J : ℕ) : Meets reduced J := by
  refine .inr fun k _ => ?_
  unfold walkOf
  rw [if_pos flat]
  obtain ⟨next, emit⟩ := (rowWalk_periodic reduced).inAreas_eq (Nat.pow_dvd_pow 2 rows) _
  exact ⟨emit, .inl next⟩

theorem meets_of_single (reduced : c.Reduced p) (single : J * 2 ^ c.logI ≤ c.area) : Meets reduced J := by
  refine .inr fun k below => ?_
  obtain ⟨next, emit⟩ := ForwardWalk.inAreas_of_lt (W := walkOf reduced) (below.trans_le single)
  exact ⟨emit, .inl next⟩

/-- The two functions push the same updates where the position in the area may stand for the position. In areas of
one row or more they push the same updates nowhere else. -/
theorem agrees_iff (reduced : c.Reduced p) (small : J < 2 ^ 31) :
    (Meets reduced J → c.Agrees p J) ∧ (c.logI ≤ c.logB (c.level + 1) → c.Agrees p J → Meets reduced J) := by
  constructor
  · rintro meets n covered sliceIndex hint
    rcases lt_or_ge p.i1.toNat (2 ^ c.logI) with narrow | vertical
    · have alike := meets.resolve_left (not_le.mpr narrow)
      exact (sameUpdates_iff reduced narrow small covered).mpr (ForwardWalk.run_of_alike alike)
    · exact sameUpdates_of_vertical vertical reduced small covered
  · intro rows agrees
    refine or_iff_not_imp_left.mpr fun notVertical k below => ?_
    have positive : 1 ≤ c.area := Nat.one_le_two_pow
    have covered : J * 2 ^ c.logI ≤ J * 2 ^ c.logI * c.area := Nat.le_mul_of_pos_right _ positive
    have same := (sameUpdates_iff reduced (not_le.mp notVertical) small covered).mp (agrees _ covered 0 0)
    have next := ForwardWalk.inAreas_next (walkOf_next reduced) (Nat.pow_dvd_pow 2 rows)
    exact (walkOf_ordered reduced).alike_of_run next same k below

def rowAreas : FillConfig :=
  ⟨16, 14, 2, 1, 2, by decide, by decide, by decide, by decide, by decide, by decide, by decide, by decide⟩

theorem rowAreas_two : rowAreas.Reduced ⟨65535, 1, 2, 1⟩ := ⟨by decide, by decide⟩

theorem not_meets_rowAreas : ¬ Meets rowAreas_two 2 := by
  rintro (vertical | alike)
  · exact absurd vertical (by decide)
  · have seen : ([] : List ℕ) = [98306] := (alike 0 (by decide)).emit
    cases seen

theorem rowAreas_three : rowAreas.Reduced ⟨65534, 1, 3, 1⟩ := ⟨by decide, by decide⟩

theorem meets_rowAreas : Meets rowAreas_three 4 := by
  refine .inr fun k below => ?_
  -- (3, 1), (6, 2) and (9, 3)
  match k with
  | 0 => exact ⟨rfl, .inl rfl⟩
  | 1 => exact ⟨rfl, .inl rfl⟩
  | 2 => exact ⟨rfl, .inl rfl⟩
  | k + 3 =>
    have past := Function.id_le_iterate_of_id_le (fun y => ((walkOf rowAreas_three).lt_next y).le) k 294924
    rw [Function.iterate_add_apply] at below
    exact absurd (lt_of_le_of_lt past below) (by decide)

/-- Areas of one row: with the root 3 of the prime 65537 they agree in four rows, with the root 2 not even in two. -/
theorem agrees_iff_rowAreas :
    (rowAreas.SameUpdates 4 4 0 0 ⟨65534, 1, 3, 1⟩ ∧ rowAreas.fillInBucketsToplevel 4 0 0 ⟨65534, 1, 3, 1⟩ =
      some [.update 1 ⟨32771, ⟨0⟩⟩, .update 3 ⟨32777, ⟨0⟩⟩]) ∧ ¬ rowAreas.Agrees ⟨65535, 1, 2, 1⟩ 2 :=
  ⟨⟨(agrees_iff rowAreas_three (by decide)).1 meets_rowAreas 4 (by decide) 0 0, rfl⟩,
    fun agrees => not_meets_rowAreas ((agrees_iff rowAreas_two (by decide)).2 (by decide) agrees)⟩

theorem not_sameUpdates_rowAreas : rowAreas.Reduced ⟨65535, 1, 2, 1⟩ ∧ 2 * 2 ^ rowAreas.logI ≤ 2 * rowAreas.area ∧
    rowAreas.fillInBucketsToplevel 2 0 0 ⟨65535, 1, 2, 1⟩ = some [.update 1 ⟨32770, ⟨0⟩⟩] ∧
    rowAreas.fillAreas 2 0 0 2 ((start ⟨65535, 1, 2, 1⟩ 16).next (maskI 16)) = some [[], []] ∧
    ¬ rowAreas.SameUpdates 2 2 0 0 ⟨65535, 1, 2, 1⟩ := by
  have whole : rowAreas.fillInBucketsToplevel 2 0 0 ⟨65535, 1, 2, 1⟩ = some [.update 1 ⟨32770, ⟨0⟩⟩] := rfl
  have parts : rowAreas.fillAreas 2 0 0 2 ((start ⟨65535, 1, 2, 1⟩ 16).next (maskI 16)) = some [[], []] := rfl
  refine ⟨rowAreas_two, by decide, whole, parts, ?_⟩
  rintro ⟨whole', parts', ran, filled, same, -⟩
  obtain rfl := Option.some.inj (ran.symm.trans whole)
  obtain rfl := Option.some.inj (filled.symm.trans parts)
  cases same

end CadoNfs.Sieve.FillConfig
