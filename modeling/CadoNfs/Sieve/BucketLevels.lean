import CadoNfs.Sieve.BucketDownsort

/-!
# The hits at a level

What the arrays of a level hold, as a multiset of hits: it is what was found in the area, divided
among the buckets.
-/

namespace CadoNfs.Sieve

variable {H : Type} [Hint H] {b c : ℕ}

def lowerTo (M c : ℕ) : Multiset (BucketUpdate LongHint) →+ Multiset (BucketUpdate LongHint) where
  toFun B := (B.filter (·.x / M = c)).map (BucketUpdate.lower M)
  map_zero' := rfl
  map_add' A B := (congrArg _ (Multiset.filter_add (fun u : BucketUpdate LongHint => u.x / M = c) A B)).trans
    (Multiset.map_add ..)

theorem coe_lowerTo {M : ℕ} (l : List (BucketUpdate LongHint)) :
    lowerTo M c l = ((l.filter (·.x / M = c)).map (BucketUpdate.lower M) : List (BucketUpdate LongHint)) := by
  change (Multiset.filter (fun u : BucketUpdate LongHint => u.x / M = c) l).map (BucketUpdate.lower M) = _
  rw [Multiset.filter_coe, Multiset.map_coe]

theorem mem_lowerTo {M : ℕ} {B : Multiset (BucketUpdate LongHint)} {u : BucketUpdate LongHint}
    (member : u ∈ lowerTo M c B) :
    ∃ v ∈ B, v.x / M = c ∧ u = v.lower M := by
  obtain ⟨v, kept, rfl⟩ := Multiset.mem_map.mp member
  exact ⟨v, (Multiset.mem_filter.mp kept).1, (Multiset.mem_filter.mp kept).2, rfl⟩

def Hit.hits (sliceIndex : ℕ) : Hit → List (BucketUpdate LongHint)
  | update u => [u.toLongHint sliceIndex]
  | row ru => ru.hits

def foundHits (found : List (ℕ × List Hit)) : Multiset (BucketUpdate LongHint) :=
  (found.map fun slice => (slice.2.map fun hit => (hit.hits slice.1 : Multiset (BucketUpdate LongHint))).sum).sum

namespace Push

theorem coe_hits_cons (slice : ℕ × List (Push H)) (slices : List (ℕ × List (Push H))) :
    (hits b (slice :: slices) : Multiset (BucketUpdate LongHint)) = hits b [slice] + hits b slices := by
  have updates : updateHits b (slice :: slices) = updateHits b [slice] ++ updateHits b slices := by simp [updateHits]
  have rows : rowHits b (slice :: slices) = rowHits b [slice] ++ rowHits b slices := by simp [rowHits]
  rw [Multiset.coe_add, Multiset.coe_eq_coe, hits, hits, hits, updates, rows, List.append_assoc, List.append_assoc]
  refine .append_left _ ?_
  rw [← List.append_assoc, ← List.append_assoc]
  exact .append_right _ List.perm_append_comm

theorem coe_hits_pushes (k : ℕ) (pushes : List (Push H)) :
    (hits b [(k, pushes)] : Multiset (BucketUpdate LongHint)) =
      (pushes.map fun p => (hits b [(k, [p])] : Multiset (BucketUpdate LongHint))).sum := by
  induction pushes with
  | nil => rfl
  | cons p pushes ih =>
    rw [List.map_cons, List.sum_cons, ← ih, Multiset.coe_add, Multiset.coe_eq_coe]
    exact hits_append_perm k [p] pushes

theorem coe_hits (slices : List (ℕ × List (Push H))) : (hits b slices : Multiset (BucketUpdate LongHint)) =
    (slices.map fun slice =>
      (slice.2.map fun p => (hits b [(slice.1, [p])] : Multiset (BucketUpdate LongHint))).sum).sum := by
  induction slices with
  | nil => rfl
  | cons slice slices ih => rw [coe_hits_cons, ih, List.map_cons, List.sum_cons, ← coe_hits_pushes]

def totalHits (b : ℕ) (fills : List (List (ℕ × List (Push H)))) : Multiset (BucketUpdate LongHint) :=
  (fills.map fun slices => (hits b slices : Multiset (BucketUpdate LongHint))).sum

end Push

namespace BucketSieve

/-- What the callers see to: the arrays have a bucket for every part of the area, and all is found inside of the
area. -/
structure Valid (s : BucketSieve) : Prop where
  small : s.logBucketRegion ≤ 16
  wide : s.logBucketRegion + (s.toplevel - 1) * s.logBucketRegionStep ≤ 32
  arrays : ∃ nr, ∀ level N, (s.shorts level N).length = nr ∧ (s.longs level N).length = nr
  shortBuckets (level N : ℕ) (low : 0 < level) (high : level ≤ s.toplevel) :
    ∀ array ∈ s.shorts level N, array.1.nBucket = s.nbBuckets level
  longBuckets (level N : ℕ) (low : 0 < level) (high : level ≤ s.toplevel) :
    ∀ BA ∈ s.longs level N, BA.nBucket = s.nbBuckets level
  inside (level N : ℕ) (low : 0 < level) (high : level ≤ s.toplevel) :
    ∀ array ∈ s.shorts level N, ∀ slice ∈ array.2, ∀ hit ∈ slice.2,
    ∀ u ∈ hit.hits slice.1, u.x / s.bucketRegion 1 * s.bucketRegion 1 < s.above (s.toplevel - level)
  within (level N : ℕ) (low : 0 < level) (high : level ≤ s.toplevel) : ∀ array ∈ s.shorts level N, ∀ slice ∈ array.2,
    ∀ ru, Hit.row ru ∈ slice.2 → ru.Within (s.bucketRegion 1)
  agree : ∀ M x, x < s.bucketRegion 1 → (s.sieveArray M x ≠ 255 ↔ x ∈ s.survivors M)

variable {s : BucketSieve} {level : ℕ}

theorem bucketRegion_pos (level : ℕ) : 0 < s.bucketRegion level := Nat.two_pow_pos _

theorem bucketRegion_succ (positive : 0 < level) :
    s.bucketRegion (level + 1) = s.bucketRegion level * 2 ^ s.logBucketRegionStep := by
  obtain ⟨d, rfl⟩ := Nat.exists_eq_succ_of_ne_zero positive.ne'
  have log : s.logB (d + 1 + 1) = s.logB (d + 1) + s.logBucketRegionStep := by simp [logB]; ring
  rw [bucketRegion, bucketRegion, log, pow_add]

theorem bucketRegion_dvd (level : ℕ) : s.bucketRegion 1 ∣ s.bucketRegion level := by
  have le : s.logB 1 ≤ s.logB level := by simp [logB]
  exact Nat.pow_dvd_pow 2 le

theorem above_eq (lt : level < s.toplevel) : s.above (s.toplevel - level) =
    if 1 < s.nbBuckets (level + 1) then s.bucketRegion (level + 1) else s.above (s.toplevel - (level + 1)) := by
  have depth : s.toplevel - level = s.toplevel - (level + 1) + 1 := by omega
  have up : s.toplevel - (s.toplevel - (level + 1)) = level + 1 := by omega
  rw [depth, above, up]
  rfl

theorem div_lt_nbBuckets {x : ℕ} (inside : x / s.bucketRegion 1 * s.bucketRegion 1 < s.above (s.toplevel - level)) :
    x / s.bucketRegion level < s.nbBuckets level := by
  obtain ⟨k, eq⟩ := s.bucketRegion_dvd level
  have positive := s.bucketRegion_pos level
  have start : x / s.bucketRegion level * s.bucketRegion level ≤ x / s.bucketRegion 1 * s.bucketRegion 1 := by
    rw [eq, ← Nat.div_div_eq_div_mul, mul_comm (s.bucketRegion 1) k, ← mul_assoc]
    exact Nat.mul_le_mul_right _ (Nat.div_mul_le_self ..)
  rw [nbBuckets, ← Nat.succ_le_iff, Nat.le_div_iff_mul_le positive, Nat.succ_mul]
  omega

theorem mod_inside {x : ℕ} (lt : level < s.toplevel)
    (inside : x / s.bucketRegion 1 * s.bucketRegion 1 < s.above (s.toplevel - (level + 1))) :
    x % s.bucketRegion (level + 1) / s.bucketRegion 1 * s.bucketRegion 1 < s.above (s.toplevel - level) := by
  have positive := s.bucketRegion_pos (level + 1)
  rw [above_eq lt]
  split_ifs with several
  · exact (Nat.div_mul_le_self ..).trans_lt (Nat.mod_lt _ positive)
  · have one := div_lt_nbBuckets inside
    have zero : x / s.bucketRegion (level + 1) = 0 := Nat.lt_one_iff.mp (one.trans_le (not_lt.mp several))
    rwa [Nat.mod_eq_of_lt ((Nat.div_eq_zero_iff_lt positive).mp zero)]

theorem nbBuckets_le (lt : level < s.toplevel) (positive : 0 < level) :
    s.nbBuckets level ≤ 2 ^ s.logBucketRegionStep := by
  have region := s.bucketRegion_pos level
  have le : s.above (s.toplevel - level) ≤ s.bucketRegion (level + 1) := by
    rw [above_eq lt]
    split_ifs with several
    · exact le_rfl
    · have few := Nat.lt_succ_iff.mpr (not_lt.mp several)
      rw [nbBuckets, Nat.div_lt_iff_lt_mul (s.bucketRegion_pos _)] at few
      omega
  rw [bucketRegion_succ positive, mul_comm] at le
  rw [nbBuckets, ← Nat.lt_succ_iff, Nat.div_lt_iff_lt_mul region, Nat.succ_mul]
  omega

theorem Valid.brIndex (valid : s.Valid) (le : level ≤ s.toplevel) (x : ℕ) :
    s.brIndex level x = x % s.bucketRegion level := by
  have lt := Nat.mod_lt x (s.bucketRegion_pos level)
  refine Nat.mod_eq_of_lt (lt.trans_le (Nat.pow_le_pow_right two_pos ?_))
  rw [logB]
  split_ifs with first
  · simpa [first] using valid.small
  · have mono := Nat.mul_le_mul_right s.logBucketRegionStep (Nat.sub_le_sub_right le 1)
    have wide := valid.wide
    omega

theorem Valid.hits_push (valid : s.Valid) (le : level ≤ s.toplevel) (hit : Hit) (k : ℕ)
    (within : ∀ ru, hit = .row ru → ru.Within (s.bucketRegion 1)) :
    (Push.hits b [(k, [s.push level hit])] : Multiset (BucketUpdate LongHint)) = lowerTo (s.bucketRegion level) b
      (hit.hits k) := by
  rw [coe_lowerTo]
  congr 1
  cases hit with
  | update u =>
    by_cases here : u.x / s.bucketRegion level = b <;>
      simp [Push.hits, Push.updateHits, Push.rowHits, push, Push.updatesOf_update, Hit.hits, BucketUpdate.toLongHint,
        BucketUpdate.lower,
        valid.brIndex le, here]
  | row ru =>
    have rows := Push.rowHits_split (c := b) (within ru rfl) (s.bucketRegion_dvd level)
    rw [← valid.brIndex le] at rows
    rw [Push.hits, Push.updateHits, Push.rowHits, List.flatMap_singleton, List.flatMap_singleton]
    exact rows

theorem Valid.hits_pushes (valid : s.Valid) (le : level ≤ s.toplevel) {found : List (ℕ × List Hit)}
    (within : ∀ slice ∈ found, ∀ ru, Hit.row ru ∈ slice.2 → ru.Within (s.bucketRegion 1)) :
    (Push.hits b (s.pushes level found) : Multiset (BucketUpdate LongHint)) = lowerTo (s.bucketRegion level) b
      (foundHits found) := by
  rw [Push.coe_hits, pushes, List.map_map, foundHits, map_list_sum, List.map_map]
  congr 1
  refine List.map_congr_left fun slice slice_mem => ?_
  simp only [Function.comp_apply, List.map_map, map_list_sum]
  congr 1
  refine List.map_congr_left fun hit hit_mem => ?_
  exact valid.hits_push le hit slice.1 fun ru eq => within slice slice_mem ru (eq ▸ hit_mem)

theorem pushes_bucket {found : List (ℕ × List Hit)}
    (inside : ∀ slice ∈ found, ∀ hit ∈ slice.2,
      ∀ u ∈ hit.hits slice.1, u.x / s.bucketRegion 1 * s.bucketRegion 1 < s.above (s.toplevel - level)) :
    ∀ slice ∈ s.pushes level found, ∀ p ∈ slice.2, p.bucket < s.nbBuckets level := by
  intro slice member p p_mem
  obtain ⟨slice, slice_mem, rfl⟩ := List.mem_map.mp member
  obtain ⟨hit, hit_mem, rfl⟩ := List.mem_map.mp p_mem
  have known := inside slice slice_mem hit hit_mem
  cases hit with
  | update u => exact div_lt_nbBuckets (known (u.toLongHint slice.1) (List.mem_singleton_self _))
  | row ru =>
    have start : (⟨ru.x + 0 * ru.inc, Hint.toLongHint ru.hint ru.sliceIndex⟩ : BucketUpdate LongHint) ∈ ru.hits :=
      List.mem_map.mpr ⟨0, by simp, rfl⟩
    have lt := known _ start
    rw [Nat.zero_mul, Nat.add_zero] at lt
    exact div_lt_nbBuckets lt

structure Level (s : BucketSieve) (level : ℕ) (BAs : List (BucketArray H)) (fills : List (List (ℕ × List (Push H))))
    (B : Multiset (BucketUpdate LongHint)) : Prop where
  holds : List.Forall₂ BucketArray.Holds BAs fills
  buckets : ∀ BA ∈ BAs, BA.nBucket = s.nbBuckets level
  hits (b : ℕ) : Push.totalHits b fills = lowerTo (s.bucketRegion level) b B
  within : ∀ slices ∈ fills, ∀ b, ∀ ru ∈ Push.rowsOf b (slices.flatMap Prod.snd), ru.Within (s.bucketRegion 1)
  inside : ∀ u ∈ B, u.x / s.bucketRegion 1 * s.bucketRegion 1 < s.above (s.toplevel - level)

theorem mem_sum {α : Type} {l : List (Multiset α)} {a : α} : a ∈ l.sum ↔ ∃ m ∈ l, a ∈ m := by
  induction l with
  | nil => simp
  | cons m l ih => simp [ih]

def hitsAt (s : BucketSieve) (level N : ℕ) : Multiset (BucketUpdate LongHint) :=
  ((s.shorts level N).map fun array => foundHits array.2).sum

theorem Valid.fillInBuckets (valid : s.Valid) (low : 0 < level) (le : level ≤ s.toplevel) (N : ℕ)
    (fits : ∀ BA ∈ s.fillInBuckets level N, ¬ BA.Full) :
    s.Level level (s.fillInBuckets level N) ((s.shorts level N).map fun array => s.pushes level array.2)
      (s.hitsAt level N) := by
  have known := valid.inside level N low le
  have within := valid.within level N low le
  have buckets := valid.shortBuckets level N low le
  rw [BucketSieve.fillInBuckets] at fits ⊢
  constructor
  · rw [List.forall₂_map_left_iff, List.forall₂_map_right_iff, List.forall₂_same]
    intro array member
    have inside := pushes_bucket (known array member)
    rw [← buckets array member] at inside
    have all := (@BucketArray.holds_resetPointers _ array.1).foldl_pushSlice inside
      (List.forall_mem_map.mp fits array member)
    simpa using all
  · rw [List.forall_mem_map]
    intro array member
    exact (BucketArray.foldl_pushSlice_nBucket _).trans (buckets array member)
  · intro b
    rw [Push.totalHits, hitsAt, map_list_sum, List.map_map, List.map_map]
    congr 1
    refine List.map_congr_left fun array member => ?_
    exact valid.hits_pushes le (within array member)
  · rw [List.forall_mem_map]
    intro array array_mem b ru ru_mem
    obtain ⟨slice, slice_mem, row_mem⟩ := List.mem_flatMap.mp (Push.mem_rowsOf.mp ru_mem)
    obtain ⟨found, found_mem, rfl⟩ := List.mem_map.mp slice_mem
    obtain ⟨hit, hit_mem, eq⟩ := List.mem_map.mp row_mem
    cases hit with
    | update u => cases eq
    | row ru =>
      cases eq
      have here := (within array array_mem found found_mem ru hit_mem).mod (s.bucketRegion_dvd level)
        (s.bucketRegion_pos 1)
      rwa [← valid.brIndex le] at here
  · intro u member
    obtain ⟨m, m_mem, u_mem⟩ := mem_sum.mp member
    obtain ⟨array, array_mem, rfl⟩ := List.mem_map.mp m_mem
    obtain ⟨m, m_mem, u_mem⟩ := mem_sum.mp u_mem
    obtain ⟨slice, slice_mem, rfl⟩ := List.mem_map.mp m_mem
    obtain ⟨m, m_mem, u_mem⟩ := mem_sum.mp u_mem
    obtain ⟨hit, hit_mem, rfl⟩ := List.mem_map.mp m_mem
    exact known array array_mem slice slice_mem hit hit_mem u u_mem

def made (outs : List (BucketArray LongHint)) (all : List (List (Push LongHint))) : List (BucketArray LongHint) :=
  List.zipWith (fun out pushes => out.resetPointers.pushSlice (0, pushes)) outs all

omit [Hint H] in
theorem eachArray_eq {α : Type} {f : BucketArray LongHint → BucketArray H → Except Stop (BucketArray LongHint)}
    {g : BucketArray LongHint → α → BucketArray LongHint} {P : BucketArray H → α → Prop}
      {outs : List (BucketArray LongHint)}
    {BAs : List (BucketArray H)} {xs : List α} (same : List.Forall₂ P BAs xs)
      (ok : ∀ out BA x, P BA x → f out BA = .ok (g out x))
    (length : outs.length = BAs.length) : BucketArray.eachArray f outs BAs = .ok (List.zipWith g outs xs) := by
  induction same generalizing outs with
  | nil =>
    rw [List.length_eq_zero_iff.mp length]
    rfl
  | cons head _ ih =>
    cases outs with
    | nil => cases length
    | cons out outs =>
      rw [BucketArray.eachArray, ok out _ _ head, ih (Nat.succ_injective length)]
      rfl

theorem made_append (outs : List (BucketArray LongHint)) (first second : List (List (Push LongHint))) :
    List.zipWith (fun out pushes => pushes.foldl BucketArray.push out)
      (made outs first) second = made outs (List.zipWith (· ++ ·) first second) := by
  induction outs generalizing first second with
  | nil => rfl
  | cons out outs ih =>
    cases first with
    | nil => rfl
    | cons pushes first =>
      cases second with
      | nil => rfl
      | cons more second =>
        have rest := ih first second
        simp only [made, List.zipWith_cons_cons] at rest ⊢
        rw [rest, BucketArray.pushSlice, BucketArray.pushSlice, List.foldl_append]

theorem made_holds {outs : List (BucketArray LongHint)} {all : List (List (Push LongHint))}
    (length : outs.length = all.length)
    (buckets : ∀ BA ∈ outs, BA.nBucket = s.nbBuckets level)
      (known : ∀ pushes ∈ all, ∀ p ∈ pushes, p.bucket < s.nbBuckets level)
    (fits : ∀ BA ∈ made outs all, ¬ BA.Full) :
    List.Forall₂ BucketArray.Holds (made outs all) (all.map fun pushes => [(0, pushes)]) ∧
      ∀ BA ∈ made outs all, BA.nBucket = s.nbBuckets level := by
  induction outs generalizing all with
  | nil =>
    rw [List.length_eq_zero_iff.mp length.symm]
    exact ⟨.nil, by simp [made]⟩
  | cons out outs ih =>
    cases all with
    | nil => cases length
    | cons pushes all =>
      obtain ⟨bucket, buckets⟩ := List.forall_mem_cons.mp buckets
      obtain ⟨first, rest⟩ := List.forall_mem_cons.mp known
      obtain ⟨fit, fits⟩ := List.forall_mem_cons.mp fits
      obtain ⟨holds, nBuckets⟩ := ih (Nat.succ_injective length) buckets rest fits
      have inside : ∀ p ∈ pushes, p.bucket < out.resetPointers.nBucket :=
        fun p member => (first p member).trans_eq bucket.symm
      exact ⟨.cons (BucketArray.holds_resetPointers.pushSlice inside fit) holds,
        List.forall_mem_cons.mpr ⟨(BucketArray.foldl_push_frame pushes).1.trans bucket, nBuckets⟩⟩

structure Pushed (s : BucketSieve) (level : ℕ) (all : List (List (Push LongHint)))
  (B : Multiset (BucketUpdate LongHint)) : Prop where
  bucket : ∀ pushes ∈ all, ∀ p ∈ pushes, p.bucket < s.nbBuckets level
  within : ∀ pushes ∈ all, ∀ c ru, .row c ru ∈ pushes → ru.Within (s.bucketRegion 1)
  hits (c : ℕ) : Push.totalHits c (all.map fun pushes => [(0, pushes)]) = lowerTo (s.bucketRegion level) c B

theorem Pushed.append {first second : List (List (Push LongHint))} {A B : Multiset (BucketUpdate LongHint)}
    (one : s.Pushed level first A) (two : s.Pushed level second B) (length : first.length = second.length) :
    s.Pushed level (List.zipWith (· ++ ·) first second) (A + B) := by
  have split (pushes : List (Push LongHint)) (member : pushes ∈ List.zipWith (· ++ ·) first second) :
      ∃ x ∈ first, ∃ y ∈ second, pushes = x ++ y := by
    rw [← List.map_uncurry_zip_eq_zipWith] at member
    obtain ⟨⟨x, y⟩, pair, rfl⟩ := List.mem_map.mp member
    exact ⟨x, (List.of_mem_zip pair).1, y, (List.of_mem_zip pair).2, rfl⟩
  have total (c : ℕ) : Push.totalHits c ((List.zipWith (· ++ ·) first second).map fun pushes => [(0, pushes)]) =
      Push.totalHits c (first.map fun pushes => [(0, pushes)]) + Push.totalHits c
        (second.map fun pushes => [(0, pushes)]) := by
    clear one two split
    induction first generalizing second with
    | nil =>
      rw [List.length_eq_zero_iff.mp length.symm]
      rfl
    | cons x first ih =>
      cases second with
      | nil => cases length
      | cons y second =>
        have rest := ih (Nat.succ_injective length)
        have here : (Push.hits c [(0, x ++ y)] : Multiset (BucketUpdate LongHint)) =
          Push.hits c [(0, x)] + Push.hits c [(0, y)] :=
          Multiset.coe_eq_coe.mpr (Push.hits_append_perm 0 x y)
        simp only [Push.totalHits, List.zipWith_cons_cons, List.map_cons, List.sum_cons] at rest ⊢
        rw [rest, here]
        abel
  constructor
  · intro pushes member p p_mem
    obtain ⟨x, x_mem, y, y_mem, rfl⟩ := split pushes member
    exact (List.mem_append.mp p_mem).elim (one.bucket x x_mem p) (two.bucket y y_mem p)
  · intro pushes member c ru ru_mem
    obtain ⟨x, x_mem, y, y_mem, rfl⟩ := split pushes member
    exact (List.mem_append.mp ru_mem).elim (one.within x x_mem c ru) (two.within y y_mem c ru)
  · intro c
    rw [total, one.hits, two.hits, map_add]

theorem Level.lowered {BAs : List (BucketArray H)} {fills : List (List (ℕ × List (Push H)))}
    {B : Multiset (BucketUpdate LongHint)}
    (upper : s.Level (level + 1) BAs fills B) (lt : level < s.toplevel) (b : ℕ) :
    s.Pushed level (fills.map (Push.lowered (s.logB level) b)) (lowerTo (s.bucketRegion (level + 1)) b B) := by
  have divides := s.bucketRegion_dvd level
  constructor
  · rw [List.forall_mem_map]
    intro slices slices_mem p p_mem
    obtain ⟨u, u_mem, eq⟩ := Push.mem_lowered p_mem
    have total : u ∈ Push.totalHits b fills := mem_sum.mpr ⟨_, List.mem_map_of_mem slices_mem, u_mem⟩
    rw [upper.hits] at total
    obtain ⟨v, v_mem, -, rfl⟩ := mem_lowerTo total
    rw [eq]
    exact div_lt_nbBuckets (mod_inside lt (upper.inside v v_mem))
  · rw [List.forall_mem_map]
    intro slices slices_mem c ru ru_mem
    exact Push.within_lowered divides (s.bucketRegion_pos 1) (upper.within slices slices_mem b) ru_mem
  · intro c
    rw [← upper.hits, Push.totalHits, Push.totalHits, map_list_sum, List.map_map, List.map_map, List.map_map]
    congr 1
    refine List.map_congr_left fun slices slices_mem => ?_
    simp only [Function.comp_apply]
    rw [Push.hits_lowered (upper.within slices slices_mem b) divides, coe_lowerTo]
    rfl

theorem Pushed.made {outs : List (BucketArray LongHint)} {all : List (List (Push LongHint))}
    {B : Multiset (BucketUpdate LongHint)}
    (pushed : s.Pushed level all B) (length : outs.length = all.length)
      (buckets : ∀ BA ∈ outs, BA.nBucket = s.nbBuckets level)
    (inside : ∀ u ∈ B, u.x / s.bucketRegion 1 * s.bucketRegion 1 < s.above (s.toplevel - level))
    (fits : ∀ BA ∈ made outs all, ¬ BA.Full) :
      s.Level level (made outs all) (all.map fun pushes => [(0, pushes)]) B := by
  obtain ⟨holds, nBuckets⟩ := made_holds length buckets pushed.bucket fits
  refine ⟨holds, nBuckets, pushed.hits, ?_, inside⟩
  rw [List.forall_mem_map]
  intro pushes member b ru ru_mem
  rw [List.flatMap_singleton] at ru_mem
  exact pushed.within pushes member b ru (Push.mem_rowsOf.mp ru_mem)

end BucketSieve

end CadoNfs.Sieve
