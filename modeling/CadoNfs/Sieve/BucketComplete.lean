import CadoNfs.Sieve.BucketLevels

/-!
# The hits of a region

After the buckets have been downsorted, `bucket_array_complete` has every hit of a region at a survivor,
except when rows are lost: the overload of `purge` for few survivors does not look at them.
-/

namespace CadoNfs.Sieve

namespace BucketSieve

variable {s : BucketSieve} {level nr b i N M : ℕ} {shorts : List (BucketArray ShortHint)}
  {longs : List (BucketArray LongHint)}
  {F : List (List (ℕ × List (Push ShortHint)))} {P : List (List (Push LongHint))}
    {A B : Multiset (BucketUpdate LongHint)}

theorem Level.forall₂ {H : Type} [Hint H] {BAs : List (BucketArray H)} {fills : List (List (ℕ × List (Push H)))}
    (held : s.Level level BAs fills B) :
    List.Forall₂ (fun BA slices => BA.Holds slices ∧ BA.nBucket = s.nbBuckets level ∧ slices ∈ fills) BAs fills := by
  have holds := held.holds
  rw [List.forall₂_iff_zip] at holds ⊢
  refine ⟨holds.1, fun pair => ⟨holds.2 pair, held.buckets _ (List.of_mem_zip pair).1, (List.of_mem_zip pair).2⟩⟩

theorem Level.downsortTo (lt : level < s.toplevel) (inside : b < s.nbBuckets (level + 1))
    (upper : s.Level (level + 1) shorts F B) (long : s.Level (level + 1) longs (P.map fun pushes => [(0, pushes)]) A)
    (width : (s.longs level N).length = F.length) (deep : if level + 1 < s.toplevel then P.length = F.length else A = 0) :
    ∃ all, all.length = F.length ∧ s.downsortTo level b N shorts longs = .ok (made (s.longs level N) all) ∧
      s.Pushed level all (lowerTo (s.bucketRegion (level + 1)) b (A + B)) := by
  have short := upper.lowered lt b
  have first : BucketArray.eachArray (BucketArray.downsort (s.logB level) b)
    ((s.longs level N).map BucketArray.resetPointers) shorts =
      .ok (made (s.longs level N) (F.map (Push.lowered (s.logB level) b))) := by
    have each := eachArray_eq (f := BucketArray.downsort (s.logB level) b) upper.forall₂
      (fun out BA slices known => known.1.downsort (inside.trans_eq known.2.1.symm) (s.logB level) out)
      (show ((s.longs level N).map BucketArray.resetPointers).length =
        shorts.length by rw [List.length_map, width, upper.holds.length_eq])
    rw [each, made, List.zipWith_map_left, List.zipWith_map_right]
  rw [BucketSieve.downsortTo, first]
  by_cases below : level + 1 < s.toplevel
  · rw [if_pos below] at deep
    have more := long.lowered lt b
    rw [List.map_map] at more
    have same : (F.map (Push.lowered (s.logB level) b)).length =
      (P.map (Push.lowered (s.logB level) b ∘ fun pushes => [(0, pushes)])).length := by
      rw [List.length_map, List.length_map, deep]
    have both := short.append more same
    refine ⟨_, ?_, ?_, by rwa [map_add, add_comm]⟩
    · rw [List.length_zipWith, ← same, min_self, List.length_map]
    · have aligned := long.forall₂
      rw [List.forall₂_map_right_iff] at aligned
      have each := eachArray_eq (f := BucketArray.downsortLong (s.logB level) b) aligned
        (fun out BA pushes known => known.1.downsortLong (inside.trans_eq known.2.1.symm) (s.logB level) out)
        (show (made (s.longs level N) (F.map (Push.lowered (s.logB level) b))).length = longs.length by
          rw [made, List.length_zipWith, List.length_map, width, min_self, aligned.length_eq, deep])
      have merged := made_append (s.longs level N) (F.map (Push.lowered (s.logB level) b))
        (P.map (Push.lowered (s.logB level) b ∘ fun pushes => [(0, pushes)]))
      rw [List.zipWith_map_right] at merged
      simp only [if_pos below]
      exact each.trans (congrArg Except.ok merged)
  · rw [if_neg below] at deep
    rw [deep, zero_add]
    exact ⟨_, List.length_map _, by simp only [if_neg below]; rfl, short⟩

variable {H : Type} [Hint H] {BAs : List (BucketArray H)} {fills : List (List (ℕ × List (Push H)))}

theorem mapM_forall₂ {α β γ : Type} {f : α → Except Stop γ} {g : β → γ} {R : α → β → Prop} {l : List α} {l' : List β}
    (same : List.Forall₂ R l l') (ok : ∀ a b, R a b → f a = .ok (g b)) : l.mapM f = .ok (l'.map g) := by
  induction same with
  | nil => rfl
  | cons head _ ih =>
    rw [List.mapM_cons, ok _ _ head, ih]
    rfl

theorem Level.lt_region (held : s.Level level BAs fills B) {slices : List (ℕ × List (Push H))} (member : slices ∈ fills)
    {u : BucketUpdate LongHint} (u_mem : u ∈ Push.hits i slices) : u.x < s.bucketRegion level := by
  have total : u ∈ Push.totalHits i fills := mem_sum.mpr ⟨_, List.mem_map_of_mem member, u_mem⟩
  rw [held.hits] at total
  obtain ⟨v, -, -, rfl⟩ := mem_lowerTo total
  exact Nat.mod_lt _ (s.bucketRegion_pos level)

theorem Level.row_small (valid : s.Valid) (held : s.Level 1 BAs fills B) {slices : List (ℕ × List (Push H))}
    (member : slices ∈ fills)
    {ru : BucketRowUpdate H} (ru_mem : ru ∈ Push.rowsOf i (slices.flatMap Prod.snd)) :
      ru.x + ru.n * ru.inc < 2 ^ 16 := by
  have last : (⟨ru.x + ru.n * ru.inc, Hint.toLongHint ru.hint ru.sliceIndex⟩ : BucketUpdate LongHint) ∈ ru.hits :=
    List.mem_map.mpr ⟨ru.n, List.self_mem_range_succ, rfl⟩
  have lt := held.lt_region member (List.mem_append_right _ (List.mem_flatMap.mpr ⟨ru, ru_mem, last⟩))
  have small : s.logB 1 ≤ 16 := by simpa [logB] using valid.small
  exact lt.trans_le (Nat.pow_le_pow_right two_pos small)

/-- The case of few survivors, in which the rows of the short arrays are not looked at. -/
def FewSurvivors (s : BucketSieve) (M : ℕ) : Prop := s.useSmallsetPurge ∧ (s.survivors M).length ≤ 8 * s.itemsPerSize

instance : Decidable (s.FewSurvivors M) := inferInstanceAs (Decidable (_ ∧ _))

theorem coe_flatten_map {α β : Type} (f : α → List β) (l : List α) :
    (((l.map f).flatten : List β) : Multiset β) = (l.map fun a => (f a : Multiset β)).sum := by
  induction l with
  | nil => rfl
  | cons a l ih => rw [List.map_cons, List.flatten_cons, ← Multiset.coe_add, ih, List.map_cons, List.sum_cons]

theorem filter_sum {α : Type} (p : α → Prop) [DecidablePred p] (l : List (Multiset α)) :
    (l.map (Multiset.filter p)).sum = l.sum.filter p := by
  induction l with
  | nil => rfl
  | cons m l ih => rw [List.map_cons, List.sum_cons, ih, List.sum_cons, Multiset.filter_add]

def seenHits (s : BucketSieve) (M i : ℕ) (F : List (List (ℕ × List (Push ShortHint)))) :
    Multiset (BucketUpdate LongHint) :=
  (F.map fun slices => ((if s.FewSurvivors M then Push.updateHits i slices else Push.hits i slices : List (BucketUpdate LongHint)) :
    Multiset (BucketUpdate LongHint))).sum

theorem Valid.purgeBuckets (valid : s.Valid) (short : s.Level 1 shorts F B) {G : List (List (ℕ × List (Push LongHint)))}
    (long : s.Level 1 longs G A) (inside : i < s.nbBuckets 1) (M : ℕ) :
    ∃ entries, s.purgeBuckets shorts longs i M = .ok entries ∧
      (entries : Multiset (BucketUpdate LongHint)) = (s.seenHits M i F + Push.totalHits i G).filter
        (·.x ∈ s.survivors M) := by
  have agree {H : Type} [Hint H] {BAs : List (BucketArray H)} {fills : List (List (ℕ × List (Push H)))}
    {B : Multiset (BucketUpdate LongHint)}
      (held : s.Level 1 BAs fills B) {slices : List (ℕ × List (Push H))} (member : slices ∈ fills)
      (u : BucketUpdate LongHint) (u_mem : u ∈ Push.hits i slices) : s.sieveArray M u.x ≠ 255 ↔ u.x ∈ s.survivors M :=
    valid.agree M u.x (held.lt_region member u_mem)
  have whole {H : Type} [Hint H] {BAs : List (BucketArray H)} {fills : List (List (ℕ × List (Push H)))}
    {B : Multiset (BucketUpdate LongHint)}
      (held : s.Level 1 BAs fills B) (BA : BucketArray H) (slices : List (ℕ × List (Push H)))
      (known : BA.Holds slices ∧ BA.nBucket = s.nbBuckets 1 ∧ slices ∈ fills) :
      BA.purge i (s.sieveArray M) = .ok ((Push.hits i slices).filter (·.x ∈ s.survivors M)) := by
    obtain ⟨holds, buckets, member⟩ := known
    rw [holds.purge (inside.trans_eq buckets.symm) fun ru ru_mem => held.row_small valid member ru_mem]
    congr 1
    exact List.filter_congr fun u u_mem => by simp [agree held member u u_mem]
  have shorter (BA : BucketArray ShortHint) (slices : List (ℕ × List (Push ShortHint)))
      (known : BA.Holds slices ∧ BA.nBucket = s.nbBuckets 1 ∧ slices ∈ F) :
      (if s.useSmallsetPurge then BA.purgeSurvivors i s.itemsPerSize (s.sieveArray M) (s.survivors M) else BA.purge i (s.sieveArray M)) =
        .ok ((if s.FewSurvivors M then Push.updateHits i slices else Push.hits i slices).filter (·.x ∈ s.survivors M)) := by
    have all := whole short BA slices known
    obtain ⟨holds, buckets, member⟩ := known
    have wide : 0 < s.itemsPerSize := by
      rw [itemsPerSize]
      split_ifs <;> decide
    by_cases used : s.useSmallsetPurge
    · rw [if_pos used, holds.purgeSurvivors (inside.trans_eq buckets.symm) wide
        (fun ru ru_mem => short.row_small valid member ru_mem)
        fun u u_mem => agree short member u u_mem]
      simp [FewSurvivors, used]
    · rw [if_neg used, all]
      simp [FewSurvivors, used]
  have purged := mapM_forall₂ short.forall₂ shorter
  have downsorted := mapM_forall₂ long.forall₂ (whole long)
  refine ⟨_, by rw [BucketSieve.purgeBuckets, purged, downsorted]; rfl, ?_⟩
  rw [Multiset.coe_eq_coe.mpr (List.perm_insertionSort _ _), ← Multiset.coe_add, coe_flatten_map, coe_flatten_map,
    Multiset.filter_add,
    seenHits, Push.totalHits, ← filter_sum, ← filter_sum, List.map_map, List.map_map]
  rfl

def offset (s : BucketSieve) : List ℕ → ℕ
  | [] => 0
  | b :: path => b * s.regionStep (path.length + 1) + offset s path

def InGrid (s : BucketSieve) : List ℕ → Prop
  | [] => True
  | b :: path => b < s.nbBuckets (path.length + 1) ∧ InGrid s path

def shift (k : ℕ) (u : BucketUpdate LongHint) : BucketUpdate LongHint := ⟨k + u.x, u.hint⟩

def allHits (s : BucketSieve) : List ℕ → ℕ → Multiset (BucketUpdate LongHint)
  | [], _ => 0
  | b :: path, N =>
    (s.hitsAt (path.length + 1) N).map (shift (N * s.bucketRegion 1)) + allHits s path
      (N + b * s.regionStep (path.length + 1))

def regionHits (s : BucketSieve) (path : List ℕ) : Multiset (BucketUpdate LongHint) :=
  (lowerTo (s.bucketRegion 1) (s.offset path) (s.allHits path 0)).filter (·.x ∈ s.survivors (s.offset path))

def arriving (s : BucketSieve) : List ℕ → Multiset (BucketUpdate LongHint) → ℕ → Multiset (BucketUpdate LongHint)
  | [], A, _ => A
  | b :: path, A, N =>
    arriving s path (lowerTo (s.bucketRegion (path.length + 1)) b (A + s.hitsAt (path.length + 1) N))
      (N + b * s.regionStep (path.length + 1))

variable {path : List ℕ}

theorem regionStep_one : s.regionStep 1 = 1 := Nat.div_self (s.bucketRegion_pos 1)

theorem bucketRegion_eq (level : ℕ) : s.bucketRegion level = s.bucketRegion 1 * s.regionStep level :=
  (Nat.mul_div_cancel' (s.bucketRegion_dvd level)).symm

theorem regionStep_succ (positive : 0 < level) :
    s.regionStep (level + 1) = s.regionStep level * 2 ^ s.logBucketRegionStep := by
  rw [regionStep, bucketRegion_succ positive, bucketRegion_eq level, mul_assoc,
    Nat.mul_div_cancel_left _ (s.bucketRegion_pos 1)]

theorem offset_lt (grid : s.InGrid path) (deep : path.length < s.toplevel) :
    s.offset path < s.regionStep (path.length + 1) := by
  induction path with
  | nil =>
    rw [List.length_nil, regionStep_one]
    exact Nat.one_pos
  | cons b path ih =>
    obtain ⟨first, rest⟩ := grid
    have below := ih rest (Nat.lt_of_succ_lt deep)
    have few := nbBuckets_le deep path.length.succ_pos
    calc b * s.regionStep (path.length + 1) + s.offset path < (b + 1) * s.regionStep (path.length + 1) := by
          rw [Nat.succ_mul]
          exact Nat.add_lt_add_left below _
      _ ≤ 2 ^ s.logBucketRegionStep * s.regionStep (path.length + 1) := Nat.mul_le_mul_right _ (first.trans_le few)
      _ = s.regionStep (path.length + 1 + 1) := by rw [regionStep_succ path.length.succ_pos, mul_comm]

theorem lowerTo_lowerTo {R K off : ℕ} (positive : 0 < R) (lt : off < K) (N b : ℕ)
    (B : Multiset (BucketUpdate LongHint)) :
    lowerTo R (N + b * K + off) ((lowerTo (R * K) b B).map (shift ((N + b * K) * R))) = lowerTo R (N + (b * K + off))
      (B.map (shift (N * R))) := by
  have split (x : ℕ) : x / R = x / (R * K) * K + x % (R * K) / R := by
    conv_lhs => rw [← Nat.div_add_mod x (R * K), mul_assoc, Nat.mul_add_div positive]
    rw [mul_comm K]
  have rest_lt (x : ℕ) : x % (R * K) / R < K := by
    rw [Nat.div_lt_iff_lt_mul positive, mul_comm K]
    exact Nat.mod_lt _ (Nat.mul_pos positive (Nat.zero_lt_of_lt lt))
  have same (x : ℕ) : (x / (R * K) = b ∧ ((N + b * K) * R + x % (R * K)) / R = N + b * K + off) ↔
    (N * R + x) / R = N + (b * K + off) := by
    rw [Nat.mul_comm _ R, Nat.mul_add_div positive, Nat.mul_comm N, Nat.mul_add_div positive, Nat.add_left_cancel_iff,
      Nat.add_left_cancel_iff, split x]
    constructor
    · rintro ⟨rfl, rfl⟩
      rfl
    · intro eq
      have unique (q r : ℕ) (lt : r < K) : (r + K * q) / K = q ∧ (r + K * q) % K = r :=
        (Nat.div_mod_unique (Nat.zero_lt_of_lt lt)).mpr ⟨rfl, lt⟩
      have left := unique (x / (R * K)) _ (rest_lt x)
      have right := unique b off lt
      rw [mul_comm _ K, mul_comm b, add_comm, add_comm _ off] at eq
      rw [eq] at left
      exact ⟨left.1.symm.trans right.1, left.2.symm.trans right.2⟩
  change ((Multiset.map _ (Multiset.map _ (Multiset.filter _ B))).filter _).map _ = ((Multiset.map _ B).filter _).map _
  rw [Multiset.map_map, Multiset.filter_map, Multiset.map_map, Multiset.filter_filter, Multiset.filter_map,
    Multiset.map_map]
  have position (x : ℕ) : ((N + b * K) * R + x % (R * K)) % R = (N * R + x) % R := by
    rw [Nat.mul_comm _ R, Nat.mul_add_mod, Nat.mul_comm N, Nat.mul_add_mod, Nat.mod_mul_right_mod]
  refine Multiset.map_congr (Multiset.filter_congr fun u _ => and_comm.trans (same u.x)) fun u _ => ?_
  exact congrArg (BucketUpdate.mk · u.hint) (position u.x)

theorem arriving_eq (grid : s.InGrid path) (deep : path.length ≤ s.toplevel) (N : ℕ)
    (small : ∀ u ∈ A, u.x < s.bucketRegion (path.length + 1)) :
    s.arriving path A N = lowerTo (s.bucketRegion 1) (N + s.offset path)
      (A.map (shift (N * s.bucketRegion 1)) + s.allHits path N) := by
  induction path generalizing A N with
  | nil =>
    have region := s.bucketRegion_pos 1
    have small : ∀ u ∈ A, u.x < s.bucketRegion 1 := small
    have here (u : BucketUpdate LongHint) (member : u ∈ A) : (N * s.bucketRegion 1 + u.x) / s.bucketRegion 1 = N := by
      rw [mul_comm, Nat.mul_add_div region, Nat.div_eq_of_lt (small u member), Nat.add_zero]
    rw [arriving, allHits, add_zero, offset]
    change A = ((Multiset.map _ A).filter _).map _
    have all : A.filter ((fun u => u.x / s.bucketRegion 1 = N + 0) ∘ shift (N * s.bucketRegion 1)) = A :=
      Multiset.filter_eq_self.mpr here
    rw [Multiset.filter_map, Multiset.map_map, all]
    refine (Multiset.map_id' A).symm.trans (Multiset.map_congr rfl fun u member => ?_)
    have position : (N * s.bucketRegion 1 + u.x) % s.bucketRegion 1 = u.x := by
      rw [mul_comm, Nat.mul_add_mod, Nat.mod_eq_of_lt (small u member)]
    exact congrArg (BucketUpdate.mk · u.hint) position.symm
  | cons b path ih =>
    have below (u : BucketUpdate LongHint)
        (member : u ∈ lowerTo (s.bucketRegion (path.length + 1)) b (A + s.hitsAt (path.length + 1) N)) :
          u.x < s.bucketRegion (path.length + 1) := by
      obtain ⟨v, -, -, rfl⟩ := mem_lowerTo member
      exact Nat.mod_lt _ (s.bucketRegion_pos _)
    have down := lowerTo_lowerTo (s.bucketRegion_pos 1) (offset_lt grid.2 deep) N b (A + s.hitsAt (path.length + 1) N)
    rw [← bucketRegion_eq] at down
    rw [arriving, ih grid.2 (Nat.le_of_succ_le deep) _ below, map_add, down, Nat.add_assoc, ← map_add, allHits,
      offset, Multiset.map_add,
      add_assoc]

/-- Few survivors, and one of them is hit by a row that was found at the first level. -/
def RowsLost (s : BucketSieve) : List ℕ → ℕ → Prop
  | [], _ => False
  | [i], N => s.FewSurvivors (N + i) ∧ ∃ array ∈ s.shorts 1 N, ∃ slice ∈ array.2, ∃ ru, Hit.row ru ∈ slice.2 ∧
      ∃ u ∈ ru.hits, u.x / s.bucketRegion 1 = i ∧ u.x % s.bucketRegion 1 ∈ s.survivors (N + i)
  | b :: c :: path, N => RowsLost s (c :: path) (N + b * s.regionStep (path.length + 2))

theorem Valid.mem_rowHits (valid : s.Valid) {found : List (ℕ × List Hit)} (le : level ≤ s.toplevel)
    (within : ∀ slice ∈ found, ∀ ru, Hit.row ru ∈ slice.2 → ru.Within (s.bucketRegion 1)) (u : BucketUpdate LongHint) :
    u ∈ Push.rowHits i (s.pushes level found) ↔ ∃ slice ∈ found, ∃ ru, Hit.row ru ∈ slice.2 ∧
      ∃ v ∈ ru.hits, v.x / s.bucketRegion level = i ∧ u = v.lower (s.bucketRegion level) := by
  have one (slice : ℕ × List Hit) (slice_mem : slice ∈ found) (ru : BucketRowUpdate ShortHint)
    (ru_mem : Hit.row ru ∈ slice.2) :
      u ∈ (Push.rowsOf i [s.push level (.row ru)]).flatMap BucketRowUpdate.hits ↔
        ∃ v ∈ ru.hits, v.x / s.bucketRegion level = i ∧ u = v.lower (s.bucketRegion level) := by
    have rows := Push.rowHits_split (c := i) (within slice slice_mem ru ru_mem) (s.bucketRegion_dvd level)
    rw [push, valid.brIndex le, rows, List.mem_map]
    constructor
    · rintro ⟨v, kept, rfl⟩
      obtain ⟨v_mem, here⟩ := List.mem_filter.mp kept
      exact ⟨v, v_mem, of_decide_eq_true here, rfl⟩
    · rintro ⟨v, v_mem, here, rfl⟩
      exact ⟨v, List.mem_filter.mpr ⟨v_mem, decide_eq_true here⟩, rfl⟩
  rw [Push.rowHits, List.mem_flatMap]
  constructor
  · rintro ⟨ru', ru'_mem, u_mem⟩
    obtain ⟨pushed, pushed_mem, row_mem⟩ := List.mem_flatMap.mp (Push.mem_rowsOf.mp ru'_mem)
    obtain ⟨slice, slice_mem, rfl⟩ := List.mem_map.mp pushed_mem
    obtain ⟨hit, hit_mem, eq⟩ := List.mem_map.mp row_mem
    cases hit with
    | update u => cases eq
    | row ru =>
      refine ⟨slice, slice_mem, ru, hit_mem,
        (one slice slice_mem ru hit_mem).mp (List.mem_flatMap.mpr ⟨ru', ?_, u_mem⟩)⟩
      exact Push.mem_rowsOf.mpr (List.mem_singleton.mpr eq.symm)
  · rintro ⟨slice, slice_mem, ru, ru_mem, hit⟩
    obtain ⟨ru', ru'_mem, u_mem⟩ := List.mem_flatMap.mp ((one slice slice_mem ru ru_mem).mpr hit)
    refine ⟨ru', Push.mem_rowsOf.mpr (List.mem_flatMap.mpr ⟨_, List.mem_map_of_mem slice_mem, ?_⟩), u_mem⟩
    rw [List.mem_singleton.mp (Push.mem_rowsOf.mp ru'_mem)]
    exact List.mem_map_of_mem ru_mem

theorem seenHits_add (M i : ℕ) (F : List (List (ℕ × List (Push ShortHint)))) :
    s.seenHits M i F + (if s.FewSurvivors M then (F.map fun slices => (Push.rowHits i slices : Multiset (BucketUpdate LongHint))).sum else 0) =
      Push.totalHits i F := by
  by_cases few : s.FewSurvivors M
  · rw [if_pos few, seenHits, Push.totalHits]
    induction F with
    | nil => rfl
    | cons slices F ih =>
      rw [List.map_cons, List.map_cons, List.map_cons, List.sum_cons, List.sum_cons, List.sum_cons, ← ih, if_pos few,
        Push.hits, ← Multiset.coe_add]
      abel
  · rw [if_neg few, add_zero, seenHits, Push.totalHits]
    simp only [if_neg few]

theorem Valid.purgeBuckets_iff (valid : s.Valid) (top : 0 < s.toplevel)
    (short : s.Level 1 shorts ((s.shorts 1 N).map fun array => s.pushes 1 array.2) (s.hitsAt 1 N))
    {G : List (List (ℕ × List (Push LongHint)))} (long : s.Level 1 longs G A) (inside : i < s.nbBuckets 1) :
    ∃ entries, s.purgeBuckets shorts longs i (N + i) = .ok entries ∧
      ((entries : Multiset (BucketUpdate LongHint)) = (s.arriving [i] A N).filter (·.x ∈ s.survivors (N + i)) ↔
        ¬ s.RowsLost [i] N) := by
  obtain ⟨entries, purged, eq⟩ := valid.purgeBuckets short long inside (N + i)
  refine ⟨entries, purged, ?_⟩
  have all : s.arriving [i] A N = Push.totalHits i ((s.shorts 1 N).map fun array => s.pushes 1 array.2) +
    Push.totalHits i G := by
    rw [short.hits, long.hits, ← map_add, add_comm (s.hitsAt 1 N)]
    rfl
  rw [all, eq, ← seenHits_add (N + i), Multiset.filter_add, Multiset.filter_add, Multiset.filter_add, add_right_comm,
    left_eq_add, RowsLost]
  by_cases few : s.FewSurvivors (N + i)
  · rw [if_pos few, Multiset.filter_eq_nil]
    constructor
    · rintro none ⟨-, array, array_mem, slice, slice_mem, ru, ru_mem, v, v_mem, here, survives⟩
      have row := (valid.mem_rowHits top (valid.within 1 N one_pos top array array_mem)
        (v.lower (s.bucketRegion 1))).mpr
        ⟨slice, slice_mem, ru, ru_mem, v, v_mem, here, rfl⟩
      refine none _ (mem_sum.mpr ⟨_, List.mem_map_of_mem (List.mem_map_of_mem array_mem), row⟩) survives
    · intro kept u u_mem survives
      obtain ⟨m, m_mem, u_mem⟩ := mem_sum.mp u_mem
      obtain ⟨slices, slices_mem, rfl⟩ := List.mem_map.mp m_mem
      obtain ⟨array, array_mem, rfl⟩ := List.mem_map.mp slices_mem
      obtain ⟨slice, slice_mem, ru, ru_mem, v, v_mem, here, rfl⟩ :=
        (valid.mem_rowHits top (valid.within 1 N one_pos top array array_mem) u).mp u_mem
      exact kept ⟨few, array, array_mem, slice, slice_mem, ru, ru_mem, v, v_mem, here, survives⟩
  · simp [few]

theorem checkBucketsMaxFull_cases (shorts : List (BucketArray ShortHint)) (longs : List (BucketArray LongHint)) :
    checkBucketsMaxFull shorts longs = .error .bucketsAreFull ∨
      checkBucketsMaxFull shorts longs = .ok () ∧ (∀ BA ∈ shorts, ¬ BA.Full) ∧ ∀ BA ∈ longs, ¬ BA.Full := by
  rw [checkBucketsMaxFull]
  by_cases full : (∃ BA ∈ shorts, BA.Full) ∨ ∃ BA ∈ longs, BA.Full
  · exact .inl (if_pos full)
  · obtain ⟨short, long⟩ := not_or.mp full
    exact .inr ⟨if_neg full, fun BA member is => short ⟨BA, member, is⟩, fun BA member is => long ⟨BA, member, is⟩⟩

theorem Valid.downsortTree (valid : s.Valid) (some : path ≠ []) (grid : s.InGrid path) (le : path.length ≤ s.toplevel)
    (short : s.Level path.length shorts ((s.shorts path.length N).map fun array => s.pushes path.length array.2)
      (s.hitsAt path.length N))
    (long : s.Level path.length longs (P.map fun pushes => [(0, pushes)]) A)
      (width : ∀ level N, (s.shorts level N).length = nr ∧ (s.longs level N).length = nr)
    (deep : if path.length < s.toplevel then P.length = nr else A = 0) :
    s.downsortTree path shorts longs N = .error .bucketsAreFull ∨
      ∃ entries, s.downsortTree path shorts longs N = .ok entries ∧
      ((entries : Multiset (BucketUpdate LongHint)) = (s.arriving path A N).filter
        (·.x ∈ s.survivors (N + s.offset path)) ↔ ¬ s.RowsLost path N) := by
  induction path generalizing shorts longs P A N with
  | nil => exact absurd rfl some
  | cons b path ih =>
    cases path with
    | nil =>
      have last : s.offset [b] = b := by simp [offset, regionStep_one]
      rw [last]
      exact .inr (valid.purgeBuckets_iff le short long grid.1)
    | cons c path =>
      have lt : path.length + 1 < s.toplevel := le
      let N' := N + b * s.regionStep (path.length + 2)
      have counts : ((s.shorts (b :: c :: path).length N).map fun array => s.pushes
        (b :: c :: path).length array.2).length = nr := by
        rw [List.length_map, (width _ N).1]
      obtain ⟨all, length, downsorted, pushed⟩ :=
        Level.downsortTo (N := N') lt grid.1 short long (by rw [counts, (width _ N').2])
        (by rw [counts]; exact deep)
      rw [counts] at length
      have inside (u : BucketUpdate LongHint)
          (member : u ∈ lowerTo (s.bucketRegion (path.length + 2)) b (A + s.hitsAt (path.length + 2) N)) :
          u.x / s.bucketRegion 1 * s.bucketRegion 1 < s.above (s.toplevel - (path.length + 1)) := by
        obtain ⟨v, v_mem, -, rfl⟩ := mem_lowerTo member
        exact mod_inside lt ((Multiset.mem_add.mp v_mem).elim (long.inside v) (short.inside v))
      have step : s.downsortTree (b :: c :: path) shorts longs N =
          (checkBucketsMaxFull (s.fillInBuckets (path.length + 1) N')
            (made (s.longs (path.length + 1) N') all) >>= fun _ =>
            s.downsortTree (c :: path) (s.fillInBuckets (path.length + 1) N')
              (made (s.longs (path.length + 1) N') all) N') := by
        rw [BucketSieve.downsortTree]
        simp only
        rw [downsorted]
        rfl
      rcases checkBucketsMaxFull_cases (s.fillInBuckets (path.length + 1) N')
        (made (s.longs (path.length + 1) N') all) with full | ⟨checked, fits, fits'⟩
      · refine .inl ?_
        rw [step, full]
        rfl
      · have short' := valid.fillInBuckets path.length.succ_pos lt.le N' fits
        have long' := pushed.made (by rw [(width _ N').2, length])
          (valid.longBuckets _ N' path.length.succ_pos lt.le) inside fits'
        have down := ih (by simp) grid.2 lt.le short' long' ((if_pos lt).mpr length)
        rw [step, checked]
        have index : N' + s.offset (c :: path) = N + s.offset (b :: c :: path) := Nat.add_assoc ..
        rw [index] at down
        exact down

/-- The entries are the hits of the region at its survivors. -/
def Complete (s : BucketSieve) (path : List ℕ) : Prop :=
  ∃ entries, s.processRegion path = .ok entries ∧ (entries : Multiset (BucketUpdate LongHint)) = s.regionHits path

theorem complete_iff (valid : s.Valid) (top : 0 < s.toplevel) (length : path.length = s.toplevel) (grid : s.InGrid path)
    (fits : s.processRegion path ≠ .error .bucketsAreFull) : s.Complete path ↔ ¬ s.RowsLost path 0 := by
  obtain ⟨nr, width⟩ := valid.arrays
  have some : path ≠ [] := List.ne_nil_of_length_pos (length ▸ top)
  have start : s.processRegion path = (checkBucketsMaxFull (s.fillInBuckets path.length 0) [] >>= fun _ =>
      s.downsortTree path (s.fillInBuckets path.length 0) [] 0) := by
    rw [length]
    rfl
  have arrives : s.arriving path 0 0 = lowerTo (s.bucketRegion 1) (s.offset path) (s.allHits path 0) := by
    rw [arriving_eq grid length.le 0 (by simp), Multiset.map_zero, zero_add, zero_add]
  rcases checkBucketsMaxFull_cases (s.fillInBuckets path.length 0) [] with full | ⟨checked, notFull, -⟩
  · rw [start, full] at fits
    exact absurd rfl fits
  · have empty : s.Level path.length ([] : List (BucketArray LongHint))
      (([] : List (List (Push LongHint))).map fun pushes => [(0, pushes)]) 0 :=
      ⟨.nil, by simp, fun b => (map_zero (lowerTo _ b)).symm, by simp, by simp⟩
    have down := valid.downsortTree some grid length.le
      (valid.fillInBuckets (length ▸ top) length.le 0 notFull) empty width
      (by rw [if_neg length.not_lt])
    have same : s.processRegion path = s.downsortTree path (s.fillInBuckets path.length 0) [] 0 := by
      rw [start, checked]
      rfl
    rw [← same, arrives, zero_add] at down
    obtain ⟨entries, processed, iff⟩ := down.resolve_left fits
    rw [← iff, Complete, processed]
    exact ⟨fun ⟨_, rfl, complete⟩ => complete, fun complete => ⟨entries, rfl, complete⟩⟩

def emptyArray (H : Type) (hint : H) : BucketArray H where
  nBucket := 2
  bucketStart i := 8 * i
  bucketWrite i := 8 * i
  bigData _ := ⟨0, hint⟩
  sliceIndex := []
  sliceStart := []
  rowUpdates _ := []
  spread _ _ le := Nat.mul_le_mul_left 8 le

def twoLevels : BucketSieve where
  logBucketRegion := 2
  logBucketRegionStep := 1
  toplevel := 2
  logA := 4
  avx2 := true
  useSmallsetPurge := true
  shorts level _ := [(emptyArray ShortHint ⟨0⟩,
    if level = 2 then [(5, [.update ⟨9, ⟨1⟩⟩, .row ⟨⟨8, ⟨2⟩⟩, 5, 1, 2⟩])] else [(3, [.update ⟨1, ⟨4⟩⟩, .row ⟨⟨4, ⟨6⟩⟩, 3, 1, 1⟩])])]
  longs _ _ := [emptyArray LongHint ⟨0, 0⟩]
  sieveArray _ x := if x = 1 then 0 else 255
  survivors _ := [1]

theorem twoLevels_valid : twoLevels.Valid where
  small := by decide
  wide := by decide
  arrays := ⟨1, fun _ _ => ⟨rfl, rfl⟩⟩
  shortBuckets level N low high := by
    have high : level ≤ 2 := high
    change ∀ array ∈ twoLevels.shorts level 0, _
    interval_cases level <;> decide
  longBuckets level N low high := by
    have high : level ≤ 2 := high
    change ∀ BA ∈ twoLevels.longs level 0, _
    interval_cases level <;> decide
  inside level N low high := by
    have high : level ≤ 2 := high
    change ∀ array ∈ twoLevels.shorts level 0, _
    interval_cases level <;> decide
  within level N low high array member slice slice_mem ru ru_mem := by
    have high : level ≤ 2 := high
    cases List.mem_singleton.mp member
    interval_cases level <;> cases List.mem_singleton.mp slice_mem <;> simp at ru_mem <;> subst ru_mem <;> decide
  agree M x lt := by
    by_cases one : x = 1 <;> simp [twoLevels, one]

theorem complete_twoLevels : twoLevels.Complete [1, 0] := by
  refine (complete_iff twoLevels_valid (by decide) (by decide)
    (show twoLevels.InGrid [1, 0] from ⟨by decide, by decide, trivial⟩) (by decide)).mpr ?_
  rintro ⟨-, array, member, slice, slice_mem, ru, ru_mem, u, u_mem, here, -⟩
  cases List.mem_singleton.mp member
  cases List.mem_singleton.mp slice_mem
  simp at ru_mem
  subst ru_mem
  have elsewhere : ∀ u ∈ BucketRowUpdate.hits ⟨⟨4, ShortHint.mk 6⟩, 3, 1, 1⟩, u.x / twoLevels.bucketRegion 1 ≠
    0 := by decide
  exact elsewhere u u_mem here

def oneRow (useSmallsetPurge : Bool) : BucketSieve where
  logBucketRegion := 2
  logBucketRegionStep := 1
  toplevel := 1
  logA := 3
  avx2 := false
  useSmallsetPurge := useSmallsetPurge
  shorts _ _ := [(emptyArray ShortHint ⟨0⟩, [(0, [.row ⟨⟨1, ⟨7⟩⟩, 0, 1, 0⟩])])]
  longs _ _ := [emptyArray LongHint ⟨0, 0⟩]
  sieveArray _ x := if x = 1 then 0 else 255
  survivors _ := [1]

theorem not_complete_oneRow : (oneRow true).Valid ∧ (oneRow true).InGrid [0] ∧ (oneRow false).Complete [0] ∧
    (oneRow true).processRegion [0] = .ok [] ∧ ¬ (oneRow true).Complete [0] := by
  have valid : (oneRow true).Valid := by
    constructor
    · decide
    · decide
    · exact ⟨1, fun _ _ => ⟨rfl, rfl⟩⟩
    · intro level N low high
      cases le_antisymm high low
      exact List.forall_mem_singleton.mpr rfl
    · intro level N low high
      cases le_antisymm high low
      exact List.forall_mem_singleton.mpr rfl
    · intro level N low high
      cases le_antisymm high low
      change ∀ array ∈ (oneRow true).shorts 1 0, _
      decide
    · intro level N low high array member slice slice_mem ru ru_mem
      cases le_antisymm high low
      cases List.mem_singleton.mp member
      cases List.mem_singleton.mp slice_mem
      cases List.mem_singleton.mp ru_mem
      decide
    · intro M x lt
      by_cases one : x = 1 <;> simp [oneRow, one]
  have hits (useSmallsetPurge : Bool) :
    (oneRow useSmallsetPurge).regionHits [0] = ([⟨1, ⟨0, 7⟩⟩] : List (BucketUpdate LongHint)) := by
    cases useSmallsetPurge <;> decide
  have lost : (oneRow true).processRegion [0] = .ok [] := by decide
  refine ⟨valid, ⟨by decide, trivial⟩, ⟨[⟨1, ⟨0, 7⟩⟩], by decide, (hits false).symm⟩, lost, ?_⟩
  rintro ⟨entries, processed, complete⟩
  rw [lost] at processed
  cases processed
  rw [hits] at complete
  cases congrArg Multiset.card complete

end BucketSieve

end CadoNfs.Sieve
