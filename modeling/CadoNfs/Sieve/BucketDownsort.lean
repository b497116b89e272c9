import CadoNfs.Sieve.BucketArray

/-!
# Purging a bucket

`bucket_array_complete::purge` of `sieve/bucket.cpp` keeps the updates of a bucket that hit a survivor:
one overload looks at the sieve array, the other one at the list of the survivors.
-/

namespace CadoNfs.Sieve

variable {H : Type} [Hint H]

def BucketUpdate.toLongHint (u : BucketUpdate H) (sliceIndex : ℕ) : BucketUpdate LongHint :=
  ⟨u.x, Hint.toLongHint u.hint sliceIndex⟩

namespace BucketRowUpdate

def walk (inc : ℕ) : ℕ → ℕ → List ℕ
  | 0, _ => []
  | nx + 1, x => x :: walk inc nx ((x + inc) % 2 ^ 16)

def hits (ru : BucketRowUpdate H) : List (BucketUpdate LongHint) :=
  (List.range (ru.n + 1)).map fun t => ⟨ru.x + t * ru.inc, Hint.toLongHint ru.hint ru.sliceIndex⟩

theorem walk_eq {inc x : ℕ} (nx : ℕ) (small : x + (nx - 1) * inc < 2 ^ 16) :
    walk inc nx x = (List.range nx).map fun t => x + t * inc := by
  induction nx generalizing x with
  | zero => rfl
  | succ nx ih =>
    cases nx with
    | zero => simp [walk]
    | succ nx =>
      have step : x + inc + nx * inc < 2 ^ 16 := by
        rw [Nat.add_sub_cancel] at small
        linarith [Nat.succ_mul nx inc]
      have next : (x + inc) % 2 ^ 16 = x + inc := Nat.mod_eq_of_lt (by omega)
      rw [walk, next, ih (by simpa using step), List.range_succ_eq_map (n := nx + 1), List.map_cons, List.map_map,
        Nat.zero_mul]
      congr 1
      refine List.map_congr_left fun t _ => ?_
      rw [Function.comp_apply, Nat.succ_mul]
      omega

end BucketRowUpdate

/-- The simple sets of `utils/smallset.hpp`: the last item fills up the room that is left. -/
def smallset (nrItems : ℕ) (data : List ℕ) : Except Stop (List ℕ) :=
  if 0 < data.length ∧ data.length ≤ nrItems then
    .ok (data ++ List.replicate (nrItems - data.length) (data.getLastD 0))
  else .error .assertion

theorem smallset_eq {nrItems : ℕ} {data : List ℕ} (some : data ≠ []) (fits : data.length ≤ nrItems) :
    ∃ set, smallset nrItems data = .ok set ∧ ∀ x, x ∈ set ↔ x ∈ data := by
  refine ⟨_, if_pos ⟨List.length_pos_iff.mpr some, fits⟩, fun x => ?_⟩
  rw [List.mem_append, List.mem_replicate, List.getLastD_eq_getLast?, List.getLast?_eq_some_getLast some]
  exact ⟨fun member => member.elim id fun ⟨_, last⟩ => last ▸ List.getLast_mem some, .inl⟩

namespace BucketArray

variable (BA : BucketArray H) (i : ℕ)

def purge (S : ℕ → ℕ) : Except Stop (List (BucketUpdate LongHint)) := do
  let updates ← BA.eachUpdate i
  let kept := (updates.filter fun (_, u) => S u.x ≠ 255).map fun (sliceIndex, u) => u.toLongHint sliceIndex
  if i < BA.nBucket then
    pure (kept ++ (BA.rowUpdates i).flatMap fun ru =>
      ((BucketRowUpdate.walk ru.inc (ru.n + 1) ru.x).filter (S · ≠ 255)).map fun x =>
        ⟨x, Hint.toLongHint ru.hint ru.sliceIndex⟩)
  else pure kept

def purgeSmall (nrItems : ℕ) (survivors : List ℕ) : Except Stop (List (BucketUpdate LongHint)) := do
  let set ← smallset nrItems survivors
  let updates ← BA.eachUpdate i
  pure ((updates.filter fun (_, u) => u.x ∈ set).map fun (sliceIndex, u) => u.toLongHint sliceIndex)

-- There are sets of up to eight words. With more survivors the sieve array is used.
def purgeSurvivors (itemsPerSize : ℕ) (S : ℕ → ℕ) (survivors : List ℕ) : Except Stop (List (BucketUpdate LongHint)) :=
  if survivors = [] then .ok []
  else
    let size := (survivors.length + itemsPerSize - 1) / itemsPerSize
    if size ≤ 8 then BA.purgeSmall i (size * itemsPerSize) survivors else BA.purge i S

end BucketArray

/-! ## The hits of what has been pushed -/

namespace Push

def updateHits (i : ℕ) (slices : List (ℕ × List (Push H))) : List (BucketUpdate LongHint) :=
  slices.flatMap fun slice => (updatesOf i slice.2).map (·.toLongHint slice.1)

def rowHits (i : ℕ) (slices : List (ℕ × List (Push H))) : List (BucketUpdate LongHint) :=
  (rowsOf i (slices.flatMap Prod.snd)).flatMap BucketRowUpdate.hits

def hits (i : ℕ) (slices : List (ℕ × List (Push H))) : List (BucketUpdate LongHint) :=
  updateHits i slices ++ rowHits i slices

end Push

namespace BucketArray

variable {BA : BucketArray H} {i : ℕ} {slices : List (ℕ × List (Push H))} {S : ℕ → ℕ} {survivors : List ℕ}

theorem Holds.filter_updates (keep : ℕ → Bool) :
    ((slices.flatMap fun slice => (Push.updatesOf i slice.2).map (slice.1, ·)).filter fun (_, u) => keep u.x).map
      (fun (sliceIndex, u) => u.toLongHint sliceIndex) = (Push.updateHits i slices).filter (keep ·.x) := by
  rw [Push.updateHits]
  induction slices with
  | nil => rfl
  | cons slice slices ih =>
    rw [List.flatMap_cons, List.filter_append, List.map_append, ih, List.flatMap_cons, List.filter_append,
      List.filter_map,
      List.filter_map, List.map_map]
    rfl

theorem Holds.purge (holds : BA.Holds slices) (inside : i < BA.nBucket)
    (small : ∀ ru ∈ Push.rowsOf i (slices.flatMap Prod.snd), ru.x + ru.n * ru.inc < 2 ^ 16) :
    BA.purge i S = .ok ((Push.hits i slices).filter (S ·.x ≠ 255)) := by
  have rows : ((BA.rowUpdates i).flatMap fun ru =>
      ((BucketRowUpdate.walk ru.inc (ru.n + 1) ru.x).filter (S · ≠ 255)).map fun x =>
        (⟨x, Hint.toLongHint ru.hint ru.sliceIndex⟩ : BucketUpdate LongHint)) = (Push.rowHits i slices).filter
          (S ·.x ≠ 255) := by
    rw [holds.rows, Push.rowHits, List.filter_flatMap]
    refine List.flatMap_congr fun ru member => ?_
    rw [BucketRowUpdate.walk_eq _ (small ru member), BucketRowUpdate.hits, List.filter_map, List.filter_map,
      List.map_map]
    rfl
  rw [BucketArray.purge, holds.eachUpdate inside]
  change (if i < BA.nBucket then Except.ok (_ ++ _) else _) = _
  rw [if_pos inside, rows, Push.hits, List.filter_append]
  congr 2
  exact Holds.filter_updates fun x => S x ≠ 255

theorem Holds.purgeSmall {nrItems : ℕ} (holds : BA.Holds slices) (inside : i < BA.nBucket) (some : survivors ≠ [])
    (fits : survivors.length ≤ nrItems) :
    BA.purgeSmall i nrItems survivors = .ok ((Push.updateHits i slices).filter (·.x ∈ survivors)) := by
  obtain ⟨set, made, same⟩ := smallset_eq some fits
  rw [BucketArray.purgeSmall, made, holds.eachUpdate inside]
  change Except.ok _ = _
  rw [Holds.filter_updates fun x => x ∈ set]
  simp only [same]

theorem Holds.purgeSurvivors {itemsPerSize : ℕ} (holds : BA.Holds slices) (inside : i < BA.nBucket)
    (wide : 0 < itemsPerSize)
    (small : ∀ ru ∈ Push.rowsOf i (slices.flatMap Prod.snd), ru.x + ru.n * ru.inc < 2 ^ 16)
    (agree : ∀ u ∈ Push.hits i slices, S u.x ≠ 255 ↔ u.x ∈ survivors) :
    BA.purgeSurvivors i itemsPerSize S survivors =
      .ok (((if survivors.length ≤ 8 * itemsPerSize then Push.updateHits i slices else Push.hits i slices)).filter (·.x ∈ survivors)) := by
  rw [BucketArray.purgeSurvivors]
  by_cases none : survivors = []
  · rw [if_pos none]
    simp [none]
  rw [if_neg none]
  have size : (survivors.length + itemsPerSize - 1) / itemsPerSize ≤ 8 ↔ survivors.length ≤ 8 * itemsPerSize := by
    rw [← Nat.lt_succ_iff, Nat.div_lt_iff_lt_mul wide]
    omega
  by_cases few : survivors.length ≤ 8 * itemsPerSize
  · have fits : survivors.length ≤ (survivors.length + itemsPerSize - 1) / itemsPerSize * itemsPerSize := by
      have division := Nat.div_add_mod (survivors.length + itemsPerSize - 1) itemsPerSize
      have rest := Nat.mod_lt (survivors.length + itemsPerSize - 1) wide
      rw [Nat.mul_comm]
      omega
    rw [if_pos (size.mpr few), if_pos few]
    exact holds.purgeSmall inside none fits
  · rw [if_neg (mt size.mp few), if_neg few, holds.purge inside small]
    congr 1
    exact List.filter_congr fun u member => by simp [agree u member]

end BucketArray

end CadoNfs.Sieve

/-!
# Downsorting a bucket

`downsort` of `sieve/bucket.cpp` sorts the updates of a bucket into the buckets of the level below.
-/

namespace CadoNfs.Sieve

variable {H : Type} [Hint H] {i b c : ℕ} {slices : List (ℕ × List (Push H))}

namespace Push

def lowerUpdate (logB : ℕ) : ℕ × BucketUpdate H → Push LongHint
  | (sliceIndex, u) => .update (u.x / 2 ^ logB) ⟨u.x % 2 ^ logB, Hint.toLongHint u.hint sliceIndex⟩

def lowerRow (logB : ℕ) (ru : BucketRowUpdate H) : Push LongHint :=
  .row (ru.x / 2 ^ logB) ⟨⟨ru.x % 2 ^ logB, Hint.toLongHint ru.hint ru.sliceIndex⟩, ru.sliceIndex, ru.inc, ru.n⟩

end Push

namespace BucketArray

def lowered (BA_in : BucketArray H) (logB bucketNumber : ℕ) : Except Stop (List (Push LongHint)) := do
  let updates ← BA_in.eachUpdate bucketNumber
  pure (updates.map (Push.lowerUpdate logB) ++ (BA_in.rowUpdates bucketNumber).map (Push.lowerRow logB))

def downsort (logB bucketNumber : ℕ) (BA_out : BucketArray LongHint) (BA_in : BucketArray ShortHint) :
    Except Stop (BucketArray LongHint) := do
  let pushes ← BA_in.lowered logB bucketNumber
  pure (pushes.foldl push (BA_out.addSliceIndex 0))

def downsortLong (logB bucketNumber : ℕ) (BA_out : BucketArray LongHint) (BA_in : BucketArray LongHint) :
    Except Stop (BucketArray LongHint) :=
  if BA_in.sliceIndex.length = 1 then do
    let pushes ← BA_in.lowered logB bucketNumber
    pure (pushes.foldl push BA_out)
  else .error .assertion

end BucketArray

namespace BucketUpdate

def lower (M : ℕ) (u : BucketUpdate LongHint) : BucketUpdate LongHint := ⟨u.x % M, u.hint⟩

end BucketUpdate

def BucketRowUpdate.Within (R : ℕ) (ru : BucketRowUpdate H) : Prop := (ru.x + ru.n * ru.inc) / R = ru.x / R

instance (R : ℕ) (ru : BucketRowUpdate H) : Decidable (ru.Within R) := inferInstanceAs (Decidable (_ = _))

omit [Hint H] in
theorem BucketRowUpdate.Within.div_eq {R M : ℕ} {ru : BucketRowUpdate H} (within : ru.Within R) (divides : R ∣ M)
    {t : ℕ} (le : t ≤ ru.n) :
    (ru.x + t * ru.inc) / M = ru.x / M := by
  obtain ⟨k, rfl⟩ := divides
  have upper := Nat.div_le_div_right (c := R) (Nat.add_le_add_left (Nat.mul_le_mul_right ru.inc le) ru.x)
  have lower := Nat.div_le_div_right (c := R) (Nat.le_add_right ru.x (t * ru.inc))
  rw [within] at upper
  rw [← Nat.div_div_eq_div_mul, ← Nat.div_div_eq_div_mul, le_antisymm upper lower]

omit [Hint H] in
theorem BucketRowUpdate.Within.mod {R M : ℕ} {ru : BucketRowUpdate H} (within : ru.Within R) (divides : R ∣ M)
    (positive : 0 < R) :
    BucketRowUpdate.Within R { ru with x := ru.x % M } := by
  obtain ⟨k, rfl⟩ := divides
  have split (y : ℕ) : (R * k * (ru.x / (R * k)) + y) / R = k * (ru.x / (R * k)) + y / R := by
    rw [mul_assoc, Nat.mul_add_div positive]
  have whole := within
  rw [BucketRowUpdate.Within, ← Nat.div_add_mod ru.x (R * k), Nat.add_assoc, split, split] at whole
  exact Nat.add_left_cancel whole

namespace Push

omit [Hint H] in
theorem mem_rowsOf {pushes : List (Push H)} {ru : BucketRowUpdate H} : ru ∈ rowsOf b pushes ↔ row b ru ∈ pushes := by
  rw [rowsOf, List.mem_filterMap]
  constructor
  · rintro ⟨p, member, eq⟩
    cases p with
    | update b' u => cases eq
    | row b' ru' =>
      dsimp only at eq
      by_cases same : b' = b
      · rw [if_pos same] at eq
        cases eq
        rwa [← same]
      · rw [if_neg same] at eq
        cases eq
  · intro member
    exact ⟨_, member, if_pos rfl⟩

def lowered (logB b : ℕ) (slices : List (ℕ × List (Push H))) : List (Push LongHint) :=
  (slices.flatMap fun slice => (updatesOf b slice.2).map (slice.1, ·)).map (lowerUpdate logB) ++
    (rowsOf b (slices.flatMap Prod.snd)).map (lowerRow logB)

theorem updatesOf_lowerUpdate {logB : ℕ} (us : List (ℕ × BucketUpdate H)) : (updatesOf c (us.map (lowerUpdate logB))) =
    ((us.map fun (sliceIndex, u) => u.toLongHint sliceIndex).filter (·.x / 2 ^ logB = c)).map
      (BucketUpdate.lower (2 ^ logB)) := by
  induction us with
  | nil => rfl
  | cons u us ih =>
    obtain ⟨sliceIndex, u⟩ := u
    rw [List.map_cons, lowerUpdate, updatesOf_update, ih, List.map_cons]
    by_cases here : u.x / 2 ^ logB = c <;> simp [BucketUpdate.toLongHint, BucketUpdate.lower, here]

theorem updatesOf_lowerRow {logB : ℕ} (rus : List (BucketRowUpdate H)) :
    updatesOf c (rus.map (lowerRow logB)) = [] := by
  induction rus with
  | nil => rfl
  | cons ru rus ih => exact ih

theorem rowsOf_lowerUpdate {logB : ℕ} (us : List (ℕ × BucketUpdate H)) : rowsOf c (us.map (lowerUpdate logB)) = [] := by
  induction us with
  | nil => rfl
  | cons u us ih => exact ih

theorem rowHits_split {M R : ℕ} {ru : BucketRowUpdate H} (within : ru.Within R) (divides : R ∣ M) :
    (rowsOf c [row (ru.x / M) { ru with x := ru.x % M }]).flatMap BucketRowUpdate.hits =
      (ru.hits.filter (·.x / M = c)).map (BucketUpdate.lower M) := by
  have same (u : BucketUpdate LongHint) (member : u ∈ ru.hits) : u.x / M = ru.x / M := by
    obtain ⟨t, lt, rfl⟩ := List.mem_map.mp member
    exact within.div_eq divides (Nat.lt_succ_iff.mp (List.mem_range.mp lt))
  rw [rowsOf_row, rowsOf_nil, List.append_nil]
  by_cases here : ru.x / M = c
  · have all : ru.hits.filter (·.x / M = c) = ru.hits :=
      List.filter_eq_self.mpr fun u member => by simp [same u member, here]
    rw [if_pos here, all, List.flatMap_singleton, BucketRowUpdate.hits, BucketRowUpdate.hits, List.map_map]
    refine List.map_congr_left fun t lt => ?_
    have quotient := within.div_eq divides (Nat.lt_succ_iff.mp (List.mem_range.mp lt))
    have whole := Nat.div_add_mod (ru.x + t * ru.inc) M
    have start := Nat.div_add_mod ru.x M
    have position : ru.x % M + t * ru.inc = (ru.x + t * ru.inc) % M := by
      rw [quotient] at whole
      omega
    change (⟨ru.x % M + t * ru.inc, _⟩ : BucketUpdate LongHint) = ⟨(ru.x + t * ru.inc) % M, _⟩
    rw [position]
  · have none : ru.hits.filter (·.x / M = c) = [] :=
      List.filter_eq_nil_iff.mpr fun u member => by simp [same u member, here]
    rw [if_neg here, none]
    rfl

theorem rowHits_lowerRow {logB R : ℕ} {ru : BucketRowUpdate H} (within : ru.Within R) (divides : R ∣ 2 ^ logB) :
    (rowsOf c [lowerRow logB ru]).flatMap BucketRowUpdate.hits =
      (ru.hits.filter (·.x / 2 ^ logB = c)).map (BucketUpdate.lower (2 ^ logB)) := by
  let long : BucketRowUpdate LongHint := ⟨⟨ru.x, Hint.toLongHint ru.hint ru.sliceIndex⟩, ru.sliceIndex, ru.inc, ru.n⟩
  have within : long.Within R := within
  exact rowHits_split within divides

theorem hits_lowered {logB R : ℕ} (within : ∀ ru ∈ rowsOf b (slices.flatMap Prod.snd), ru.Within R)
    (divides : R ∣ 2 ^ logB) (k : ℕ) :
    hits c [(k, lowered logB b slices)] = ((hits b slices).filter (·.x / 2 ^ logB = c)).map
      (BucketUpdate.lower (2 ^ logB)) := by
  have updates : updateHits c [(k, lowered logB b slices)] =
      ((updateHits b slices).filter (·.x / 2 ^ logB = c)).map (BucketUpdate.lower (2 ^ logB)) := by
    have long : (slices.flatMap fun slice => (updatesOf b slice.2).map (slice.1, ·)).map
      (fun (sliceIndex, u) => u.toLongHint sliceIndex) =
        updateHits b slices := by
      rw [List.map_flatMap, updateHits]
      simp only [List.map_map]
      rfl
    rw [updateHits, List.flatMap_singleton, lowered, updatesOf_append, updatesOf_lowerRow, List.append_nil,
      updatesOf_lowerUpdate, long]
    exact List.map_id _
  have rows : rowHits c [(k, lowered logB b slices)] =
      ((rowHits b slices).filter (·.x / 2 ^ logB = c)).map (BucketUpdate.lower (2 ^ logB)) := by
    rw [rowHits, List.flatMap_singleton, lowered, rowsOf_append, rowsOf_lowerUpdate, List.nil_append, rowHits]
    generalize rowsOf b (slices.flatMap Prod.snd) = rus at within
    induction rus with
    | nil => rfl
    | cons ru rus ih =>
      obtain ⟨first, rest⟩ := List.forall_mem_cons.mp within
      have one := rowHits_lowerRow (c := c) first divides
      rw [List.map_cons, ← List.singleton_append, rowsOf_append, List.flatMap_append, ih rest, one, List.flatMap_cons,
        List.filter_append, List.map_append]
  rw [hits, hits, updates, rows, List.filter_append, List.map_append]

theorem mem_lowered {logB : ℕ} {slices : List (ℕ × List (Push H))} {p : Push LongHint}
    (member : p ∈ lowered logB b slices) :
    ∃ u ∈ hits b slices, p.bucket = u.x / 2 ^ logB := by
  rcases List.mem_append.mp member with update | row
  · obtain ⟨⟨k, u⟩, u_mem, rfl⟩ := List.mem_map.mp update
    obtain ⟨slice, slice_mem, pair⟩ := List.mem_flatMap.mp u_mem
    obtain ⟨u, u_mem, eq⟩ := List.mem_map.mp pair
    cases eq
    exact ⟨u.toLongHint slice.1,
      List.mem_append_left _ (List.mem_flatMap.mpr ⟨slice, slice_mem, List.mem_map_of_mem u_mem⟩), rfl⟩
  · obtain ⟨ru, ru_mem, rfl⟩ := List.mem_map.mp row
    refine ⟨⟨ru.x + 0 * ru.inc, Hint.toLongHint ru.hint ru.sliceIndex⟩,
      List.mem_append_right _ (List.mem_flatMap.mpr ⟨ru, ru_mem, ?_⟩), ?_⟩
    · exact List.mem_map.mpr ⟨0, by simp, rfl⟩
    · rw [Nat.zero_mul, Nat.add_zero]
      rfl

theorem within_lowered {R logB : ℕ} {slices : List (ℕ × List (Push H))} {ru : BucketRowUpdate LongHint}
    (divides : R ∣ 2 ^ logB) (positive : 0 < R)
    (within : ∀ ru ∈ rowsOf b (slices.flatMap Prod.snd), ru.Within R) (member : row c ru ∈ lowered logB b slices) :
      ru.Within R := by
  rcases List.mem_append.mp member with update | row
  · obtain ⟨u, -, eq⟩ := List.mem_map.mp update
    cases eq
  · obtain ⟨ru, ru_mem, eq⟩ := List.mem_map.mp row
    cases eq
    exact (within ru ru_mem).mod divides positive

theorem hits_append_perm (k : ℕ) (pushes more : List (Push H)) :
    (hits c [(k, pushes ++ more)]).Perm (hits c [(k, pushes)] ++ hits c [(k, more)]) := by
  have updates : updateHits c [(k, pushes ++ more)] = updateHits c [(k, pushes)] ++ updateHits c [(k, more)] := by
    simp [updateHits]
  have rows : rowHits c [(k, pushes ++ more)] = rowHits c [(k, pushes)] ++ rowHits c [(k, more)] := by
    simp [rowHits]
  rw [hits, hits, hits, updates, rows, List.append_assoc, List.append_assoc]
  refine .append_left _ ?_
  rw [← List.append_assoc, ← List.append_assoc]
  exact .append_right _ List.perm_append_comm

end Push

namespace BucketArray

theorem Holds.lowered {BA : BucketArray H} (holds : BA.Holds slices) (inside : b < BA.nBucket) (logB : ℕ) :
    BA.lowered logB b = .ok (Push.lowered logB b slices) := by
  rw [BucketArray.lowered, holds.eachUpdate inside, holds.rows]
  rfl

theorem Holds.downsort {BA : BucketArray ShortHint} {slices : List (ℕ × List (Push ShortHint))}
    (holds : BA.Holds slices)
    (inside : b < BA.nBucket) (logB : ℕ) (out : BucketArray LongHint) :
    downsort logB b out BA = .ok (out.pushSlice (0, Push.lowered logB b slices)) := by
  rw [BucketArray.downsort, holds.lowered inside]
  rfl

theorem Holds.downsortLong {BA : BucketArray LongHint} {pushes : List (Push LongHint)} {k : ℕ}
    (holds : BA.Holds [(k, pushes)])
    (inside : b < BA.nBucket) (logB : ℕ) (out : BucketArray LongHint) :
    downsortLong logB b out BA = .ok ((Push.lowered logB b [(k, pushes)]).foldl push out) := by
  have one : BA.sliceIndex.length = 1 := by rw [holds.index]; rfl
  rw [BucketArray.downsortLong, if_pos one, holds.lowered inside]
  rfl

def eachArray (f : BucketArray LongHint → BucketArray H → Except Stop (BucketArray LongHint)) :
    List (BucketArray LongHint) → List (BucketArray H) → Except Stop (List (BucketArray LongHint))
  | out :: BA_outs, BA :: BA_ins => do
    let out ← f out BA
    let BA_outs ← eachArray f BA_outs BA_ins
    pure (out :: BA_outs)
  | [], [] => .ok []
  | _, _ => .error .assertion

end BucketArray

end CadoNfs.Sieve

/-!
# From the buckets to the regions

`downsort_tree` of `sieve/las-fill-in-buckets.cpp` goes down the levels of the buckets: each bucket of a level is the
area that the buckets of the level below divide.
-/

namespace CadoNfs.Sieve

/-- What the siever finds in the area of its arrays: `x` is a position in the area. -/
inductive Hit
  | update (u : BucketUpdate ShortHint)
  | row (ru : BucketRowUpdate ShortHint)
  deriving DecidableEq

/-- The bucket sieve of one side. What is found, and what is left in an array from earlier, may depend on the level
and the area. -/
structure BucketSieve where
  logBucketRegion : ℕ
  logBucketRegionStep : ℕ
  toplevel : ℕ
  logA : ℕ
  avx2 : Bool
  useSmallsetPurge : Bool
  shorts : ℕ → ℕ → List (BucketArray ShortHint × List (ℕ × List Hit))
  longs : ℕ → ℕ → List (BucketArray LongHint)
  sieveArray : ℕ → ℕ → ℕ
  survivors : ℕ → List ℕ

namespace BucketSieve

variable (s : BucketSieve)

def logB (level : ℕ) : ℕ := s.logBucketRegion + (level - 1) * s.logBucketRegionStep

def bucketRegion (level : ℕ) : ℕ := 2 ^ s.logB level

def above : ℕ → ℕ
  | 0 => 2 ^ s.logA
  | d + 1 =>
    let region := s.bucketRegion (s.toplevel - d)
    if 1 < (above d + region - 1) / region then region else above d

def nbBuckets (level : ℕ) : ℕ := (s.above (s.toplevel - level) + s.bucketRegion level - 1) / s.bucketRegion level

def brIndex (level x : ℕ) : ℕ := x % s.bucketRegion level % 2 ^ if level = 1 then 16 else 32

def push (level : ℕ) : Hit → Push ShortHint
  | .update u => .update (u.x / s.bucketRegion level) ⟨s.brIndex level u.x, u.hint⟩
  | .row ru => .row (ru.x / s.bucketRegion level) { ru with x := s.brIndex level ru.x }

def pushes (level : ℕ) (found : List (ℕ × List Hit)) : List (ℕ × List (Push ShortHint)) :=
  found.map fun slice => (slice.1, slice.2.map (s.push level))

def fillInBuckets (level N : ℕ) : List (BucketArray ShortHint) :=
  (s.shorts level N).map fun (BA, found) => (s.pushes level found).foldl BucketArray.pushSlice BA.resetPointers

-- What was downsorted to the level above is added; there is nothing of it at the toplevel.
def downsortTo (level bucketIndex N : ℕ) (shorts : List (BucketArray ShortHint)) (longs : List (BucketArray LongHint)) :
    Except Stop (List (BucketArray LongHint)) := do
  let BA_outs ← BucketArray.eachArray (BucketArray.downsort (s.logB level) bucketIndex)
    ((s.longs level N).map BucketArray.resetPointers) shorts
  if level + 1 < s.toplevel then BucketArray.eachArray (BucketArray.downsortLong (s.logB level) bucketIndex) BA_outs longs
  else pure BA_outs

def checkBucketsMaxFull (shorts : List (BucketArray ShortHint)) (longs : List (BucketArray LongHint)) :
    Except Stop Unit :=
  if (∃ BA ∈ shorts, BA.Full) ∨ ∃ BA ∈ longs, BA.Full then .error .bucketsAreFull else .ok ()

def itemsPerSize : ℕ := if s.avx2 then 16 else 8

def purgeBuckets (shorts : List (BucketArray ShortHint)) (longs : List (BucketArray LongHint)) (i M : ℕ) :
    Except Stop (List (BucketUpdate LongHint)) := do
  let purged ← shorts.mapM fun BA =>
    if s.useSmallsetPurge then BA.purgeSurvivors i s.itemsPerSize (s.sieveArray M) (s.survivors M)
    else BA.purge i (s.sieveArray M)
  let downsorted ← longs.mapM fun BA => BA.purge i (s.sieveArray M)
  pure ((purged.flatten ++ downsorted.flatten).insertionSort fun u v => u.x ≤ v.x)

def regionStep (level : ℕ) : ℕ := s.bucketRegion level / s.bucketRegion 1

/-- The way down to a region: the bucket that is taken at each level, from the toplevel on. A full
bucket ends it. -/
def downsortTree : List ℕ → List (BucketArray ShortHint) → List (BucketArray LongHint) → ℕ →
  Except Stop (List (BucketUpdate LongHint))
  | [], _, _, _ => .error .assertion
  | [i], shorts, longs, N => s.purgeBuckets shorts longs i (N + i)
  | b :: c :: path, shorts, longs, N => do
    let level := path.length + 1
    let N := N + b * s.regionStep (level + 1)
    let longs ← s.downsortTo level b N shorts longs
    let shorts := s.fillInBuckets level N
    checkBucketsMaxFull shorts longs
    downsortTree (c :: path) shorts longs N

def processRegion (path : List ℕ) : Except Stop (List (BucketUpdate LongHint)) := do
  let shorts := s.fillInBuckets s.toplevel 0
  checkBucketsMaxFull shorts []
  s.downsortTree path shorts [] 0

end BucketSieve

end CadoNfs.Sieve
