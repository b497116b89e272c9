import CadoNfs.Lib.ExceptRun
import Mathlib

/-!
# The bucket arrays of the siever

`bucket_array_t` of `sieve/bucket.hpp`.
-/

namespace CadoNfs.Sieve

open Lib

structure ShortHint where
  hint : ℕ
  deriving DecidableEq

structure LongHint where
  sliceIndex : ℕ
  hint : ℕ
  deriving DecidableEq

class Hint (H : Type) where
  toLongHint : H → ℕ → LongHint

instance : Hint ShortHint := ⟨fun h sliceIndex => ⟨sliceIndex, h.hint⟩⟩

instance : Hint LongHint := ⟨fun h _ => h⟩

structure BucketUpdate (H : Type) where
  x : ℕ
  hint : H
  deriving DecidableEq

/-- The `n + 1` updates from `x` on, `inc` apart. -/
structure BucketRowUpdate (H : Type) extends BucketUpdate H where
  sliceIndex : ℕ
  inc : ℕ
  n : ℕ
  deriving DecidableEq

/-- What ends a run before its result: an `ASSERT_ALWAYS`, or the exception `buckets_are_full`. -/
inductive Stop
  | assertion
  | bucketsAreFull
  deriving DecidableEq

/-- Pointers are indices into `bigData`. The starts are spread over it in order. -/
structure BucketArray (H : Type) where
  nBucket : ℕ
  bucketStart : ℕ → ℕ
  bucketWrite : ℕ → ℕ
  bigData : ℕ → BucketUpdate H
  sliceIndex : List ℕ
  sliceStart : List (ℕ → ℕ)
  rowUpdates : ℕ → List (BucketRowUpdate H)
  spread : Monotone bucketStart

inductive Push (H : Type)
  | update (i : ℕ) (u : BucketUpdate H)
  | row (i : ℕ) (ru : BucketRowUpdate H)

namespace Push

variable {H : Type}

def bucket : Push H → ℕ
  | update i _ => i
  | row i _ => i

def updatesOf (i : ℕ) (pushes : List (Push H)) : List (BucketUpdate H) :=
  pushes.filterMap fun
    | update b u => if b = i then some u else none
    | row _ _ => none

def rowsOf (i : ℕ) (pushes : List (Push H)) : List (BucketRowUpdate H) :=
  pushes.filterMap fun
    | update _ _ => none
    | row b ru => if b = i then some ru else none

variable {i b : ℕ} {u : BucketUpdate H} {ru : BucketRowUpdate H} {pushes more : List (Push H)}

@[simp] theorem updatesOf_nil : updatesOf i ([] : List (Push H)) = [] := rfl

@[simp] theorem rowsOf_nil : rowsOf i ([] : List (Push H)) = [] := rfl

@[simp] theorem updatesOf_append : updatesOf i (pushes ++ more) = updatesOf i pushes ++ updatesOf i more :=
  List.filterMap_append

@[simp] theorem rowsOf_append : rowsOf i (pushes ++ more) = rowsOf i pushes ++ rowsOf i more :=
  List.filterMap_append

theorem updatesOf_update : updatesOf i (update b u :: pushes) = (if b = i then [u] else []) ++ updatesOf i pushes := by
  by_cases same : b = i <;> simp [updatesOf, same]

@[simp] theorem updatesOf_row : updatesOf i (row b ru :: pushes) = updatesOf i pushes := rfl

@[simp] theorem rowsOf_update : rowsOf i (update b u :: pushes) = rowsOf i pushes := rfl

theorem rowsOf_row : rowsOf i (row b ru :: pushes) = (if b = i then [ru] else []) ++ rowsOf i pushes := by
  by_cases same : b = i <;> simp [rowsOf, same]

end Push

namespace BucketArray

variable {H : Type} (BA : BucketArray H)

def resetPointers : BucketArray H :=
  { BA with bucketWrite := BA.bucketStart, sliceIndex := [], sliceStart := [], rowUpdates := fun _ => [] }

def addSliceIndex (newSliceIndex : ℕ) : BucketArray H :=
  { BA with sliceStart := BA.sliceStart ++ [BA.bucketWrite], sliceIndex := BA.sliceIndex ++ [newSliceIndex] }

def pushUpdate (i : ℕ) (u : BucketUpdate H) : BucketArray H :=
  { BA with
    bigData := Function.update BA.bigData (BA.bucketWrite i) u
    bucketWrite := Function.update BA.bucketWrite i (BA.bucketWrite i + 1) }

def pushRowUpdate (i : ℕ) (ru : BucketRowUpdate H) : BucketArray H :=
  { BA with rowUpdates := Function.update BA.rowUpdates i (BA.rowUpdates i ++ [ru]) }

def push : Push H → BucketArray H
  | .update i u => BA.pushUpdate i u
  | .row i ru => BA.pushRowUpdate i ru

/-- `slice_range`: the first slice must start at the start of the bucket. -/
def sliceRange (i iSlice : ℕ) : Except Stop (List (BucketUpdate H)) :=
  let first := BA.sliceStart.getD iSlice BA.bucketWrite i
  let last := BA.sliceStart.getD (iSlice + 1) BA.bucketWrite i
  if iSlice ≠ 0 ∨ first = BA.bucketStart i then .ok ((List.range' first (last - first)).map BA.bigData)
  else .error .assertion

def eachUpdate (i : ℕ) : Except Stop (List (ℕ × BucketUpdate H)) := do
  let slices ← BA.sliceIndex.zipIdx.mapM fun (sliceIndex, iSlice) => do
    let range ← BA.sliceRange i iSlice
    pure (range.map (sliceIndex, ·))
  pure slices.flatten

def Full : Prop := ∃ i < BA.nBucket, BA.bucketStart (i + 1) < BA.bucketWrite i

instance : Decidable BA.Full := inferInstanceAs (Decidable (∃ i < _, _))

def pushSlice (slice : ℕ × List (Push H)) : BucketArray H :=
  slice.2.foldl push (BA.addSliceIndex slice.1)

/-! ## What the pointers stand for -/

def stored (i : ℕ) : List (BucketUpdate H) :=
  (List.range' (BA.bucketStart i) (BA.bucketWrite i - BA.bucketStart i)).map BA.bigData

variable {BA} {i b : ℕ} {u : BucketUpdate H} {pushes : List (Push H)} {slices : List (ℕ × List (Push H))}

theorem push_frame (p : Push H) : (BA.push p).nBucket = BA.nBucket ∧ (BA.push p).bucketStart = BA.bucketStart ∧
    (BA.push p).sliceIndex = BA.sliceIndex ∧ (BA.push p).sliceStart = BA.sliceStart := by
  cases p <;> exact ⟨rfl, rfl, rfl, rfl⟩

theorem foldl_push_frame (pushes : List (Push H)) : (pushes.foldl push BA).nBucket = BA.nBucket ∧
    (pushes.foldl push BA).bucketStart = BA.bucketStart ∧ (pushes.foldl push BA).sliceIndex = BA.sliceIndex ∧
    (pushes.foldl push BA).sliceStart = BA.sliceStart := by
  induction pushes generalizing BA with
  | nil => exact ⟨rfl, rfl, rfl, rfl⟩
  | cons p pushes ih =>
    obtain ⟨buckets, start, index, starts⟩ := @push_frame H BA p
    rw [List.foldl_cons]
    obtain ⟨buckets', start', index', starts'⟩ := @ih (BA.push p)
    exact ⟨buckets'.trans buckets, start'.trans start, index'.trans index, starts'.trans starts⟩

theorem foldl_push_write (pushes : List (Push H)) :
    (pushes.foldl push BA).bucketWrite i = BA.bucketWrite i + (Push.updatesOf i pushes).length := by
  induction pushes generalizing BA with
  | nil => rfl
  | cons p pushes ih =>
    rw [List.foldl_cons, ih]
    cases p with
    | update b u =>
      rw [Push.updatesOf_update]
      by_cases same : b = i
      · subst same
        simp [push, pushUpdate]
        omega
      · simp [push, pushUpdate, same, Ne.symm same]
    | row b ru => rfl

theorem foldl_push_rowUpdates (pushes : List (Push H)) :
    (pushes.foldl push BA).rowUpdates i = BA.rowUpdates i ++ Push.rowsOf i pushes := by
  induction pushes generalizing BA with
  | nil => simp
  | cons p pushes ih =>
    rw [List.foldl_cons, ih]
    cases p with
    | update b u => rfl
    | row b ru =>
      rw [Push.rowsOf_row]
      by_cases same : b = i
      · subst same
        simp [push, pushRowUpdate]
      · simp [push, pushRowUpdate, same, Ne.symm same]

theorem stored_pushUpdate (behind : ∀ i, BA.bucketStart i ≤ BA.bucketWrite i) (inside : i < BA.nBucket)
    (inside' : b < BA.nBucket)
    (fits : ¬ (BA.pushUpdate b u).Full) :
    (BA.pushUpdate b u).stored i = BA.stored i ++ if b = i then [u] else [] := by
  have room (k : ℕ) (lt : k < BA.nBucket) : (BA.pushUpdate b u).bucketWrite k ≤ BA.bucketStart (k + 1) :=
    not_lt.mp fun full => fits ⟨k, lt, full⟩
  have below := behind i
  by_cases same : b = i
  · subst same
    have length : BA.bucketWrite b + 1 - BA.bucketStart b = BA.bucketWrite b - BA.bucketStart b + 1 := by omega
    have last : BA.bucketStart b + (BA.bucketWrite b - BA.bucketStart b) = BA.bucketWrite b := by omega
    rw [if_pos rfl, stored, stored]
    simp only [pushUpdate, Function.update_self, length, List.range'_concat, one_mul, last, List.map_append,
      List.map_cons, List.map_nil]
    congr 1
    refine List.map_congr_left fun k member => Function.update_of_ne ?_ ..
    have bounds := List.mem_range'_1.mp member
    omega
  · have room_i := room i inside
    have room_b := room b inside'
    have below_b := behind b
    simp only [pushUpdate, Function.update_self, Function.update_of_ne (Ne.symm same)] at room_i room_b
    rw [if_neg same, List.append_nil, stored, stored]
    simp only [pushUpdate, Function.update_of_ne (Ne.symm same)]
    refine List.map_congr_left fun k member => Function.update_of_ne ?_ ..
    have bounds := List.mem_range'_1.mp member
    rcases Nat.lt_or_gt_of_ne same with before | after
    · have apart := BA.spread (show b + 1 ≤ i from before)
      omega
    · have apart := BA.spread (show i + 1 ≤ b from after)
      omega

theorem Full.foldl_push (full : BA.Full) (pushes : List (Push H)) : (pushes.foldl push BA).Full := by
  obtain ⟨i, inside, past⟩ := full
  obtain ⟨buckets, start, -, -⟩ := @foldl_push_frame H BA pushes
  refine ⟨i, by rwa [buckets], ?_⟩
  rw [start, foldl_push_write]
  exact Nat.lt_add_right _ past

theorem foldl_push_stored (behind : ∀ i, BA.bucketStart i ≤ BA.bucketWrite i) (inside : i < BA.nBucket)
    (known : ∀ p ∈ pushes, p.bucket < BA.nBucket) (fits : ¬ (pushes.foldl push BA).Full) :
    (pushes.foldl push BA).stored i = BA.stored i ++ Push.updatesOf i pushes := by
  induction pushes generalizing BA with
  | nil => simp
  | cons p pushes ih =>
    obtain ⟨first, rest⟩ := List.forall_mem_cons.mp known
    obtain ⟨buckets, start, -, -⟩ := @push_frame H BA p
    have fits' : ¬ (BA.push p).Full := fun full => fits (full.foldl_push pushes)
    have behind' (k : ℕ) : (BA.push p).bucketStart k ≤ (BA.push p).bucketWrite k := by
      have write := @foldl_push_write H BA k [p]
      rw [List.foldl_cons, List.foldl_nil] at write
      rw [start, write]
      exact Nat.le_add_right_of_le (behind k)
    rw [List.foldl_cons, ih behind' (by rwa [buckets]) (by rwa [buckets]) fits]
    cases p with
    | update b u =>
      have first : b < BA.nBucket := first
      rw [push, stored_pushUpdate behind inside first fits', Push.updatesOf_update, List.append_assoc]
    | row b ru => rfl

structure Holds (BA : BucketArray H) (slices : List (ℕ × List (Push H))) : Prop where
  index : BA.sliceIndex = slices.map Prod.fst
  starts : BA.sliceStart = (List.range slices.length).map fun s i =>
    BA.bucketStart i + (Push.updatesOf i ((slices.take s).flatMap Prod.snd)).length
  write (i : ℕ) : BA.bucketWrite i = BA.bucketStart i + (Push.updatesOf i (slices.flatMap Prod.snd)).length
  stored (i : ℕ) (inside : i < BA.nBucket) : BA.stored i = Push.updatesOf i (slices.flatMap Prod.snd)
  rows (i : ℕ) : BA.rowUpdates i = Push.rowsOf i (slices.flatMap Prod.snd)

theorem holds_resetPointers : BA.resetPointers.Holds [] where
  index := rfl
  starts := rfl
  write _ := rfl
  stored i _ := by simp [BucketArray.stored, resetPointers]
  rows _ := rfl

theorem Holds.foldl_push {slice : ℕ × List (Push H)} (holds : BA.Holds (slices ++ [slice]))
    (known : ∀ p ∈ pushes, p.bucket < BA.nBucket) (fits : ¬ (pushes.foldl push BA).Full) :
    (pushes.foldl push BA).Holds (slices ++ [(slice.1, slice.2 ++ pushes)]) := by
  obtain ⟨buckets, start, index, starts⟩ := @foldl_push_frame H BA pushes
  have all : (slices ++ [(slice.1, slice.2 ++ pushes)]).flatMap Prod.snd =
    (slices ++ [slice]).flatMap Prod.snd ++ pushes := by simp
  have behind (i : ℕ) : BA.bucketStart i ≤ BA.bucketWrite i := by
    rw [holds.write]
    exact Nat.le_add_right ..
  constructor
  · rw [index, holds.index]
    simp
  · rw [starts, holds.starts, start]
    simp only [List.length_append, List.length_singleton]
    refine List.map_congr_left fun s member => ?_
    have le : s ≤ slices.length := Nat.lt_succ_iff.mp (List.mem_range.mp member)
    rw [List.take_append_of_le_length le, List.take_append_of_le_length le]
  · intro i
    rw [foldl_push_write, holds.write, start, all, Push.updatesOf_append, List.length_append, Nat.add_assoc]
  · intro i inside
    rw [buckets] at inside
    rw [foldl_push_stored behind inside known fits, holds.stored i inside, all, Push.updatesOf_append]
  · intro i
    rw [foldl_push_rowUpdates, holds.rows, all, Push.rowsOf_append]

theorem Holds.addSliceIndex (holds : BA.Holds slices) (index : ℕ) :
    (BA.addSliceIndex index).Holds (slices ++ [(index, [])]) := by
  have all : (slices ++ [(index, ([] : List (Push H)))]).flatMap Prod.snd = slices.flatMap Prod.snd := by simp
  constructor
  · simp [BucketArray.addSliceIndex, holds.index]
  · change BA.sliceStart ++ [BA.bucketWrite] = (List.range (slices ++ [(index, [])]).length).map fun s i =>
      BA.bucketStart i + (Push.updatesOf i (((slices ++ [(index, [])]).take s).flatMap Prod.snd)).length
    rw [holds.starts, List.length_append, List.length_singleton, List.range_succ, List.map_append]
    congr 1
    · refine List.map_congr_left fun s member => ?_
      rw [List.take_append_of_le_length (List.mem_range.mp member).le]
    · rw [List.map_singleton, List.take_left' rfl]
      congr 1
      funext i
      exact holds.write i
  · intro i
    rw [all]
    exact holds.write i
  · intro i inside
    rw [all]
    exact holds.stored i inside
  · intro i
    rw [all]
    exact holds.rows i

theorem Holds.pushSlice {slice : ℕ × List (Push H)} (holds : BA.Holds slices)
    (known : ∀ p ∈ slice.2, p.bucket < BA.nBucket)
    (fits : ¬ (BA.pushSlice slice).Full) : (BA.pushSlice slice).Holds (slices ++ [slice]) :=
  (holds.addSliceIndex slice.1).foldl_push known fits

theorem Full.foldl_pushSlice (full : BA.Full) (slices : List (ℕ × List (Push H))) :
    (slices.foldl pushSlice BA).Full := by
  induction slices generalizing BA with
  | nil => exact full
  | cons slice slices ih => exact ih (@Full.foldl_push H (BA.addSliceIndex slice.1) full slice.2)

theorem foldl_pushSlice_nBucket (slices : List (ℕ × List (Push H))) :
    (slices.foldl pushSlice BA).nBucket = BA.nBucket := by
  induction slices generalizing BA with
  | nil => rfl
  | cons slice slices ih => exact ih.trans (foldl_push_frame slice.2).1

theorem Holds.foldl_pushSlice {more : List (ℕ × List (Push H))} (holds : BA.Holds slices)
    (known : ∀ slice ∈ more, ∀ p ∈ slice.2, p.bucket < BA.nBucket)
      (fits : ¬ (more.foldl BucketArray.pushSlice BA).Full) :
    (more.foldl BucketArray.pushSlice BA).Holds (slices ++ more) := by
  induction more generalizing BA slices with
  | nil => simpa using holds
  | cons slice more ih =>
    obtain ⟨first, rest⟩ := List.forall_mem_cons.mp known
    have buckets : (BA.pushSlice slice).nBucket = BA.nBucket := (foldl_push_frame slice.2).1
    have fits' : ¬ (BA.pushSlice slice).Full := fun full => fits (full.foldl_pushSlice more)
    have all := ih (holds.pushSlice first fits') (by rwa [buckets]) fits
    rwa [List.append_assoc] at all

theorem Holds.pointer (holds : BA.Holds slices) {s : ℕ} (le : s ≤ slices.length) :
    BA.sliceStart.getD s BA.bucketWrite i =
      BA.bucketStart i + (Push.updatesOf i ((slices.take s).flatMap Prod.snd)).length := by
  rw [holds.starts]
  rcases Nat.lt_or_eq_of_le le with lt | rfl
  · rw [List.getD_eq_getElem _ _ (by simpa using lt)]
    simp
  · rw [List.getD_eq_default _ _ (by simp), holds.write, List.take_length]

theorem Holds.sliceRange {before after : List (ℕ × List (Push H))} {slice : ℕ × List (Push H)}
    (holds : BA.Holds (before ++ slice :: after)) (inside : i < BA.nBucket) :
    BA.sliceRange i before.length = .ok (Push.updatesOf i slice.2) := by
  have first := holds.pointer (i := i) (s := before.length) (by simp)
  have last := holds.pointer (i := i) (s := before.length + 1) (by simp)
  have upTo : (before ++ slice :: after).take (before.length + 1) = before ++ [slice] := by
    rw [List.take_length_add_append]
    rfl
  rw [List.take_left' rfl] at first
  rw [upTo, List.flatMap_append, List.flatMap_singleton, Push.updatesOf_append, List.length_append] at last
  have asserted : before.length ≠ 0 ∨ BA.sliceStart.getD before.length BA.bucketWrite i = BA.bucketStart i := by
    rcases before with - | ⟨b, before⟩
    · exact .inr first
    · exact .inl (Nat.succ_ne_zero _)
  have length : BA.sliceStart.getD
    (before.length + 1) BA.bucketWrite i - BA.sliceStart.getD before.length BA.bucketWrite i =
      (Push.updatesOf i slice.2).length := by omega
  have all := holds.stored i inside
  rw [BucketArray.stored, holds.write, Nat.add_sub_cancel_left, List.flatMap_append, List.flatMap_cons,
    Push.updatesOf_append,
    Push.updatesOf_append, List.length_append, List.length_append, ← List.range'_append_1, ← List.range'_append_1,
    List.map_append, List.map_append] at all
  have rest := List.append_inj_right all (by simp)
  have here := List.append_inj_left rest (by simp)
  rw [BucketArray.sliceRange, if_pos asserted, length, first, here]

theorem Holds.eachUpdate (holds : BA.Holds slices) (inside : i < BA.nBucket) :
    BA.eachUpdate i = .ok (slices.flatMap fun slice => (Push.updatesOf i slice.2).map (slice.1, ·)) := by
  have ranges : (BA.sliceIndex.zipIdx.mapM fun (sliceIndex, iSlice) => do
      let range ← BA.sliceRange i iSlice
      pure (range.map (sliceIndex, ·))) =
        .ok (slices.map fun slice => (Push.updatesOf i slice.2).map (slice.1, ·)) := by
    rw [holds.index, List.zipIdx_map, List.mapM_map]
    have indexed : slices.map (fun slice => (Push.updatesOf i slice.2).map (slice.1, ·)) =
        slices.zipIdx.map fun (slice, _) => (Push.updatesOf i slice.2).map (slice.1, ·) := by
      conv_lhs => rw [← List.zipIdx_map_fst 0 slices, List.map_map]
      rfl
    rw [indexed]
    apply mapM_ok
    rintro ⟨slice, s⟩ member
    obtain ⟨lt, at_⟩ := List.mem_zipIdx' member
    have split : slices = slices.take s ++ slice :: slices.drop (s + 1) := by
      rw [at_, ← List.drop_eq_getElem_cons lt, List.take_append_drop]
    have length : (slices.take s).length = s := by
      rw [List.length_take]
      exact min_eq_left (Nat.le_of_lt lt)
    rw [split] at holds
    have range := holds.sliceRange inside
    rw [length] at range
    change (BA.sliceRange i s >>= fun range => pure (range.map (slice.1, ·))) = _
    rw [range]
    rfl
  rw [BucketArray.eachUpdate, ranges]
  rfl

end BucketArray

end CadoNfs.Sieve
