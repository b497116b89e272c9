import Mathlib.Logic.Equiv.Basic
import Mathlib.Order.Nat

/-!
# Two arrays that are each other's inverse

A list of items and the places of the items in it, kept as two arrays. An item is taken out of the list, items move into
the hole, and the item fills the hole that is left; the list stays sorted when each move takes the first of a group of
equals.
-/

namespace CadoNfs.Lib

open Function

/-- On the indices from `lo` up to `n` the arrays are inverse permutations. -/
structure Inverse (lo n : ℕ) (f g : ℕ → ℕ) : Prop where
  fwd : ∀ p, lo ≤ p → p < n → lo ≤ f p ∧ f p < n ∧ g (f p) = p
  bwd : ∀ r, lo ≤ r → r < n → lo ≤ g r ∧ g r < n ∧ f (g r) = r

/-- The same but for the place `hole`, which holds no item, and the item `out`, which has no place. -/
structure Hollow (lo n : ℕ) (f g : ℕ → ℕ) (hole out : ℕ) : Prop where
  hole_mem : lo ≤ hole ∧ hole < n
  out_mem : lo ≤ out ∧ out < n
  fwd : ∀ p, lo ≤ p → p < n → p ≠ hole → lo ≤ f p ∧ f p < n ∧ f p ≠ out ∧ g (f p) = p
  bwd : ∀ r, lo ≤ r → r < n → r ≠ out → lo ≤ g r ∧ g r < n ∧ g r ≠ hole ∧ f (g r) = r

variable {lo n : ℕ} {f g f' g' : ℕ → ℕ} {hole out : ℕ}

theorem Inverse.congr (inverse : Inverse lo n f g) (same : ∀ p, lo ≤ p → p < n → f' p = f p)
    (same' : ∀ r, lo ≤ r → r < n → g' r = g r) : Inverse lo n f' g' where
  fwd p low high := by
    obtain ⟨above, below, back⟩ := inverse.fwd p low high
    rw [same p low high, same' (f p) above below]
    exact ⟨above, below, back⟩
  bwd r low high := by
    obtain ⟨above, below, back⟩ := inverse.bwd r low high
    rw [same' r low high, same (g r) above below]
    exact ⟨above, below, back⟩

theorem Hollow.congr (hollow : Hollow lo n f g hole out) (same : ∀ p, lo ≤ p → p < n → p ≠ hole → f' p = f p)
    (same' : ∀ r, lo ≤ r → r < n → r ≠ out → g' r = g r) : Hollow lo n f' g' hole out where
  hole_mem := hollow.hole_mem
  out_mem := hollow.out_mem
  fwd p low high other := by
    obtain ⟨above, below, apart, back⟩ := hollow.fwd p low high other
    rw [same p low high other, same' (f p) above below apart]
    exact ⟨above, below, apart, back⟩
  bwd r low high other := by
    obtain ⟨above, below, apart, back⟩ := hollow.bwd r low high other
    rw [same' r low high other, same (g r) above below apart]
    exact ⟨above, below, apart, back⟩

theorem Inverse.swap (inverse : Inverse lo n f g) {a b : ℕ} (a_mem : lo ≤ a ∧ a < n) (b_mem : lo ≤ b ∧ b < n) :
    Inverse lo n (fun p => Equiv.swap a b (f p)) (fun r => g (Equiv.swap a b r)) := by
  have inside : ∀ r, lo ≤ r → r < n → lo ≤ Equiv.swap a b r ∧ Equiv.swap a b r < n := by
    intro r low high
    rw [Equiv.swap_apply_def]
    split_ifs
    · exact b_mem
    · exact a_mem
    · exact ⟨low, high⟩
  constructor
  · intro p low high
    obtain ⟨above, below, back⟩ := inverse.fwd p low high
    obtain ⟨above', below'⟩ := inside (f p) above below
    exact ⟨above', below', by rw [Equiv.swap_apply_self, back]⟩
  · intro r low high
    obtain ⟨above, below⟩ := inside r low high
    obtain ⟨above', below', back⟩ := inverse.bwd _ above below
    exact ⟨above', below', by rw [back, Equiv.swap_apply_self]⟩

theorem Inverse.tail (inverse : Inverse lo n f g) (bound : lo < n) (first : f lo = lo) : Inverse (lo + 1) n f g := by
  have first' : g lo = lo := by
    have back := (inverse.fwd lo le_rfl bound).2.2
    rwa [first] at back
  constructor
  · intro p low high
    obtain ⟨above, below, back⟩ := inverse.fwd p (by omega) high
    have apart : f p ≠ lo := fun same => by
      rw [same, first'] at back
      omega
    exact ⟨by omega, below, back⟩
  · intro r low high
    obtain ⟨above, below, back⟩ := inverse.bwd r (by omega) high
    have apart : g r ≠ lo := fun same => by
      rw [same, first] at back
      omega
    exact ⟨by omega, below, back⟩

theorem Inverse.hollow (inverse : Inverse lo n f g) {p : ℕ} (low : lo < p) (high : p < n) (first : f p = lo) :
    Hollow (lo + 1) n f g p (f lo) := by
  have place : g lo = p := by
    have back := (inverse.fwd p low.le high).2.2
    rwa [first] at back
  obtain ⟨above, below, back⟩ := inverse.fwd lo le_rfl (low.trans high)
  have apart : f lo ≠ lo := fun same => by
    rw [same, place] at back
    omega
  refine ⟨⟨low, high⟩, ⟨by omega, below⟩, fun q low' high' other => ?_, fun r low' high' other => ?_⟩
  · obtain ⟨above', below', back'⟩ := inverse.fwd q (by omega) high'
    have not_first : f q ≠ lo := fun same => by
      rw [same, place] at back'
      exact other back'.symm
    have not_out : f q ≠ f lo := fun same => by
      rw [same, back] at back'
      omega
    exact ⟨by omega, below', not_out, back'⟩
  · obtain ⟨above', below', back'⟩ := inverse.bwd r (by omega) high'
    have not_first : g r ≠ lo := fun same => by
      rw [same] at back'
      exact other back'.symm
    have not_hole : g r ≠ p := fun same => by
      rw [same, first] at back'
      omega
    exact ⟨by omega, below', not_hole, back'⟩

theorem Hollow.move (hollow : Hollow lo n f g hole out) {s : ℕ} (low : lo ≤ s) (high : s < n) (apart : s ≠ hole) :
    Hollow lo n (update f hole (f s)) (update g (f s) hole) s out := by
  obtain ⟨above, below, not_out, back⟩ := hollow.fwd s low high apart
  refine ⟨⟨low, high⟩, hollow.out_mem, fun p low' high' other => ?_, fun r low' high' other => ?_⟩
  · by_cases here : p = hole
    · rw [here, update_self, update_self]
      exact ⟨above, below, not_out, rfl⟩
    · obtain ⟨above', below', not_out', back'⟩ := hollow.fwd p low' high' here
      have differs : f p ≠ f s := fun same => other (by rw [← back', same, back])
      rw [update_of_ne here, update_of_ne differs]
      exact ⟨above', below', not_out', back'⟩
  · by_cases here : r = f s
    · rw [here, update_self, update_self]
      exact ⟨hollow.hole_mem.1, hollow.hole_mem.2, apart.symm, rfl⟩
    · obtain ⟨above', below', not_hole, back'⟩ := hollow.bwd r low' high' other
      have differs : g r ≠ s := fun same => here (by rw [← back', same])
      rw [update_of_ne here, update_of_ne not_hole]
      exact ⟨above', below', differs, back'⟩

theorem Hollow.fill (hollow : Hollow lo n f g hole out) : Inverse lo n (update f hole out) (update g out hole) := by
  constructor
  · intro p low high
    by_cases here : p = hole
    · rw [here, update_self, update_self]
      exact ⟨hollow.out_mem.1, hollow.out_mem.2, rfl⟩
    · obtain ⟨above, below, not_out, back⟩ := hollow.fwd p low high here
      rw [update_of_ne here, update_of_ne not_out]
      exact ⟨above, below, back⟩
  · intro r low high
    by_cases here : r = out
    · rw [here, update_self, update_self]
      exact ⟨hollow.hole_mem.1, hollow.hole_mem.2, rfl⟩
    · obtain ⟨above, below, not_hole, back⟩ := hollow.bwd r low high here
      rw [update_of_ne here, update_of_ne not_hole]
      exact ⟨above, below, back⟩

section Sorted
variable {α : Type*} {W : ℕ → α}

def Groups (W : ℕ → α) (w : α) (a : ℕ) : ℕ → List ℕ → Prop
  | hole, [] => ∀ p, a < p → p < hole → W p = w
  | hole, s :: rest => a < s ∧ s < hole ∧ (∀ p, s ≤ p → p < hole → W p = W s) ∧ Groups W w a s rest

def lastGroup (W : ℕ → α) (w : α) : List ℕ → α
  | [] => w
  | s :: _ => W s

theorem Groups.extend {w : α} {a : ℕ} {starts : List ℕ} (groups : Groups W w a hole starts)
    (same : W hole = lastGroup W w starts) : Groups W w a (hole + 1) starts := by
  cases starts with
  | nil =>
    intro p low high
    by_cases here : p = hole
    · rw [here, same, lastGroup]
    · exact groups p low (by omega)
  | cons s rest =>
    obtain ⟨low, high, group, groups⟩ := groups
    refine ⟨low, by omega, fun p above below => ?_, groups⟩
    by_cases here : p = hole
    · rw [here, same, lastGroup]
    · exact group p above (by omega)

theorem Groups.push {w : α} {a : ℕ} {starts : List ℕ} (groups : Groups W w a hole starts) (low : a < hole) :
    Groups W w a (hole + 1) (hole :: starts) := by
  refine ⟨low, Nat.lt_succ_self hole, fun p above below => ?_, groups⟩
  rw [show p = hole by omega]

theorem Groups.congr {W' : ℕ → α} {w : α} {a : ℕ} {starts : List ℕ} (groups : Groups W w a hole starts)
    (same : ∀ p, a < p → p < hole → W' p = W p) : Groups W' w a hole starts := by
  induction starts generalizing hole with
  | nil =>
    intro p low high
    rw [same p low high]
    exact groups p low high
  | cons s rest ih =>
    obtain ⟨low, high, group, groups⟩ := groups
    refine ⟨low, high, fun p above below => ?_, ih groups fun p above below => same p above (by omega)⟩
    rw [same p (by omega) below, same s low high]
    exact group p above below

theorem Groups.eq_nil {w : α} {a : ℕ} {starts : List ℕ} (groups : Groups W w a a starts) : starts = [] := by
  cases starts with
  | nil => rfl
  | cons s rest => exact (lt_asymm groups.1 groups.2.1).elim

variable [Preorder α]

def SortedOn (lo n : ℕ) (W : ℕ → α) : Prop := ∀ p q, lo ≤ p → p ≤ q → q < n → W p ≤ W q

structure SortedBut (lo n : ℕ) (W : ℕ → α) (hole : ℕ) (w : α) : Prop where
  sorted : ∀ p q, lo ≤ p → p ≤ q → q < n → p ≠ hole → q ≠ hole → W p ≤ W q
  least : ∀ p, lo ≤ p → p < n → p ≠ hole → w ≤ W p

theorem SortedBut.move {w : α} (sorted : SortedBut lo n W hole w) {s : ℕ} (low : lo ≤ s) (before : s < hole)
    (high : hole < n)
    (group : ∀ p, s ≤ p → p < hole → W p = W s) : SortedBut lo n (update W hole (W s)) s w := by
  refine ⟨fun p q low' le high' other_p other_q => ?_, fun p low' high' other => ?_⟩
  · by_cases here_p : p = hole <;> by_cases here_q : q = hole
    · rw [here_p, here_q]
    · rw [here_p, update_self, update_of_ne here_q]
      exact sorted.sorted s q low (by omega) high' (by omega) here_q
    · rw [here_q, update_self, update_of_ne here_p]
      by_cases early : p < s
      · exact sorted.sorted p s low' early.le (by omega) here_p (by omega)
      · exact (group p (by omega) (by omega)).le
    · rw [update_of_ne here_p, update_of_ne here_q]
      exact sorted.sorted p q low' le high' here_p here_q
  · by_cases here : p = hole
    · rw [here, update_self]
      exact sorted.least s low (by omega) (by omega)
    · rw [update_of_ne here]
      exact sorted.least p low' high' here

theorem SortedBut.fill {w : α} (sorted : SortedBut lo n W hole w) (group : ∀ p, lo ≤ p → p < hole → W p = w) :
    SortedOn lo n (update W hole w) := by
  intro p q low le high
  by_cases here_p : p = hole <;> by_cases here_q : q = hole
  · rw [here_p, here_q]
  · rw [here_p, update_self, update_of_ne here_q]
    exact sorted.least q (by omega) high here_q
  · rw [here_q, update_self, update_of_ne here_p]
    exact (group p low (by omega)).le
  · rw [update_of_ne here_p, update_of_ne here_q]
    exact sorted.sorted p q low le high here_p here_q

end Sorted

end CadoNfs.Lib
