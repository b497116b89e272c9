import Mathlib

/-!
# Rings of memory cells

A ring of `size` cells holds a sequence from its head on, going on at cell 0 after the last one.
-/

namespace CadoNfs.Lib.Ring

variable {α : Type*} {mem mem' : ℕ → α} {size head n m k : ℕ} {data : List α}

def cell (size head i : ℕ) : ℕ :=
  if head + i < size then head + i else head + i - size

def window (mem : ℕ → α) (size head n : ℕ) : List α :=
  (List.range n).map fun i => mem (cell size head i)

def slice (mem : ℕ → α) (pos n : ℕ) : List α :=
  (List.range n).map fun i => mem (pos + i)

def copy (mem : ℕ → α) (pos : ℕ) (data : List α) : ℕ → α :=
  fun i => if h : pos ≤ i ∧ i - pos < data.length then data.get ⟨i - pos, h.2⟩ else mem i

@[simp] theorem length_window : (window mem size head n).length = n := by
  simp [window]

@[simp] theorem length_slice : (slice mem head n).length = n := by
  simp [slice]

@[simp] theorem window_zero : window mem size head 0 = [] := rfl

@[simp] theorem cell_zero (inside : head < size) : cell size head 0 = head := by
  simp [cell, inside]

theorem cell_lt (inside : head < size) (le : n ≤ size) : cell size head n < size := by
  unfold cell
  split <;> omega

theorem cell_add (inside : head < size) (le : n + m ≤ size) :
    cell size (cell size head n) m = cell size head (n + m) := by
  unfold cell
  split <;> split <;> split <;> omega

theorem cell_ne {i j : ℕ} (lt : i < j) (le : j < size) : cell size head i ≠ cell size head j := by
  unfold cell
  split <;> split <;> omega

theorem exists_cell (inside : head < size) {i : ℕ} (lt : i < size) : ∃ j < size, i = cell size head j := by
  by_cases behind : i < head
  · refine ⟨size - head + i, by omega, ?_⟩
    rw [cell, if_neg (by omega)]
    omega
  · refine ⟨i - head, by omega, ?_⟩
    rw [cell, if_pos (by omega)]
    omega

theorem window_append (inside : head < size) (le : n + m ≤ size) :
    window mem size head (n + m) = window mem size head n ++ window mem size (cell size head n) m := by
  rw [window, List.range_add, List.map_append, List.map_map]
  congr 1
  apply List.map_congr_left
  intro i member
  have lt := List.mem_range.mp member
  rw [Function.comp_apply, cell_add inside (by omega)]

theorem take_window (le : n ≤ m) : (window mem size head m).take n = window mem size head n := by
  rw [window, ← List.map_take, List.take_range, Nat.min_eq_left le, window]

theorem drop_window (inside : head < size) (le : n ≤ m) (le_size : m ≤ size) :
    (window mem size head m).drop n = window mem size (cell size head n) (m - n) := by
  obtain ⟨k, rfl⟩ := Nat.exists_eq_add_of_le le
  rw [window_append inside le_size, List.drop_left' length_window, Nat.add_sub_cancel_left]

theorem window_congr (same : ∀ i < n, mem (cell size head i) = mem' (cell size head i)) :
    window mem size head n = window mem' size head n :=
  List.map_congr_left fun i member => same i (List.mem_range.mp member)

theorem window_eq_slice (le : head + n ≤ size) : window mem size head n = slice mem head n := by
  apply List.map_congr_left
  intro i member
  have lt := List.mem_range.mp member
  rw [cell, if_pos (by omega)]

theorem window_eq_slices (inside : head < size) (wraps : size - head ≤ n) (le : n ≤ size) :
    window mem size head n = slice mem head (size - head) ++ slice mem 0 (n - (size - head)) := by
  obtain ⟨k, rfl⟩ := Nat.exists_eq_add_of_le wraps
  have wrapped : cell size head (size - head) = 0 := by
    rw [cell, if_neg (by omega)]
    omega
  rw [window_append inside le, window_eq_slice (by omega), wrapped, window_eq_slice (by omega),
    Nat.add_sub_cancel_left]

theorem getElem?_window {i : ℕ} (lt : i < n) : (window mem size head n)[i]? = some (mem (cell size head i)) := by
  rw [window, List.getElem?_map, List.getElem?_range lt, Option.map_some]

theorem copy_of_mem {i : ℕ} (lt : i < data.length) : copy mem n data (n + i) = data[i] := by
  rw [copy, dif_pos ⟨by omega, by omega⟩, List.get_eq_getElem]
  simp

theorem copy_of_notMem {i : ℕ} (out : i < n ∨ n + data.length ≤ i) : copy mem n data i = mem i := by
  rw [copy, dif_neg]
  omega

theorem slice_copy : slice (copy mem n data) n data.length = data := by
  apply List.ext_getElem length_slice
  intro i lt lt'
  simp only [slice, List.getElem_map, List.getElem_range]
  exact copy_of_mem lt'

theorem slice_congr (same : ∀ i < m, mem (n + i) = mem' (n + i)) : slice mem n m = slice mem' n m :=
  List.map_congr_left fun i member => same i (List.mem_range.mp member)

theorem slice_append : slice mem n (m + k) = slice mem n m ++ slice mem (n + m) k := by
  simp [slice, List.range_add, Function.comp_def, Nat.add_assoc]

theorem slice_copies {fst snd : List α} :
    slice (copy (copy mem 0 fst) fst.length snd) 0 (fst.length + snd.length) = fst ++ snd := by
  rw [slice_append, Nat.zero_add, slice_copy]
  congr 1
  rw [slice_congr fun i lt => copy_of_notMem (.inl (by omega)), slice_copy]

structure Stored (size head : ℕ) (data : List α) (mem mem' : ℕ → α) : Prop where
  window : window mem' size head data.length = data
  frame : ∀ j < size, data.length ≤ j → mem' (cell size head j) = mem (cell size head j)

theorem stored_copy (fits : head + data.length ≤ size) : Stored size head data mem (copy mem head data) where
  window := by rw [window_eq_slice fits, slice_copy]
  frame j lt le := by
    apply copy_of_notMem
    unfold cell
    split <;> omega

theorem stored_copies (inside : head < size) (wraps : size - head ≤ data.length) (le : data.length ≤ size) :
    Stored size head data mem (copy (copy mem head (data.take (size - head))) 0 (data.drop (size - head))) := by
  have first : (data.take (size - head)).length = size - head := by simp [wraps]
  have second : (data.drop (size - head)).length = data.length - (size - head) := by simp
  constructor
  · rw [window_eq_slices inside wraps le]
    have low : slice (copy (copy mem head (data.take (size - head))) 0 (data.drop (size - head))) head
        (size - head) = data.take (size - head) := by
      have kept : slice (copy (copy mem head (data.take (size - head))) 0 (data.drop (size - head))) head
          (size - head) = slice (copy mem head (data.take (size - head))) head (size - head) :=
        slice_congr fun i lt => copy_of_notMem (Or.inr (by rw [second]; omega))
      rw [kept]
      nth_rewrite 2 [← first]
      exact slice_copy
    rw [low, ← second, slice_copy, List.take_append_drop]
  · intro j lt le_j
    have behind : cell size head j < head ∧ data.length - (size - head) ≤ cell size head j := by
      unfold cell
      split <;> omega
    rw [copy_of_notMem (Or.inr (by omega)), copy_of_notMem (Or.inl behind.1)]

theorem Stored.append (stored : Stored size (cell size head n) data mem mem') (inside : head < size)
    (fits : n + data.length ≤ size) :
    Ring.window mem' size head (n + data.length) = Ring.window mem size head n ++ data := by
  rw [window_append inside fits, stored.window]
  congr 1
  apply window_congr
  intro i lt
  obtain ⟨j, lt_j, eq⟩ := exists_cell (cell_lt inside (by omega : n ≤ size)) (cell_lt inside (by omega : i ≤ size))
  rw [eq]
  apply stored.frame j lt_j
  by_contra short
  rw [cell_add inside (by omega)] at eq
  exact cell_ne (by omega : i < n + j) (by omega) eq

end CadoNfs.Lib.Ring
