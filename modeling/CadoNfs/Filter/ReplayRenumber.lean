import Mathlib

/-!
# Renumbering the columns by weight

`renumber` of `filter/replay.cpp`: the weight and the number of each nonempty column are stored one after the other in
an array, the array is sorted with `cmp_index2` of `filter/filter_config.h` and read backwards.
-/

namespace CadoNfs.Filter.Renumber

def cmpIndex2 (x y : Nat × Nat) : Int :=
  if x.1 < y.1 then -1 else if y.1 < x.1 then 1 else if x.2 < y.2 then 1 else -1

def capacity (smallNcols : Nat) : Nat := 2 * smallNcols % 2 ^ 32

def fill (cap : Nat) (colweight : Nat → Nat) : List Nat → List Nat → Option (List Nat)
  | [], tmp => some tmp
  | k :: ks, tmp =>
      if 0 < colweight k then
        if tmp.length + 2 ≤ cap then fill cap colweight ks (tmp ++ [colweight k, k]) else none
      else fill cap colweight ks tmp

def pairs : List Nat → List (Nat × Nat)
  | w :: k :: tmp => (w, k) :: pairs tmp
  | _ => []

def qsort (tmp : List Nat) : List Nat :=
  ((pairs tmp).mergeSort fun x y => cmpIndex2 x y ≤ 0).flatMap fun x => [x.1, x.2]

def backwards (tmp : List Nat) : Nat → List Nat
  | 0 => []
  | 1 => [tmp.getD 0 0]
  | n + 2 => tmp.getD (n + 1) 0 :: backwards tmp n

structure Result where
  colweight : Nat → Nat
  file : List (Nat × Nat)

def renumber (smallNcols : Nat) (colweight : Nat → Nat) (ncols : Nat) : Option Result :=
  if smallNcols = 0 then none
  else
    (fill (capacity smallNcols) colweight (List.range ncols) []).bind fun tmp =>
      if tmp.length = capacity smallNcols ∧ 1 ≤ tmp.length then
        let j : Int := (BitVec.ofNat 32 (tmp.length - 1)).toInt
        let columns := (backwards (qsort tmp) (j + 1).toNat).zipIdx 1
        some ⟨columns.foldl (fun cw line => Function.update cw line.1 line.2) fun _ => 0,
          columns.map fun line => (line.2 - 1, line.1)⟩
      else none

def nonempty (colweight : Nat → Nat) (ncols : Nat) : List Nat :=
  (List.range ncols).filter (0 < colweight ·)

def entries (colweight : Nat → Nat) (columns : List Nat) : List Nat :=
  columns.flatMap fun k => [colweight k, k]

theorem entries_length (colweight : Nat → Nat) (columns : List Nat) :
    (entries colweight columns).length = 2 * columns.length := by
  induction columns with
  | nil => rfl
  | cons k columns ih =>
    rw [entries, List.flatMap_cons, List.length_append, ← entries, ih, List.length_cons]
    simp only [List.length_cons, List.length_nil]
    omega

theorem pairs_entries (colweight : Nat → Nat) (columns : List Nat) :
    pairs (entries colweight columns) = columns.map fun k => (colweight k, k) := by
  induction columns with
  | nil => rfl
  | cons k columns ih =>
    rw [List.map_cons, ← ih]
    rfl

theorem fill_eq (cap : Nat) (colweight : Nat → Nat) (ks tmp : List Nat) :
    fill cap colweight ks tmp =
      if tmp.length + 2 * (ks.filter (0 < colweight ·)).length ≤ cap ∨ ks.filter (0 < colweight ·) = [] then
        some (tmp ++ entries colweight (ks.filter (0 < colweight ·)))
      else none := by
  induction ks generalizing tmp with
  | nil => simp [fill, entries]
  | cons k ks ih =>
    by_cases positive : 0 < colweight k
    · have kept : (k :: ks).filter (0 < colweight ·) = k :: ks.filter (0 < colweight ·) := by
        simp [positive]
      rw [fill, if_pos positive, kept, ih]
      simp only [List.length_append, List.length_cons, List.length_nil, entries, List.flatMap_cons,
        List.append_assoc, reduceCtorEq, or_false]
      by_cases room : tmp.length + 2 ≤ cap
      · rw [if_pos room]
        congr 1
        rw [eq_iff_iff]
        constructor
        · rintro (fits | empty)
          · omega
          · simp only [empty, List.length_nil]
            omega
        · intro fits
          exact .inl (by omega)
      · rw [if_neg room, if_neg (by omega)]
    · have dropped : (k :: ks).filter (0 < colweight ·) = ks.filter (0 < colweight ·) := by
        simp [positive]
      rw [fill, if_neg positive, dropped, ih]

def Before (colweight : Nat → Nat) (i j : Nat) : Prop :=
  colweight j < colweight i ∨ colweight i = colweight j ∧ i < j

theorem cmpIndex2_le (x y : Nat × Nat) :
    cmpIndex2 x y ≤ 0 ↔ x.1 < y.1 ∨ x.1 = y.1 ∧ y.2 ≤ x.2 := by
  unfold cmpIndex2
  split_ifs <;> omega

def sorted (colweight : Nat → Nat) (columns : List Nat) : List Nat :=
  (((columns.map fun k => (colweight k, k)).mergeSort fun x y => cmpIndex2 x y ≤ 0).map Prod.snd).reverse

theorem sorted_perm (colweight : Nat → Nat) (columns : List Nat) :
    (sorted colweight columns).Perm columns := by
  have same : columns = (columns.map fun k => (colweight k, k)).map Prod.snd := by
    rw [List.map_map]
    exact (List.map_id _).symm
  conv_rhs => rw [same]
  exact (List.reverse_perm _).trans ((List.mergeSort_perm _ _).map _)

theorem sorted_pairwise (colweight : Nat → Nat) {columns : List Nat} (apart : columns.Nodup) :
    (sorted colweight columns).Pairwise (Before colweight) := by
  have trans (x y z : Nat × Nat) (first : decide (cmpIndex2 x y ≤ 0)) (second : decide (cmpIndex2 y z ≤ 0)) :
      (decide (cmpIndex2 x z ≤ 0) : Bool) := by
    simp only [decide_eq_true_eq, cmpIndex2_le] at *
    omega
  have total (x y : Nat × Nat) : (decide (cmpIndex2 x y ≤ 0) || decide (cmpIndex2 y x ≤ 0)) = true := by
    simp only [Bool.or_eq_true, decide_eq_true_eq, cmpIndex2_le]
    omega
  let list := columns.map fun k => (colweight k, k)
  have order := List.pairwise_mergeSort trans total list
  have shape (x) (member : x ∈ list.mergeSort fun x y => cmpIndex2 x y ≤ 0) : x.1 = colweight x.2 := by
    obtain ⟨k, _, rfl⟩ := List.mem_map.mp (List.mem_mergeSort.mp member)
    rfl
  have distinct : ((list.mergeSort fun x y => cmpIndex2 x y ≤ 0).map Prod.snd).Nodup :=
    List.nodup_reverse.mp ((sorted_perm colweight columns).nodup_iff.mpr apart)
  unfold sorted
  rw [List.pairwise_reverse, List.pairwise_map]
  rw [List.nodup_iff_pairwise_ne, List.pairwise_map] at distinct
  refine (order.and distinct).imp_of_mem fun {x y} hx hy both => ?_
  obtain ⟨le, ne⟩ := both
  rw [decide_eq_true_eq, cmpIndex2_le, shape x hx, shape y hy] at le
  unfold Before
  omega

theorem backwards_append (tmp rest : List Nat) (n : Nat) (inside : n ≤ tmp.length) :
    backwards (tmp ++ rest) n = backwards tmp n := by
  induction n using backwards.induct with
  | case1 => rfl
  | case2 => rw [backwards, backwards, List.getD_append _ _ _ _ (by omega)]
  | case3 n ih => rw [backwards, backwards, ih (by omega), List.getD_append _ _ _ _ (by omega)]

theorem backwards_flatMap (order : List (Nat × Nat)) :
    backwards (order.flatMap fun x => [x.1, x.2]) (2 * order.length) = (order.map Prod.snd).reverse := by
  have length (order : List (Nat × Nat)) : (order.flatMap fun x => [x.1, x.2]).length = 2 * order.length := by
    induction order with
    | nil => rfl
    | cons x order ih =>
      rw [List.flatMap_cons, List.length_append, ih, List.length_cons]
      simp only [List.length_cons, List.length_nil]
      omega
  induction order using List.reverseRecOn with
  | nil => rfl
  | append_singleton order x ih =>
    have last : ((order.flatMap fun x => [x.1, x.2]) ++ [x.1, x.2]).getD (2 * order.length + 1) 0 = x.2 := by
      rw [List.getD_append_right _ _ _ _ (by rw [length]; omega), length]
      simp
    rw [List.flatMap_append, List.flatMap_singleton, List.length_append, List.length_singleton, Nat.mul_add,
      backwards, last, backwards_append _ _ _ (by rw [length]), ih, List.map_append, List.reverse_append]
    rfl

theorem foldl_zipIdx {columns : List Nat} (apart : columns.Nodup) (k : Nat) (cw : Nat → Nat) (j : Nat) :
    (columns.zipIdx k).foldl (fun cw line => Function.update cw line.1 line.2) cw j =
      if j ∈ columns then columns.idxOf j + k else cw j := by
  induction columns generalizing k cw with
  | nil => simp
  | cons c columns ih =>
    rw [List.nodup_cons] at apart
    rw [List.zipIdx_cons, List.foldl_cons, ih apart.2]
    by_cases same : j = c
    · subst same
      simp [apart.1]
    · by_cases member : j ∈ columns
      · rw [if_pos member, if_pos (.tail _ member), List.idxOf_cons_ne _ (Ne.symm same)]
        omega
      · rw [if_neg member, if_neg (by simp [same, member]), Function.update_of_ne same]

/-- The columns with a positive weight are numbered from 1 on, a heavier one first and of two of equal
weight the smaller one, and the others are numbered 0. -/
structure Renumbers (colweight : Nat → Nat) (ncols smallNcols : Nat) (result : Nat → Nat) : Prop where
  empty : ∀ j < ncols, colweight j = 0 → result j = 0
  bijection : Set.BijOn result {j | j < ncols ∧ 0 < colweight j} (Set.Icc 1 smallNcols)
  order : ∀ i < ncols, ∀ j < ncols, 0 < colweight i → 0 < colweight j →
    (result i < result j ↔ colweight j < colweight i ∨ colweight i = colweight j ∧ i < j)

theorem mem_nonempty {colweight : Nat → Nat} {ncols j : Nat} :
    j ∈ nonempty colweight ncols ↔ j < ncols ∧ 0 < colweight j := by
  simp [nonempty]

theorem sorted_renumbers (colweight : Nat → Nat) (ncols : Nat) :
    Renumbers colweight ncols (nonempty colweight ncols).length
      (((sorted colweight (nonempty colweight ncols)).zipIdx 1).foldl
        (fun cw line => Function.update cw line.1 line.2) fun _ => 0) := by
  have distinct : (nonempty colweight ncols).Nodup := List.nodup_range.filter _
  have perm := sorted_perm colweight (nonempty colweight ncols)
  have order := sorted_pairwise colweight distinct
  have apart := perm.nodup_iff.mpr distinct
  have length := perm.length_eq
  have member {j : Nat} : j ∈ sorted colweight (nonempty colweight ncols) ↔ j < ncols ∧ 0 < colweight j :=
    perm.mem_iff.trans mem_nonempty
  generalize sorted colweight (nonempty colweight ncols) = columns at *
  have value (j : Nat) (inside : j ∈ columns) : (columns.zipIdx 1).foldl
      (fun cw line => Function.update cw line.1 line.2) (fun _ => 0) j = columns.idxOf j + 1 := by
    rw [foldl_zipIdx apart, if_pos inside]
  refine ⟨fun j _ zero => ?_, ⟨fun j hj => ?_, fun i hi j hj same => ?_, fun k hk => ?_⟩, ?_⟩
  · rw [foldl_zipIdx apart, if_neg fun inside => by have := (member.mp inside).2; omega]
  · have := List.idxOf_lt_length_iff.mpr (member.mpr hj)
    rw [value j (member.mpr hj), Set.mem_Icc]
    omega
  · rw [value i (member.mpr hi), value j (member.mpr hj), Nat.add_right_cancel_iff] at same
    exact (List.idxOf_inj (member.mpr hi)).mp same
  · obtain ⟨low, high⟩ := hk
    have bound : k - 1 < columns.length := by omega
    refine ⟨columns[k - 1], member.mp (List.getElem_mem bound), ?_⟩
    rw [value _ (List.getElem_mem bound), apart.idxOf_getElem]
    omega
  · intro i hi j hj pi pj
    have insideI := member.mpr ⟨hi, pi⟩
    have insideJ := member.mpr ⟨hj, pj⟩
    rw [value i insideI, value j insideJ, Nat.add_lt_add_iff_right]
    have boundI := List.idxOf_lt_length_iff.mpr insideI
    have boundJ := List.idxOf_lt_length_iff.mpr insideJ
    have forward := List.pairwise_iff_getElem.mp order
    constructor
    · intro lt
      have before := forward _ _ boundI boundJ lt
      rwa [List.getElem_idxOf, List.getElem_idxOf] at before
    · intro heavier
      rcases lt_trichotomy (columns.idxOf i) (columns.idxOf j) with lt | eq | gt
      · exact lt
      · obtain rfl := (List.idxOf_inj insideI).mp eq
        omega
      · have before := forward _ _ boundJ boundI gt
        rw [List.getElem_idxOf, List.getElem_idxOf] at before
        unfold Before at before
        omega

/-! ## The size of the array -/

theorem qsort_entries (colweight : Nat → Nat) (columns : List Nat) :
    backwards (qsort (entries colweight columns)) (2 * columns.length) = sorted colweight columns := by
  have length : ((columns.map fun k => (colweight k, k)).mergeSort fun x y => cmpIndex2 x y ≤ 0).length =
      columns.length := by
    rw [List.length_mergeSort, List.length_map]
  rw [qsort, pairs_entries, ← length, backwards_flatMap]
  rfl

section
variable {colweight : Nat → Nat} {ncols : Nat} (bound : ncols < 2 ^ 32 - 1)
  (positive : 0 < (nonempty colweight ncols).length)

include positive in
theorem renumber_small (small : (nonempty colweight ncols).length ≤ 2 ^ 30) :
    ∃ result, renumber (nonempty colweight ncols).length colweight ncols = some result ∧
      Renumbers colweight ncols (nonempty colweight ncols).length result.colweight := by
  have cap : capacity (nonempty colweight ncols).length = 2 * (nonempty colweight ncols).length := by
    unfold capacity
    omega
  have filled : fill (2 * (nonempty colweight ncols).length) colweight (List.range ncols) [] =
      some (entries colweight (nonempty colweight ncols)) := by
    rw [fill_eq, if_pos (.inl (by simp [nonempty]))]
    rfl
  have last : ((BitVec.ofNat 32 (2 * (nonempty colweight ncols).length - 1)).toInt + 1).toNat =
      2 * (nonempty colweight ncols).length := by
    rw [BitVec.toInt_ofNat', Int.bmod_def]
    split_ifs <;> omega
  have right := sorted_renumbers colweight ncols
  rw [renumber, if_neg (by omega), cap, filled, Option.bind_some,
    if_pos ⟨entries_length colweight _, by rw [entries_length]; omega⟩]
  refine ⟨_, rfl, ?_⟩
  rw [entries_length, last, qsort_entries]
  exact right

include bound in
theorem not_renumbers_of_large (large : 2 ^ 30 < (nonempty colweight ncols).length) {result : Result}
    (run : renumber (nonempty colweight ncols).length colweight ncols = some result) :
    ¬ Renumbers colweight ncols (nonempty colweight ncols).length result.colweight := by
  have few : (nonempty colweight ncols).length ≤ ncols :=
    (List.length_filter_le _ _).trans_eq List.length_range
  rw [renumber, if_neg (by omega)] at run
  obtain ⟨tmp, filled, run⟩ := Option.bind_eq_some_iff.mp run
  rw [fill_eq] at filled
  split_ifs at filled with room
  cases filled
  have room : 2 * (nonempty colweight ncols).length ≤ capacity (nonempty colweight ncols).length := by
    rcases room with fits | empty
    · simpa [nonempty] using fits
    · have : (nonempty colweight ncols).length = 0 := by simp [nonempty, empty]
      omega
  have negative : ((BitVec.ofNat 32 (2 * (nonempty colweight ncols).length - 1)).toInt + 1).toNat = 0 := by
    unfold capacity at room
    rw [BitVec.toInt_ofNat', Int.bmod_def]
    split_ifs <;> omega
  have length : ([] ++ entries colweight ((List.range ncols).filter (0 < colweight ·))).length =
      2 * (nonempty colweight ncols).length := by
    rw [List.nil_append, entries_length]
    rfl
  simp only [length, negative, backwards, List.zipIdx_nil, List.foldl_nil] at run
  split_ifs at run
  cases run
  intro right
  obtain ⟨j, _, one⟩ := right.bijection.surjOn (Set.mem_Icc.mpr ⟨le_refl 1, by omega⟩)
  cases one

include bound positive in
/-- The renumbering is right if and only if there are at most `2 ^ 30` nonempty columns. -/
theorem renumber_iff :
    (∃ result, renumber (nonempty colweight ncols).length colweight ncols = some result ∧
      Renumbers colweight ncols (nonempty colweight ncols).length result.colweight) ↔
      (nonempty colweight ncols).length ≤ 2 ^ 30 := by
  constructor
  · rintro ⟨result, run, right⟩
    by_contra large
    exact not_renumbers_of_large bound (not_le.mp large) run right
  · exact renumber_small positive

end

theorem renumber_iff_three :
    (∃ result, renumber (nonempty (fun j => j % 3) 4).length (fun j => j % 3) 4 = some result ∧
      Renumbers (fun j => j % 3) 4 (nonempty (fun j => j % 3) 4).length result.colweight) ↔
      (nonempty (fun j => j % 3) 4).length ≤ 2 ^ 30 :=
  renumber_iff (by decide) (by decide)

theorem not_renumbers_ones : ¬ ∀ (colweight : Nat → Nat) (ncols : Nat), ncols < 2 ^ 32 - 1 →
    0 < (nonempty colweight ncols).length →
    ∃ result, renumber (nonempty colweight ncols).length colweight ncols = some result ∧
      Renumbers colweight ncols (nonempty colweight ncols).length result.colweight := by
  intro all
  have count (ncols : Nat) : (nonempty (fun _ => 1) ncols).length = ncols := by simp [nonempty]
  have bound : 2 ^ 30 + 1 < 2 ^ 32 - 1 := by norm_num
  have large : 2 ^ 30 < 2 ^ 30 + 1 := by norm_num
  generalize 2 ^ 30 + 1 = ncols at bound large
  obtain ⟨result, run, right⟩ := all (fun _ => 1) ncols bound (by rw [count]; omega)
  exact not_renumbers_of_large bound (by rwa [count]) run right

end CadoNfs.Filter.Renumber
