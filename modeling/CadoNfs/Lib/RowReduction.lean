import Mathlib.LinearAlgebra.Matrix.Rank
import Mathlib.LinearAlgebra.Matrix.NonsingularInverse

/-!
# Row reduction without exchanges

Column after column, a row that was not selected so far becomes the pivot row, and multiples of it are added to
other rows. The rows stay where they are; what is known of them is said by `Reduced`, and what the end of a reduction
gives (the rank, the left kernel, the first independent rows in the order of the search) is read off it.
-/

namespace CadoNfs.Lib.RowReduction

open Matrix Submodule

variable {K m n V : Type*} [Field K] [AddCommGroup V] [Module K V]

theorem find_finRange {rows : Nat} {test : Fin rows → Bool} {p : Fin rows}
    (found : (List.finRange rows).find? test = some p) : test p = true ∧ ∀ i, test i = true → p ≤ i := by
  obtain ⟨holds, front, back, split, failed⟩ := List.find?_eq_some_iff_append.mp found
  refine ⟨holds, fun i passes => ?_⟩
  have sorted : (front ++ p :: back).Pairwise (· < ·) := by
    rw [← split]
    exact List.pairwise_lt_finRange rows
  have member : i ∈ front ++ p :: back := by
    rw [← split]
    exact List.mem_finRange i
  rw [List.mem_append, List.mem_cons] at member
  rcases member with early | same | late
  · have no := failed i early
    rw [passes] at no
    exact Bool.noConfusion no
  · exact same.ge
  · exact (List.rel_of_pairwise_cons (List.pairwise_append.mp sorted).2.1 late).le

def addPivot (R : Matrix m n K) (p : m) (x : m → K) : Matrix m n K := fun i => R i + x i • R p

theorem addPivot_entry (R : Matrix m n K) (p : m) (x : m → K) (i : m) (c : n) :
    addPivot R p x i c = R i c + x i * R p c := rfl

theorem addPivot_entry_of_eq_zero (R : Matrix m n K) {p : m} {c : n} (zero : R p c = 0) (x : m → K) (i : m) :
    addPivot R p x i c = R i c := by
  rw [addPivot_entry, zero, mul_zero, add_zero]

theorem addPivot_row_self (R : Matrix m n K) {p : m} {x : m → K} (zero : x p = 0) : addPivot R p x p = R p := by
  rw [addPivot, zero, zero_smul, add_zero]

theorem addPivot_mul [Fintype m] (L : Matrix m m K) (A : Matrix m n K) (p : m) (x : m → K) :
    addPivot L p x * A = addPivot (L * A) p x := by
  ext i c
  simp [mul_apply, addPivot_entry, add_mul, Finset.sum_add_distrib, mul_assoc, Finset.mul_sum]

theorem isUnit_addPivot [Fintype m] [DecidableEq m] {L : Matrix m m K} {p : m} {x : m → K} (zero : x p = 0)
    (unit : IsUnit L) : IsUnit (addPivot L p x) := by
  rw [← linearIndependent_rows_iff_isUnit] at unit ⊢
  exact (linearIndependent_add_smul_iff zero).mpr unit

section First
variable (K) (before : m → m → Prop) (A : m → V)

def Greedy (T : Set m) : Prop := ∀ i, i ∈ T ↔ A i ∉ span K (A '' {k | before k i})

/-- Of the independent sets of rows, `T` is the first one: it cannot be enlarged, and where another independent set
parts from it, going through the rows in the order `before`, it is `T` that has the row. -/
structure LexFirst (T : Set m) : Prop where
  independent : LinearIndepOn K A T
  maximal : ∀ i ∉ T, ¬ LinearIndepOn K A (insert i T)
  first : ∀ I, LinearIndepOn K A I → ∀ i ∈ I, (∀ k, before k i → (k ∈ T ↔ k ∈ I)) → i ∈ T

variable {K before A} {T U : Set m}

theorem Greedy.unique (left : Greedy K before A T) (right : Greedy K before A U) : T = U :=
  Set.ext fun i => (left i).trans (right i).symm

theorem Greedy.mem_of_linearIndepOn (greedy : Greedy K before A T) {I : Set m} (independent : LinearIndepOn K A I)
    (closed : ∀ i ∈ I, ∀ k, before k i → k ∈ I ∧ k ≠ i) : I ⊆ T := by
  intro i member
  refine (greedy i).mpr fun dependent => ?_
  refine (linearIndepOn_iff_notMem_span.mp independent) i member (span_mono (Set.image_mono fun k earlier => ?_) dependent)
  exact closed i member k earlier

end First

section Reduced
variable [Fintype m] [DecidableEq m] (before : m → m → Prop) (A : Matrix m n K)

/-- The rows of `M` are combinations `L` of the rows of `A`. The columns in `done` are zero outside the selected rows
`T`, and the selected rows are independent there. A row that is not selected is itself plus selected rows before it. -/
structure Reduced (done : Set n) (T : Finset m) (L : Matrix m m K) (M : Matrix m n K) : Prop where
  product : M = L * A
  invertible : IsUnit L
  cleared : ∀ i ∉ T, ∀ c ∈ done, M i c = 0
  own : ∀ i ∉ T, L i i = 1
  earlier : ∀ i ∉ T, ∀ k, k ≠ i → L i k ≠ 0 → k ∈ T ∧ before k i
  within : ∀ t ∈ T, ∀ k ∉ T, L t k = 0
  independent : ∀ a : m → K, (∀ c ∈ done, ∑ t ∈ T, a t * M t c = 0) → ∀ t ∈ T, a t = 0

variable {before A} {done : Set n} {T : Finset m} {L : Matrix m m K} {M : Matrix m n K}

theorem Reduced.start : Reduced before A ∅ ∅ 1 A where
  product := (Matrix.one_mul A).symm
  invertible := isUnit_one
  cleared _ _ _ none := none.elim
  own i _ := one_apply_eq i
  earlier _ _ _ other nonzero := (nonzero (one_apply_ne' other)).elim
  within _ none := (Finset.notMem_empty _ none).elim
  independent _ _ _ none := (Finset.notMem_empty _ none).elim

theorem Reduced.skip (red : Reduced before A done T L M) {c : n} (zero : ∀ i ∉ T, M i c = 0) :
    Reduced before A (insert c done) T L M where
  product := red.product
  invertible := red.invertible
  cleared i out d member := by
    cases member with
    | inl here => rw [here, zero i out]
    | inr before => exact red.cleared i out d before
  own := red.own
  earlier := red.earlier
  within := red.within
  independent a vanishes := red.independent a fun d member => vanishes d (Or.inr member)

theorem Reduced.pivot (red : Reduced before A done T L M) {p : m} {c : n} {x : m → K} (fresh : p ∉ T)
    (one : M p c = 1) (self : x p = 0) (clears : ∀ i ∉ T, i ≠ p → x i = - M i c)
    (first : ∀ i ∉ T, i ≠ p → M i c ≠ 0 → before p i)
    (trans : ∀ i j k, before i j → before j k → before i k) :
    Reduced before A (insert c done) (insert p T) (addPivot L p x) (addPivot M p x) where
  product := by rw [addPivot_mul, red.product]
  invertible := isUnit_addPivot self red.invertible
  cleared i out d member := by
    rw [Finset.mem_insert, not_or] at out
    cases member with
    | inl here => rw [here, addPivot_entry, one, clears i out.2 out.1, mul_one, add_neg_cancel]
    | inr before => rw [addPivot_entry_of_eq_zero M (red.cleared p fresh d before), red.cleared i out.2 d before]
  own i out := by
    rw [Finset.mem_insert, not_or] at out
    have absent : L p i = 0 := by
      by_contra nonzero
      exact out.2 (red.earlier p fresh i out.1 nonzero).1
    rw [addPivot_entry, absent, mul_zero, add_zero, red.own i out.2]
  earlier i out k other nonzero := by
    rw [Finset.mem_insert, not_or] at out
    by_cases kept : L i k = 0
    · have both := nonzero
      rw [addPivot_entry, kept, zero_add] at both
      have ahead : before p i := by
        refine first i out.2 out.1 fun zero => both ?_
        rw [clears i out.2 out.1, zero, neg_zero, zero_mul]
      by_cases same : k = p
      · rw [same]
        exact ⟨Finset.mem_insert_self p T, ahead⟩
      · have found := red.earlier p fresh k same (right_ne_zero_of_mul both)
        exact ⟨Finset.mem_insert_of_mem found.1, trans k p i found.2 ahead⟩
    · have found := red.earlier i out.2 k other kept
      exact ⟨Finset.mem_insert_of_mem found.1, found.2⟩
  within t member k out := by
    rw [Finset.mem_insert, not_or] at out
    have absent : L p k = 0 := by
      by_contra nonzero
      exact out.2 (red.earlier p fresh k out.1 nonzero).1
    rw [addPivot_entry, absent, mul_zero, add_zero]
    cases Finset.mem_insert.mp member with
    | inl here => rw [here, absent]
    | inr old => exact red.within t old k out.2
  independent a vanishes := by
    have old : ∀ t ∈ T, a t = 0 := by
      refine red.independent a fun d member => ?_
      have zero := red.cleared p fresh d member
      have total := vanishes d (Or.inr member)
      rw [Finset.sum_insert fresh, addPivot_entry_of_eq_zero M zero, zero, mul_zero, zero_add] at total
      rw [← total]
      exact Finset.sum_congr rfl fun t _ => by rw [addPivot_entry_of_eq_zero M zero]
    have new : a p = 0 := by
      have total := vanishes c (Or.inl rfl)
      rw [Finset.sum_insert fresh, Finset.sum_eq_zero fun t member => by rw [old t member, zero_mul],
        addPivot_row_self M self, one, mul_one, add_zero] at total
      exact total
    intro t member
    cases Finset.mem_insert.mp member with
    | inl here => rw [here, new]
    | inr before => exact old t before

/-! ### The end of a reduction -/

variable (red : Reduced before A Set.univ T L M)
include red

theorem Reduced.row_eq_zero {i : m} (out : i ∉ T) : M.row i = 0 :=
  funext fun c => red.cleared i out c (Set.mem_univ c)

theorem Reduced.row_eq (i : m) : M.row i = ∑ k, L i k • A.row k := by
  rw [red.product]
  ext c
  simp [mul_apply]

theorem Reduced.reduced_independent : LinearIndepOn K M.row T := by
  rw [linearIndepOn_finset_iff]
  intro a vanishes
  refine red.independent a fun c _ => ?_
  simpa using congrFun vanishes c

theorem Reduced.reduced_mem_span {t : m} (member : t ∈ T) : M.row t ∈ span K (A.row '' T) := by
  rw [red.row_eq t]
  refine sum_mem fun k _ => ?_
  by_cases selected : k ∈ T
  · exact smul_mem _ _ (subset_span ⟨k, selected, rfl⟩)
  · rw [red.within t member k selected, zero_smul]
    exact zero_mem _

theorem Reduced.span_kernel : span K (L.row '' {i | i ∉ T}) = LinearMap.ker A.vecMulLinear := by
  refine le_antisymm (span_le.mpr ?_) fun v vanishes => ?_
  · rintro _ ⟨i, out, rfl⟩
    have zero := red.row_eq_zero out
    rw [red.product] at zero
    exact zero
  · rw [LinearMap.mem_ker, vecMulLinear_apply] at vanishes
    obtain ⟨u, rfl⟩ := vecMul_surjective_iff_isUnit.mpr red.invertible v
    rw [vecMul_vecMul, ← red.product] at vanishes
    have zero : ∀ t ∈ T, u t = 0 := by
      refine red.independent u fun c _ => ?_
      have entry := congrFun vanishes c
      rw [vecMul, dotProduct, ← Finset.sum_subset (Finset.subset_univ T) fun i _ out => ?_] at entry
      · exact entry
      · rw [red.cleared i out c (Set.mem_univ c), mul_zero]
    change u ᵥ* L ∈ _
    rw [vecMul_eq_sum]
    refine sum_mem fun i _ => ?_
    by_cases selected : i ∈ T
    · rw [zero i selected, zero_smul]
      exact zero_mem _
    · exact smul_mem _ _ (subset_span ⟨i, selected, rfl⟩)

theorem Reduced.dependent {i : m} (out : i ∉ T) : A.row i ∈ span K (A.row '' {k | k ∈ T ∧ before k i}) := by
  have total := red.row_eq i
  rw [red.row_eq_zero out, ← Finset.add_sum_erase _ _ (Finset.mem_univ i), red.own i out, one_smul] at total
  rw [eq_neg_of_add_eq_zero_left total.symm]
  refine neg_mem (sum_mem fun k member => ?_)
  by_cases zero : L i k = 0
  · rw [zero, zero_smul]
    exact zero_mem _
  · exact smul_mem _ _ (subset_span ⟨k, red.earlier i out k (Finset.ne_of_mem_erase member) zero, rfl⟩)

theorem Reduced.mem_span (i : m) : A.row i ∈ span K (A.row '' T) := by
  by_cases member : i ∈ T
  · exact subset_span ⟨i, member, rfl⟩
  · exact span_mono (Set.image_mono fun k found => found.1) (red.dependent member)

variable [Fintype n]

theorem Reduced.selected_independent : LinearIndepOn K A.row T := by
  have inside : span K (Set.range fun t : T => M.row t) ≤ span K (Set.range fun t : T => A.row t) := by
    rw [span_le]
    rintro _ ⟨t, rfl⟩
    have found := red.reduced_mem_span t.2
    rwa [Set.image_eq_range] at found
  refine linearIndependent_iff_card_le_finrank_span.mpr ?_
  rw [linearIndependent_iff_card_eq_finrank_span.mp red.reduced_independent]
  exact finrank_mono inside

theorem Reduced.rank_eq : A.rank = T.card := by
  have same : span K (Set.range A.row) = span K (A.row '' T) := by
    refine le_antisymm (span_le.mpr ?_) (span_mono (Set.image_subset_range A.row T))
    rintro _ ⟨i, rfl⟩
    exact red.mem_span i
  have count := linearIndependent_iff_card_eq_finrank_span.mp red.selected_independent
  rw [Set.finrank, ← Set.image_eq_range] at count
  rw [rank_eq_finrank_span_row, same, ← count]
  exact Fintype.card_coe T

theorem Reduced.greedy (irrefl : ∀ i, ¬ before i i) (trans : ∀ i j k, before i j → before j k → before i k) :
    Greedy K before A.row T := by
  intro i
  constructor
  · intro member dependent
    refine linearIndepOn_iff_notMem_span.mp red.selected_independent i member ?_
    refine span_le.mpr ?_ dependent
    rintro _ ⟨k, earlier, rfl⟩
    have apart : ∀ j, before j i → j ≠ i := fun j earlier same => irrefl i (same ▸ earlier)
    by_cases selected : k ∈ T
    · exact subset_span ⟨k, ⟨selected, apart k earlier⟩, rfl⟩
    · refine span_mono (Set.image_mono fun j found => ?_) (red.dependent selected)
      exact ⟨found.1, apart j (trans j k i found.2 earlier)⟩
  · intro free
    by_contra out
    exact free (span_mono (Set.image_mono fun k found => found.2) (red.dependent out))

theorem Reduced.lexFirst (irrefl : ∀ i, ¬ before i i) : LexFirst K before A.row (T : Set m) where
  independent := red.selected_independent
  maximal i out bigger := bigger.notMem_span_of_insert out (red.mem_span i)
  first I independent i member same := by
    by_contra out
    refine linearIndepOn_iff_notMem_span.mp independent i member ?_
    refine span_mono (Set.image_mono fun k found => ?_) (red.dependent out)
    exact ⟨(same k found.2).mp found.1, fun here => irrefl i (here ▸ found.2)⟩

end Reduced

section Jordan
variable [DecidableEq m] (before : n → n → Prop)

/-- The pivot columns are unit columns, and the other columns in `done` have entries only in rows whose pivot column
is before them. -/
structure Jordan (done : Set n) (piv : m → Option n) (M : Matrix m n K) : Prop where
  unit : ∀ t c, piv t = some c → c ∈ done ∧ ∀ i, M i c = if i = t then 1 else 0
  other : ∀ c ∈ done, (∀ t, piv t ≠ some c) → ∀ i, M i c ≠ 0 → ∃ d, piv i = some d ∧ before d c

variable {before} {done : Set n} {piv : m → Option n} {M : Matrix m n K}

theorem Jordan.start (A : Matrix m n K) : Jordan before ∅ (fun _ => none) A where
  unit _ _ found := (Option.some_ne_none _ found.symm).elim
  other _ none := none.elim

theorem Jordan.skip (jordan : Jordan before done piv M) {c : n} (last : ∀ d ∈ done, before d c)
    (zero : ∀ i, piv i = none → M i c = 0) : Jordan before (insert c done) piv M where
  unit t d found := ⟨Or.inr (jordan.unit t d found).1, (jordan.unit t d found).2⟩
  other d member apart i nonzero := by
    cases member with
    | inl here =>
      subst here
      cases found : piv i with
      | none => exact (nonzero (zero i found)).elim
      | some e => exact ⟨e, rfl, last e (jordan.unit i e found).1⟩
    | inr old => exact jordan.other d old apart i nonzero

theorem Jordan.pivot (jordan : Jordan before done piv M) {p : m} {c : n} {x : m → K} (fresh : piv p = none)
    (cleared : ∀ d ∈ done, M p d = 0) (one : M p c = 1) (self : x p = 0) (clears : ∀ i ≠ p, x i = - M i c) :
    Jordan before (insert c done) (Function.update piv p (some c)) (addPivot M p x) where
  unit t d found := by
    by_cases same : t = p
    · subst same
      rw [Function.update_self, Option.some_inj] at found
      subst found
      refine ⟨Or.inl rfl, fun i => ?_⟩
      by_cases here : i = t
      · rw [if_pos here, here, addPivot_row_self M self, one]
      · rw [if_neg here, addPivot_entry, one, clears i here, mul_one, add_neg_cancel]
    · rw [Function.update_of_ne same] at found
      have old := jordan.unit t d found
      refine ⟨Or.inr old.1, fun i => ?_⟩
      rw [addPivot_entry_of_eq_zero M (cleared d old.1), old.2 i]
  other d member apart i nonzero := by
    have differs : d ≠ c := fun same => apart p (by rw [Function.update_self, same])
    have old : d ∈ done := member.resolve_left differs
    rw [addPivot_entry_of_eq_zero M (cleared d old)] at nonzero
    have untouched : ∀ t, piv t ≠ some d := by
      intro t found
      by_cases same : t = p
      · rw [same, fresh] at found
        exact Option.some_ne_none d found.symm
      · exact apart t (by rw [Function.update_of_ne same, found])
    obtain ⟨e, found, earlier⟩ := jordan.other d old untouched i nonzero
    have same : i ≠ p := fun same => Option.some_ne_none e (by rw [← found, same, fresh])
    exact ⟨e, by rw [Function.update_of_ne same, found], earlier⟩

theorem Jordan.unique (jordan : Jordan before done piv M) {t u : m} {c : n} (left : piv t = some c)
    (right : piv u = some c) : t = u := by
  by_contra apart
  have one := (jordan.unit t c left).2 t
  rw [(jordan.unit u c right).2 t, if_pos rfl, if_neg apart] at one
  exact zero_ne_one one

theorem Jordan.greedy [Fintype m] {A : Matrix m n K} {L : Matrix m m K} (jordan : Jordan before Set.univ piv M)
    (product : M = L * A) (invertible : IsUnit L) (irrefl : ∀ c, ¬ before c c)
    (trans : ∀ c d e, before c d → before d e → before c e) :
    Greedy K before A.col {c | ∃ t, piv t = some c} := by
  have columns : M.col = L.mulVecLin ∘ A.col := by
    rw [product]
    rfl
  have lifts : ∀ c, A.col c ∈ span K (A.col '' {d | before d c}) ↔ M.col c ∈ span K (M.col '' {d | before d c}) := by
    intro c
    rw [columns, Set.image_comp, ← map_span]
    refine ⟨mem_map_of_mem, fun found => ?_⟩
    obtain ⟨v, member, same⟩ := mem_map.mp found
    rwa [← mulVec_injective_of_isUnit invertible same]
  intro c
  rw [lifts c]
  constructor
  · rintro ⟨t, found⟩ dependent
    have zero : M.col c t = 0 := by
      refine span_induction (p := fun v _ => v t = 0) ?_ rfl ?_ ?_ dependent
      · rintro _ ⟨d, earlier, rfl⟩
        by_contra nonzero
        by_cases pivot : ∃ u, piv u = some d
        · obtain ⟨u, located⟩ := pivot
          have here : t = u := by
            by_contra apart
            exact nonzero (((jordan.unit u d located).2 t).trans (if_neg apart))
          rw [here, located, Option.some_inj] at found
          exact irrefl c (found ▸ earlier)
        · obtain ⟨e, located, later⟩ := jordan.other d (Set.mem_univ d) (fun u at_u => pivot ⟨u, at_u⟩) t nonzero
          rw [found, Option.some_inj] at located
          exact irrefl c (trans c d c (located ▸ later) earlier)
      · intro v w _ _ left right
        rw [Pi.add_apply, left, right, add_zero]
      · intro a v _ vanishes
        rw [Pi.smul_apply, vanishes, smul_zero]
    rw [col_apply, (jordan.unit t c found).2 t, if_pos rfl] at zero
    exact one_ne_zero zero
  · intro free
    by_contra apart
    refine free ?_
    have total : M.col c = ∑ i, M i c • (Pi.single i 1 : m → K) := by
      ext k
      simp [Pi.single_apply]
    rw [total]
    refine sum_mem fun i _ => ?_
    by_cases zero : M i c = 0
    · rw [zero, zero_smul]
      exact zero_mem _
    · obtain ⟨d, found, earlier⟩ := jordan.other c (Set.mem_univ c) (fun t at_t => apart ⟨t, at_t⟩) i zero
      have single : M.col d = Pi.single i 1 := by
        ext k
        rw [col_apply, (jordan.unit i d found).2 k, Pi.single_apply]
      exact smul_mem _ _ (subset_span ⟨d, earlier, single⟩)

end Jordan

end CadoNfs.Lib.RowReduction
