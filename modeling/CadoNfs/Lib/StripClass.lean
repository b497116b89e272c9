import CadoNfs.Lib.PlaneLattice

/-!
# A class of a lattice in a strip

The points of a translate of a plane lattice that lie in a strip, row by row.
-/

namespace CadoNfs.Lib
namespace StripBasis
variable {I : ℤ} (B : StripBasis I)

def Class (P : ℤ × ℤ) (x : ℤ) : Prop :=
  ∃ m n : ℤ, 0 ≤ P.1 - B.a * m + B.c * n ∧ P.1 - B.a * m + B.c * n < I ∧
    x = P.1 - B.a * m + B.c * n + (P.2 + B.b * m + B.d * n) * I

def Ahead (I : ℤ) (P : ℤ × ℤ) : Prop := 0 ≤ P.1 ∧ P.1 < I ∧ 0 ≤ P.2

instance (I : ℤ) (P : ℤ × ℤ) : Decidable (Ahead I P) := inferInstanceAs (Decidable (_ ∧ _))

def position (I : ℤ) (P : ℤ × ℤ) : ℤ := P.1 + P.2 * I

def unwarp (P : ℤ × ℤ) : ℤ × ℤ := (P.1 + B.a, P.2 - B.b)
def unstep (P : ℤ × ℤ) : ℤ × ℤ := (P.1 - B.c, P.2 - B.d)

variable {B} {P : ℤ × ℤ}

theorem width_pos (B : StripBasis I) : 0 < I := lt_of_le_of_lt B.a_nonneg B.a_lt

theorem class_hit {x : ℤ} : B.Class P x ↔ B.Hit P.1 (x - P.2 * I) := by
  have here := @hit_iff I B P.1 0 0 (x - P.2 * I)
  simp only [zero_mul, sub_zero, zero_add, add_zero] at here
  rw [here]
  refine exists_congr fun m => exists_congr fun n => and_congr_right fun _ => and_congr_right fun _ => ?_
  constructor
  · rintro rfl
    ring
  · intro value
    linear_combination value

theorem next_add (x k : ℤ) : B.next (x + k * I) = B.next x + k * I := by
  simp only [next, Int.add_mul_emod_self_right]
  ring

theorem class_next {x : ℤ} (hit : B.Class P x) :
    B.Class P (B.next x) ∧ x < B.next x ∧ ∀ y, B.Class P y → x < y → B.next x ≤ y := by
  have shift (y : ℤ) : B.next (y - P.2 * I) = B.next y - P.2 * I := by
    rw [sub_eq_add_neg, ← neg_mul, next_add, neg_mul, ← sub_eq_add_neg]
  obtain ⟨again, later, least⟩ := next_hit (class_hit.mp hit)
  rw [shift] at again later least
  refine ⟨class_hit.mpr again, by linarith, fun y member after => ?_⟩
  have bound := least _ (class_hit.mp member) (by linarith)
  linarith

theorem class_self (low : 0 ≤ P.1) (high : P.1 < I) : B.Class P (position I P) :=
  ⟨0, 0, by simpa using low, by simpa using high, by simp [position]⟩

theorem class_shift {Q : ℤ × ℤ} {k l : ℤ} (first : Q.1 = P.1 - B.a * k + B.c * l)
    (second : Q.2 = P.2 + B.b * k + B.d * l) (x : ℤ) : B.Class Q x ↔ B.Class P x := by
  constructor
  · rintro ⟨m, n, low, high, rfl⟩
    rw [first] at low high ⊢
    rw [second]
    exact ⟨k + m, l + n, by linarith, by linarith, by ring⟩
  · rintro ⟨m, n, low, high, rfl⟩
    refine ⟨m - k, n - l, ?_, ?_, ?_⟩
    · rw [first]
      linarith
    · rw [first]
      linarith
    · rw [first, second]
      ring

theorem class_unwarp (x : ℤ) : B.Class (B.unwarp P) x ↔ B.Class P x :=
  class_shift (k := -1) (l := 0) (by simp only [unwarp]; ring) (by simp only [unwarp]; ring) x

theorem class_unstep (x : ℤ) : B.Class (B.unstep P) x ↔ B.Class P x :=
  class_shift (k := 0) (l := -1) (by simp only [unstep]; ring) (by simp only [unstep]; ring) x

def Forward (B : StripBasis I) (P : ℤ × ℤ) : Set ℤ := {x | B.Class P x ∧ 0 ≤ x}

theorem position_nonneg (low : 0 ≤ P.1) (high : P.1 < I) : 0 ≤ position I P ↔ 0 ≤ P.2 := by
  have width : 0 < I := lt_of_le_of_lt low high
  constructor
  · intro nonneg
    by_contra below
    have row : P.2 * I ≤ -1 * I := mul_le_mul_of_nonneg_right (by omega) width.le
    simp only [position] at nonneg
    omega
  · intro row
    have := mul_nonneg row width.le
    simp only [position]
    omega

theorem Ahead.mem_forward (ahead : Ahead I P) : position I P ∈ B.Forward P :=
  ⟨class_self ahead.1 ahead.2.1, (position_nonneg ahead.1 ahead.2.1).mpr ahead.2.2⟩

theorem exists_next_eq {x y : ℤ} (member : B.Class P x) (before : B.Class P y) (less : y < x) :
    ∃ z, B.Class P z ∧ y ≤ z ∧ B.next z = x := by
  obtain ⟨again, later, least⟩ := class_next before
  rcases (least x member less).eq_or_lt with same | more
  · exact ⟨y, before, le_rfl, same⟩
  · obtain ⟨z, hit, le, last⟩ := exists_next_eq member again more
    exact ⟨z, hit, later.le.trans le, last⟩
termination_by (x - y).toNat
decreasing_by omega

theorem eq_of_position {Q : ℤ × ℤ} (low : 0 ≤ P.1) (high : P.1 < I) (low' : 0 ≤ Q.1) (high' : Q.1 < I)
    (same : position I P = position I Q) : P = Q := by
  have column : P.1 = Q.1 := by
    have remainder := congrArg (· % I) same
    simpa only [position, Int.add_mul_emod_self_right, Int.emod_eq_of_lt low high, Int.emod_eq_of_lt low' high']
      using remainder
  have row : P.2 * I = Q.2 * I := by
    simp only [position, column] at same
    omega
  exact Prod.ext column (mul_right_cancel₀ (lt_of_le_of_lt low high).ne' row)

theorem next_eq_position {z : ℤ} (hit : B.Class P z) (low : 0 ≤ P.1) (high : P.1 < I)
    (step : B.next z = position I P) : ∃ Q, 0 ≤ Q.1 ∧ Q.1 < I ∧ z = position I Q ∧
      (Q = B.unwarp P ∨ Q = B.unstep P ∨ Q = B.unstep (B.unwarp P)) := by
  obtain ⟨m, n, inside, below, rfl⟩ := hit
  set i := P.1 - B.a * m + B.c * n
  set j := P.2 + B.b * m + B.d * n
  have column : (i + j * I) % I = i := by rw [Int.add_mul_emod_self_right, Int.emod_eq_of_lt inside below]
  refine ⟨(i, j), inside, below, rfl, ?_⟩
  have later := (class_next ⟨m, n, inside, below, rfl⟩).2.1
  rw [next, column] at step later
  by_cases warp : I - B.c ≤ i <;> by_cases more : i < B.a <;> simp only [warp, more, if_true, if_false] at step later
  · right; right
    have narrow : B.c < I := B.narrow.resolve_right (by omega)
    have moved := eq_of_position (P := (i - B.a + B.c, j + B.b + B.d)) (Q := P)
      (by have := B.a_lt; simp only; omega) (by simp only; omega) low high (by simp only [position] at step ⊢; linarith)
    rw [← moved]
    simp only [unstep, unwarp, Prod.mk.injEq]
    omega
  · left
    have moved := eq_of_position (P := (i - B.a, j + B.b)) (Q := P) (by simp only; omega)
      (by have := B.a_nonneg; simp only; omega) low high (by simp only [position] at step ⊢; linarith)
    rw [← moved]
    simp only [unwarp, Prod.mk.injEq]
    omega
  · right; left
    have moved := eq_of_position (P := (i + B.c, j + B.d)) (Q := P) (by have := B.c_pos; simp only; omega)
      (by simp only; omega) low high (by simp only [position] at step ⊢; linarith)
    rw [← moved]
    simp only [unstep, Prod.mk.injEq]
    omega
  · omega

theorem position_unwarp_lt (B : StripBasis I) (P : ℤ × ℤ) : position I (B.unwarp P) < position I P := by
  have row : I ≤ B.b * I := le_mul_of_one_le_left B.width_pos.le B.b_pos
  have narrow := B.a_lt
  simp only [position, unwarp]
  linarith

theorem position_unstep_lt (B : StripBasis I) (P : ℤ × ℤ) : position I (B.unstep P) < position I P := by
  have row := mul_nonneg B.d_nonneg B.width_pos.le
  have right := B.c_pos
  simp only [position, unstep]
  linarith

theorem isLeast_iff (ahead : Ahead I P) : IsLeast (B.Forward P) (position I P) ↔
    ¬ Ahead I (B.unwarp P) ∧ ¬ Ahead I (B.unstep P) ∧ ¬ Ahead I (B.unstep (B.unwarp P)) := by
  constructor
  · rintro ⟨-, least⟩
    refine ⟨fun earlier => ?_, fun earlier => ?_, fun earlier => ?_⟩
    · have mem : position I (B.unwarp P) ∈ B.Forward P :=
        ⟨(class_unwarp _).mp earlier.mem_forward.1, (earlier.mem_forward (B := B)).2⟩
      exact absurd (least mem) (not_le.mpr (position_unwarp_lt B P))
    · have mem : position I (B.unstep P) ∈ B.Forward P :=
        ⟨(class_unstep _).mp earlier.mem_forward.1, (earlier.mem_forward (B := B)).2⟩
      exact absurd (least mem) (not_le.mpr (position_unstep_lt B P))
    · have mem : position I (B.unstep (B.unwarp P)) ∈ B.Forward P :=
        ⟨(class_unwarp _).mp ((class_unstep _).mp earlier.mem_forward.1), (earlier.mem_forward (B := B)).2⟩
      have less := (position_unstep_lt B (B.unwarp P)).trans (position_unwarp_lt B P)
      exact absurd (least mem) (not_le.mpr less)
  · rintro ⟨noWarp, noStep, noBoth⟩
    refine ⟨ahead.mem_forward, fun y earlier => ?_⟩
    by_contra less
    obtain ⟨z, hit, le, step⟩ := exists_next_eq (class_self ahead.1 ahead.2.1) earlier.1 (not_le.mp less)
    obtain ⟨Q, low, high, rfl, back⟩ := next_eq_position hit ahead.1 ahead.2.1 step
    have forward : Ahead I Q := ⟨low, high, (position_nonneg low high).mp (earlier.2.trans le)⟩
    rcases back with rfl | rfl | rfl
    · exact noWarp forward
    · exact noStep forward
    · exact noBoth forward

theorem isLeast_next {x : ℤ} (hit : B.Class P x) (below : x < 0) (nonneg : 0 ≤ B.next x) :
    IsLeast (B.Forward P) (B.next x) := by
  obtain ⟨again, -, least⟩ := class_next hit
  exact ⟨⟨again, nonneg⟩, fun y member => least y member.1 (below.trans_le member.2)⟩

theorem enumerates_class {x : ℤ} (first : IsLeast (B.Forward P) x) :
    StrictMono (fun n => B.next^[n] x) ∧ Set.range (fun n => B.next^[n] x) = B.Forward P := by
  apply iterate_enumerates first.1 first.2
  rintro y ⟨hit, nonneg⟩
  obtain ⟨again, later, least⟩ := class_next hit
  exact ⟨⟨again, nonneg.trans later.le⟩, later, fun z member => least z member.1⟩

end StripBasis
end CadoNfs.Lib
