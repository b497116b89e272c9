import CadoNfs.Utils.GaloisAction

/-!
# Relations and Galois actions

`apply_ab` replaces `a - b * x` by its image under `x -> sigma(x)`, up to an integer and the denominator of `sigma`.
-/

namespace CadoNfs.Utils.Galois

open Lib Polynomial

structure Homography where
  alpha : ℤ
  beta : ℤ
  gamma : ℤ
  delta : ℤ

namespace Homography

variable (σ : Homography)

def det : ℤ := σ.alpha * σ.delta - σ.beta * σ.gamma

noncomputable def numerator : ℤ[X] := C σ.alpha * X + C σ.beta

noncomputable def denominator : ℤ[X] := C σ.gamma * X + C σ.delta

variable {σ} {a b a' b' m : ℤ}

structure Scaled (σ : Homography) (a b a' b' m : ℤ) : Prop where
  first : m * a' = σ.delta * a - σ.beta * b
  second : m * b' = σ.alpha * b - σ.gamma * a

theorem Scaled.equation (scaled : σ.Scaled a b a' b' m) :
    C m * (C a' - C b' * X) = σ.denominator * C a - C b * σ.numerator := by
  have first := congrArg (C : ℤ → ℤ[X]) scaled.first
  have second := congrArg (C : ℤ → ℤ[X]) scaled.second
  simp only [C_mul, C_sub] at first second
  rw [numerator, denominator, mul_sub, first, ← mul_assoc, second]
  ring

theorem Scaled.combination (scaled : σ.Scaled a b a' b' m) (coprime : IsCoprime a b) :
    ∃ u v, m * (u * a' + v * b') = σ.det := by
  obtain ⟨r, s, one⟩ := coprime
  refine ⟨r * σ.alpha + s * σ.gamma, r * σ.beta + s * σ.delta, ?_⟩
  calc m * ((r * σ.alpha + s * σ.gamma) * a' + (r * σ.beta + s * σ.delta) * b')
      = (r * σ.alpha + s * σ.gamma) * (m * a') + (r * σ.beta + s * σ.delta) * (m * b') := by ring
    _ = σ.det * (r * a + s * b) := by
      rw [scaled.first, scaled.second, det]
      ring
    _ = σ.det := by rw [one, mul_one]

theorem Scaled.coprime_of_associated (scaled : σ.Scaled a b a' b' m) (coprime : IsCoprime a b) (nonzero : σ.det ≠ 0)
    (associated : Associated σ.det m) : IsCoprime a' b' := by
  obtain ⟨u, v, same⟩ := scaled.combination coprime
  obtain ⟨unit, m_eq⟩ := associated
  have one : (unit : ℤ) * (u * a' + v * b') = 1 := by
    refine mul_left_cancel₀ nonzero ?_
    rw [← mul_assoc, m_eq, same, mul_one]
  exact ⟨unit * u, unit * v, by rw [← one]; ring⟩

theorem Scaled.coprime_of_second (scaled : σ.Scaled a b a' b' m) (coprime : IsCoprime a b)
    (other : IsCoprime σ.det b') :
    IsCoprime a' b' := by
  obtain ⟨u, v, same⟩ := scaled.combination coprime
  obtain ⟨r, s, one⟩ := other
  refine ⟨r * m * u, r * m * v + s, ?_⟩
  rw [← one, ← same]
  ring

end Homography

/-- `none` is `galois_action_none`. -/
abbrev GaloisAction := Option Action

namespace GaloisAction

def applyAb : GaloisAction → ℤ → ℤ → Except Failure Image
  | none => fun a b => .ok ⟨a, b, 1⟩
  | some g => g.applyAb

def applyAbCofactor : GaloisAction → ℕ → ℕ → ℕ
  | none | some .neg => fun _ _ => 1
  | some .inv | some .autom3_1 | some .autom3_2 => fun r _ => r
  | some .autom4_1 | some .autom6_1 => fun r p => if r ≠ 0 then r - 1 else p - 1

def sigma : GaloisAction → Homography
  | none => ⟨1, 0, 0, 1⟩
  | some .inv => ⟨0, 1, 1, 0⟩
  | some .neg => ⟨-1, 0, 0, 1⟩
  | some .autom3_1 => ⟨1, -1, 1, 0⟩
  | some .autom3_2 => ⟨-1, -1, 1, 0⟩
  | some .autom4_1 => ⟨-1, -1, 1, -1⟩
  | some .autom6_1 => ⟨-2, -1, 1, -1⟩

end GaloisAction

variable {g : GaloisAction} {a b x y m : ℤ} {i : Image}

theorem applyAbCofactor_modEq (g : GaloisAction) {p r : ℕ} (lt : r < p) :
    g.sigma.denominator.eval (r : ℤ) ≡ g.applyAbCofactor r p [ZMOD p] := by
  have linear : g.sigma.denominator.eval (r : ℤ) = g.sigma.gamma * r + g.sigma.delta := by
    rw [Homography.denominator, eval_add, eval_mul, eval_C, eval_X, eval_C]
  have shifted : (r : ℤ) - 1 ≡ ((if r ≠ 0 then r - 1 else p - 1 : ℕ) : ℤ) [ZMOD p] := by
    by_cases zero : r = 0
    · have pos : 1 ≤ p := by omega
      subst zero
      rw [if_neg (not_not.mpr rfl), Nat.cast_sub pos]
      exact (Int.modEq_iff_dvd.mpr ⟨1, by push_cast; ring⟩)
    · rw [if_pos zero, Nat.cast_sub (Nat.one_le_iff_ne_zero.mpr zero)]
      rfl
  rw [linear]
  cases g with
  | none => simp [GaloisAction.sigma, GaloisAction.applyAbCofactor]
  | some g =>
    cases g with
    | neg => simp [GaloisAction.sigma, GaloisAction.applyAbCofactor]
    | inv | autom3_1 | autom3_2 => simp [GaloisAction.sigma, GaloisAction.applyAbCofactor]
    | autom4_1 | autom6_1 => simpa [GaloisAction.sigma, GaloisAction.applyAbCofactor, sub_eq_add_neg] using shifted

theorem reduce_scaled {d : ℤ} (agree : y % d = 0 → d ∣ x) :
    ((⟨x, y, m⟩ : Image).reduce d).m * ((⟨x, y, m⟩ : Image).reduce d).a = m * x ∧
      ((⟨x, y, m⟩ : Image).reduce d).m * ((⟨x, y, m⟩ : Image).reduce d).b = m * y ∧
      (((⟨x, y, m⟩ : Image).reduce d).m = m * d ∨ ((⟨x, y, m⟩ : Image).reduce d).b % d ≠ 0) := by
  rw [Image.reduce]
  split
  · rename_i divides
    obtain ⟨x', rfl⟩ := agree divides
    obtain ⟨y', rfl⟩ := Int.dvd_of_emod_eq_zero divides
    by_cases zero : d = 0
    · subst zero
      simp
    · rw [Int.mul_tdiv_cancel_left x' zero, Int.mul_ediv_cancel_left y' zero]
      exact ⟨mul_assoc m d x', mul_assoc m d y', .inl rfl⟩
  · exact ⟨rfl, rfl, .inr ‹_›⟩

theorem skewImage_reduce {cb d : ℤ} (range : InRange a b) (le : b ≤ cb) (lt : cb < 2 ^ 64) (divides : d ∣ cb + b)
    (ok : skewImage a b cb = .ok i) :
    (i.reduce d).m * (i.reduce d).a = b - a ∧ (i.reduce d).m * (i.reduce d).b = -a - cb ∧
      ((i.reduce d).m = d ∨ (i.reduce d).m = -d ∨ (i.reduce d).b % d ≠ 0) := by
  obtain ⟨q, sum⟩ := divides
  obtain ⟨-, -, -, -, -, image⟩ := skewImage_ok range le lt ok
  rcases image with ⟨-, rfl⟩ | ⟨-, -, rfl⟩
  · have agree : (a + cb) % d = 0 → d ∣ a - b := fun zero => by
      have other := dvd_sub (Int.dvd_of_emod_eq_zero zero) (Dvd.intro q sum.symm)
      rwa [show a + cb - (cb + b) = a - b by ring] at other
    obtain ⟨first, second, scale⟩ := reduce_scaled (m := -1) agree
    refine ⟨first.trans (by ring), second.trans (by ring), ?_⟩
    rcases scale with scale | kept
    · exact .inr (.inl (scale.trans (by ring)))
    · exact .inr (.inr kept)
  · have agree : (-a - cb) % d = 0 → d ∣ b - a := fun zero => by
      have other := dvd_add (Int.dvd_of_emod_eq_zero zero) (Dvd.intro q sum.symm)
      rwa [show -a - cb + (cb + b) = b - a by ring] at other
    obtain ⟨first, second, scale⟩ := reduce_scaled (m := 1) agree
    refine ⟨first.trans (one_mul _), second.trans (one_mul _), ?_⟩
    rcases scale with scale | kept
    · exact .inl (scale.trans (one_mul d))
    · exact .inr (.inr kept)

structure Transports (g : GaloisAction) (a b : ℤ) (i : Image) : Prop where
  range : InRange i.a i.b
  coprime : IsCoprime i.a i.b
  equation : C i.m * (C i.a - C i.b * X) = g.sigma.denominator * C a - C b * g.sigma.numerator

theorem Transports.of_scaled (range : InRange i.a i.b) (coprime : IsCoprime a b)
    (scaled : g.sigma.Scaled a b i.a i.b i.m)
    (other : IsCoprime g.sigma.det i.b) : Transports g a b i :=
  ⟨range, scaled.coprime_of_second coprime other, scaled.equation⟩

theorem Transports.of_reduced {d : ℤ} (range : InRange i.a i.b) (coprime : IsCoprime a b)
    (scaled : g.sigma.Scaled a b i.a i.b i.m) (det : g.sigma.det = d) (prime : Prime d)
    (scale : i.m = d ∨ i.m = -d ∨ i.b % d ≠ 0) : Transports g a b i := by
  subst det
  refine ⟨range, ?_, scaled.equation⟩
  rcases scale with same | opposite | kept
  · exact scaled.coprime_of_associated coprime prime.ne_zero (.of_eq same.symm)
  · exact scaled.coprime_of_associated coprime prime.ne_zero (opposite ▸ (Associated.refl _).neg_right)
  · exact scaled.coprime_of_second coprime
      (prime.irreducible.coprime_iff_not_dvd.mpr fun divides => kept (Int.emod_eq_zero_of_dvd divides))

theorem transports_of_ok (range : InRange a b) (coprime : IsCoprime a b) (ok : g.applyAb a b = .ok i) :
    Transports g a b i := by
  cases g with
  | none =>
    obtain rfl : (⟨a, b, 1⟩ : Image) = i := Except.ok.inj ok
    exact .of_scaled range coprime ⟨by simp [GaloisAction.sigma], by simp [GaloisAction.sigma]⟩ isCoprime_one_left
  | some g =>
    cases g with
    | inv =>
      obtain ⟨range', image⟩ := Inv.applyAb_ok range ok
      refine .of_scaled range' coprime ?_ isCoprime_one_left.neg_left
      rcases image with ⟨-, rfl⟩ | ⟨-, rfl⟩ <;> constructor <;> simp [GaloisAction.sigma]
    | neg =>
      obtain ⟨range', -, rfl⟩ := Neg.applyAb_ok range ok
      refine .of_scaled range' coprime ?_ isCoprime_one_left.neg_left
      constructor <;> simp [GaloisAction.sigma]
    | autom3_1 =>
      obtain ⟨range', image⟩ := Autom3_1.applyAb_ok range ok
      refine .of_scaled range' coprime ?_ isCoprime_one_left
      rcases image with ⟨-, rfl⟩ | ⟨-, -, rfl⟩ <;> constructor <;> simp [GaloisAction.sigma]
    | autom3_2 =>
      obtain ⟨range', image⟩ := Autom3_2.applyAb_ok range ok
      refine .of_scaled range' coprime ?_ isCoprime_one_left
      rcases image with ⟨-, rfl⟩ | ⟨-, -, rfl⟩ <;> constructor <;> simp [GaloisAction.sigma] <;> ring
    | autom4_1 =>
      obtain ⟨range', -⟩ := Autom4_1.applyAb_ok range ok
      obtain ⟨i', first, ok⟩ := bind_ok.mp ok
      obtain ⟨same_a, same_b, scale⟩ := skewImage_reduce range le_rfl range.b_lt (Dvd.intro b (two_mul b)) first
      obtain rfl : i'.reduce 2 = i := Except.ok.inj ok
      refine .of_reduced range' coprime ⟨same_a.trans ?_, same_b.trans ?_⟩ rfl Int.prime_two scale
      all_goals
        simp only [GaloisAction.sigma]
        ring
    | autom6_1 =>
      obtain ⟨range', -⟩ := Autom6_1.applyAb_ok range ok
      have b_nonneg := range.b_nonneg
      obtain ⟨u, fits, ok⟩ := bind_ok.mp ok
      obtain ⟨twice, same⟩ := word_add b_nonneg range.b_lt b_nonneg range.b_lt (noOverflow_ok.mp fits)
      rw [same] at ok
      obtain ⟨i', first, ok⟩ := bind_ok.mp ok
      obtain ⟨same_a, same_b, scale⟩ := skewImage_reduce (d := 3) range (by omega) twice ⟨b, by ring⟩ first
      obtain rfl : i'.reduce 3 = i := Except.ok.inj ok
      refine .of_reduced range' coprime ⟨same_a.trans ?_, same_b.trans ?_⟩ rfl Int.prime_three scale
      all_goals
        simp only [GaloisAction.sigma]
        ring

/-- `apply_ab` reports an overflow or transports the relation. -/
def AppliesExactly (g : GaloisAction) (a b : ℤ) : Prop :=
  g.applyAb a b = .error .overflow ∨ ∃ i, g.applyAb a b = .ok i ∧ Transports g a b i

theorem applyAb_fails_otherwise : (∃ e, g.applyAb a b = .error e ∧ e ≠ .overflow) ↔
    g = some .neg ∧ (a = 0 ∨ a = -2 ^ 63) := by
  constructor
  · rintro ⟨e, failed, other⟩
    cases g with
    | none => cases failed
    | some g =>
      by_contra regular
      have nonzero (same : g = .neg) : a ≠ 0 ∧ a ≠ -2 ^ 63 :=
        not_or.mp fun either => regular ⟨congrArg some same, either⟩
      exact other (onlyOverflows_applyAb nonzero e failed)
  · rintro ⟨rfl, rfl | rfl⟩
    · exact ⟨.assertion, rfl, by decide⟩
    · exact ⟨.undefined, rfl, by decide⟩

/-- Only `autom2.2` at `a = 0` and at `a = INT64_MIN` neither reports an overflow nor returns the image. -/
theorem appliesExactly_iff (g : GaloisAction) (a b : ℤ) (coprime : IsCoprime a b) (range : InRange a b) :
    (∀ p r : ℕ, r < p → g.sigma.denominator.eval (r : ℤ) ≡ g.applyAbCofactor r p [ZMOD p]) ∧
      (AppliesExactly g a b ↔ ¬ (g = some .neg ∧ (a = 0 ∨ a = -2 ^ 63))) := by
  refine ⟨fun p r lt => applyAbCofactor_modEq g lt, ?_⟩
  rw [← applyAb_fails_otherwise (b := b)]
  constructor
  · rintro (same | ⟨i, same, -⟩) ⟨e, failed, other⟩
    · exact other (Except.error.inj (failed.symm.trans same))
    · cases failed.symm.trans same
  · intro regular
    cases applied : g.applyAb a b with
    | ok i => exact .inr ⟨i, applied, transports_of_ok range coprime applied⟩
    | error e =>
      obtain rfl : e = .overflow := by_contra fun other => regular ⟨e, applied, other⟩
      exact .inl applied

theorem appliesExactly_iff_one_one :
    (∀ p r : ℕ, r < p → (GaloisAction.sigma (some .autom6_1)).denominator.eval (r : ℤ) ≡
      GaloisAction.applyAbCofactor (some .autom6_1) r p [ZMOD p]) ∧
      (AppliesExactly (some .autom6_1) 1 1 ↔
        ¬ (some Action.autom6_1 = some .neg ∧ ((1 : ℤ) = 0 ∨ (1 : ℤ) = -2 ^ 63))) :=
  appliesExactly_iff (some .autom6_1) 1 1 isCoprime_one_left ⟨by norm_num, by norm_num, by norm_num, by norm_num⟩

theorem neg_zero_fails : IsCoprime (0 : ℤ) 1 ∧ InRange 0 1 ∧ ¬ AppliesExactly (some .neg) 0 1 := by
  refine ⟨isCoprime_one_right, ⟨by norm_num, by norm_num, by norm_num, by norm_num⟩, ?_⟩
  rintro (same | ⟨i, same, -⟩)
  · cases same
  · cases same

end CadoNfs.Utils.Galois
