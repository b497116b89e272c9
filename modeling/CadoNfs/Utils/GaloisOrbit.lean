import CadoNfs.Utils.GaloisAction

/-!
# Hashes of Galois orbits

`hash_ab` hashes one pair of the orbit.
-/

namespace CadoNfs.Utils.Galois

def divideOut (d x y : ℤ) : ℤ × ℤ := if y % d = 0 then (x / d, y / d) else (x, y)

def Action.representative (g : Action) (a b : ℤ) : ℤ × ℤ :=
  match g with
  | inv => if (a.natAbs : ℤ) ≤ b then (a, b) else if 0 ≤ a then (b, a) else (-b, -a)
  | neg => (a.natAbs, b)
  | autom3_1 => if a ≤ 0 then (a, b) else if a < b then (a - b, a) else (-b, a - b)
  | autom3_2 => if 0 < a then (a, b) else if -a < b then (a + b, -a) else (b, -a - b)
  | autom4_1 =>
    if 0 < a ∧ b < a then (a, b)
    else if a < 0 ∧ -a < b then (b, -a)
    else if 0 < a then divideOut 2 (a + b) (b - a) else divideOut 2 (b - a) (-a - b)
  | autom6_1 =>
    if 0 < a ∧ b < a then (a, b)
    else if 0 < a then divideOut 3 (2 * a + b) (b - a)
    else if 2 * -a < b then (a + b, -a)
    else if -a < b then divideOut 3 (2 * b + a) (2 * -a - b)
    else if -a < 2 * b then (b, -a - b)
    else divideOut 3 (b - a) (-a - 2 * b)

def Action.Boundary (g : Action) (a b : ℤ) : Prop :=
  match g with
  | inv => False
  | neg => a = 0
  | autom3_1 => a = 0 ∨ b = 0 ∨ a = b
  | autom3_2 => a < 0 ∧ b = 0
  | autom4_1 => a = 0 ∨ b = 0 ∨ a = b ∨ a = -b
  | autom6_1 => a = 0 ∨ b = 0 ∨ a = b ∨ a = -b ∨ a = -2 * b ∨ 2 * a = -b

def Action.Primitive (g : Action) (a b : ℤ) : Prop :=
  match g with
  | autom4_1 => ¬ (a % 2 = 0 ∧ b % 2 = 0)
  | autom6_1 => ¬ (a % 3 = 0 ∧ b % 3 = 0)
  | _ => ¬ (a = 0 ∧ b = 0)

structure Regular (g : Action) (a b : ℤ) : Prop where
  range : InRange a b
  primitive : g.Primitive a b
  inside : ¬ g.Boundary a b

variable {g : Action} {a b CA CB : ℤ} {i : Image}

/-! ## The representative of the image -/

theorem pair_eq {x y x' y' : ℤ} (first : x = x') (second : y = y') : (x, y) = (x', y') := by rw [first, second]

theorem step_inv (regular : Regular .inv a b) (ok : Inv.applyAb a b = .ok i) :
    Regular .inv i.a i.b ∧ Action.inv.representative i.a i.b = Action.inv.representative a b := by
  obtain ⟨range, primitive, inside⟩ := regular
  have nonneg := range.b_nonneg
  obtain ⟨range', image⟩ := Inv.applyAb_ok range ok
  have linear : a < 0 ∧ i.a = -b ∧ i.b = -a ∨ 0 ≤ a ∧ i.a = b ∧ i.b = a := by
    rcases image with ⟨negative, rfl⟩ | ⟨positive, rfl⟩
    · exact .inl ⟨negative, rfl, rfl⟩
    · exact .inr ⟨positive, rfl, rfl⟩
  clear image
  refine ⟨⟨range', ?_, id⟩, ?_⟩
  · rintro ⟨first, second⟩
    exact primitive (by omega)
  · simp only [Action.representative]
    rcases linear with ⟨negative, first, second⟩ | ⟨nonneg', first, second⟩
    · by_cases less : (a.natAbs : ℤ) ≤ b
      · rw [if_pos less]
        split_ifs <;> exact pair_eq (by omega) (by omega)
      · rw [if_neg less, if_neg (not_le.mpr negative), first, second, if_pos (by omega)]
    · by_cases less : (a.natAbs : ℤ) ≤ b
      · rw [if_pos less]
        split_ifs <;> exact pair_eq (by omega) (by omega)
      · rw [if_neg less, if_pos nonneg', first, second, if_pos (by omega)]

theorem step_neg (regular : Regular .neg a b) (ok : Neg.applyAb a b = .ok i) :
    Regular .neg i.a i.b ∧ Action.neg.representative i.a i.b = Action.neg.representative a b := by
  obtain ⟨range, primitive, inside⟩ := regular
  obtain ⟨range', nonzero, rfl⟩ := Neg.applyAb_ok range ok
  refine ⟨⟨range', ?_, ?_⟩, ?_⟩
  · simp only [Action.Primitive] at primitive ⊢
    omega
  · simp only [Action.Boundary]
    omega
  · simp only [Action.representative, Int.natAbs_neg]

theorem step_autom3_1 (regular : Regular .autom3_1 a b) (ok : Autom3_1.applyAb a b = .ok i) :
    Regular .autom3_1 i.a i.b ∧ Action.autom3_1.representative i.a i.b = Action.autom3_1.representative a b := by
  obtain ⟨range, primitive, inside⟩ := regular
  have nonneg := range.b_nonneg
  obtain ⟨range', image⟩ := Autom3_1.applyAb_ok range ok
  have linear : (a ≤ 0 ∨ a < b) ∧ i.a = b ∧ i.b = b - a ∨ 0 < a ∧ b ≤ a ∧ i.a = -b ∧ i.b = a - b := by
    rcases image with ⟨side, rfl⟩ | ⟨positive, more, rfl⟩
    · exact .inl ⟨side, rfl, rfl⟩
    · exact .inr ⟨positive, more, rfl, rfl⟩
  clear image
  simp only [Action.Boundary, not_or] at inside
  obtain ⟨a_ne, b_ne, same⟩ := inside
  have b_pos : 0 < b := nonneg.lt_of_ne' b_ne
  refine ⟨⟨range', ?_, ?_⟩, ?_⟩
  · rintro ⟨first, second⟩
    exact primitive (by omega)
  · rintro (zero | zero | zero) <;> omega
  · simp only [Action.representative]
    rcases linear with ⟨side, first, second⟩ | ⟨a_pos, more, first, second⟩
    · rw [first, second, if_neg (not_le.mpr b_pos)]
      rcases lt_or_gt_of_ne a_ne with a_neg | a_pos
      · rw [if_pos a_neg.le, if_pos (by omega)]
        exact pair_eq (by omega) rfl
      · rw [if_neg (not_le.mpr a_pos), if_neg (by omega), if_pos (by omega)]
        exact pair_eq (by omega) (by omega)
    · rw [first, second, if_pos (by omega), if_neg (not_le.mpr a_pos), if_neg (not_lt.mpr more)]

theorem step_autom3_2 (regular : Regular .autom3_2 a b) (ok : Autom3_2.applyAb a b = .ok i) :
    Regular .autom3_2 i.a i.b ∧ Action.autom3_2.representative i.a i.b = Action.autom3_2.representative a b := by
  obtain ⟨range, primitive, inside⟩ := regular
  have nonneg := range.b_nonneg
  obtain ⟨range', image⟩ := Autom3_2.applyAb_ok range ok
  have linear : (0 ≤ a ∨ -a < b) ∧ i.a = -b ∧ i.b = a + b ∨ a < 0 ∧ b ≤ -a ∧ i.a = b ∧ i.b = -a - b := by
    rcases image with ⟨side, rfl⟩ | ⟨negative, more, rfl⟩
    · exact .inl ⟨side, rfl, rfl⟩
    · exact .inr ⟨negative, more, rfl, rfl⟩
  simp only [Action.Primitive, Action.Boundary] at primitive inside
  refine ⟨⟨range', ?_, ?_⟩, ?_⟩
  · simp only [Action.Primitive]
    omega
  · simp only [Action.Boundary]
    omega
  · simp only [Action.representative]
    split_ifs <;> exact pair_eq (by omega) (by omega)

/-! ## The actions that take out a factor

Off the boundary the half plane is cut into as many sectors as the action has order, and the action turns each into the
next one. -/

theorem divideOut_eq {d x y x' y' : ℤ} (d_ne : d ≠ 0) (h : d * x' = x ∧ d * y' = y ∨ x' = x ∧ y' = y ∧ y % d ≠ 0) :
    divideOut d x y = (x', y') := by
  rw [divideOut]
  rcases h with ⟨rfl, rfl⟩ | ⟨rfl, rfl, kept⟩
  · rw [if_pos (Int.mul_emod_right d y'), Int.mul_ediv_cancel_left x' d_ne, Int.mul_ediv_cancel_left y' d_ne]
  · rw [if_neg kept]

theorem divideOut_back {d u v x y X Y x' y' : ℤ} (d_ne : d ≠ 0)
    (image : x = u ∧ y = v ∧ v % d ≠ 0 ∨ d * x = u ∧ d * y = v)
    (full : x = u → y = v → d * x' = X ∧ d * y' = Y) (part : d * x = u → d * y = v → x' = X ∧ y' = Y ∧ Y % d ≠ 0) :
    divideOut d X Y = (x', y') := by
  refine divideOut_eq d_ne ?_
  rcases image with ⟨first, second, -⟩ | ⟨first, second⟩
  · exact .inl (full first second)
  · exact .inr (part first second)

theorem Reduced.linear {d x y : ℤ} (image : Reduced d x y i) :
    i.a = x ∧ i.b = y ∧ y % d ≠ 0 ∨ d * i.a = x ∧ d * i.b = y := by
  cases image with
  | kept first second other => exact .inl ⟨first, second, other⟩
  | divided first second => exact .inr ⟨first, second⟩

theorem autom4_1_first (b_pos : 0 < b) (lt : b < a) : Action.autom4_1.representative a b = (a, b) :=
  if_pos ⟨b_pos.trans lt, lt⟩

theorem autom4_1_second (a_pos : 0 < a) (lt : a < b) :
    Action.autom4_1.representative a b = divideOut 2 (a + b) (b - a) := by
  rw [Action.representative, if_neg (by omega), if_neg (by omega), if_pos a_pos]

theorem autom4_1_third (a_neg : a < 0) (lt : -a < b) : Action.autom4_1.representative a b = (b, -a) := by
  rw [Action.representative, if_neg (by omega), if_pos ⟨a_neg, lt⟩]

theorem autom4_1_fourth (b_pos : 0 < b) (lt : b < -a) :
    Action.autom4_1.representative a b = divideOut 2 (b - a) (-a - b) := by
  rw [Action.representative, if_neg (by omega), if_neg (by omega), if_neg (by omega)]

theorem autom4_1_sectors (nonneg : 0 ≤ b) (inside : ¬ Action.autom4_1.Boundary a b) :
    0 < b ∧ b < a ∨ 0 < a ∧ a < b ∨ a < 0 ∧ -a < b ∨ 0 < b ∧ b < -a := by
  simp only [Action.Boundary] at inside
  omega

theorem autom4_1_inside (sectors : 0 < b ∧ b < a ∨ 0 < a ∧ a < b ∨ a < 0 ∧ -a < b ∨ 0 < b ∧ b < -a) :
    ¬ Action.autom4_1.Boundary a b := by
  rintro (same | same | same | same) <;> omega

theorem autom4_1_congruent {x : ℤ} (primitive : Action.autom4_1.Primitive a b) (same : 2 * x = a - b) : b % 2 ≠ 0 :=
  fun second => primitive ⟨by omega, second⟩

theorem autom4_1_primitive_right {x y : ℤ} (primitive : Action.autom4_1.Primitive a b)
    (image : x = a - b ∧ y = a + b ∧ (a + b) % 2 ≠ 0 ∨ 2 * x = a - b ∧ 2 * y = a + b) :
    Action.autom4_1.Primitive x y := by
  rintro ⟨first, second⟩
  rcases image with ⟨-, rfl, kept⟩ | ⟨same, same'⟩
  · exact kept second
  · exact autom4_1_congruent primitive same (by omega)

theorem autom4_1_primitive_left {x y : ℤ} (primitive : Action.autom4_1.Primitive a b)
    (image : x = b - a ∧ y = -a - b ∧ (-a - b) % 2 ≠ 0 ∨ 2 * x = b - a ∧ 2 * y = -a - b) :
    Action.autom4_1.Primitive x y := by
  rintro ⟨first, second⟩
  rcases image with ⟨-, rfl, kept⟩ | ⟨same, same'⟩
  · exact kept second
  · exact autom4_1_congruent (x := -x) primitive (by omega) (by omega)

theorem step_autom4_1 (regular : Regular .autom4_1 a b) (ok : Autom4_1.applyAb a b = .ok i) :
    Regular .autom4_1 i.a i.b ∧ Action.autom4_1.representative i.a i.b = Action.autom4_1.representative a b := by
  obtain ⟨range, primitive, inside⟩ := regular
  have two : (2 : ℤ) ≠ 0 := by norm_num
  obtain ⟨range', -, -, -, image⟩ := Autom4_1.applyAb_ok range ok
  rcases autom4_1_sectors range.b_nonneg inside with ⟨b_pos, lt⟩ | ⟨a_pos, lt⟩ | ⟨a_neg, lt⟩ | ⟨b_pos, lt⟩
  · replace image := (image.resolve_right fun left => by omega).2.linear
    have next : 0 < i.a ∧ i.a < i.b := by omega
    refine ⟨⟨range', autom4_1_primitive_right primitive image, autom4_1_inside (.inr (.inl next))⟩, ?_⟩
    rw [autom4_1_first b_pos lt, autom4_1_second next.1 next.2]
    clear next range' inside
    refine divideOut_back two image (fun _ _ => ⟨by omega, by omega⟩) fun first _ => ?_
    have other := autom4_1_congruent primitive first
    omega
  · replace image := (image.resolve_right fun left => by omega).2.linear
    have next : i.a < 0 ∧ -i.a < i.b := by omega
    refine ⟨⟨range', autom4_1_primitive_right primitive image, autom4_1_inside (.inr (.inr (.inl next)))⟩, ?_⟩
    rw [autom4_1_second a_pos lt, autom4_1_third next.1 next.2]
    clear next range' inside
    rcases image with ⟨first, second, kept⟩ | ⟨first, second⟩
    · exact (divideOut_eq two (.inr ⟨by omega, by omega, by omega⟩)).symm
    · exact (divideOut_eq two (.inl ⟨by omega, by omega⟩)).symm
  · replace image := (image.resolve_right fun left => by omega).2.linear
    have next : 0 < i.b ∧ i.b < -i.a := by omega
    refine ⟨⟨range', autom4_1_primitive_right primitive image, autom4_1_inside (.inr (.inr (.inr next)))⟩, ?_⟩
    rw [autom4_1_third a_neg lt, autom4_1_fourth next.1 next.2]
    clear next range' inside
    refine divideOut_back two image (fun _ _ => ⟨by omega, by omega⟩) fun first _ => ?_
    have other := autom4_1_congruent primitive first
    omega
  · replace image := (image.resolve_left fun right => by omega).2.2.linear
    have next : 0 < i.b ∧ i.b < i.a := by omega
    refine ⟨⟨range', autom4_1_primitive_left primitive image, autom4_1_inside (.inl next)⟩, ?_⟩
    rw [autom4_1_fourth b_pos lt, autom4_1_first next.1 next.2]
    clear next range' inside
    rcases image with ⟨first, second, kept⟩ | ⟨first, second⟩
    · exact (divideOut_eq two (.inr ⟨by omega, by omega, by omega⟩)).symm
    · exact (divideOut_eq two (.inl ⟨by omega, by omega⟩)).symm

theorem autom6_1_first (b_pos : 0 < b) (lt : b < a) : Action.autom6_1.representative a b = (a, b) :=
  if_pos ⟨b_pos.trans lt, lt⟩

theorem autom6_1_second (a_pos : 0 < a) (lt : a < b) :
    Action.autom6_1.representative a b = divideOut 3 (2 * a + b) (b - a) := by
  rw [Action.representative, if_neg (by omega), if_pos a_pos]

theorem autom6_1_third (a_neg : a < 0) (lt : 2 * -a < b) : Action.autom6_1.representative a b = (a + b, -a) := by
  rw [Action.representative, if_neg (by omega), if_neg (by omega), if_pos lt]

theorem autom6_1_fourth (gt : b < 2 * -a) (lt : -a < b) :
    Action.autom6_1.representative a b = divideOut 3 (2 * b + a) (2 * -a - b) := by
  rw [Action.representative, if_neg (by omega), if_neg (by omega), if_neg (by omega), if_pos lt]

theorem autom6_1_fifth (gt : b < -a) (lt : -a < 2 * b) : Action.autom6_1.representative a b = (b, -a - b) := by
  rw [Action.representative, if_neg (by omega), if_neg (by omega), if_neg (by omega), if_neg (by omega), if_pos lt]

theorem autom6_1_sixth (b_pos : 0 < b) (gt : 2 * b < -a) :
    Action.autom6_1.representative a b = divideOut 3 (b - a) (-a - 2 * b) := by
  rw [Action.representative, if_neg (by omega), if_neg (by omega), if_neg (by omega), if_neg (by omega),
    if_neg (by omega)]

theorem autom6_1_sectors (nonneg : 0 ≤ b) (inside : ¬ Action.autom6_1.Boundary a b) :
    0 < b ∧ b < a ∨ 0 < a ∧ a < b ∨ a < 0 ∧ 2 * -a < b ∨ b < 2 * -a ∧ -a < b ∨ b < -a ∧ -a < 2 * b ∨
      0 < b ∧ 2 * b < -a := by
  simp only [Action.Boundary, not_or] at inside
  obtain ⟨a_ne, b_ne, same, opposite, double, half⟩ := inside
  have b_pos : 0 < b := nonneg.lt_of_ne' b_ne
  rcases lt_or_gt_of_ne a_ne with a_neg | a_pos
  · rcases lt_or_gt_of_ne opposite with below | above
    · rcases lt_or_gt_of_ne double with farBelow | above
      · exact .inr (.inr (.inr (.inr (.inr ⟨b_pos, by omega⟩))))
      · exact .inr (.inr (.inr (.inr (.inl ⟨by omega, by omega⟩))))
    · rcases lt_or_gt_of_ne half with below | farAbove
      · exact .inr (.inr (.inr (.inl ⟨by omega, by omega⟩)))
      · exact .inr (.inr (.inl ⟨a_neg, by omega⟩))
  · rcases lt_or_gt_of_ne same with less | more
    · exact .inr (.inl ⟨a_pos, less⟩)
    · exact .inl ⟨b_pos, more⟩

theorem autom6_1_inside (sectors : 0 < b ∧ b < a ∨ 0 < a ∧ a < b ∨ a < 0 ∧ 2 * -a < b ∨ b < 2 * -a ∧ -a < b ∨
    b < -a ∧ -a < 2 * b ∨ 0 < b ∧ 2 * b < -a) : ¬ Action.autom6_1.Boundary a b := by
  rintro (same | same | same | same | same | same) <;> omega

theorem autom6_1_congruent {x : ℤ} (primitive : Action.autom6_1.Primitive a b) (same : 3 * x = a - b) : b % 3 ≠ 0 :=
  fun second => primitive ⟨by omega, second⟩

theorem autom6_1_primitive_right {x y : ℤ} (primitive : Action.autom6_1.Primitive a b)
    (image : x = a - b ∧ y = a + 2 * b ∧ (a + 2 * b) % 3 ≠ 0 ∨ 3 * x = a - b ∧ 3 * y = a + 2 * b) :
    Action.autom6_1.Primitive x y := by
  rintro ⟨first, second⟩
  rcases image with ⟨-, rfl, kept⟩ | ⟨same, same'⟩
  · exact kept second
  · exact autom6_1_congruent primitive same (by omega)

theorem autom6_1_primitive_left {x y : ℤ} (primitive : Action.autom6_1.Primitive a b)
    (image : x = b - a ∧ y = -a - 2 * b ∧ (-a - 2 * b) % 3 ≠ 0 ∨ 3 * x = b - a ∧ 3 * y = -a - 2 * b) :
    Action.autom6_1.Primitive x y := by
  rintro ⟨first, second⟩
  rcases image with ⟨-, rfl, kept⟩ | ⟨same, same'⟩
  · exact kept second
  · exact autom6_1_congruent (x := -x) primitive (by omega) (by omega)

theorem step_autom6_1 (regular : Regular .autom6_1 a b) (ok : Autom6_1.applyAb a b = .ok i) :
    Regular .autom6_1 i.a i.b ∧ Action.autom6_1.representative i.a i.b = Action.autom6_1.representative a b := by
  obtain ⟨range, primitive, inside⟩ := regular
  have three : (3 : ℤ) ≠ 0 := by norm_num
  obtain ⟨range', -, -, -, -, image⟩ := Autom6_1.applyAb_ok range ok
  rcases autom6_1_sectors range.b_nonneg inside with ⟨b_pos, lt⟩ | ⟨a_pos, lt⟩ | ⟨a_neg, lt⟩ | ⟨gt, lt⟩ | ⟨gt, lt⟩ | ⟨b_pos, gt⟩
  · replace image := (image.resolve_right fun left => by omega).2.linear
    have next : 0 < i.a ∧ i.a < i.b := by omega
    refine ⟨⟨range', autom6_1_primitive_right primitive image, autom6_1_inside (.inr (.inl next))⟩, ?_⟩
    rw [autom6_1_first b_pos lt, autom6_1_second next.1 next.2]
    clear next range' inside
    refine divideOut_back three image (fun _ _ => ⟨by omega, by omega⟩) fun first _ => ?_
    have other := autom6_1_congruent primitive first
    omega
  · replace image := (image.resolve_right fun left => by omega).2.linear
    have next : i.a < 0 ∧ 2 * -i.a < i.b := by omega
    refine ⟨⟨range', autom6_1_primitive_right primitive image, autom6_1_inside (.inr (.inr (.inl next)))⟩, ?_⟩
    rw [autom6_1_second a_pos lt, autom6_1_third next.1 next.2]
    clear next range' inside
    rcases image with ⟨first, second, kept⟩ | ⟨first, second⟩
    · exact (divideOut_eq three (.inr ⟨by omega, by omega, by omega⟩)).symm
    · exact (divideOut_eq three (.inl ⟨by omega, by omega⟩)).symm
  · replace image := (image.resolve_right fun left => by omega).2.linear
    have next : i.b < 2 * -i.a ∧ -i.a < i.b := by omega
    refine ⟨⟨range', autom6_1_primitive_right primitive image, autom6_1_inside (.inr (.inr (.inr (.inl next))))⟩, ?_⟩
    rw [autom6_1_third a_neg lt, autom6_1_fourth next.1 next.2]
    clear next range' inside
    refine divideOut_back three image (fun _ _ => ⟨by omega, by omega⟩) fun first _ => ?_
    have other := autom6_1_congruent primitive first
    omega
  · replace image := (image.resolve_right fun left => by omega).2.linear
    have next : i.b < -i.a ∧ -i.a < 2 * i.b := by omega
    refine ⟨⟨range', autom6_1_primitive_right primitive image, autom6_1_inside (.inr (.inr (.inr (.inr (.inl next)))))⟩, ?_⟩
    rw [autom6_1_fourth gt lt, autom6_1_fifth next.1 next.2]
    clear next range' inside
    rcases image with ⟨first, second, kept⟩ | ⟨first, second⟩
    · exact (divideOut_eq three (.inr ⟨by omega, by omega, by omega⟩)).symm
    · exact (divideOut_eq three (.inl ⟨by omega, by omega⟩)).symm
  · replace image := (image.resolve_right fun left => by omega).2.linear
    have next : 0 < i.b ∧ 2 * i.b < -i.a := by omega
    refine ⟨⟨range', autom6_1_primitive_right primitive image, autom6_1_inside (.inr (.inr (.inr (.inr (.inr next)))))⟩, ?_⟩
    rw [autom6_1_fifth gt lt, autom6_1_sixth next.1 next.2]
    clear next range' inside
    refine divideOut_back three image (fun _ _ => ⟨by omega, by omega⟩) fun first _ => ?_
    have other := autom6_1_congruent primitive first
    omega
  · replace image := (image.resolve_left fun right => by omega).2.2.linear
    have next : 0 < i.b ∧ i.b < i.a := by omega
    refine ⟨⟨range', autom6_1_primitive_left primitive image, autom6_1_inside (.inl next)⟩, ?_⟩
    rw [autom6_1_sixth b_pos gt, autom6_1_first next.1 next.2]
    clear next range' inside
    rcases image with ⟨first, second, kept⟩ | ⟨first, second⟩
    · exact (divideOut_eq three (.inr ⟨by omega, by omega, by omega⟩)).symm
    · exact (divideOut_eq three (.inl ⟨by omega, by omega⟩)).symm

/-! ## The hash is the hash of the representative -/

theorem divideOut_word {d x y z : ℤ} {p : Prop} [Decidable p] (agree : p ↔ y % d = 0) (x_nonneg : 0 ≤ x)
    (x_lt : x < 2 ^ 64)
    (y_nonneg : 0 ≤ y) (y_lt : y < 2 ^ 64) (other : z = CA * x + CB * y) :
    (if p then word (CA * (word x / d) + CB * (word y / d)) else word z) =
      word (CA * (divideOut d x y).1 + CB * (divideOut d x y).2) := by
  rw [divideOut, word_of_lt x_nonneg x_lt, word_of_lt y_nonneg y_lt]
  by_cases divides : y % d = 0
  · rw [if_pos divides, if_pos (agree.mpr divides)]
  · rw [if_neg divides, if_neg fun here => divides (agree.mp here), other]

theorem divideOut_linear {d x y r : ℤ} {p : Prop} [Decidable p] (d_ne : d ≠ 0) (agree : p ↔ y % d = 0)
    (first : y % d = 0 → d ∣ x) (same : r = x * CA + y * CB) :
    (if p then r / d else r) = (divideOut d x y).1 * CA + (divideOut d x y).2 * CB := by
  rw [divideOut]
  by_cases divides : y % d = 0
  · obtain ⟨x', rfl⟩ := first divides
    obtain ⟨y', rfl⟩ := Int.dvd_of_emod_eq_zero divides
    rw [if_pos divides, if_pos (agree.mpr divides), Int.mul_ediv_cancel_left x' d_ne, Int.mul_ediv_cancel_left y' d_ne]
    refine Int.ediv_eq_of_eq_mul_right d_ne (same.trans ?_)
    ring
  · rw [if_neg divides, if_neg fun here => divides (agree.mp here)]
    exact same

structure HashesRepresentative (g : Action) (a b : ℤ) : Prop where
  word : ∀ CA CB, g.hashAb a b CA CB = word (CA * (g.representative a b).1 + CB * (g.representative a b).2)
  mpz : ∀ CA CB, 0 ≤ CA →
    g.hashAbMpz a b CA CB = finish ((g.representative a b).1 * CA + (g.representative a b).2 * CB)

theorem hash_inv (nonneg : 0 ≤ b) : HashesRepresentative .inv a b := by
  refine ⟨fun CA CB => ?_, fun CA CB _ => ?_⟩
  · simp only [Action.hashAb, Inv.hashAb, Action.representative]
    have abs : safeAbs64 a = a.natAbs := rfl
    rw [abs]
    by_cases small : (a.natAbs : ℤ) ≤ b
    · rw [if_pos small, if_pos small]
    · rw [if_neg small, if_neg small]
      by_cases positive : 0 ≤ a
      · rw [if_pos positive, if_pos positive, Int.natAbs_of_nonneg positive]
      · rw [if_neg positive, if_neg positive, Int.ofNat_natAbs_of_nonpos (not_le.mp positive).le]
  · simp only [Action.hashAbMpz, Inv.hashAbMpz, Action.representative]
    by_cases small : (a.natAbs : ℤ) ≤ b
    · rw [if_pos small, if_pos (by omega)]
    · rw [if_neg small, if_neg (by omega)]
      by_cases positive : 0 ≤ a
      · rw [if_pos positive, if_neg (by omega)]
      · rw [if_neg positive, if_pos (by omega)]
        congr 1
        ring

theorem hash_neg : HashesRepresentative .neg a b := by
  refine ⟨fun CA CB => rfl, fun CA CB nonneg => ?_⟩
  simp only [Action.hashAbMpz, Neg.hashAbMpz, Action.representative]
  rw [Int.natAbs_mul, Nat.cast_mul, Int.natAbs_of_nonneg nonneg]

theorem hash_autom3_1 : HashesRepresentative .autom3_1 a b := by
  refine ⟨fun CA CB => ?_, fun CA CB _ => ?_⟩
  · simp only [Action.hashAb, Autom3_1.hashAb, Action.representative]
    split_ifs <;> rfl
  · simp only [Action.hashAbMpz, Autom3_1.hashAbMpz, Action.representative]
    split_ifs
    · rfl
    · congr 1
      ring
    · congr 1
      ring

theorem hash_autom3_2 (range : InRange a b) : HashesRepresentative .autom3_2 a b := by
  obtain ⟨a_ge, -, nonneg, -⟩ := range
  refine ⟨fun CA CB => ?_, fun CA CB _ => ?_⟩
  · simp only [Action.hashAb, Autom3_2.hashAb, Action.representative]
    by_cases positive : 0 < a
    · rw [if_pos positive, if_pos positive]
    · rw [if_neg positive, if_neg positive, word_of_lt (x := -a) (by omega) (by omega)]
      split
      · congr 1
        ring
      · congr 1
        ring
  · simp only [Action.hashAbMpz, Autom3_2.hashAbMpz, Action.representative]
    by_cases positive : 0 < a
    · rw [if_pos positive, if_pos positive]
    · rw [if_neg positive, if_neg positive]
      by_cases less : -a < b
      · rw [if_pos less, if_pos (by omega)]
        congr 1
        ring
      · rw [if_neg less, if_neg (by omega)]
        congr 1
        ring

theorem hash_autom4_1 (regular : Regular .autom4_1 a b) (sum : a + b < 2 ^ 64) (difference : b - a < 2 ^ 63) :
    HashesRepresentative .autom4_1 a b := by
  obtain ⟨⟨a_ge, a_lt, nonneg, b_lt⟩, -, inside⟩ := regular
  have two : (2 : ℤ) ≠ 0 := by norm_num
  refine ⟨fun CA CB => ?_, fun CA CB _ => ?_⟩
  · show Autom4_1.hashAb a b CA CB = _
    have abs : safeAbs64 a = a.natAbs := rfl
    rw [Autom4_1.hashAb, abs]
    rcases autom4_1_sectors nonneg inside with ⟨b_pos, lt⟩ | ⟨a_pos, lt⟩ | ⟨a_neg, lt⟩ | ⟨b_pos, lt⟩
    · rw [autom4_1_first b_pos lt, if_pos (by omega)]
    · rw [autom4_1_second a_pos lt, if_neg (by omega), if_neg (by omega), if_pos a_pos]
      exact divideOut_word (by omega) (by omega) sum (by omega) (by omega) rfl
    · rw [autom4_1_third a_neg lt, if_neg (by omega), if_pos (by omega)]
      congr 1
      ring
    · rw [autom4_1_fourth b_pos lt, if_neg (by omega), if_neg (by omega), if_neg (by omega)]
      exact divideOut_word (by omega) (by omega) (by omega) (by omega) (by omega) (by ring)
  · show Autom4_1.hashAbMpz a b CA CB = _
    rw [Autom4_1.hashAbMpz]
    rcases autom4_1_sectors nonneg inside with ⟨b_pos, lt⟩ | ⟨a_pos, lt⟩ | ⟨a_neg, lt⟩ | ⟨b_pos, lt⟩
    · rw [autom4_1_first b_pos lt, if_pos (by omega)]
    · rw [autom4_1_second a_pos lt, if_neg (by omega), if_neg (by omega), if_pos a_pos]
      exact congrArg finish (divideOut_linear two (by omega) (by omega) (by ring))
    · rw [autom4_1_third a_neg lt, if_neg (by omega), if_pos (by omega)]
      congr 1
      ring
    · rw [autom4_1_fourth b_pos lt, if_neg (by omega), if_neg (by omega), if_neg (by omega)]
      exact congrArg finish (divideOut_linear two (by omega) (by omega) (by ring))

theorem hash_autom6_1 (regular : Regular .autom6_1 a b) (a_gt : -2 ^ 63 < a) (sum : a + 2 * b < 2 ^ 64)
    (twice : 2 * b < 2 ^ 64) (difference : b - a < 2 ^ 63) : HashesRepresentative .autom6_1 a b := by
  obtain ⟨⟨-, a_lt, nonneg, b_lt⟩, -, inside⟩ := regular
  have three : (3 : ℤ) ≠ 0 := by norm_num
  refine ⟨fun CA CB => ?_, fun CA CB _ => ?_⟩
  · show Autom6_1.hashAb a b CA CB = _
    have abs : safeAbs64 a = a.natAbs := rfl
    rw [Autom6_1.hashAb, abs, word_of_lt (x := 2 * (a.natAbs : ℤ)) (by omega) (by omega), word_of_lt (x := 2 * b)
      (by omega) twice]
    rcases autom6_1_sectors nonneg inside with ⟨b_pos, lt⟩ | ⟨a_pos, lt⟩ | ⟨a_neg, lt⟩ | ⟨gt, lt⟩ | ⟨gt, lt⟩ |
      ⟨b_pos, gt⟩
    · rw [autom6_1_first b_pos lt, if_pos (by omega)]
    · rw [autom6_1_second a_pos lt, if_neg (by omega), if_pos a_pos]
      exact divideOut_word (by omega) (by omega) (by omega) (by omega) (by omega) rfl
    · rw [autom6_1_third a_neg lt, if_neg (by omega), if_neg (by omega), if_pos (by omega)]
      congr 1
      ring
    · rw [autom6_1_fourth gt lt, if_neg (by omega), if_neg (by omega), if_neg (by omega), if_pos (by omega),
        show (a.natAbs : ℤ) = -a by omega]
      exact divideOut_word (by omega) (by omega) (by omega) (by omega) (by omega) rfl
    · rw [autom6_1_fifth gt lt, if_neg (by omega), if_neg (by omega), if_neg (by omega), if_neg (by omega),
        if_pos (by omega)]
      congr 1
      ring
    · rw [autom6_1_sixth b_pos gt, if_neg (by omega), if_neg (by omega), if_neg (by omega), if_neg (by omega),
        if_neg (by omega)]
      exact divideOut_word (by omega) (by omega) (by omega) (by omega) (by omega) (by ring)
  · show Autom6_1.hashAbMpz a b CA CB = _
    rw [Autom6_1.hashAbMpz]
    rcases autom6_1_sectors nonneg inside with ⟨b_pos, lt⟩ | ⟨a_pos, lt⟩ | ⟨a_neg, lt⟩ | ⟨gt, lt⟩ | ⟨gt, lt⟩ |
      ⟨b_pos, gt⟩
    · rw [autom6_1_first b_pos lt, if_pos (by omega)]
    · rw [autom6_1_second a_pos lt, if_neg (by omega), if_pos a_pos]
      exact congrArg finish (divideOut_linear three (by omega) (by omega) (by ring))
    · rw [autom6_1_third a_neg lt, if_neg (by omega), if_neg (by omega), if_pos (by omega)]
      congr 1
      ring
    · rw [autom6_1_fourth gt lt, if_neg (by omega), if_neg (by omega), if_neg (by omega), if_pos (by omega)]
      exact congrArg finish (divideOut_linear three (by omega) (by omega) (by ring))
    · rw [autom6_1_fifth gt lt, if_neg (by omega), if_neg (by omega), if_neg (by omega), if_neg (by omega),
        if_pos (by omega)]
      congr 1
      ring
    · rw [autom6_1_sixth b_pos gt, if_neg (by omega), if_neg (by omega), if_neg (by omega), if_neg (by omega),
        if_neg (by omega)]
      exact congrArg finish (divideOut_linear three (by omega) (by omega) (by ring))

theorem regular_step (regular : Regular g a b) (ok : g.applyAb a b = .ok i) :
    Regular g i.a i.b ∧ g.representative i.a i.b = g.representative a b ∧ HashesRepresentative g a b := by
  cases g with
  | inv =>
    obtain ⟨next, same⟩ := step_inv regular ok
    exact ⟨next, same, hash_inv regular.range.b_nonneg⟩
  | neg =>
    obtain ⟨next, same⟩ := step_neg regular ok
    exact ⟨next, same, hash_neg⟩
  | autom3_1 =>
    obtain ⟨next, same⟩ := step_autom3_1 regular ok
    exact ⟨next, same, hash_autom3_1⟩
  | autom3_2 =>
    obtain ⟨next, same⟩ := step_autom3_2 regular ok
    exact ⟨next, same, hash_autom3_2 regular.range⟩
  | autom4_1 =>
    obtain ⟨next, same⟩ := step_autom4_1 regular ok
    obtain ⟨-, -, sum, difference, -⟩ := Autom4_1.applyAb_ok regular.range ok
    exact ⟨next, same, hash_autom4_1 regular sum difference⟩
  | autom6_1 =>
    obtain ⟨next, same⟩ := step_autom6_1 regular ok
    obtain ⟨-, a_gt, sum, twice, difference, -⟩ := Autom6_1.applyAb_ok regular.range ok
    exact ⟨next, same, hash_autom6_1 regular a_gt sum twice difference⟩

def Action.iterate (g : Action) : ℕ → ℤ → ℤ → Except Failure (ℤ × ℤ)
  | 0, a, b => .ok (a, b)
  | k + 1, a, b => g.applyAb a b >>= fun i => g.iterate k i.a i.b

def Fits (g : Action) (a b : ℤ) : Prop := ∀ k e, g.iterate k a b = .error e → e = .assertion

def HashInvariant (g : Action) (a b : ℤ) : Prop :=
  ∀ CA CB : ℤ, 0 ≤ CA → CA < 2 ^ 64 → 0 ≤ CB → CB < 2 ^ 64 → ∀ k, ∃ a' b', g.iterate k a b = .ok (a', b') ∧
    g.hashAb a' b' CA CB = g.hashAb a b CA CB ∧ g.hashAbMpz a' b' CA CB = g.hashAbMpz a b CA CB

theorem applyAb_of_fits (inside : ¬ g.Boundary a b) (fits : Fits g a b) : ∃ i, g.applyAb a b = .ok i := by
  cases applied : g.applyAb a b with
  | ok i => exact ⟨i, rfl⟩
  | error e =>
    have failed : e = .assertion := fits 1 e (by rw [Action.iterate, applied]; rfl)
    subst failed
    have least (same : g = .neg) : a ≠ -2 ^ 63 := by
      rintro rfl
      subst same
      cases applied
    have nonzero (same : g = .neg) : a ≠ 0 := fun zero => inside (by subst same; exact zero)
    cases onlyOverflows_applyAb (fun same => ⟨nonzero same, least same⟩) _ applied

theorem iterate_regular (regular : Regular g a b) (fits : Fits g a b) (k : ℕ) :
    ∃ a' b', g.iterate k a b = .ok (a', b') ∧ g.representative a' b' = g.representative a b ∧
      HashesRepresentative g a' b' := by
  induction k generalizing a b with
  | zero =>
    obtain ⟨i, applied⟩ := applyAb_of_fits regular.inside fits
    exact ⟨a, b, rfl, rfl, (regular_step regular applied).2.2⟩
  | succ k ih =>
    obtain ⟨i, applied⟩ := applyAb_of_fits regular.inside fits
    obtain ⟨next, same, -⟩ := regular_step regular applied
    have after (n : ℕ) : g.iterate (n + 1) a b = g.iterate n i.a i.b := by
      rw [Action.iterate, applied]
      rfl
    obtain ⟨a', b', reach, rest, hashes⟩ := ih next fun n e failed => fits (n + 1) e ((after n).trans failed)
    exact ⟨a', b', (after k).trans reach, rest.trans same, hashes⟩

theorem hashInvariant_of_regular (regular : Regular g a b) (fits : Fits g a b) : HashInvariant g a b := by
  intro CA CB nonneg _ _ _ k
  obtain ⟨i, applied⟩ := applyAb_of_fits regular.inside fits
  have start := (regular_step regular applied).2.2
  obtain ⟨a', b', reach, same, hashes⟩ := iterate_regular regular fits k
  refine ⟨a', b', reach, ?_, ?_⟩
  · rw [hashes.word, start.word, same]
  · rw [hashes.mpz CA CB nonneg, start.mpz CA CB nonneg, same]

def Action.exceptions : Action → List (ℤ × ℤ)
  | inv => []
  | neg => [(0, 1)]
  | autom3_1 => [(1, 0), (-1, 0), (0, 1), (1, 1)]
  | autom3_2 => [(-1, 0)]
  | autom4_1 => [(1, 0), (-1, 0), (0, 1), (1, 1), (-1, 1)]
  | autom6_1 => [(1, 0), (-1, 0), (0, 1), (1, 1), (-1, 1), (-2, 1), (-1, 2)]

theorem unit_of_dvd {d : ℤ} (coprime : IsCoprime a b) (first : d ∣ a) (second : d ∣ b) : d = 1 ∨ d = -1 :=
  Int.isUnit_iff.mp (coprime.isUnit_of_dvd' first second)

theorem primitive_of_coprime (coprime : IsCoprime a b) : g.Primitive a b := by
  have other {d : ℤ} (first : a % d = 0) (second : b % d = 0) : d = 1 ∨ d = -1 :=
    unit_of_dvd coprime (Int.dvd_of_emod_eq_zero first) (Int.dvd_of_emod_eq_zero second)
  have nonzero : ¬ (a = 0 ∧ b = 0) := by
    rintro ⟨rfl, rfl⟩
    exact not_isCoprime_zero_zero coprime
  cases g with
  | autom4_1 =>
    rintro ⟨first, second⟩
    have unit := other first second
    omega
  | autom6_1 =>
    rintro ⟨first, second⟩
    have unit := other first second
    omega
  | _ => exact nonzero

theorem exception_of_boundary (coprime : IsCoprime a b) (nonneg : 0 ≤ b) (boundary : g.Boundary a b) :
    (a, b) ∈ g.exceptions := by
  have by_a : a ∣ b → a = 1 ∨ a = -1 := unit_of_dvd coprime dvd_rfl
  have by_b : b ∣ a → b = 1 := fun divides => by
    have unit := unit_of_dvd coprime divides dvd_rfl
    omega
  have zero (same : a = 0) : (a, b) = (0, 1) := pair_eq same (by_b (same ▸ dvd_zero b))
  have infinity (same : b = 0) : (a, b) = (1, 0) ∨ (a, b) = (-1, 0) :=
    (by_a (same ▸ dvd_zero a)).imp (pair_eq · same) (pair_eq · same)
  have equal (same : a = b) : (a, b) = (1, 1) := by
    have one := by_b (same ▸ dvd_rfl)
    exact pair_eq (same.trans one) one
  have opposite (same : a = -b) : (a, b) = (-1, 1) := by
    have one := by_b ⟨-1, by omega⟩
    exact pair_eq (by omega) one
  have double (same : a = -2 * b) : (a, b) = (-2, 1) := by
    have one := by_b ⟨-2, by omega⟩
    exact pair_eq (by omega) one
  have half (same : 2 * a = -b) : (a, b) = (-1, 2) := by
    have one := by_a ⟨-2, by omega⟩
    exact pair_eq (by omega) (by omega)
  cases g with
  | inv => exact boundary.elim
  | neg =>
    rw [zero boundary]
    decide
  | autom3_1 =>
    rcases boundary with same | same | same
    · rw [zero same]
      decide
    · rcases infinity same with same | same <;> rw [same] <;> decide
    · rw [equal same]
      decide
  | autom3_2 =>
    obtain ⟨negative, same⟩ := boundary
    rcases by_a (same ▸ dvd_zero a) with positive | a_eq
    · omega
    · rw [pair_eq a_eq same]
      decide
  | autom4_1 =>
    rcases boundary with same | same | same | same
    · rw [zero same]
      decide
    · rcases infinity same with same | same <;> rw [same] <;> decide
    · rw [equal same]
      decide
    · rw [opposite same]
      decide
  | autom6_1 =>
    rcases boundary with same | same | same | same | same | same
    · rw [zero same]
      decide
    · rcases infinity same with same | same <;> rw [same] <;> decide
    · rw [equal same]
      decide
    · rw [opposite same]
      decide
    · rw [double same]
      decide
    · rw [half same]
      decide

theorem not_invariant {a' b' : ℤ} (k : ℕ) (CA CB : ℤ) (small : 0 ≤ CA ∧ CA < 2 ^ 64 ∧ 0 ≤ CB ∧ CB < 2 ^ 64)
    (reach : g.iterate k a b = .ok (a', b')) (differ : g.hashAb a' b' CA CB ≠ g.hashAb a b CA CB) :
    ¬ HashInvariant g a b := by
  intro invariant
  obtain ⟨x, y, reach', same, -⟩ := invariant CA CB small.1 small.2.1 small.2.2.1 small.2.2.2 k
  rw [reach] at reach'
  cases reach'
  exact differ same

theorem exception_not_invariant : ∀ pair ∈ g.exceptions, ¬ HashInvariant g pair.1 pair.2 := by
  cases g with
  | inv => exact fun pair member => by cases member
  | neg =>
    refine List.forall_mem_singleton.mpr fun invariant => ?_
    obtain ⟨a', b', reach, -⟩ := invariant 0 0 le_rfl (by norm_num) le_rfl (by norm_num) 1
    cases reach
  | autom3_1 =>
    have small : (0 : ℤ) ≤ 1 ∧ (1 : ℤ) < 2 ^ 64 ∧ (0 : ℤ) ≤ 0 ∧ (0 : ℤ) < 2 ^ 64 := by norm_num
    simp only [Action.exceptions, List.forall_mem_cons]
    exact ⟨not_invariant 2 1 0 small rfl (by decide), not_invariant 1 1 0 small rfl (by decide),
      not_invariant 1 1 0 small rfl (by decide), not_invariant 2 1 0 small rfl (by decide), List.forall_mem_nil _⟩
  | autom3_2 =>
    exact List.forall_mem_singleton.mpr (not_invariant 1 1 0 (by norm_num) rfl (by decide))
  | autom4_1 =>
    have small : (0 : ℤ) ≤ 0 ∧ (0 : ℤ) < 2 ^ 64 ∧ (0 : ℤ) ≤ 1 ∧ (1 : ℤ) < 2 ^ 64 := by norm_num
    simp only [Action.exceptions, List.forall_mem_cons]
    exact ⟨not_invariant 2 0 1 small rfl (by decide), not_invariant 1 0 1 small rfl (by decide),
      not_invariant 1 0 1 small rfl (by decide), not_invariant 1 0 1 small rfl (by decide),
      not_invariant 1 0 1 small rfl (by decide), List.forall_mem_nil _⟩
  | autom6_1 =>
    have small : (0 : ℤ) ≤ 0 ∧ (0 : ℤ) < 2 ^ 64 ∧ (0 : ℤ) ≤ 1 ∧ (1 : ℤ) < 2 ^ 64 := by norm_num
    simp only [Action.exceptions, List.forall_mem_cons]
    exact ⟨not_invariant 6 0 1 small rfl (by decide), not_invariant 1 0 1 small rfl (by decide),
      not_invariant 4 0 1 small rfl (by decide), not_invariant 5 0 1 small rfl (by decide),
      not_invariant 2 0 1 small rfl (by decide), not_invariant 1 0 1 small rfl (by decide),
      not_invariant 3 0 1 small rfl (by decide), List.forall_mem_nil _⟩

theorem hashInvariant_iff (g : Action) (a b : ℤ) (coprime : IsCoprime a b) (range : InRange a b) (fits : Fits g a b) :
    HashInvariant g a b ↔ ¬ g.Boundary a b := by
  constructor
  · intro invariant boundary
    exact exception_not_invariant _ (exception_of_boundary coprime range.b_nonneg boundary) invariant
  · exact fun inside => hashInvariant_of_regular ⟨range, primitive_of_coprime coprime, inside⟩ fits

/-! ## One orbit inside and one on the boundary -/

theorem iterate_add (n k : ℕ) : g.iterate (n + k) a b = g.iterate n a b >>= fun pair => g.iterate k pair.1 pair.2 := by
  induction n generalizing a b with
  | zero =>
    rw [Nat.zero_add]
    rfl
  | succ n ih =>
    rw [Nat.succ_add, Action.iterate, Action.iterate]
    cases g.applyAb a b with
    | error e => rfl
    | ok i => exact ih

theorem fits_of_cycle {n : ℕ} (pos : 0 < n) (cycle : g.iterate n a b = .ok (a, b))
    (before : ∀ k < n, ∀ e, g.iterate k a b ≠ .error e) : Fits g a b := by
  intro k e failed
  induction k using Nat.strong_induction_on with
  | _ k ih =>
    by_cases lt : k < n
    · exact absurd failed (before k lt e)
    · obtain ⟨rest, rfl⟩ := Nat.exists_eq_add_of_le (not_lt.mp lt)
      rw [iterate_add, cycle] at failed
      exact ih rest (by omega) failed

theorem hashInvariant_iff_orbit : HashInvariant .autom6_1 3 1 ↔ ¬ Action.autom6_1.Boundary 3 1 := by
  refine hashInvariant_iff .autom6_1 3 1 ⟨0, 1, by norm_num⟩ ⟨by norm_num, by norm_num, by norm_num, by norm_num⟩ ?_
  refine fits_of_cycle (n := 6) (by norm_num) rfl fun k lt e => ?_
  interval_cases k <;> exact fun same => by cases same

theorem zero_one_not_invariant : IsCoprime (0 : ℤ) 1 ∧ InRange 0 1 ∧ Fits .autom3_1 0 1 ∧
    ¬ HashInvariant .autom3_1 0 1 := by
  refine ⟨isCoprime_one_right, ⟨by norm_num, by norm_num, by norm_num, by norm_num⟩, ?_,
    exception_not_invariant (0, 1) (by decide)⟩
  refine fits_of_cycle (n := 3) (by norm_num) rfl fun k lt e => ?_
  interval_cases k <;> exact fun same => by cases same

end CadoNfs.Utils.Galois
