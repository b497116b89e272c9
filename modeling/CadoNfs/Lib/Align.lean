import Mathlib

/-!
# Walking two keyed lists with two pointers

`align` walks two lists with one pointer in each, always advancing the pointer of the smaller
key and both pointers on equal keys. A merge of sorted rows, a symmetric difference and an
addition of sparse vectors are all a `filterMap` over this walk.
-/

namespace CadoNfs.Lib

inductive Aligned (α β : Type*)
  | left (a : α)
  | right (b : β)
  | both (a : α) (b : β)
  deriving DecidableEq

namespace Aligned
variable {α β κ : Type*}

def key (ka : α → κ) (kb : β → κ) : Aligned α β → κ
  | left a => ka a
  | right b => kb b
  | both a _ => ka a

def map {α' β' : Type*} (f : α → α') (g : β → β') : Aligned α β → Aligned α' β'
  | left a => left (f a)
  | right b => right (g b)
  | both a b => both (f a) (g b)

def left? : Aligned α β → Option α
  | left a => some a
  | right _ => none
  | both a _ => some a

def right? : Aligned α β → Option β
  | left _ => none
  | right b => some b
  | both _ b => some b

end Aligned

variable {α β κ : Type*} [LinearOrder κ] (ka : α → κ) (kb : β → κ)

def alignFrom (a : α) (rest : List β → List (Aligned α β)) : List β → List (Aligned α β)
  | [] => .left a :: rest []
  | b :: bs =>
      if ka a < kb b then .left a :: rest (b :: bs)
      else if kb b < ka a then .right b :: alignFrom a rest bs
      else .both a b :: rest bs

def align : List α → List β → List (Aligned α β)
  | [] => fun bs => bs.map .right
  | a :: as => alignFrom ka kb a (align as)

@[simp] theorem align_nil_left (bs : List β) : align ka kb [] bs = bs.map .right := rfl

@[simp] theorem align_nil_right (as : List α) : align ka kb as [] = as.map .left := by
  induction as with
  | nil => rfl
  | cons a as ih => simp only [align, alignFrom, List.map_cons, ih]

theorem align_cons_cons (a : α) (as : List α) (b : β) (bs : List β) :
    align ka kb (a :: as) (b :: bs) =
      if ka a < kb b then .left a :: align ka kb as (b :: bs)
      else if kb b < ka a then .right b :: align ka kb (a :: as) bs
      else .both a b :: align ka kb as bs := rfl

variable {ka kb}

theorem align_of_lt {a : α} {b : β} (lt : ka a < kb b) (as : List α) (bs : List β) :
    align ka kb (a :: as) (b :: bs) = .left a :: align ka kb as (b :: bs) := by
  rw [align_cons_cons, if_pos lt]

theorem align_of_gt {a : α} {b : β} (gt : kb b < ka a) (as : List α) (bs : List β) :
    align ka kb (a :: as) (b :: bs) = .right b :: align ka kb (a :: as) bs := by
  rw [align_cons_cons, if_neg (lt_asymm gt), if_pos gt]

theorem align_of_eq {a : α} {b : β} (eq : ka a = kb b) (as : List α) (bs : List β) :
    align ka kb (a :: as) (b :: bs) = .both a b :: align ka kb as bs := by
  rw [align_cons_cons, if_neg (by simp [eq]), if_neg (by simp [eq])]

theorem align_induction (ka : α → κ) (kb : β → κ) {motive : List α → List β → Prop}
    (nilLeft : ∀ bs, motive [] bs) (nilRight : ∀ as, motive as [])
    (lt : ∀ a as b bs, ka a < kb b → motive as (b :: bs) → motive (a :: as) (b :: bs))
    (gt : ∀ a as b bs, kb b < ka a → motive (a :: as) bs → motive (a :: as) (b :: bs))
    (eq : ∀ a as b bs, ka a = kb b → motive as bs → motive (a :: as) (b :: bs))
    (as : List α) (bs : List β) : motive as bs := by
  induction as generalizing bs with
  | nil => exact nilLeft bs
  | cons a as outer =>
    induction bs with
    | nil => exact nilRight _
    | cons b bs inner =>
      rcases lt_trichotomy (ka a) (kb b) with h | h | h
      · exact lt a as b bs h (outer _)
      · exact eq a as b bs h (outer _)
      · exact gt a as b bs h inner

theorem align_map {α' β' : Type*} {f : α → α'} {g : β → β'} {ka' : α' → κ} {kb' : β' → κ}
    (left : ∀ a, ka' (f a) = ka a) (right : ∀ b, kb' (g b) = kb b) (as : List α) (bs : List β) :
    align ka' kb' (as.map f) (bs.map g) = (align ka kb as bs).map (Aligned.map f g) := by
  induction as, bs using align_induction ka kb with
  | nilLeft bs => simp [Function.comp_def, Aligned.map]
  | nilRight as => simp [Function.comp_def, Aligned.map]
  | lt a as b bs h ih =>
    rw [align_of_lt h, List.map_cons, List.map_cons, List.map_cons, ← ih, ← List.map_cons]
    exact align_of_lt (by rwa [left, right]) _ _
  | gt a as b bs h ih =>
    rw [align_of_gt h, List.map_cons, List.map_cons, List.map_cons, ← ih, ← List.map_cons]
    exact align_of_gt (by rwa [left, right]) _ _
  | eq a as b bs h ih =>
    rw [align_of_eq h, List.map_cons, List.map_cons, List.map_cons, ← ih]
    exact align_of_eq (by rw [left, right, h]) _ _

variable (ka kb) in
theorem align_left (as : List α) (bs : List β) :
    (align ka kb as bs).filterMap Aligned.left? = as := by
  induction as, bs using align_induction ka kb with
  | nilLeft bs => simp [List.filterMap_map, Function.comp_def, Aligned.left?]
  | nilRight as => simp [List.filterMap_map, Function.comp_def, Aligned.left?]
  | lt a as b bs h ih => simp [align_of_lt h, Aligned.left?, ih]
  | gt a as b bs h ih => rwa [align_of_gt h, List.filterMap_cons_none rfl]
  | eq a as b bs h ih => simp [align_of_eq h, Aligned.left?, ih]

variable (ka kb) in
theorem align_right (as : List α) (bs : List β) :
    (align ka kb as bs).filterMap Aligned.right? = bs := by
  induction as, bs using align_induction ka kb with
  | nilLeft bs => simp [List.filterMap_map, Function.comp_def, Aligned.right?]
  | nilRight as => simp [List.filterMap_map, Function.comp_def, Aligned.right?]
  | lt a as b bs h ih => rwa [align_of_lt h, List.filterMap_cons_none rfl]
  | gt a as b bs h ih => simp [align_of_gt h, Aligned.right?, ih]
  | eq a as b bs h ih => simp [align_of_eq h, Aligned.right?, ih]

theorem key_eq_of_both_mem {as : List α} {bs : List β} {a : α} {b : β}
    (member : .both a b ∈ align ka kb as bs) : ka a = kb b := by
  induction as, bs using align_induction ka kb with
  | nilLeft bs => simp at member
  | nilRight as => simp at member
  | lt x as y bs h ih => exact ih (by simpa [align_of_lt h] using member)
  | gt x as y bs h ih => exact ih (by simpa [align_of_gt h] using member)
  | eq x as y bs h ih =>
    rcases List.mem_cons.mp (align_of_eq h as bs ▸ member) with head | tail
    · cases head
      exact h
    · exact ih tail

theorem key_mem_of_mem {as : List α} {bs : List β} {step : Aligned α β}
    (member : step ∈ align ka kb as bs) :
    step.key ka kb ∈ as.map ka ∨ step.key ka kb ∈ bs.map kb := by
  cases step with
  | left a =>
    refine .inl (List.mem_map_of_mem (f := ka) ?_)
    rw [← align_left ka kb as bs]
    exact List.mem_filterMap.mpr ⟨_, member, rfl⟩
  | right b =>
    refine .inr (List.mem_map_of_mem (f := kb) ?_)
    rw [← align_right ka kb as bs]
    exact List.mem_filterMap.mpr ⟨_, member, rfl⟩
  | both a b =>
    refine .inl (List.mem_map_of_mem (f := ka) ?_)
    rw [← align_left ka kb as bs]
    exact List.mem_filterMap.mpr ⟨_, member, rfl⟩

theorem align_sorted {as : List α} {bs : List β}
    (sortedLeft : as.Pairwise fun x y => ka x < ka y)
    (sortedRight : bs.Pairwise fun x y => kb x < kb y) :
    (align ka kb as bs).Pairwise fun s t => s.key ka kb < t.key ka kb := by
  have above (k : κ) (as : List α) (bs : List β) (left : ∀ a ∈ as, k < ka a)
      (right : ∀ b ∈ bs, k < kb b) : ∀ step ∈ align ka kb as bs, k < step.key ka kb := by
    intro step member
    rcases key_mem_of_mem member with h | h
    · obtain ⟨a, mem, eq⟩ := List.mem_map.mp h
      exact eq ▸ left a mem
    · obtain ⟨b, mem, eq⟩ := List.mem_map.mp h
      exact eq ▸ right b mem
  induction as, bs using align_induction ka kb with
  | nilLeft bs => simpa [List.pairwise_map, Aligned.key] using sortedRight
  | nilRight as => simpa [List.pairwise_map, Aligned.key] using sortedLeft
  | lt a as b bs h ih =>
    rw [align_of_lt h, List.pairwise_cons]
    have tail := List.pairwise_cons.mp sortedLeft
    refine ⟨above (ka a) as (b :: bs) tail.1 ?_, ih tail.2 sortedRight⟩
    exact List.forall_mem_cons.mpr ⟨h, fun y later => h.trans ((List.pairwise_cons.mp sortedRight).1 y later)⟩
  | gt a as b bs h ih =>
    rw [align_of_gt h, List.pairwise_cons]
    have tail := List.pairwise_cons.mp sortedRight
    refine ⟨above (kb b) (a :: as) bs ?_ tail.1, ih sortedLeft tail.2⟩
    exact List.forall_mem_cons.mpr ⟨h, fun x later => h.trans ((List.pairwise_cons.mp sortedLeft).1 x later)⟩
  | eq a as b bs h ih =>
    rw [align_of_eq h, List.pairwise_cons]
    have left := List.pairwise_cons.mp sortedLeft
    have right := List.pairwise_cons.mp sortedRight
    exact ⟨above (ka a) as bs left.1 fun y mem => h ▸ right.1 y mem, ih left.2 right.2⟩

section Sorted
variable {as : List α} {bs : List β}
  (sortedLeft : as.Pairwise fun x y => ka x < ka y)
  (sortedRight : bs.Pairwise fun x y => kb x < kb y)
include sortedLeft sortedRight

theorem align_key_injective {s t : Aligned α β} (hs : s ∈ align ka kb as bs)
    (ht : t ∈ align ka kb as bs) (eq : s.key ka kb = t.key ka kb) : s = t := by
  have apart := List.pairwise_iff_getElem.mp (align_sorted sortedLeft sortedRight)
  by_contra ne
  obtain ⟨i, hi, rfl⟩ := List.getElem_of_mem hs
  obtain ⟨j, hj, rfl⟩ := List.getElem_of_mem ht
  rcases lt_trichotomy i j with lt | same | gt
  · exact absurd eq (apart i j hi hj lt).ne
  · subst same
    exact ne rfl
  · exact absurd eq.symm (apart j i hj hi gt).ne

theorem both_mem_align {a : α} {b : β} :
    .both a b ∈ align ka kb as bs ↔ a ∈ as ∧ b ∈ bs ∧ ka a = kb b := by
  constructor
  · intro member
    refine ⟨?_, ?_, key_eq_of_both_mem member⟩
    · rw [← align_left ka kb as bs]
      exact List.mem_filterMap.mpr ⟨_, member, rfl⟩
    · rw [← align_right ka kb as bs]
      exact List.mem_filterMap.mpr ⟨_, member, rfl⟩
  · rintro ⟨ha, hb, eq⟩
    rw [← align_left ka kb as bs] at ha
    rw [← align_right ka kb as bs] at hb
    obtain ⟨s, hs, fromLeft⟩ := List.mem_filterMap.mp ha
    obtain ⟨t, ht, fromRight⟩ := List.mem_filterMap.mp hb
    have keyLeft : s.key ka kb = ka a := by
      cases s <;> simp_all [Aligned.left?, Aligned.key]
    have keyRight : t.key ka kb = kb b := by
      cases t with
      | left x => simp [Aligned.right?] at fromRight
      | right y => simp_all [Aligned.right?, Aligned.key]
      | both x y =>
        simp only [Aligned.right?, Option.some.injEq] at fromRight
        rw [Aligned.key, key_eq_of_both_mem ht, fromRight]
    have same := align_key_injective sortedLeft sortedRight hs ht
      (keyLeft.trans (eq.trans keyRight.symm))
    subst same
    cases s with
    | left x => simp [Aligned.right?] at fromRight
    | right y => simp [Aligned.left?] at fromLeft
    | both x y =>
      simp only [Aligned.left?, Aligned.right?, Option.some.injEq] at fromLeft fromRight
      rwa [fromLeft, fromRight] at hs

theorem left_mem_align {a : α} :
    .left a ∈ align ka kb as bs ↔ a ∈ as ∧ ka a ∉ bs.map kb := by
  constructor
  · intro member
    have ha : a ∈ as := by
      rw [← align_left ka kb as bs]
      exact List.mem_filterMap.mpr ⟨_, member, rfl⟩
    refine ⟨ha, fun shared => ?_⟩
    obtain ⟨b, hb, eq⟩ := List.mem_map.mp shared
    have := (both_mem_align sortedLeft sortedRight).mpr ⟨ha, hb, eq.symm⟩
    exact absurd (align_key_injective sortedLeft sortedRight member this rfl) (by simp)
  · rintro ⟨ha, alone⟩
    rw [← align_left ka kb as bs] at ha
    obtain ⟨s, hs, fromLeft⟩ := List.mem_filterMap.mp ha
    cases s with
    | left x =>
      simp only [Aligned.left?, Option.some.injEq] at fromLeft
      rwa [fromLeft] at hs
    | right y => simp [Aligned.left?] at fromLeft
    | both x y =>
      simp only [Aligned.left?, Option.some.injEq] at fromLeft
      have := (both_mem_align sortedLeft sortedRight).mp hs
      exact absurd (List.mem_map.mpr ⟨y, this.2.1, this.2.2.symm⟩) (fromLeft ▸ alone)

theorem right_mem_align {b : β} :
    .right b ∈ align ka kb as bs ↔ b ∈ bs ∧ kb b ∉ as.map ka := by
  constructor
  · intro member
    have hb : b ∈ bs := by
      rw [← align_right ka kb as bs]
      exact List.mem_filterMap.mpr ⟨_, member, rfl⟩
    refine ⟨hb, fun shared => ?_⟩
    obtain ⟨a, ha, eq⟩ := List.mem_map.mp shared
    have := (both_mem_align sortedLeft sortedRight).mpr ⟨ha, hb, eq⟩
    exact absurd (align_key_injective sortedLeft sortedRight member this
      (by simp [Aligned.key, eq])) (by simp)
  · rintro ⟨hb, alone⟩
    rw [← align_right ka kb as bs] at hb
    obtain ⟨s, hs, fromRight⟩ := List.mem_filterMap.mp hb
    cases s with
    | left x => simp [Aligned.right?] at fromRight
    | right y =>
      simp only [Aligned.right?, Option.some.injEq] at fromRight
      rwa [fromRight] at hs
    | both x y =>
      simp only [Aligned.right?, Option.some.injEq] at fromRight
      have := (both_mem_align sortedLeft sortedRight).mp hs
      exact absurd (List.mem_map.mpr ⟨x, this.1, this.2.2⟩) (fromRight ▸ alone)

end Sorted

theorem sum_align {M : Type*} [AddCommMonoid M] (φ : Aligned α β → M)
    (additive : ∀ a b, φ (.both a b) = φ (.left a) + φ (.right b)) (as : List α) (bs : List β) :
    ((align ka kb as bs).map φ).sum =
      (as.map fun a => φ (.left a)).sum + (bs.map fun b => φ (.right b)).sum := by
  induction as, bs using align_induction ka kb with
  | nilLeft bs => simp [Function.comp_def]
  | nilRight as => simp [Function.comp_def]
  | lt a as b bs h ih =>
    rw [align_of_lt h, List.map_cons, List.sum_cons, ih]
    simp only [List.map_cons, List.sum_cons]
    abel
  | gt a as b bs h ih =>
    rw [align_of_gt h, List.map_cons, List.sum_cons, ih]
    simp only [List.map_cons, List.sum_cons]
    abel
  | eq a as b bs h ih =>
    rw [align_of_eq h, List.map_cons, List.sum_cons, ih, additive]
    simp only [List.map_cons, List.sum_cons]
    abel

end CadoNfs.Lib
