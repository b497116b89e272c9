import Mathlib

/-!
# Circular doubly linked lists

Two pointers at each node, and a node that marks the ends of the list. `Circle` relates the pointers
to the list of the other nodes; a node is linked in before another one or linked out by writing four
or two pointers.
-/

namespace CadoNfs.Lib

variable {ι : Type*}

structure Links (ι : Type*) where
  next : ι → ι
  prev : ι → ι

namespace Links

def Joined (k : Links ι) (a b : ι) : Prop := k.next a = b ∧ k.prev b = a

def setNext [DecidableEq ι] (k : Links ι) (a b : ι) : Links ι := { k with next := Function.update k.next a b }

def setPrev [DecidableEq ι] (k : Links ι) (b a : ι) : Links ι := { k with prev := Function.update k.prev b a }

variable [DecidableEq ι]

def insertBefore (k : Links ι) (target x : ι) : Links ι :=
  let k := k.setNext x target
  let k := k.setPrev x (k.prev target)
  let k := k.setPrev (k.next x) x
  k.setNext (k.prev x) x

def unlink (k : Links ι) (x : ι) : Links ι :=
  let k := k.setPrev (k.next x) (k.prev x)
  k.setNext (k.prev x) (k.next x)

end Links

structure Circle (k : Links ι) (d : ι) (l : List ι) : Prop where
  joined : List.Forall₂ k.Joined (d :: l) (l ++ [d])
  nodup : (d :: l).Nodup

/-! ## Pointers that are not written -/

theorem forall₂_append_iff {α β : Type*} {R : α → β → Prop} {as as' : List α} {bs bs' : List β}
    (length : as.length = bs.length) :
    List.Forall₂ R (as ++ as') (bs ++ bs') ↔ List.Forall₂ R as bs ∧ List.Forall₂ R as' bs' := by
  induction as generalizing bs with
  | nil =>
    obtain rfl := List.length_eq_zero_iff.mp length.symm
    simp
  | cons a as ih =>
    cases bs with
    | nil => cases length
    | cons b bs =>
      simp only [List.cons_append, List.forall₂_cons, ih (Nat.succ.inj length), and_assoc]

theorem Links.Joined.frame {k k' : Links ι} {as bs : List ι} (joined : List.Forall₂ k.Joined as bs)
    (next : ∀ a ∈ as, k'.next a = k.next a) (prev : ∀ b ∈ bs, k'.prev b = k.prev b) :
    List.Forall₂ k'.Joined as bs := by
  induction joined with
  | nil => exact .nil
  | cons head tail ih =>
    refine .cons ⟨?_, ?_⟩ (ih (fun a ha => next a (by simp [ha])) fun b hb => prev b (by simp [hb]))
    · rw [next _ (by simp), head.1]
    · rw [prev _ (by simp), head.2]

theorem cut {d : ι} (l₁ l₂ : List ι) :
    ∃ before z t after, d :: l₁ = before ++ [z] ∧ l₂ ++ [d] = t :: after ∧ before.length = l₁.length ∧
      ∀ x, d :: (l₁ ++ x :: l₂) = before ++ z :: x :: l₂ ∧ (l₁ ++ x :: l₂) ++ [d] = l₁ ++ x :: t :: after := by
  obtain ⟨before, z, first⟩ := (d :: l₁).eq_nil_or_concat.resolve_left (by simp)
  cases second : l₂ ++ [d] with
  | nil => simp at second
  | cons t after =>
    rw [List.concat_eq_append] at first
    refine ⟨before, z, t, after, first, rfl, ?_, fun x => ⟨?_, ?_⟩⟩
    · have := congrArg List.length first
      simpa using this.symm
    · rw [← List.cons_append, first, List.append_assoc, List.singleton_append]
    · rw [List.append_assoc, List.cons_append, second]

section
variable {k : Links ι} {d : ι}

theorem Circle.at_cut {l₁ l₂ before after : List ι} {z t : ι} (circle : Circle k d (l₁ ++ l₂))
    (first : d :: l₁ = before ++ [z]) (second : l₂ ++ [d] = t :: after) :
    List.Forall₂ k.Joined before l₁ ∧ k.Joined z t ∧ List.Forall₂ k.Joined l₂ after := by
  have length : before.length = l₁.length := by simpa using (congrArg List.length first).symm
  have joined := circle.joined
  rw [← List.cons_append, first, List.append_assoc, List.append_assoc, second,
    forall₂_append_iff length, List.singleton_append, List.forall₂_cons] at joined
  exact joined

theorem Circle.prev_eq {l₁ : List ι} (l₂ : List ι) {t : ι} (circle : Circle k d (l₁ ++ l₂))
    (first : (l₂ ++ [d]).head? = some t) : k.prev t = l₁.getLastD d := by
  obtain ⟨before, z, t', after, left, right, _⟩ := cut (d := d) l₁ l₂
  obtain rfl : t' = t := by simpa [right] using first
  have last := congrArg List.getLast? left
  rw [List.getLast?_append, List.getLast?_singleton, Option.some_or, List.getLast?_cons] at last
  rw [(circle.at_cut left right).2.1.2, ← Option.some.inj last, List.getLastD_eq_getLast?]

theorem Circle.next_eq (l₁ : List ι) {l₂ : List ι} {z : ι} (circle : Circle k d (l₁ ++ l₂))
    (last : (d :: l₁).getLast? = some z) : k.next z = l₂.headD d := by
  obtain ⟨before, z', t, after, left, right, _⟩ := cut (d := d) l₁ l₂
  obtain rfl : z' = z := by simpa [left] using last
  have first := congrArg List.head? right
  rw [(circle.at_cut left right).2.1.1]
  cases l₂ <;> simp_all

variable [DecidableEq ι]

theorem Circle.insertBefore {l₁ l₂ : List ι} {x target : ι} (circle : Circle k d (l₁ ++ l₂))
    (fresh : x ∉ d :: (l₁ ++ l₂)) (before : (l₂ ++ [d]).head? = some target) :
    Circle (k.insertBefore target x) d (l₁ ++ x :: l₂) := by
  obtain ⟨left, z, t, right, first, second, length, between⟩ := cut (d := d) l₁ l₂
  obtain rfl : t = target := by simpa [second] using before
  obtain ⟨start, ⟨next, prev⟩, rest⟩ := circle.at_cut first second
  have apart := circle.nodup
  have nodup : (d :: (l₁ ++ x :: l₂)).Nodup := by
    have perm : (d :: (l₁ ++ x :: l₂)).Perm (x :: d :: (l₁ ++ l₂)) :=
      (List.perm_middle.cons d).trans (List.Perm.swap x d _)
    exact perm.nodup_iff.mpr (List.nodup_cons.mpr ⟨fresh, apart⟩)
  have apart' : (left ++ z :: l₂).Nodup := by
    rw [← List.cons_append, first, List.append_assoc] at apart
    exact apart
  have targets : (l₁ ++ t :: right).Nodup := by
    rw [← second]
    have perm : (l₁ ++ (l₂ ++ [d])).Perm (d :: (l₁ ++ l₂)) := by
      rw [← List.append_assoc]
      exact List.perm_append_singleton d _
    exact perm.nodup_iff.mpr apart
  have source {a : ι} (member : a ∈ left ++ z :: l₂) : a ≠ x := by
    rintro rfl
    rw [← List.cons_append, first, List.append_assoc] at fresh
    exact fresh member
  have goal {b : ι} (member : b ∈ l₁ ++ t :: right) : b ≠ x := by
    rintro rfl
    rw [← second] at member
    apply fresh
    rcases List.mem_append.mp member with inside | inside
    · simp [inside]
    · rcases List.mem_append.mp inside with inside | last
      · simp [inside]
      · simp [List.mem_singleton.mp last]
  have zx : z ≠ x := source (by simp)
  have tx : t ≠ x := goal (by simp)
  have nextEq : (k.insertBefore t x).next = Function.update (Function.update k.next x t) z x := by
    simp [Links.insertBefore, Links.setNext, Links.setPrev, prev, tx.symm]
  have prevEq : (k.insertBefore t x).prev = Function.update (Function.update k.prev x z) t x := by
    simp [Links.insertBefore, Links.setNext, Links.setPrev, prev]
  obtain ⟨sources, ends⟩ := between x
  refine ⟨?_, nodup⟩
  rw [sources, ends, forall₂_append_iff length, List.forall₂_cons, List.forall₂_cons]
  rw [List.nodup_append] at apart' targets
  have zl₂ := (List.nodup_cons.mp apart'.2.1).1
  have tr := (List.nodup_cons.mp targets.2.1).1
  refine ⟨Links.Joined.frame start (fun a ha => ?_) fun b hb => ?_, ⟨?_, ?_⟩, ⟨?_, ?_⟩,
    Links.Joined.frame rest (fun a ha => ?_) fun b hb => ?_⟩
  · rw [nextEq, Function.update_of_ne (apart'.2.2 a ha z (by simp)),
      Function.update_of_ne (source (by simp [ha]))]
  · rw [prevEq, Function.update_of_ne (targets.2.2 b hb t (by simp)),
      Function.update_of_ne (goal (by simp [hb]))]
  · rw [nextEq, Function.update_self]
  · rw [prevEq, Function.update_of_ne tx.symm, Function.update_self]
  · rw [nextEq, Function.update_of_ne zx.symm, Function.update_self]
  · rw [prevEq, Function.update_self]
  · rw [nextEq, Function.update_of_ne (by rintro rfl; exact zl₂ ha),
      Function.update_of_ne (source (by simp [ha]))]
  · rw [prevEq, Function.update_of_ne (by rintro rfl; exact tr hb),
      Function.update_of_ne (goal (by simp [hb]))]

theorem Circle.unlink (l₁ : List ι) {l₂ : List ι} {x : ι} (circle : Circle k d (l₁ ++ x :: l₂)) :
    Circle (k.unlink x) d (l₁ ++ l₂) := by
  obtain ⟨left, z, t, right, first, second, length, between⟩ := cut (d := d) l₁ l₂
  obtain ⟨sources, ends⟩ := between x
  have joined := circle.joined
  rw [sources, ends, forall₂_append_iff length, List.forall₂_cons, List.forall₂_cons] at joined
  obtain ⟨start, ⟨_, prevX⟩, ⟨nextX, _⟩, rest⟩ := joined
  have apart := circle.nodup
  have perm : ((l₁ ++ x :: l₂) ++ [d]).Perm (d :: (l₁ ++ x :: l₂)) := List.perm_append_singleton d _
  have targets := perm.nodup_iff.mpr apart
  have nodup : (d :: (l₁ ++ l₂)).Nodup :=
    apart.sublist (List.Sublist.cons_cons d ((List.Sublist.refl l₁).append (List.sublist_cons_self x l₂)))
  rw [sources, List.nodup_append] at apart
  rw [ends, List.nodup_append] at targets
  have zx := List.nodup_cons.mp apart.2.1
  have xt := List.nodup_cons.mp (List.nodup_cons.mp targets.2.1).2
  have nextEq : (k.unlink x).next = Function.update k.next z t := by
    have xt' : x ≠ t := by
      rintro rfl
      exact (List.nodup_cons.mp targets.2.1).1 (by simp)
    simp [Links.unlink, Links.setNext, Links.setPrev, Function.update_of_ne xt', prevX, nextX]
  have prevEq : (k.unlink x).prev = Function.update k.prev t z := by
    simp [Links.unlink, Links.setNext, Links.setPrev, prevX, nextX]
  refine ⟨?_, nodup⟩
  rw [← List.cons_append, first, List.append_assoc, List.append_assoc, second, forall₂_append_iff length,
    List.singleton_append, List.forall₂_cons]
  refine ⟨Links.Joined.frame start (fun a ha => ?_) fun b hb => ?_, ⟨?_, ?_⟩,
    Links.Joined.frame rest (fun a ha => ?_) fun b hb => ?_⟩
  · rw [nextEq, Function.update_of_ne (apart.2.2 a ha z (by simp))]
  · rw [prevEq, Function.update_of_ne (targets.2.2 b hb t (by simp))]
  · rw [nextEq, Function.update_self]
  · rw [prevEq, Function.update_self]
  · rw [nextEq, Function.update_of_ne (by rintro rfl; exact zx.1 (List.mem_cons_of_mem x ha))]
  · rw [prevEq, Function.update_of_ne (by rintro rfl; exact xt.1 hb)]

end

end CadoNfs.Lib
