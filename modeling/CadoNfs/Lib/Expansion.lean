import Mathlib

/-!
# Expansion of names in a text

A name that is found in a text is replaced by its value, and the text is searched again.
-/

namespace CadoNfs.Lib.Expansion
open Relation

variable {α ν : Type*}

/-- How the next name is found: what is before it and after it, and the sign that it begins with. -/
structure Syntax (α ν : Type*) where
  search : List α → Option (List α × ν × List α)
  mark : α
  found : ∀ text before name after, search text = some (before, name, after) → before ++ [mark] <+: text

/-- The text, and the names whose values it is part of from a position on, the last one first. -/
abbrev State (α ν : Type*) := List α × List (ℕ × ν)

def openAt (i : ℕ) (within : List (ℕ × ν)) : List (ℕ × ν) := within.filter (·.1 ≤ i)

variable (S : Syntax α ν) (lookup : ν → Option (List α))

def Turn (s s' : State α ν) : Prop :=
  ∃ before name after value, S.search s.1 = some (before, name, after) ∧ lookup name = some value ∧
    s' = (before ++ (value ++ after), (before.length, name) :: openAt before.length s.2)

def Circle (s : State α ν) : Prop :=
  ∃ before name after value, S.search s.1 = some (before, name, after) ∧ lookup name = some value ∧
    name ∈ (openAt before.length s.2).map Prod.snd

def Circular (text : List α) : Prop := ∃ s, ReflTransGen (Turn S lookup) (text, []) s ∧ Circle S lookup s

def Stops (text : List α) : Prop := ∀ before name after, S.search text = some (before, name, after) → lookup name = none

def Safe (s : State α ν) : Prop := ∀ s', ReflTransGen (Turn S lookup) s s' → ¬Circle S lookup s'

variable {S lookup} {i j : ℕ} {within : List (ℕ × ν)} {s s' : State α ν}

theorem Safe.later (safe : Safe S lookup s) (run : ReflTransGen (Turn S lookup) s s') : Safe S lookup s' :=
  fun _ rest => safe _ (run.trans rest)

theorem openAt_openAt (le : i ≤ j) : openAt i (openAt j within) = openAt i within := by
  rw [openAt, openAt, List.filter_filter]
  refine List.filter_congr fun entry _ => ?_
  by_cases here : entry.1 ≤ i
  · simp [here, here.trans le]
  · simp [here]

theorem split_found {front back₁ back₂ before : List α} (pre : before ++ [S.mark] <+: front ++ (back₁ ++ back₂))
    (inside : front.length ≤ before.length) (short : before.length < front.length + back₁.length) :
    ∃ b rest, before = front ++ b ∧ back₁ = b ++ S.mark :: rest := by
  have frontPre : front <+: before := List.prefix_of_prefix_length_le (List.prefix_append _ _)
    ((List.prefix_append before [S.mark]).trans pre) inside
  obtain ⟨b, rfl⟩ := frontPre
  rw [List.append_assoc, List.prefix_append_right_inj] at pre
  have whole : b ++ [S.mark] <+: back₁ := by
    refine List.prefix_of_prefix_length_le pre (List.prefix_append _ _) ?_
    rw [List.length_append] at short ⊢
    rw [List.length_singleton]
    omega
  obtain ⟨rest, rfl⟩ := whole
  exact ⟨b, rest, rfl, by simp⟩

structure Finished (S : Syntax α ν) (lookup : ν → Option (List α)) (front : List α) (s s' : State α ν) : Prop where
  run : ReflTransGen (Turn S lookup) s s'
  text : ∃ back, s'.1 = front ++ back
  before : ∀ before name after, S.search s'.1 = some (before, name, after) → before.length < front.length
  opened : ∀ i < front.length, openAt i s'.2 = openAt i s.2

variable [DecidableEq α] [DecidableEq ν]

def unopened (names : Finset ν) (i : ℕ) (s : State α ν) : Finset ν := names \ ((openAt i s.2).map Prod.snd).toFinset

/-- The text from a position on is finished, or the search comes to an end. The induction is on the number of names that
are not open yet, and inside on the number of signs where a name can begin. -/
theorem finishes (names : Finset ν) (all : ∀ name value, lookup name = some value → name ∈ names) (unused : ℕ)
    (front back : List α) (s : State α ν) (text : s.1 = front ++ back) (safe : Safe S lookup s)
    (few : (unopened names front.length s).card < unused) :
    (∃ s', ReflTransGen (Turn S lookup) s s' ∧ Stops S lookup s'.1) ∨ ∃ s', Finished S lookup front s s' := by
  induction unused generalizing front back s with
  | zero => exact absurd few (Nat.not_lt_zero _)
  | succ unused ih =>
    have inner (signs : ℕ) : ∀ (back₁ back₂ : List α) (s : State α ν), back₁.count S.mark < signs →
        s.1 = front ++ (back₁ ++ back₂) → Safe S lookup s → (unopened names front.length s).card < unused + 1 →
        (∀ before name after, S.search s.1 = some (before, name, after) → before.length < front.length + back₁.length) →
        (∃ s', ReflTransGen (Turn S lookup) s s' ∧ Stops S lookup s'.1) ∨ ∃ s', Finished S lookup front s s' := by
      induction signs with
      | zero => exact fun _ _ _ none => absurd none (Nat.not_lt_zero _)
      | succ signs ihSigns =>
        intro back₁ back₂ s few text safe unopen begins
        by_cases stops : Stops S lookup s.1
        · exact .inl ⟨s, .refl, stops⟩
        · obtain ⟨before, name, after, found, named⟩ : ∃ before name after,
              S.search s.1 = some (before, name, after) ∧ lookup name ≠ none := by
            rw [Stops] at stops
            push Not at stops
            exact stops
          obtain ⟨value, known⟩ := Option.ne_none_iff_exists'.mp named
          by_cases outside : before.length < front.length
          · refine .inr ⟨s, .refl, ⟨_, text⟩, fun before' name' after' found' => ?_, fun _ _ => rfl⟩
            rw [found] at found'
            cases found'
            exact outside
          · have sign := S.found _ _ _ _ found
            rw [text] at sign
            obtain ⟨b, rest, rfl, rfl⟩ := split_found sign (Nat.not_lt.mp outside) (begins _ _ _ found)
            let next : State α ν :=
              ((front ++ b) ++ (value ++ after), ((front ++ b).length, name) :: openAt (front ++ b).length s.2)
            have turn : Turn S lookup s next := ⟨_, name, after, value, found, known, rfl⟩
            have fresh : name ∉ (openAt (front ++ b).length s.2).map Prod.snd := fun inside =>
              safe s .refl ⟨_, name, after, value, found, known, inside⟩
            have opened : openAt (front ++ b).length next.2 =
                ((front ++ b).length, name) :: openAt (front ++ b).length s.2 := by
              rw [openAt, List.filter_cons_of_pos (by simp), ← openAt, openAt_openAt le_rfl]
            have outer (i : ℕ) (less : i < (front ++ b).length) : openAt i next.2 = openAt i s.2 := by
              rw [openAt, List.filter_cons_of_neg (by simpa using less), ← openAt, openAt_openAt less.le]
            have fewer : (unopened names (front ++ b).length next).card < unused := by
              refine lt_of_lt_of_le (Finset.card_lt_card ?_) (Nat.le_of_lt_succ unopen)
              have longer : front.length ≤ (front ++ b).length := by
                rw [List.length_append]
                exact Nat.le_add_right _ _
              have wider {n : ν} (here : n ∈ (openAt front.length s.2).map Prod.snd) :
                  n ∈ (openAt (front ++ b).length s.2).map Prod.snd := by
                rw [← openAt_openAt longer] at here
                exact ((List.filter_sublist).map Prod.snd).subset here
              refine Finset.ssubset_iff_of_subset (fun n free => ?_) |>.mpr ⟨name, ?_, ?_⟩
              · rw [unopened, Finset.mem_sdiff, List.mem_toFinset] at free ⊢
                refine ⟨free.1, fun here => free.2 ?_⟩
                rw [opened, List.map_cons]
                exact List.mem_cons_of_mem _ (wider here)
              · rw [unopened, Finset.mem_sdiff, List.mem_toFinset]
                exact ⟨all name value known, fun here => fresh (wider here)⟩
              · rw [unopened, Finset.mem_sdiff, List.mem_toFinset, opened]
                exact fun free => free.2 (.head _)
            rcases ih (front ++ b) (value ++ after) next rfl (safe.later (.single turn)) fewer with
              ⟨s', run, last⟩ | ⟨s', finished⟩
            · exact .inl ⟨s', run.head turn, last⟩
            · have run : ReflTransGen (Turn S lookup) s s' := finished.run.head turn
              have kept (i : ℕ) (less : i < (front ++ b).length) : openAt i s'.2 = openAt i s.2 :=
                (finished.opened i less).trans (outer i less)
              obtain ⟨back, text'⟩ := finished.text
              by_cases none : b = []
              · subst none
                rw [List.append_nil] at finished kept text'
                exact .inr ⟨s', run, ⟨back, text'⟩, finished.before, kept⟩
              · have longer : front.length < (front ++ b).length := by
                  rw [List.length_append]
                  exact Nat.lt_add_of_pos_right (List.length_pos_iff.mpr none)
                have same : unopened names front.length s' = unopened names front.length s := by
                  rw [unopened, unopened, kept _ longer]
                have fewSigns : b.count S.mark < signs := by
                  rw [List.count_append, List.count_cons_self] at few
                  omega
                rcases ihSigns b back s' fewSigns (by rw [text', List.append_assoc]) (safe.later run) (same ▸ unopen)
                  (fun before name after found => List.length_append ▸ finished.before before name after found) with
                  ⟨s'', rest, last⟩ | ⟨s'', rest⟩
                · exact .inl ⟨s'', run.trans rest, last⟩
                · exact .inr ⟨s'', run.trans rest.run, rest.text, rest.before, fun i less =>
                    (rest.opened i less).trans (kept i (less.trans longer))⟩
    refine inner (back.count S.mark + 1) back [] s (Nat.lt_succ_self _) (by rw [text, List.append_nil]) safe few ?_
    intro before name after found
    have short := (S.found _ _ _ _ found).length_le
    rw [text, List.length_append, List.length_append, List.length_singleton] at short
    omega

theorem stops_of_not_circular (names : Finset ν) (all : ∀ name value, lookup name = some value → name ∈ names)
    {text : List α} (notCircular : ¬Circular S lookup text) :
    ∃ s', ReflTransGen (Turn S lookup) (text, []) s' ∧ Stops S lookup s'.1 := by
  have safe : Safe S lookup (text, []) := fun s run circle => notCircular ⟨s, run, circle⟩
  rcases finishes names all _ [] text (text, []) rfl safe (Nat.lt_succ_self _) with stops | ⟨s', finished⟩
  · exact stops
  · exact ⟨s', finished.run, fun before name after found => absurd (finished.before before name after found) (Nat.not_lt_zero _)⟩

end CadoNfs.Lib.Expansion
