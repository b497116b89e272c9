import Mathlib

/-!
# Records laid out one after the other

`next b` is where the record at `b` ends.
-/

namespace CadoNfs.Lib

inductive RecordWalk (next : Nat → Nat) : Nat → List Nat → Nat → Prop
  | nil (b : Nat) : RecordWalk next b [] b
  | cons {b top : Nat} {offs : List Nat} : RecordWalk next (next b) offs top → RecordWalk next b (b :: offs) top

namespace RecordWalk

variable {next next' : Nat → Nat} {b top off : Nat} {offs offs' : List Nat}

theorem frame (walk : RecordWalk next b offs top) (same : ∀ o ∈ offs, next' o = next o) :
    RecordWalk next' b offs top := by
  induction walk with
  | nil b => exact .nil b
  | @cons b top offs _ ih =>
    apply RecordWalk.cons
    rw [same b (by simp)]
    exact ih fun o inside => same o (by simp [inside])

theorem concat (walk : RecordWalk next b offs top) : RecordWalk next b (offs ++ [top]) (next top) := by
  induction walk with
  | nil b => exact .cons (.nil _)
  | cons _ ih => exact .cons ih

theorem split {front back : List Nat} (walk : RecordWalk next b (front ++ off :: back) top) :
    RecordWalk next b front off ∧ RecordWalk next (next off) back top := by
  induction front generalizing b with
  | nil =>
    cases walk with
    | cons rest => exact ⟨.nil _, rest⟩
  | cons o front ih =>
    cases walk with
    | cons rest =>
      have ⟨left, right⟩ := ih rest
      exact ⟨.cons left, right⟩

variable (grows : ∀ b, b < next b)
include grows

theorem le (walk : RecordWalk next b offs top) : b ≤ top := by
  induction walk with
  | nil b => exact le_rfl
  | @cons b _ _ _ ih => exact (grows b).le.trans ih

theorem bounds (walk : RecordWalk next b offs top) (inside : off ∈ offs) : b ≤ off ∧ next off ≤ top := by
  obtain ⟨front, back, rfl⟩ := List.append_of_mem inside
  have ⟨left, right⟩ := walk.split
  exact ⟨left.le grows, right.le grows⟩

theorem separated {off' : Nat} (walk : RecordWalk next b offs top) (inside : off ∈ offs) (inside' : off' ∈ offs)
    (apart : off < off') : next off ≤ off' := by
  obtain ⟨front, back, rfl⟩ := List.append_of_mem inside
  have ⟨left, right⟩ := walk.split
  rcases List.mem_append.mp inside' with before | _ | ⟨_, after⟩
  · have := (left.bounds grows before).2
    have := grows off'
    omega
  · omega
  · exact (right.bounds grows after).1

theorem unique (walk : RecordWalk next b offs top) (walk' : RecordWalk next b offs' top) : offs = offs' := by
  induction walk generalizing offs' with
  | nil b =>
    cases walk' with
    | nil => rfl
    | cons rest =>
      have := rest.le grows
      have := grows b
      omega
  | @cons b top offs rest ih =>
    cases walk' with
    | nil =>
      have := rest.le grows
      have := grows b
      omega
    | cons rest' => rw [ih rest']

theorem eq_nil (walk : RecordWalk next b offs b) : offs = [] := walk.unique grows (.nil b)

theorem uncons (walk : RecordWalk next b offs top) (more : b < top) :
    ∃ rest, offs = b :: rest ∧ RecordWalk next (next b) rest top ∧ b ∉ rest := by
  cases walk with
  | nil => omega
  | @cons _ _ rest walk =>
    refine ⟨rest, rfl, walk, fun inside => ?_⟩
    have := (walk.bounds grows inside).1
    have := grows b
    omega

end RecordWalk
end CadoNfs.Lib
