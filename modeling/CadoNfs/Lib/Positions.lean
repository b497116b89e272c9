import Mathlib

/-!
# Positions in a compacted list

`reduceOption` moves an entry forward by the number of missing entries before it.
-/

namespace CadoNfs.Lib

variable {α : Type*}

def Gapless (l : List (Option α)) : Prop := ∀ k : ℕ, l[k]?.join.isSome → ∀ j < k, l[j]?.join.isSome

theorem reduceOption_of_missing {l : List (Option α)} (missing : ∀ k : ℕ, l[k]?.join = none) : l.reduceOption = [] := by
  induction l with
  | nil => rfl
  | cons o l ih =>
    obtain rfl : o = none := missing 0
    rw [List.reduceOption_cons_of_none]
    exact ih fun k => missing (k + 1)

theorem gapless_cons_some {a : α} {l : List (Option α)} : Gapless (some a :: l) ↔ Gapless l := by
  constructor
  · intro gapless k here j before
    exact gapless (k + 1) here (j + 1) (by omega)
  · intro gapless k here j before
    cases k with
    | zero => omega
    | succ k =>
      cases j with
      | zero => rfl
      | succ j => exact gapless k here j (by omega)

theorem getElem?_reduceOption_iff (l : List (Option α)) :
    (∀ k : ℕ, l.reduceOption[k]? = l[k]?.join) ↔ Gapless l := by
  constructor
  · intro positions k here j before
    rw [← positions] at here ⊢
    rw [isSome_getElem?] at here ⊢
    omega
  · intro gapless
    induction l with
    | nil => exact fun _ => rfl
    | cons o l ih =>
      cases o with
      | none =>
        have missing (k : ℕ) : (none :: l)[k]?.join = none := by
          by_contra here
          cases k with
          | zero => exact here rfl
          | succ k => cases gapless (k + 1) (Option.isSome_iff_ne_none.mpr here) 0 (by omega)
        intro k
        rw [reduceOption_of_missing missing, missing]
        rfl
      | some a =>
        intro k
        rw [List.reduceOption_cons_of_some]
        cases k with
        | zero => rfl
        | succ k => exact ih (gapless_cons_some.mp gapless) k

end CadoNfs.Lib
