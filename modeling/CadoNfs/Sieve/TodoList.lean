import CadoNfs.Utils.FactorConstraints

/-!
# The todo list of the siever

`las_todo_list` of `sieve/las-todo-list.cpp` enumerates the special-q of a range with their roots.
-/

namespace CadoNfs.Sieve
open Utils.FactorConstraints

structure SpecialQ where
  p : ℕ
  r : ℕ
  side : ℕ
  deriving DecidableEq

inductive SpecialQKind
  | prime
  | composite (pmin pmax : ℕ)

namespace SpecialQKind

def isComposite : SpecialQKind → Bool
  | prime => false
  | composite _ _ => true

def accepts : SpecialQKind → ℕ → Bool
  | prime, r => decide r.Prime
  | composite pmin pmax, r => decide (pmin ≤ r ∧ r % 2 = 1) && (check pmin pmax r).isSome

/-- The assertion of `next_mpz_with_factor_constraints` on the bounds of the factors. -/
def Bounded : SpecialQKind → Prop
  | prime => True
  | composite pmin _ => 2 < pmin

end SpecialQKind

/-- The automorphism of the polynomial: it maps the roots modulo `q` to each other. -/
structure Galois where
  order : ℕ
  apply : ℕ → ℕ → ℕ

namespace Galois

variable (galois : Galois) (q : ℕ)

-- The conjugates of `rk`, from `r` on: `none` when they do not come back to `rk`.
def orbit (rk : ℕ) : ℕ → ℕ → Option (List ℕ)
  | 0, _ => none
  | fuel + 1, r =>
    if galois.apply q r = rk then some [r]
    else (orbit rk fuel (galois.apply q r)).map (r :: ·)

-- Marks the conjugates among the roots that follow. None of them may be marked yet.
def mark (conj : List ℕ) : List (ℕ × Bool) → Option (List (ℕ × Bool))
  | [] => some []
  | (r, used) :: roots =>
    if r % 2 ^ 64 ∈ conj.tail then if used then none else (mark conj roots).map ((r, true) :: ·)
    else (mark conj roots).map ((r, used) :: ·)

/-- The first roots of the orbits, and how many of the orbits have length 1. -/
def orbits : ℕ → List (ℕ × Bool) → Option (List ℕ × ℕ)
  | 0, _ | _, [] => some ([], 0)
  | n + 1, (_, true) :: roots => orbits n roots
  | n + 1, (r, false) :: roots =>
    (galois.orbit (q % 2 ^ 64) (r % 2 ^ 64) galois.order (r % 2 ^ 64)).bind fun conj =>
      if conj.length = 1 ∨ conj.length = galois.order then
        (mark conj roots).bind fun roots =>
          (orbits n roots).map fun (kept, solo) => (r :: kept, if conj.length = 1 then solo + 1 else solo)
      else none

/-- `skip_galois_roots`: one root of each orbit is kept, or an assertion fails. -/
def skipRoots (roots : List ℕ) : Option (List ℕ) :=
  (galois.orbits q roots.length (roots.map (·, false))).bind fun (kept, solo) =>
    if (roots.length - solo) % galois.order = 0 ∧ kept.length = solo + (roots.length - solo) / galois.order then
      some kept
    else none

-- The only root of `3 * x ^ 2 + x + 3` modulo 3 is 0, and `x ↦ 1 / x` takes it to infinity.
example : (⟨2, fun q r => if r = 0 then q else 0⟩ : Galois).skipRoots 3 [0] = none := by decide

end Galois

def sizeMax : ℕ := 2 ^ 64 - 1

/-- What the list is made for: the roots modulo `q` of the polynomial on side `sqside`, and the
most entries a vector can have. -/
structure TodoEnv where
  kind : SpecialQKind
  sqside : ℕ
  roots : ℕ → List ℕ
  galois : Option Galois
  maxSize : ℕ
  maxSize_lt : maxSize < sizeMax

structure TodoParams where
  q0 : ℤ
  q1 : ℤ
  nq : ℕ

structure TodoList where
  stack : List SpecialQ
  created : ℕ
  q0 : ℤ
  q1 : ℤ
  nqMax : ℕ

namespace TodoEnv

variable (env : TodoEnv)

/-- `next_legitimate_specialq`, among `fuel` candidates: the least special-q from `s + diff` on. -/
def nextLegitimate (fuel : ℕ) (s : ℤ) (diff : ℕ) : Option ℕ :=
  match env.kind with
  | .prime => (List.range' (s + diff).toNat fuel).find? (·.Prime)
  | .composite pmin pmax =>
    match nextMpzWithFactorConstraints fuel s diff pmin pmax with
    | .returned r _ => some r
    | _ => none

def kept? (q : ℕ) : Option (List ℕ) :=
  match env.galois with
  | none => some (env.roots q)
  | some galois => galois.skipRoots q (env.roots q)

def entries (q : ℕ) (roots : List ℕ) : List SpecialQ := roots.map fun r => ⟨q, r, env.sqside⟩

end TodoEnv

namespace TodoList

variable (env : TodoEnv) (fuel : ℕ)

def make (p : TodoParams) : Option TodoList :=
  if env.kind.isComposite ∧ env.galois.isSome then none
  else if p.q0 = 0 then none
  else (env.nextLegitimate fuel p.q0 0).map fun (q0 : ℕ) => ⟨[], 0, q0, if p.q1 = 0 then q0 else p.q1, p.nq⟩

def Goes (t : TodoList) (q size : ℕ) : Prop :=
  (t.nqMax < sizeMax ∨ (q : ℤ) < t.q1) ∧ t.created + size < t.nqMax

instance (t : TodoList) (q size : ℕ) : Decidable (t.Goes q size) := inferInstanceAs (Decidable (_ ∧ _))

def loop (t : TodoList) : ℕ → ℕ → List SpecialQ → Option (ℕ × List SpecialQ)
  | 0, _, _ => none
  | n + 1, q, myList =>
    if t.Goes q myList.length then
      (env.kept? q).bind fun roots =>
        let myList := myList ++ env.entries q roots
        if env.maxSize < myList.length then none
        else (env.nextLegitimate fuel q 1).bind fun q => loop t n q myList
    else some (q, myList)

-- The entries are pushed in reverse order, because they are processed via a stack.
def feedQrange (t : TodoList) : Option TodoList :=
  if t.stack ≠ [] then some t
  else
    (env.nextLegitimate fuel t.q0 0).bind fun q =>
      (loop env fuel t fuel q []).map fun (q, myList) =>
        let pushHere := if t.nqMax < sizeMax then min myList.length (t.nqMax - t.created) else myList.length
        { t with
          q0 := q, created := t.created + pushHere
          stack := (myList.take pushHere).reverse.foldl (fun stack x => x :: stack) t.stack }

/-- A call made under the lock: the special-q popped, if any, and the list after it. -/
def feedAndPop (t : TodoList) : Option (Option SpecialQ × TodoList) :=
  (if t.stack = [] then feedQrange env fuel t else some t).map fun t =>
    match t.stack with
    | [] => (none, t)
    | top :: rest => (some top, { t with stack := rest })

def popped {ι : Type*} : List ι → TodoList → Option (List (ι × Option SpecialQ))
  | [], _ => some []
  | thread :: later, t =>
    (feedAndPop env fuel t).bind fun (x, t) => (popped later t).map ((thread, x) :: ·)

def cut (t : TodoList) (n i : ℕ) : ℤ := t.q0 + (t.q1 - t.q0) * i / n

def subParams (t : TodoList) (n i : ℕ) : TodoParams := ⟨t.cut n i, t.cut n (i + 1), t.nqMax⟩

end TodoList
end CadoNfs.Sieve

/-!
# Feeding the todo list

The loop of `feed_qrange` goes through the special-q in order and collects the pairs of a range.
-/

namespace CadoNfs.Sieve
open Utils.FactorConstraints

namespace SpecialQKind

variable {pmin pmax r : ℕ}

theorem accepts_composite_iff (odd : 2 < pmin) (word : r < 2 ^ 64) : (composite pmin pmax).accepts r ↔
    1 < r ∧ Squarefree r ∧ ∀ s, s.Prime → s ∣ r → pmin ≤ s ∧ s < pmax := by
  rw [accepts, Bool.and_eq_true, decide_eq_true_iff]
  constructor
  · rintro ⟨⟨low, -⟩, found⟩
    obtain ⟨factors, found⟩ := Option.isSome_iff_exists.mp found
    obtain ⟨legitimate, -⟩ := (check_spec low (by omega) word factors).mp found
    exact ⟨legitimate.gt, legitimate.squarefree, legitimate.bounds⟩
  · rintro ⟨large, free, bounds⟩
    have legitimate : Legitimate pmin pmax r := ⟨large, free, bounds⟩
    have found := (check_spec legitimate.ge large word _).mpr ⟨legitimate, rfl⟩
    exact ⟨⟨legitimate.ge, legitimate.odd odd⟩, Option.isSome_of_mem found⟩

theorem accepts_composite_iff_fifteen : (composite 3 10).accepts 15 ↔
    1 < 15 ∧ Squarefree 15 ∧ ∀ s, s.Prime → s ∣ 15 → 3 ≤ s ∧ s < 10 :=
  accepts_composite_iff (by decide) (by decide)

end SpecialQKind

namespace TodoEnv

variable (env : TodoEnv)

def kept (q : ℕ) : List ℕ := (env.kept? q).getD []

def pairs (a b : ℤ) : List SpecialQ :=
  ((List.range' a.toNat (b.toNat - a.toNat)).filter env.kind.accepts).flatMap fun q => env.entries q (env.kept q)

def IsFirst (x : ℤ) (q : ℕ) : Prop := IsLeast {q : ℕ | x ≤ q ∧ env.kind.accepts q} q

variable {env} {fuel diff q q' : ℕ} {s a b c x : ℤ}

/-- No assertion fails on the roots of the special-q in `[a, b[`. -/
def Closed (env : TodoEnv) (a b : ℤ) : Prop := ∀ q : ℕ, a ≤ q → q < b → env.kind.accepts q → (env.kept? q).isSome

theorem IsFirst.unique (first : env.IsFirst x q) (first' : env.IsFirst x q') : q = q' := IsLeast.unique first first'

end TodoEnv

namespace TodoList

open TodoEnv

variable {env : TodoEnv} {fuel : ℕ} {t : TodoList} {q q' n : ℕ} {l l' : List SpecialQ}

end TodoList
end CadoNfs.Sieve

/-!
# Popping from the todo list

The first call feeds the list once and for all: the threads are dealt its entries in order, and
then empty ones.
-/

namespace CadoNfs.Sieve
open Utils.FactorConstraints

def dealt {ι : Type*} : List ι → List SpecialQ → List (ι × Option SpecialQ)
  | [], _ => []
  | thread :: later, [] => (thread, none) :: dealt later []
  | thread :: later, x :: l => (thread, some x) :: dealt later l

namespace TodoList

open TodoEnv

variable {env : TodoEnv} {fuel : ℕ} {t t' : TodoList} {p : TodoParams} {l : List SpecialQ}

structure Fresh (t : TodoList) : Prop where
  stack : t.stack = []
  created : t.created = 0

theorem foldl_cons (l : List SpecialQ) : l.reverse.foldl (fun stack x => x :: stack) [] = l := by
  simp

def Yields (env : TodoEnv) (p : TodoParams) (l : List SpecialQ) : Prop :=
  ∃ fuel t, make env fuel p = some t ∧ ∀ threads : List ℕ, t.popped env fuel threads = some (dealt threads l)

theorem make_fresh (made : make env fuel p = some t) : t.Fresh := by
  rw [make] at made
  obtain ⟨-, made⟩ := Option.ite_none_left_eq_some.mp made
  obtain ⟨-, made⟩ := Option.ite_none_left_eq_some.mp made
  obtain ⟨q0, -, rfl⟩ := Option.map_eq_some_iff.mp made
  exact ⟨rfl, rfl⟩

end TodoList
end CadoNfs.Sieve
