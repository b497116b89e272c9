import CadoNfs.Sieve.TodoList

/-!
# The ranges of special-q

What a todo list deals for a range, and what its sub-lists deal one after another.
-/

namespace CadoNfs.Sieve

namespace TodoEnv

variable {env : TodoEnv} {a b c d x : ℤ} {q n : ℕ}

theorem Closed.mono (closed : env.Closed a b) (le : a ≤ c) (le' : d ≤ b) : env.Closed c d :=
  fun q ge lt => closed q (le.trans ge) (lt.trans_le le')

end TodoEnv

namespace TodoList

open TodoEnv

variable {env : TodoEnv} {fuel : ℕ} {t t' : TodoList} {p : TodoParams} {l : List SpecialQ} {q0 q1 : ℤ} {nq n i k a : ℕ}

def last (q1 : ℤ) (a : ℕ) : ℤ := if q1 = 0 then a else q1

end TodoList

inductive QRange
  | between (q0 q1 : ℤ) (given : q1 ≠ 0)
  | alone (q0 : ℤ)
  | first (q0 : ℤ) (nq : ℕ)

namespace QRange

open SpecialQKind TodoEnv TodoList

variable {env : TodoEnv} {n : ℕ} {l : List SpecialQ}

def q0 : QRange → ℤ
  | between q0 _ _ => q0
  | alone q0 => q0
  | first q0 _ => q0

def params : QRange → TodoParams
  | between q0 q1 _ => ⟨q0, q1, sizeMax⟩
  | alone q0 => ⟨q0, 0, sizeMax⟩
  | first q0 nq => ⟨q0, 0, nq⟩

def Expected (env : TodoEnv) : QRange → List SpecialQ → Prop
  | between q0 q1 _, l => l = env.pairs q0 q1
  | alone q0, l => ∃ a roots, env.IsFirst q0 a ∧ env.kept? a = some roots ∧ l = env.entries a roots
  | first q0 nq, l => l.length = nq ∧ ∃ b, l <+: env.pairs q0 b

def Concat (env : TodoEnv) (t : TodoList) (n : ℕ) (l : List SpecialQ) : Prop :=
  ∃ part : ℕ → List SpecialQ, (∀ i < n, Yields env (t.subParams n i) (part i)) ∧ (List.range n).flatMap part = l

def Exact (env : TodoEnv) (range : QRange) (n : ℕ) : Prop :=
  ∃ l, range.Expected env l ∧ Yields env range.params l ∧
    ∃ fuel t, make env fuel range.params = some t ∧ Concat env t n l

/-- There is an end to the numbers the list looks at, its entries fit in a vector, no assertion fails on the roots
and no sub-list begins at 0. -/
def Meets (env : TodoEnv) (n : ℕ) : QRange → Prop
  | between q0 q1 _ => (∃ q : ℕ, env.kind.accepts q ∧ q0 ≤ q ∧ q1 ≤ q) ∧ (env.pairs q0 q1).length ≤ env.maxSize ∧
      env.Closed q0 q1 ∧ ∀ a : ℕ, env.IsFirst q0 a → ∀ i < n, a + (q1 - a) * i / n ≠ 0
  | alone q0 => ∃ a, env.IsFirst q0 a ∧ env.kept? a = some []
  | first q0 nq => (∃ b : ℕ, env.kind.accepts b ∧ q0 ≤ b ∧ nq ≤ (env.pairs q0 b).length ∧
      (env.pairs q0 b).length ≤ env.maxSize ∧ env.Closed q0 b) ∧ (n = 1 ∨ nq = 0)

end QRange
end CadoNfs.Sieve
