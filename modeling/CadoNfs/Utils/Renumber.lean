import Mathlib

/-!
# The renumber table

`renumber_t` of `utils/renumber.hpp` and `utils/renumber.cpp`: how a table is built in memory, and the
lookups from (p, r, side) to an index and back.
-/

namespace CadoNfs.Utils

structure SidePoly where
  deg : ℕ
  monic : Bool
  deriving DecidableEq

@[ext] structure PRSide where
  p : ℕ
  r : ℕ
  side : ℕ
  deriving DecidableEq

inductive CorruptedTable
  | wrongEntry (p vr : ℕ)
  | primeIsTooLarge (p : ℕ)
  | primeMapsToGarbage (p i : ℕ) (q : Option ℕ)
  | cannotFindPr (x : PRSide)
  | badBadIdeals
  | badAdditionalColumns
  | assertion
  deriving DecidableEq

structure Renumber where
  poly : List SidePoly
  lpb : List ℕ
  badIdeals : List (PRSide × ℕ)
  badIdealsMaxP : ℕ
  flatData : List (ℕ × ℕ)
  indexFromPCache : List (Option ℕ)
  aboveAdd : ℕ
  aboveBad : ℕ
  aboveCache : ℕ
  aboveAll : ℕ
  deriving DecidableEq

structure Cooked where
  nroots : List ℕ
  flat : List (ℕ × ℕ)
  text : List Char

def renumberMaxLogCached : ℕ := 20

def pRValue (w : ℕ) (x : ℤ) : ℕ := (x % 2 ^ w).toNat

namespace Renumber

variable (w : ℕ) (R : Renumber)

def nbPolys : ℕ := R.poly.length

-- The first side of degree 1; `none` is -1.
def rationalSide : Option ℕ := R.poly.findIdx? fun f => f.deg = 1

def sidesOfAdditionalColumns : List ℕ :=
  (List.range R.nbPolys).filter fun side => (R.poly[side]?.map SidePoly.monic) = some false

def hasMergedAdditionalColumn : Bool := R.nbPolys = 2 && R.sidesOfAdditionalColumns.length = 2

def new (poly : List SidePoly) (lpb : List ℕ) : Renumber :=
  ⟨poly, lpb, [], 0, [], [], 0, 0, 0, 0⟩

def useAdditionalColumnsForDl : Renumber :=
  let add := if R.hasMergedAdditionalColumn then 1 else R.sidesOfAdditionalColumns.length
  { R with aboveAdd := add, aboveBad := add, aboveCache := add, aboveAll := add }

-- One turn of the loops of `compute_bad_ideals` and `read_bad_ideals`, which end at the same `above_all`.
def addBadIdeal (R : Renumber) (x : PRSide) (nbad : ℕ) : Renumber :=
  { R with
    badIdeals := R.badIdeals ++ [(x, nbad)]
    badIdealsMaxP := if R.badIdealsMaxP ≤ x.p then x.p else R.badIdealsMaxP
    aboveBad := R.aboveBad + nbad
    aboveCache := R.aboveBad + nbad
    aboveAll := R.aboveBad + nbad }

def vpFromP (n c : ℕ) (p : ℕ) : ℤ := ((n : ℤ) - c) * (p + 1)

def computeVpFromP (p : ℕ) : ℕ :=
  pRValue w (vpFromP R.nbPolys (if R.rationalSide.isSome then 1 else 0) p)

def computeVrFromPRSide (x : PRSide) : ℕ :=
  if some x.side = R.rationalSide then R.computeVpFromP w x.p
  else
    let vr : ℤ := x.side * (x.p + 1) + x.r
    pRValue w (if R.rationalSide.any (· < x.side) then vr - (x.p + 1) else vr)

def cook (p : ℕ) (roots : List (List ℕ)) : Cooked :=
  let p' := pRValue w p
  let nroots := (List.range R.nbPolys).map fun i => (roots.getD i []).length
  let flat := (List.range R.nbPolys).flatMap fun side => (roots.getD side []).reverse.map fun r : ℕ =>
    (p', R.computeVrFromPRSide w ⟨p', pRValue w r, side⟩)
  if nroots.sum = 0 then ⟨nroots, [], []⟩
  else ⟨nroots, flat, flat.flatMap fun (p, vr) =>
    Nat.toDigits 10 p ++ ' ' :: Nat.toDigits 10 vr ++ ['\n']⟩

def useCookedNostore (n0 : ℕ) (C : Cooked) : ℕ :=
  if C.flat.isEmpty then n0 else n0 + C.nroots.sum

-- The entries for the numbers before `p` that are not primes of the table are filled in.
def pushCache (cache : List (Option ℕ)) (p i : ℕ) : List (Option ℕ) :=
  cache ++ List.replicate (p - cache.length) none ++ [some i]

def useCooked (R : Renumber) (p : ℕ) (C : Cooked) : Renumber :=
  if C.flat.isEmpty then R
  else
    let posHard := R.flatData.length
    let R := { R with aboveAll := useCookedNostore R.aboveAll C, flatData := R.flatData ++ C.flat }
    if p >>> renumberMaxLogCached = 0 ∧ R.indexFromPCache.length ≤ p then
      { R with indexFromPCache := pushCache R.indexFromPCache p posHard, aboveCache := R.aboveAll }
    else R

-- The sides that are not rational take `p + 1` values each; what is left of `r` after all of them, or the ideal.
def findSide (p : ℕ) : List ℕ → ℕ → Except ℕ PRSide
  | [], r => .error r
  | side :: sides, r =>
    if some side = R.rationalSide then findSide p sides r
    else if r ≤ p then .ok ⟨p, r, side⟩
    else findSide p sides (r - (p + 1))

def computePRSideFromPVr (p vr : ℕ) : Except CorruptedTable PRSide :=
  match R.findSide p (List.range R.nbPolys) vr, R.rationalSide with
  | .ok x, _ => .ok x
  | .error 0, some side => .ok ⟨p, 0, side⟩
  | .error _, _ => .error (.wrongEntry p vr)

def lookupBad (x : PRSide) : ℕ → List (PRSide × ℕ) → ℕ × ℕ
  | first, [] => (0, first)
  | first, (y, nbad) :: l => if x = y then (nbad, first) else lookupBad x (first + nbad) l

def isBad (x : PRSide) : ℕ × ℕ :=
  if R.badIdealsMaxP < x.p then (0, R.aboveAdd) else lookupBad x R.aboveAdd R.badIdeals

def scanCache : List (Option ℕ) → ℕ → ℕ × Option ℕ
  | [], p => (p, none)
  | some i :: _, p => (p, some i)
  | none :: cache, p => scanCache cache (p + 1)

def dichotomy (p : ℕ) : Except CorruptedTable ℕ :=
  let lpbmax := R.lpb.foldl max 0
  if lpbmax < w ∧ p >>> lpbmax ≠ 0 then .error (.primeIsTooLarge p)
  else
    let i := R.flatData.findIdx fun e => p ≤ e.1
    if i = R.flatData.length then .error (.primeIsTooLarge p) else .ok (i + R.aboveBad)

def getFirstIteratorFromP (p : ℕ) : Except CorruptedTable ℕ :=
  match scanCache (R.indexFromPCache.drop p) p with
  | (p, none) => R.dichotomy w p
  | (p, some i) =>
    if R.aboveAll ≤ R.aboveBad + i then .error (.primeMapsToGarbage p i none)
    else match R.flatData[i]? with
      | none => .error .assertion
      | some (q, _) => if q = p then .ok (i + R.aboveBad) else .error (.primeMapsToGarbage p i (some q))

def findVr (x : PRSide) (vr : ℕ) : List (ℕ × ℕ) → ℕ → Except CorruptedTable ℕ
  | [], _ => .error .assertion
  | (q, v) :: l, i =>
    if q ≠ x.p then .error (.cannotFindPr x)
    else if v = vr then .ok i
    else findVr x vr l (i + 1)

def indexFromPR (x : PRSide) : Except CorruptedTable ℕ :=
  let (nbad, i) := R.isBad x
  if nbad ≠ 0 then .ok i
  else if x.p = 0 then
    if R.hasMergedAdditionalColumn then if x.side = 0 then .ok 0 else .error (.cannotFindPr x)
    else match R.sidesOfAdditionalColumns.idxOf? x.side with
      | some i => .ok i
      | none => .error (.cannotFindPr x)
  else do
    let vr := R.computeVrFromPRSide w x
    let it ← R.getFirstIteratorFromP w x.p
    findVr x vr (R.flatData.drop (it - R.aboveBad)) it

def pickBad : ℕ → List (PRSide × ℕ) → Except CorruptedTable PRSide
  | _, [] => .error .badBadIdeals
  | i, (x, nbad) :: l => if i < nbad then .ok x else pickBad (i - nbad) l

def pRFromIndex (i : ℕ) : Except CorruptedTable PRSide :=
  if i < R.aboveAdd then
    match R.sidesOfAdditionalColumns[i]? with
    | some side => .ok ⟨0, 0, side⟩
    | none => .error .badAdditionalColumns
  else if i < R.aboveBad then pickBad (i - R.aboveAdd) R.badIdeals
  else match R.flatData[i - R.aboveBad]? with
    | some (p, vr) => R.computePRSideFromPVr p vr
    | none => .error .assertion

end Renumber

/-! ## The size of the entries -/

def previousPrimeOfPowersOf2 : List ℕ :=
  [0x0, 0x0, 0x3, 0x7, 0xd, 0x1f, 0x3d, 0x7f, 0xfb, 0x1fd, 0x3fd, 0x7f7, 0xffd, 0x1fff, 0x3ffd, 0x7fed,
    0xfff1, 0x1ffff, 0x3fffb, 0x7ffff, 0xffffd, 0x1ffff7, 0x3ffffd, 0x7ffff1, 0xfffffd, 0x1ffffd9,
    0x3fffffb, 0x7ffffd9, 0xfffffc7, 0x1ffffffd, 0x3fffffdd, 0x7fffffff, 0xfffffffb, 0x1fffffff7,
    0x3ffffffd7, 0x7ffffffe1, 0xffffffffb, 0x1fffffffe7, 0x3fffffffd3, 0x7ffffffff9, 0xffffffffa9,
    0x1ffffffffeb, 0x3fffffffff5, 0x7ffffffffc7, 0xfffffffffef, 0x1fffffffffc9, 0x3fffffffffeb,
    0x7fffffffff8d, 0xffffffffffc5, 0x1ffffffffffaf, 0x3ffffffffffe5, 0x7ffffffffff7f, 0xfffffffffffd1,
    0x1fffffffffff91, 0x3fffffffffffdf, 0x7fffffffffffc9, 0xfffffffffffffb, 0x1fffffffffffff3,
    0x3ffffffffffffe5, 0x7ffffffffffffc9, 0xfffffffffffffa3, 0x1fffffffffffffff, 0x3fffffffffffffc7,
    0x7fffffffffffffe7, 0xffffffffffffffc5]

namespace Renumber

variable (w : ℕ) (R : Renumber)

def neededBits : ℕ :=
  let p := previousPrimeOfPowersOf2.getD (R.lpb.foldl max 0) 0
  let vp := pRValue 64 (vpFromP R.nbPolys (if R.rationalSide.isSome then 1 else 0) p)
  if vp.size ≤ 32 then 32 else 64

def checkNeededBits (nbits : ℕ) : Bool := nbits ≤ w

def start (poly : List SidePoly) (lpb : List ℕ) (forDl : Bool) (badIdeals : List (PRSide × ℕ)) : Renumber :=
  let R := new poly lpb
  badIdeals.foldl (fun R b => R.addBadIdeal b.1 b.2) (if forDl then R.useAdditionalColumnsForDl else R)

end Renumber

end CadoNfs.Utils

/-!
# Building the renumber table

The table is a function of its entries: the cache, and where the cached entries end, are found again by one pass
over the entries.
-/

namespace CadoNfs.Utils

namespace Renumber

def cookedTable (w : ℕ) (R : Renumber) (primes : List (ℕ × List (List ℕ))) : Renumber :=
  primes.foldl (fun T P => T.useCooked P.1 (R.cook w P.1 P.2)) R

structure Fresh (R : Renumber) : Prop where
  flatData : R.flatData = []
  cache : R.indexFromPCache = []
  aboveCache : R.aboveCache = R.aboveBad
  aboveAll : R.aboveAll = R.aboveBad

end Renumber

def IsCached (p : ℕ) : Prop := p < 2 ^ renumberMaxLogCached

instance (p : ℕ) : Decidable (IsCached p) := inferInstanceAs (Decidable (p < _))

theorem shiftRight_eq_zero_iff (p : ℕ) : p >>> renumberMaxLogCached = 0 ↔ IsCached p := by
  rw [Nat.shiftRight_eq_div_pow, Nat.div_eq_zero_iff_lt (Nat.two_pow_pos _)]
  rfl

structure CacheOf (entries : List (ℕ × ℕ)) (cache : List (Option ℕ)) : Prop where
  entry : ∀ p < cache.length, cache[p]? = some (entries.findIdx? fun e => e.1 = p)
  covered : ∀ e ∈ entries, IsCached e.1 → e.1 < cache.length
  last : cache = [] ∨ ∃ e ∈ entries, IsCached e.1 ∧ e.1 + 1 = cache.length

theorem CacheOf.nil : CacheOf [] [] := ⟨nofun, nofun, .inl rfl⟩

variable {entries : List (ℕ × ℕ)} {cache cache' : List (Option ℕ)} {p v : ℕ}

theorem CacheOf.length_le (left : CacheOf entries cache) (right : CacheOf entries cache') :
    cache.length ≤ cache'.length := by
  rcases left.last with rfl | ⟨e, member, cached, last⟩
  · exact Nat.zero_le _
  · rw [← last]
    exact right.covered e member cached

theorem CacheOf.unique (left : CacheOf entries cache) (right : CacheOf entries cache') : cache = cache' := by
  have length : cache.length = cache'.length := (left.length_le right).antisymm (right.length_le left)
  refine List.ext_getElem? fun p => ?_
  by_cases inside : p < cache.length
  · rw [left.entry p inside, right.entry p (length ▸ inside)]
  · rw [List.getElem?_eq_none (by omega), List.getElem?_eq_none (by omega)]

theorem findIdx?_concat_of_ne {q : ℕ} (other : p ≠ q) :
    (entries ++ [(p, v)]).findIdx? (fun e => e.1 = q) = entries.findIdx? fun e => e.1 = q := by
  rw [List.findIdx?_append]
  simp [other]

theorem findIdx?_concat_of_mem {e : ℕ × ℕ} {q : ℕ} (member : e ∈ entries) (eq : e.1 = q) :
    (entries ++ [(p, v)]).findIdx? (fun e => e.1 = q) = entries.findIdx? fun e => e.1 = q := by
  obtain ⟨i, found⟩ : ∃ i, entries.findIdx? (fun e => e.1 = q) = some i := by
    rw [← Option.isSome_iff_exists, List.findIdx?_isSome, List.any_eq_true]
    exact ⟨e, member, decide_eq_true eq⟩
  rw [List.findIdx?_append, found]
  rfl

theorem findIdx?_eq_none {q : ℕ} (absent : ∀ e ∈ entries, e.1 ≠ q) :
    (entries.findIdx? fun e => e.1 = q) = none := by
  rw [List.findIdx?_eq_none_iff]
  exact fun e member => decide_eq_false (absent e member)

theorem CacheOf.length_le_limit (of : CacheOf entries cache) : cache.length ≤ 2 ^ renumberMaxLogCached := by
  rcases of.last with rfl | ⟨e, -, cached, last⟩
  · exact Nat.zero_le _
  · rw [← last]
    exact cached

theorem CacheOf.skip (of : CacheOf entries cache) (known : IsCached p → ∃ e ∈ entries, e.1 = p) :
    CacheOf (entries ++ [(p, v)]) cache := by
  refine ⟨fun q inside => ?_, fun e member cached => ?_, ?_⟩
  · rw [of.entry q inside]
    by_cases same : p = q
    · obtain ⟨e, member, eq⟩ := known (same ▸ inside.trans_le of.length_le_limit)
      rw [findIdx?_concat_of_mem member (eq.trans same)]
    · rw [findIdx?_concat_of_ne same]
  · rcases List.mem_append.mp member with before | new
    · exact of.covered e before cached
    · rw [List.mem_singleton.mp new] at cached ⊢
      obtain ⟨e', member', rfl⟩ := known cached
      exact of.covered e' member' cached
  · exact of.last.imp_right fun ⟨e, member, rest⟩ => ⟨e, List.mem_append_left _ member, rest⟩

theorem CacheOf.push (of : CacheOf entries cache) (small : IsCached p) (new : cache.length ≤ p) :
    CacheOf (entries ++ [(p, v)]) (Renumber.pushCache cache p entries.length) := by
  have fresh : ∀ q, cache.length ≤ q → IsCached q → ∀ e ∈ entries, e.1 ≠ q := by
    rintro q le cached e member rfl
    exact absurd (of.covered e member cached) (not_lt.mpr le)
  have before : (cache ++ List.replicate (p - cache.length) none).length = p := by
    rw [List.length_append, List.length_replicate]
    omega
  have length : (Renumber.pushCache cache p entries.length).length = p + 1 := by
    rw [Renumber.pushCache, List.length_append, before, List.length_singleton]
  refine ⟨fun q inside => ?_, fun e member cached => ?_, .inr ⟨(p, v), by simp, small, length.symm⟩⟩
  · rw [Renumber.pushCache]
    rcases lt_trichotomy q p with less | rfl | greater
    · rw [List.getElem?_append_left (by omega), findIdx?_concat_of_ne less.ne']
      by_cases old : q < cache.length
      · rw [List.getElem?_append_left old, of.entry q old]
      · rw [List.getElem?_append_right (by omega), List.getElem?_replicate, if_pos (by omega),
          findIdx?_eq_none (fresh q (by omega) (less.trans small))]
    · rw [List.getElem?_append_right (by omega), before, Nat.sub_self, List.findIdx?_append,
        findIdx?_eq_none (fresh q new small)]
      simp
    · omega
  · rw [length]
    rcases List.mem_append.mp member with old | last
    · have := of.covered e old cached
      omega
    · rw [List.mem_singleton.mp last]
      omega

/-! ## The entries of a prime -/

def Below (entries : List (ℕ × ℕ)) (p : ℕ) : Prop := ∀ e ∈ entries, e.1 < p

theorem CacheOf.length_le_of_below (of : CacheOf entries cache) (below : Below entries p) : cache.length ≤ p := by
  rcases of.last with rfl | ⟨e, member, -, last⟩
  · exact Nat.zero_le _
  · rw [← last]
    exact below e member

theorem CacheOf.skips (of : CacheOf entries cache) (known : IsCached p → ∃ e ∈ entries, e.1 = p)
    {flat : List (ℕ × ℕ)} (same : ∀ e ∈ flat, e.1 = p) : CacheOf (entries ++ flat) cache := by
  induction flat generalizing entries with
  | nil => rwa [List.append_nil]
  | cons e flat ih =>
    rw [List.forall_mem_cons] at same
    obtain ⟨q, v⟩ := e
    obtain rfl : q = p := same.1
    rw [List.append_cons]
    refine ih (of.skip known) (fun cached => ?_) same.2
    obtain ⟨e, member, eq⟩ := known cached
    exact ⟨e, List.mem_append_left _ member, eq⟩

theorem CacheOf.prime (of : CacheOf entries cache) (below : Below entries p) {flat : List (ℕ × ℕ)}
    (nonempty : flat ≠ []) (same : ∀ e ∈ flat, e.1 = p) :
    CacheOf (entries ++ flat) (if IsCached p then Renumber.pushCache cache p entries.length else cache) := by
  split_ifs with small
  · cases flat with
    | nil => exact absurd rfl nonempty
    | cons e flat =>
      rw [List.forall_mem_cons] at same
      obtain ⟨q, v⟩ := e
      obtain rfl : q = p := same.1
      rw [List.append_cons]
      have first := of.push (v := v) small (of.length_le_of_below below)
      exact first.skips (fun _ => ⟨(q, v), by simp, rfl⟩) same.2
  · exact of.skips (fun cached => absurd cached small) same

namespace Renumber

variable {w : ℕ} {R : Renumber}

def withEntries (R : Renumber) (entries : List (ℕ × ℕ)) (cache : List (Option ℕ)) : Renumber :=
  { R with
    flatData := entries
    indexFromPCache := cache
    aboveCache := R.aboveBad + (entries.takeWhile fun e => IsCached e.1).length
    aboveAll := R.aboveBad + entries.length }

theorem Fresh.withEntries (fresh : R.Fresh) : R.withEntries [] [] = R := by
  obtain ⟨poly, lpb, badIdeals, maxP, flatData, cache, aboveAdd, aboveBad, aboveCache, aboveAll⟩ := R
  obtain ⟨flat, cached, above, all⟩ := fresh
  simp only at flat cached above all
  subst flat cached above all
  rfl

theorem cook_flat (p : ℕ) (roots : List (List ℕ)) :
    (R.cook w p roots).flat = (List.range R.nbPolys).flatMap fun side => (roots.getD side []).reverse.map fun r : ℕ =>
      (pRValue w p, R.computeVrFromPRSide w ⟨pRValue w p, pRValue w r, side⟩) := by
  unfold cook
  dsimp only
  split_ifs with none
  · symm
    rw [← List.length_eq_zero_iff]
    simpa [List.length_flatMap] using none
  · rfl

theorem cook_same {roots : List (List ℕ)} (small : p < 2 ^ w) : ∀ e ∈ (R.cook w p roots).flat, e.1 = p := by
  have value : pRValue w p = p := by
    rw [pRValue, Int.emod_eq_of_lt (by positivity) (by exact_mod_cast small)]
    rfl
  intro e member
  rw [cook_flat] at member
  obtain ⟨side, -, inside⟩ := List.mem_flatMap.mp member
  obtain ⟨r, -, rfl⟩ := List.mem_map.mp inside
  exact value

theorem cook_length (p : ℕ) (roots : List (List ℕ)) :
    (R.cook w p roots).nroots.sum = (R.cook w p roots).flat.length := by
  unfold cook
  dsimp only
  split_ifs with none
  · exact none
  · simp [List.length_flatMap]

theorem takeWhile_prime {flat : List (ℕ × ℕ)} (below : Below entries p) (same : ∀ e ∈ flat, e.1 = p) :
    ((entries ++ flat).takeWhile fun e => IsCached e.1) =
      if IsCached p then entries ++ flat else entries.takeWhile fun e => IsCached e.1 := by
  split_ifs with small
  · rw [List.takeWhile_eq_self_iff]
    intro e member
    rcases List.mem_append.mp member with before | new
    · exact decide_eq_true ((below e before).trans small)
    · exact decide_eq_true (same e new ▸ small)
  · have none : (flat.takeWhile fun e => IsCached e.1) = [] := by
      cases flat with
      | nil => rfl
      | cons e flat => exact List.takeWhile_cons_of_neg (by simpa [same e List.mem_cons_self] using small)
    rw [List.takeWhile_append, none, List.append_nil]
    split_ifs with all
    · exact (List.IsPrefix.eq_of_length (List.takeWhile_prefix _) all).symm
    · rfl

theorem useCooked_withEntries {C : Cooked} (of : CacheOf entries cache) (below : Below entries p)
    (same : ∀ e ∈ C.flat, e.1 = p) (count : C.nroots.sum = C.flat.length) :
    ∃ cache', CacheOf (entries ++ C.flat) cache' ∧
      (R.withEntries entries cache).useCooked p C = R.withEntries (entries ++ C.flat) cache' := by
  by_cases none : C.flat = []
  · rw [none, List.append_nil]
    exact ⟨cache, of, by rw [useCooked, none]; rfl⟩
  refine ⟨_, of.prime below none same, ?_⟩
  have some : C.flat.isEmpty = false := by simpa using none
  have new := of.length_le_of_below below
  simp only [useCooked, some, Bool.false_eq_true, if_false, useCookedNostore, withEntries, count,
    takeWhile_prime below same, shiftRight_eq_zero_iff, List.length_append]
  by_cases small : IsCached p
  · simp [small, new, Nat.add_assoc]
  · simp [small, Nat.add_assoc]

def entriesOf (w : ℕ) (R : Renumber) (primes : List (ℕ × List (List ℕ))) : List (ℕ × ℕ) :=
  primes.flatMap fun P => (R.cook w P.1 P.2).flat

theorem entriesOf_sorted {primes : List (ℕ × List (List ℕ))} (small : ∀ P ∈ primes, P.1 < 2 ^ w)
    (increasing : primes.Pairwise fun P Q => P.1 < Q.1) :
    (R.entriesOf w primes).Pairwise fun a b => a.1 ≤ b.1 := by
  rw [entriesOf, List.pairwise_flatMap]
  refine ⟨fun P member => ?_, ?_⟩
  · have same : ∀ e ∈ (R.cook w P.1 P.2).flat, e.1 = P.1 := cook_same (small P member)
    exact List.pairwise_of_forall_mem_list fun a left b right => (same a left).trans (same b right).symm |>.le
  · refine increasing.imp_of_mem fun {P Q} left right less a first b second => ?_
    rw [cook_same (small P left) a first, cook_same (small Q right) b second]
    exact less.le

theorem foldl_useCooked {primes : List (ℕ × List (List ℕ))} (small : ∀ P ∈ primes, P.1 < 2 ^ w)
    (increasing : primes.Pairwise fun P Q => P.1 < Q.1) (of : CacheOf entries cache)
    (below : ∀ P ∈ primes, Below entries P.1) :
    ∃ cache', CacheOf (entries ++ R.entriesOf w primes) cache' ∧
      primes.foldl (fun T P => T.useCooked P.1 (R.cook w P.1 P.2)) (R.withEntries entries cache) =
        R.withEntries (entries ++ R.entriesOf w primes) cache' := by
  induction primes generalizing entries cache with
  | nil => exact ⟨cache, by rwa [entriesOf, List.flatMap_nil, List.append_nil], by simp [entriesOf]⟩
  | cons P primes ih =>
    rw [List.forall_mem_cons] at small below
    obtain ⟨later, increasing⟩ := List.pairwise_cons.mp increasing
    have same : ∀ e ∈ (R.cook w P.1 P.2).flat, e.1 = P.1 := cook_same small.1
    obtain ⟨cache₁, of₁, step⟩ := useCooked_withEntries (R := R) of below.1 same (cook_length P.1 P.2)
    have below₁ : ∀ Q ∈ primes, Below (entries ++ (R.cook w P.1 P.2).flat) Q.1 := by
      intro Q member e inside
      rcases List.mem_append.mp inside with before | new
      · exact below.2 Q member e before
      · rw [same e new]
        exact later Q member
    obtain ⟨cache₂, of₂, run⟩ := ih small.2 increasing of₁ below₁
    rw [List.append_assoc] at of₂ run
    exact ⟨cache₂, of₂, by rw [List.foldl_cons, step]; exact run⟩

theorem cookedTable_eq (fresh : R.Fresh) {primes : List (ℕ × List (List ℕ))} (small : ∀ P ∈ primes, P.1 < 2 ^ w)
    (increasing : primes.Pairwise fun P Q => P.1 < Q.1) :
    ∃ cache, CacheOf (R.entriesOf w primes) cache ∧
      R.cookedTable w primes = R.withEntries (R.entriesOf w primes) cache := by
  have run := foldl_useCooked (R := R) small increasing CacheOf.nil fun _ _ => nofun
  rwa [fresh.withEntries] at run

end Renumber

end CadoNfs.Utils
