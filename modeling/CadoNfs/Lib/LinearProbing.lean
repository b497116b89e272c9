import CadoNfs.Lib.Ring

/-!
# Linear probing

A hash table without deletions.
-/

namespace CadoNfs.Lib.LinearProbing
open CadoNfs.Lib.Ring

variable {α : Type*} {H H' : List α} {empty tag : α} {home i n fuel : ℕ}

/-- The cell where the search ends and the number of cells passed over; `none` when the fuel runs out. -/
def probe [DecidableEq α] (H : List α) (empty tag : α) : ℕ → ℕ → Option (ℕ × ℕ)
  | 0, _ => none
  | fuel + 1, i =>
    if H[i]? = some empty ∨ H[i]? = some tag then some (i, 0)
    else (probe H empty tag fuel (if i + 1 = H.length then 0 else i + 1)).map fun (i, n) => (i, n + 1)

structure Ends (H : List α) (empty tag : α) (home n : ℕ) : Prop where
  stop : H[cell H.length home n]? = some empty ∨ H[cell H.length home n]? = some tag
  passed : ∀ m < n, H[cell H.length home m]? ≠ some empty ∧ H[cell H.length home m]? ≠ some tag

theorem Ends.unique {n' : ℕ} (ends : Ends H empty tag home n) (ends' : Ends H empty tag home n') : n = n' := by
  rcases lt_trichotomy n n' with less | same | more
  · have passed := ends'.passed n less
    exact absurd ends.stop (not_or.mpr passed)
  · exact same
  · have passed := ends.passed n' more
    exact absurd ends'.stop (not_or.mpr passed)

theorem next_cell (inside : home < H.length) :
    (if home + 1 = H.length then 0 else home + 1) = cell H.length home 1 := by
  unfold cell
  split_ifs <;> omega

theorem probe_iff [DecidableEq α] (inside : home < H.length) (within : fuel ≤ H.length) :
    probe H empty tag fuel home = some (i, n) ↔ i = cell H.length home n ∧ n < fuel ∧ Ends H empty tag home n := by
  induction fuel generalizing home i n with
  | zero => exact iff_of_false nofun fun h => absurd h.2.1 (Nat.not_lt_zero n)
  | succ fuel ih =>
    have here : cell H.length home 0 = home := cell_zero inside
    rw [probe, next_cell inside]
    split_ifs with stop
    · have ends : Ends H empty tag home 0 := ⟨by rwa [here], nofun⟩
      constructor
      · rintro ⟨⟩
        exact ⟨here.symm, fuel.succ_pos, ends⟩
      · rintro ⟨rfl, -, found⟩
        rw [found.unique ends, here]
    · have inside' : cell H.length home 1 < H.length := cell_lt inside (by omega)
      have shift (m : ℕ) (less : m < fuel) : cell H.length (cell H.length home 1) m = cell H.length home (m + 1) := by
        rw [cell_add inside (by omega), Nat.add_comm]
      rw [Option.map_eq_some_iff]
      constructor
      · rintro ⟨⟨i', m⟩, found, same⟩
        cases same
        obtain ⟨rfl, less, ends⟩ := (ih inside' (by omega)).mp found
        refine ⟨shift m less, by omega, by rw [← shift m less]; exact ends.stop, fun k before => ?_⟩
        cases k with
        | zero =>
          rw [here]
          exact not_or.mp stop
        | succ k =>
          rw [← shift k (by omega)]
          exact ends.passed k (by omega)
      · rintro ⟨rfl, less, ends⟩
        cases n with
        | zero =>
          have stops := ends.stop
          rw [here] at stops
          exact absurd stops stop
        | succ m =>
          refine ⟨(_, m), (ih inside' (by omega)).mpr ⟨rfl, by omega, ?_, fun k before => ?_⟩, ?_⟩
          · rw [shift m (by omega)]
            exact ends.stop
          · rw [shift k (by omega)]
            exact ends.passed (k + 1) (by omega)
          · rw [shift m (by omega)]

theorem exists_ends (inside : home < H.length) {stop : ℕ} (there : H[stop]? = some empty ∨ H[stop]? = some tag) :
    ∃ n < H.length, Ends H empty tag home n := by
  have within : stop < H.length := by
    rcases there with found | found <;> exact (List.getElem?_eq_some_iff.mp found).1
  obtain ⟨m, less, rfl⟩ := exists_cell inside within
  classical
  have stops : ∃ m, H[cell H.length home m]? = some empty ∨ H[cell H.length home m]? = some tag := ⟨m, there⟩
  exact ⟨Nat.find stops, (Nat.find_le there).trans_lt less, Nat.find_spec stops, fun k before =>
    not_or.mp (Nat.find_min stops before)⟩

theorem probe_eq_none_iff [DecidableEq α] (inside : home < H.length) :
    probe H empty tag H.length home = none ↔ empty ∉ H ∧ tag ∉ H := by
  constructor
  · intro none
    by_contra found
    rw [← not_or, not_not] at found
    have there : ∃ i : ℕ, H[i]? = some empty ∨ H[i]? = some tag := by
      rcases found with member | member
      · exact (List.mem_iff_getElem?.mp member).imp fun _ => .inl
      · exact (List.mem_iff_getElem?.mp member).imp fun _ => .inr
    obtain ⟨stop, there⟩ := there
    obtain ⟨n, less, ends⟩ := exists_ends inside there
    rw [(probe_iff inside le_rfl).mpr ⟨rfl, less, ends⟩] at none
    cases none
  · rintro ⟨full, absent⟩
    cases found : probe H empty tag H.length home with
    | none => rfl
    | some result =>
      have stop := ((probe_iff (i := result.1) (n := result.2) inside le_rfl).mp found).2.2.stop
      rcases stop with hit | hit
      · exact absurd (List.mem_of_getElem? hit) full
      · exact absurd (List.mem_of_getElem? hit) absent

/-! ## Tables that only gain tags -/

structure Keeps (empty : α) (H H' : List α) : Prop where
  length : H'.length = H.length
  kept : ∀ (i : ℕ) (x : α), H[i]? = some x → x ≠ empty → H'[i]? = some x

theorem Ends.keeps_set (ends : Ends H empty tag home n) : Keeps empty H (H.set (cell H.length home n) tag) := by
  refine ⟨List.length_set, fun i x held nonempty => ?_⟩
  by_cases here : i = cell H.length home n
  · subst here
    rcases ends.stop with free | same
    · rw [free] at held
      exact absurd (Option.some.inj held).symm nonempty
    · rw [same] at held
      rw [List.getElem?_set_self (List.getElem?_eq_some_iff.mp same).1]
      exact held
  · rw [List.getElem?_set_ne (Ne.symm here), held]

def Reaches (H : List α) (empty tag : α) (home : ℕ) : Prop :=
  ∃ n < H.length, H[cell H.length home n]? = some tag ∧ ∀ m < n, H[cell H.length home m]? ≠ some empty

theorem Ends.reaches_set (ends : Ends H empty tag home n) (inside : home < H.length) (less : n < H.length) :
    Reaches (H.set (cell H.length home n) tag) empty tag home := by
  refine ⟨n, by rwa [List.length_set], ?_, fun m before => ?_⟩
  · rw [List.length_set, List.getElem?_set_self (cell_lt inside less.le)]
  · rw [List.length_set, List.getElem?_set_ne (cell_ne before less).symm]
    exact (ends.passed m before).1

theorem Reaches.keeps (reaches : Reaches H empty tag home) (keeps : Keeps empty H H') (inside : home < H.length)
    (nonempty : tag ≠ empty) : Reaches H' empty tag home := by
  obtain ⟨n, less, there, before⟩ := reaches
  refine ⟨n, by rwa [keeps.length], by rw [keeps.length]; exact keeps.kept _ _ there nonempty, fun m lt => ?_⟩
  have within : cell H.length home m < H.length := cell_lt inside (by omega)
  have held : H[cell H.length home m]? = some H[cell H.length home m] := List.getElem?_eq_getElem within
  have filled : H[cell H.length home m] ≠ empty := fun free => before m lt (by rw [held, free])
  rw [keeps.length, keeps.kept _ _ held filled]
  exact fun free => filled (Option.some.inj free)

theorem Reaches.found (reaches : Reaches H empty tag home) (ends : Ends H empty tag home n) :
    H[cell H.length home n]? = some tag := by
  obtain ⟨m, -, there, before⟩ := reaches
  rcases lt_or_ge n m with less | more
  · exact ends.stop.resolve_left (before n less)
  · rcases more.lt_or_eq with passed | rfl
    · exact absurd there (ends.passed m passed).2
    · exact there

end CadoNfs.Lib.LinearProbing
