import Mathlib

/-!
# Compaction of an array

Kept positions move to the front: position `j` goes to the number of kept positions before it.
-/

namespace CadoNfs.Lib

variable (keep : Nat → Bool)

def rank (j : Nat) : Nat := Nat.count (keep · = true) j

def scanChunk (m : Nat) : List Nat → List Nat
  | [] => []
  | j :: js => m :: scanChunk (if keep j then m + 1 else m) js

def scanChunks (m : Nat) : List (List Nat) → List Nat
  | [] => []
  | chunk :: chunks => scanChunk keep m chunk ++ scanChunks (m + chunk.countP keep) chunks

theorem scanChunk_append (m : Nat) (js ks : List Nat) :
    scanChunk keep m (js ++ ks) = scanChunk keep m js ++ scanChunk keep (m + js.countP keep) ks := by
  induction js generalizing m with
  | nil => simp [scanChunk]
  | cons j js ih =>
    cases kept : keep j <;>
      simp [scanChunk, kept, ih, Nat.add_assoc, Nat.add_comm 1]

theorem scanChunks_flatten (m : Nat) (chunks : List (List Nat)) :
    scanChunks keep m chunks = scanChunk keep m chunks.flatten := by
  induction chunks generalizing m with
  | nil => rfl
  | cons chunk chunks ih => rw [scanChunks, ih, List.flatten_cons, scanChunk_append]

theorem rank_succ (j : Nat) : rank keep (j + 1) = if keep j then rank keep j + 1 else rank keep j := by
  unfold rank
  rw [Nat.count_succ]
  split_ifs <;> rfl

theorem countP_range (n : Nat) : (List.range n).countP keep = rank keep n := by
  induction n with
  | zero => simp [rank]
  | succ n ih =>
    rw [List.range_succ, List.countP_append, ih, rank_succ, List.countP_singleton]
    split_ifs <;> rfl

theorem scanChunk_range' (j k : Nat) :
    scanChunk keep (rank keep j) (List.range' j k) = (List.range' j k).map (rank keep) := by
  induction k generalizing j with
  | zero => rfl
  | succ k ih =>
    rw [List.range'_succ, scanChunk, List.map_cons, ← rank_succ, ih]

theorem scanChunks_eq {n : Nat} {chunks : List (List Nat)} (schedule : chunks.flatten = List.range n) :
    scanChunks keep 0 chunks = (List.range n).map (rank keep) := by
  have zero : rank keep 0 = 0 := Nat.count_zero _
  rw [scanChunks_flatten, schedule, List.range_eq_range', ← scanChunk_range', zero]

variable {keep}

theorem rank_lt {j k : Nat} (kept : keep j = true) (lt : j < k) : rank keep j < rank keep k :=
  Nat.count_strict_mono kept lt

theorem rank_le {j k : Nat} (le : j ≤ k) : rank keep j ≤ rank keep k :=
  Nat.count_monotone _ le

theorem rank_injective {j k : Nat} (left : keep j = true) (right : keep k = true)
    (eq : rank keep j = rank keep k) : j = k :=
  Nat.count_injective left right eq

theorem rank_le_iff {j k : Nat} (kept : keep k = true) : rank keep j ≤ rank keep k ↔ j ≤ k := by
  constructor
  · intro le
    by_contra gt
    exact absurd (rank_lt kept (not_le.mp gt)) (not_lt.mpr le)
  · exact rank_le

theorem exists_rank_eq {n k : Nat} (below : k < rank keep n) :
    ∃ j < n, keep j = true ∧ rank keep j = k := by
  induction n with
  | zero => simp [rank] at below
  | succ n ih =>
    rw [rank_succ] at below
    by_cases old : k < rank keep n
    · obtain ⟨j, lt, kept, eq⟩ := ih old
      exact ⟨j, lt.trans (Nat.lt_succ_self n), kept, eq⟩
    · split_ifs at below with kept
      · exact ⟨n, Nat.lt_succ_self n, kept, by omega⟩
      · exact absurd below old

def scatter {β : Type*} (p : Nat → Nat) (f : Nat → β) (js : List Nat) (init : Nat → β) : Nat → β :=
  js.foldl (fun a j => Function.update a (p j) (f j)) init

variable {β : Type*} {p : Nat → Nat} {f : Nat → β} {js : List Nat}

theorem scatter_other {init : Nat → β} {k : Nat} (other : ∀ j ∈ js, p j ≠ k) :
    scatter p f js init k = init k := by
  induction js generalizing init with
  | nil => rfl
  | cons j js ih =>
    rw [scatter, List.foldl_cons, ← scatter, ih fun i member => other i (.tail _ member)]
    exact Function.update_of_ne (other j (by simp)).symm _ _

theorem scatter_apply (apart : ∀ j ∈ js, ∀ k ∈ js, p j = p k → j = k) (init : Nat → β) {j : Nat}
    (member : j ∈ js) : scatter p f js init (p j) = f j := by
  induction js generalizing init with
  | nil => cases member
  | cons i js ih =>
    rw [scatter, List.foldl_cons, ← scatter]
    by_cases later : j ∈ js
    · exact ih (fun a ha b hb => apart a (.tail _ ha) b (.tail _ hb)) _
        later
    · obtain rfl := (List.mem_cons.mp member).resolve_right later
      rw [scatter_other fun k hk eq => later ?_]
      · exact Function.update_self _ _ _
      · exact apart k (.tail _ hk) j (by simp) eq ▸ hk

def crunch (keep : β → Bool) (n : Nat) (a : Nat → β) : Nat × (Nat → β) :=
  (List.range n).foldl (fun (j, a) i => if keep (a i) then (j + 1, Function.update a j (a i)) else (j, a))
    (0, a)

theorem crunch_succ (keep : β → Bool) (n : Nat) (a : Nat → β) :
    crunch keep (n + 1) a =
      if keep ((crunch keep n a).2 n) then
        ((crunch keep n a).1 + 1, Function.update (crunch keep n a).2 (crunch keep n a).1
          ((crunch keep n a).2 n))
      else crunch keep n a := by
  rw [crunch, List.range_succ, List.foldl_concat, ← crunch]

theorem rank_le_self (keep : Nat → Bool) (n : Nat) : rank keep n ≤ n := Nat.count_le _

theorem crunch_eq (keep : β → Bool) (n : Nat) (a : Nat → β) :
    (crunch keep n a).1 = rank (fun i => keep (a i)) n ∧
      (∀ i < n, keep (a i) = true → (crunch keep n a).2 (rank (fun i => keep (a i)) i) = a i) ∧
      ∀ i, n ≤ i → (crunch keep n a).2 i = a i := by
  induction n with
  | zero => exact ⟨(Nat.count_zero _).symm, fun i below => absurd below (Nat.not_lt_zero i), fun _ _ => rfl⟩
  | succ n ih =>
    obtain ⟨filled, front, unread⟩ := ih
    rw [crunch_succ, unread n le_rfl, rank_succ, filled]
    split_ifs with kept
    · refine ⟨rfl, fun i below keep_i => ?_, fun i above => ?_⟩
      · show Function.update _ _ _ _ = _
        rcases Nat.lt_succ_iff_lt_or_eq.mp below with earlier | rfl
        · rw [Function.update_of_ne (rank_lt keep_i earlier).ne]
          exact front i earlier keep_i
        · exact Function.update_self _ _ _
      · show Function.update _ _ _ _ = _
        have le := rank_le_self (fun i => keep (a i)) n
        rw [Function.update_of_ne (by omega)]
        exact unread i (by omega)
    · refine ⟨filled, fun i below keep_i => ?_, fun i above => unread i (by omega)⟩
      rcases Nat.lt_succ_iff_lt_or_eq.mp below with earlier | rfl
      · exact front i earlier keep_i
      · exact absurd keep_i kept

theorem crunch_together {γ : Type*} (keep : β → Bool) (keep' : γ → Bool) {n : Nat} (a : Nat → β)
    (b : Nat → γ) (same : ∀ i < n, keep (a i) = keep' (b i)) :
    (crunch keep' n b).1 = (crunch keep n a).1 ∧
      ∀ k < (crunch keep n a).1, ∃ i < n, keep (a i) = true ∧
        rank (fun i => keep (a i)) i = k ∧ (crunch keep n a).2 k = a i ∧ (crunch keep' n b).2 k = b i := by
  have ranks : ∀ i ≤ n, rank (fun i => keep (a i)) i = rank (fun i => keep' (b i)) i := by
    intro i le
    rw [← countP_range, ← countP_range]
    refine List.countP_congr fun k member => ?_
    rw [same k (by have := List.mem_range.mp member; omega)]
  obtain ⟨filledA, frontA, -⟩ := crunch_eq keep n a
  obtain ⟨filledB, frontB, -⟩ := crunch_eq keep' n b
  refine ⟨by rw [filledA, filledB, ranks n le_rfl], fun k below => ?_⟩
  rw [filledA] at below
  obtain ⟨i, lt, kept, rfl⟩ := exists_rank_eq below
  refine ⟨i, lt, kept, rfl, frontA i lt kept, ?_⟩
  rw [ranks i lt.le]
  exact frontB i lt (same i lt ▸ kept)

end CadoNfs.Lib
