import Mathlib

/-!
# Walks that only go forward

A walk on the natural numbers emits a list at each place. Up to a bound it can be cut in two, and when its moves
repeat with a period it can be run in areas, each seen from the start of the area.
-/

namespace CadoNfs.Lib

def emitUntil {σ β : Type} (done : σ → Bool) (emit : σ → List β) (next : σ → σ) : ℕ → σ → Option (List β × σ)
  | 0, s => if done s then some ([], s) else none
  | fuel + 1, s =>
    if done s then some ([], s)
    else (emitUntil done emit next fuel (next s)).map fun (l, last) => (emit s ++ l, last)

structure ForwardWalk where
  next : ℕ → ℕ
  emit : ℕ → List ℕ
  lt_next : ∀ x, x < next x

namespace ForwardWalk
variable (W : ForwardWalk)

def run (bound x : ℕ) : List ℕ × ℕ :=
  if bound ≤ x then ([], x)
  else
    let rest := run bound (W.next x)
    (W.emit x ++ rest.1, rest.2)
termination_by bound - x
decreasing_by
  have := W.lt_next x
  omega

variable {W} {bound x : ℕ}

theorem run_done (past : bound ≤ x) : W.run bound x = ([], x) := by
  rw [run, if_pos past]

theorem run_step (below : x < bound) :
    W.run bound x = (W.emit x ++ (W.run bound (W.next x)).1, (W.run bound (W.next x)).2) := by
  rw [run, if_neg (not_le.mpr below)]

variable (W) in
theorem run_induction (bound : ℕ) {P : ℕ → Prop} (done : ∀ x, bound ≤ x → P x)
    (step : ∀ x, x < bound → P (W.next x) → P x) (x : ℕ) : P x := by
  by_cases past : bound ≤ x
  · exact done x past
  · exact step x (not_le.mp past) (run_induction bound done step (W.next x))
termination_by bound - x
decreasing_by
  have := W.lt_next x
  omega

theorem le_run_last (bound x : ℕ) : bound ≤ (W.run bound x).2 := by
  induction x using W.run_induction bound with
  | done x past => rwa [run_done past]
  | step x below ih => rwa [run_step below]

theorem run_cut {a b : ℕ} (le : a ≤ b) (x : ℕ) :
    W.run b x = ((W.run a x).1 ++ (W.run b (W.run a x).2).1, (W.run b (W.run a x).2).2) := by
  induction x using W.run_induction a with
  | done x past => rw [run_done past, List.nil_append]
  | step x below ih => rw [run_step (below.trans_le le), ih, run_step below, List.append_assoc]

structure Periodic (W : ForwardWalk) (period : ℕ) : Prop where
  next : ∀ x, W.next (x + period) = W.next x + period
  emit : ∀ x, W.emit (x + period) = (W.emit x).map (· + period)

theorem Periodic.mul {period : ℕ} (periodic : W.Periodic period) (k : ℕ) : W.Periodic (k * period) := by
  induction k with
  | zero =>
    rw [Nat.zero_mul]
    exact ⟨fun x => rfl, fun x => (List.map_id _).symm⟩
  | succ k ih =>
    rw [Nat.succ_mul]
    refine ⟨fun x => ?_, fun x => ?_⟩
    · rw [← Nat.add_assoc, periodic.next, ih.next, Nat.add_assoc]
    · rw [← Nat.add_assoc, periodic.emit, ih.emit, List.map_map]
      exact List.map_congr_left fun y _ => Nat.add_assoc ..

theorem Periodic.run {period : ℕ} (periodic : W.Periodic period) (bound x : ℕ) :
    W.run (bound + period) (x + period) = ((W.run bound x).1.map (· + period), (W.run bound x).2 + period) := by
  induction x using W.run_induction bound with
  | done x past => rw [run_done past, run_done (Nat.add_le_add_right past period), List.map_nil]
  | step x below ih =>
    rw [run_step (Nat.add_lt_add_right below period), periodic.next, ih, run_step below, periodic.emit, List.map_append]

structure Ordered (W : ForwardWalk) : Prop where
  le : ∀ x, ∀ y ∈ W.emit x, x ≤ y
  lt : ∀ x, ∀ y ∈ W.emit x, y < W.next x
  sorted : ∀ x, (W.emit x).Pairwise (· < ·)

theorem Ordered.le_run (ordered : W.Ordered) (bound x : ℕ) : ∀ y ∈ (W.run bound x).1, x ≤ y := by
  induction x using W.run_induction bound with
  | done x past =>
    rw [run_done past]
    exact nofun
  | step x below ih =>
    rw [run_step below]
    intro y member
    rcases List.mem_append.mp member with here | later
    · exact ordered.le x y here
    · exact (W.lt_next x).le.trans (ih y later)

theorem Ordered.sorted_run (ordered : W.Ordered) (bound x : ℕ) : (W.run bound x).1.Pairwise (· < ·) := by
  induction x using W.run_induction bound with
  | done x past =>
    rw [run_done past]
    exact .nil
  | step x below ih =>
    rw [run_step below, List.pairwise_append]
    exact ⟨ordered.sorted x, ih, fun y here z later =>
      (ordered.lt x y here).trans_le (ordered.le_run bound (W.next x) z later)⟩

theorem Ordered.filter_run (ordered : W.Ordered) {a b : ℕ} (le : a ≤ b)
    (closed : ∀ x < a, ∀ y ∈ W.emit x, y < a) (x : ℕ) :
    (W.run b x).1.filter (· < a) = (W.run a x).1 := by
  have inside : ∀ x, ∀ y ∈ (W.run a x).1, y < a := by
    intro x
    induction x using W.run_induction a with
    | done x past =>
      rw [run_done past]
      exact nofun
    | step x below ih =>
      rw [run_step below]
      intro y member
      rcases List.mem_append.mp member with here | later
      · exact closed x below y here
      · exact ih y later
  have first : (W.run a x).1.filter (· < a) = (W.run a x).1 :=
    List.filter_eq_self.mpr fun y member => decide_eq_true (inside x y member)
  have second : (W.run b (W.run a x).2).1.filter (· < a) = [] := by
    rw [List.filter_eq_nil_iff]
    intro y member
    have := (le_run_last a x).trans (ordered.le_run b _ y member)
    simp only [decide_eq_true_eq]
    omega
  rw [run_cut le, List.filter_append, first, second, List.append_nil]

def areas (W : ForwardWalk) (area : ℕ) : ℕ → ℕ → List (List ℕ)
  | 0, _ => []
  | n + 1, x => (W.run area x).1 :: areas W area n ((W.run area x).2 - area)

def placed (area : ℕ) : ℕ → List (List ℕ) → List ℕ
  | _, [] => []
  | o, l :: ls => l.map (· + o) ++ placed area (o + area) ls

theorem le_placed {area : ℕ} {ls : List (List ℕ)} (o : ℕ) : ∀ y ∈ placed area o ls, o ≤ y := by
  induction ls generalizing o with
  | nil => exact nofun
  | cons l ls ih =>
    intro y member
    rcases List.mem_append.mp member with here | later
    · obtain ⟨z, -, rfl⟩ := List.mem_map.mp here
      exact Nat.le_add_left _ _
    · exact (Nat.le_add_right _ _).trans (ih _ y later)

theorem placed_eq {area : ℕ} (periodic : W.Periodic area) (n o x : ℕ) :
    placed area o (W.areas area n x) = (W.run (n * area) x).1.map (· + o) := by
  induction n generalizing o x with
  | zero =>
    rw [Nat.zero_mul, run_done (Nat.zero_le x)]
    rfl
  | succ n ih =>
    obtain ⟨rest, split⟩ := Nat.exists_eq_add_of_le' (le_run_last (W := W) area x)
    have whole : area ≤ (n + 1) * area := Nat.le_mul_of_pos_left area n.succ_pos
    rw [areas, placed, ih, split, Nat.add_sub_cancel, run_cut whole, split, Nat.succ_mul, periodic.run, List.map_append,
      List.map_map]
    congr 1
    refine List.map_congr_left fun y _ => ?_
    simp only [Function.comp_apply]
    omega

/-- The walk that takes at each place the move, and shows what is seen, at the same place of the first area. -/
def inAreas (W : ForwardWalk) (area : ℕ) : ForwardWalk where
  next x := W.next (x % area) + (x - x % area)
  emit x := (W.emit (x % area)).map (· + (x - x % area))
  lt_next x := by
    have := W.lt_next (x % area)
    have := Nat.mod_le x area
    omega

theorem inAreas_of_lt {area : ℕ} (inside : x < area) :
    (W.inAreas area).next x = W.next x ∧ (W.inAreas area).emit x = W.emit x := by
  have first := Nat.mod_eq_of_lt inside
  constructor
  · change W.next (x % area) + (x - x % area) = _
    rw [first, Nat.sub_self, Nat.add_zero]
  · change (W.emit (x % area)).map _ = _
    rw [first, Nat.sub_self]
    exact List.map_id _

theorem inAreas_periodic (W : ForwardWalk) (area : ℕ) : (W.inAreas area).Periodic area := by
  have shift (x : ℕ) : x + area - x % area = x - x % area + area := Nat.sub_add_comm (Nat.mod_le x area)
  refine ⟨fun x => ?_, fun x => ?_⟩
  · change W.next ((x + area) % area) + (x + area - (x + area) % area) = W.next (x % area) + (x - x % area) + area
    rw [Nat.add_mod_right, shift, Nat.add_assoc]
  · change (W.emit ((x + area) % area)).map (· + (x + area - (x + area) % area)) = List.map _ (List.map _ _)
    rw [Nat.add_mod_right, shift, List.map_map]
    exact List.map_congr_left fun y _ => (Nat.add_assoc ..).symm

theorem inAreas_next {period area : ℕ} (shift : ∀ x, W.next (x + period) = W.next x + period) (divides : period ∣ area)
    (x : ℕ) : (W.inAreas area).next x = W.next x := by
  have several (k x : ℕ) : W.next (x + period * k) = W.next x + period * k := by
    induction k with
    | zero => rfl
    | succ k ih => rw [Nat.mul_succ, ← Nat.add_assoc, shift, ih, Nat.add_assoc]
  obtain ⟨m, rfl⟩ := divides
  have split := Nat.mod_add_div x (period * m)
  have rest : x - x % (period * m) = period * (m * (x / (period * m))) := by
    rw [← Nat.mul_assoc]
    omega
  change W.next (x % (period * m)) + (x - x % (period * m)) = _
  conv_rhs => rw [← split, Nat.mul_assoc, several]
  rw [rest]

theorem Periodic.inAreas_eq {period area : ℕ} (periodic : W.Periodic period) (divides : period ∣ area) (x : ℕ) :
    (W.inAreas area).next x = W.next x ∧ (W.inAreas area).emit x = W.emit x := by
  refine ⟨inAreas_next periodic.next divides x, ?_⟩
  obtain ⟨m, rfl⟩ := divides
  have split := Nat.mod_add_div' x (period * m)
  have rest : x - x % (period * m) = x / (period * m) * m * period := by
    rw [Nat.mul_assoc, Nat.mul_comm m]
    omega
  change (W.emit (x % (period * m))).map (· + (x - x % (period * m))) = _
  rw [rest]
  conv_rhs => rw [← split, Nat.mul_comm period m, ← Nat.mul_assoc, (periodic.mul _).emit, Nat.mul_comm m period]

theorem Ordered.inAreas (ordered : W.Ordered) (area : ℕ) : (W.inAreas area).Ordered := by
  refine ⟨fun x y member => ?_, fun x y member => ?_, fun x => ?_⟩
  · obtain ⟨z, inside, rfl⟩ := List.mem_map.mp member
    have := ordered.le _ z inside
    have := Nat.mod_le x area
    omega
  · obtain ⟨z, inside, rfl⟩ := List.mem_map.mp member
    exact Nat.add_lt_add_right (ordered.lt _ z inside) _
  · change ((W.emit (x % area)).map _).Pairwise _
    rw [List.pairwise_map]
    exact (ordered.sorted _).imp fun less => Nat.add_lt_add_right less _

theorem inAreas_closed {area block : ℕ} (divides : block ∣ area)
    (closed : ∀ k, ∀ x < k * block, ∀ y ∈ W.emit x, y < k * block) (k : ℕ) :
    ∀ x < k * block, ∀ y ∈ (W.inAreas area).emit x, y < k * block := by
  intro x below y member
  obtain ⟨z, inside, rfl⟩ := List.mem_map.mp member
  obtain ⟨m, rfl⟩ := divides
  have start : x - x % (block * m) = x / (block * m) * m * block := by
    have := Nat.mod_add_div' x (block * m)
    rw [Nat.mul_assoc, Nat.mul_comm m block]
    omega
  have le := Nat.mod_le x (block * m)
  rw [start]
  have offset : x % (block * m) < (k - x / (block * m) * m) * block := by
    rw [Nat.sub_mul]
    omega
  have := closed _ _ offset z inside
  rw [Nat.sub_mul] at this
  omega

theorem run_inAreas {area : ℕ} (le : bound ≤ area) (x : ℕ) : (W.inAreas area).run bound x = W.run bound x := by
  induction x using W.run_induction bound with
  | done x past => rw [run_done past, run_done past]
  | step x below ih =>
    obtain ⟨next, emit⟩ := inAreas_of_lt (W := W) (below.trans_le le)
    rw [run_step below, run_step below, next, emit, ih]

theorem areas_inAreas (W : ForwardWalk) (area n x : ℕ) : (W.inAreas area).areas area n x = W.areas area n x := by
  induction n generalizing x with
  | zero => rfl
  | succ n ih => rw [areas, areas, run_inAreas le_rfl, ih]

structure Alike (W : ForwardWalk) (area bound x : ℕ) : Prop where
  emit : (W.inAreas area).emit x = W.emit x
  next : (W.inAreas area).next x = W.next x ∨ bound ≤ (W.inAreas area).next x ∧ bound ≤ W.next x

theorem run_of_alike {area : ℕ} (alike : ∀ k, W.next^[k] x < bound → W.Alike area bound (W.next^[k] x)) :
    ((W.inAreas area).run bound x).1 = (W.run bound x).1 := by
  induction x using W.run_induction bound with
  | done x past => rw [run_done past, run_done past]
  | step x below ih =>
    obtain ⟨emit, next⟩ := alike 0 below
    rw [Function.iterate_zero_apply] at emit next
    rw [run_step below, run_step below, emit]
    rcases next with same | ⟨past, past'⟩
    · rw [same, ih fun k => alike (k + 1)]
    · rw [run_done past, run_done past']

theorem Ordered.run_split (ordered : W.Ordered) (below : x < bound) :
    (W.run bound x).1.filter (· < W.next x) = W.emit x ∧
      (W.run bound x).1.filter (W.next x ≤ ·) = (W.run bound (W.next x)).1 := by
  have before : ∀ y ∈ W.emit x, y < W.next x := ordered.lt x
  have after : ∀ y ∈ (W.run bound (W.next x)).1, W.next x ≤ y := ordered.le_run bound (W.next x)
  rw [run_step below, List.filter_append, List.filter_append]
  constructor
  · rw [List.filter_eq_self.mpr (by simpa using before), List.filter_eq_nil_iff.mpr (by simpa using after),
      List.append_nil]
  · rw [List.filter_eq_nil_iff.mpr (by simpa using before), List.filter_eq_self.mpr (by simpa using after),
      List.nil_append]

theorem Ordered.alike_of_run {area : ℕ} (ordered : W.Ordered) (next : ∀ x, (W.inAreas area).next x = W.next x)
    (same : ((W.inAreas area).run bound x).1 = (W.run bound x).1) (k : ℕ) (below : W.next^[k] x < bound) :
    W.Alike area bound (W.next^[k] x) := by
  have start : x < bound := by
    refine lt_of_le_of_lt ?_ below
    exact Function.id_le_iterate_of_id_le (fun y => (W.lt_next y).le) k x
  obtain ⟨here, later⟩ := ordered.run_split start
  obtain ⟨here', later'⟩ := (ordered.inAreas area).run_split start
  rw [same, next] at here' later'
  induction k generalizing x with
  | zero => exact ⟨here'.symm.trans here, .inl (next x)⟩
  | succ k ih =>
    rw [Function.iterate_succ_apply] at below ⊢
    have start' : W.next x < bound := lt_of_le_of_lt (Function.id_le_iterate_of_id_le (fun y => (W.lt_next y).le) k _) below
    have same' := later'.symm.trans later
    obtain ⟨here, later⟩ := ordered.run_split start'
    obtain ⟨here', later'⟩ := (ordered.inAreas area).run_split start'
    rw [same', next] at here' later'
    exact ih same' below start' here later here' later'

end ForwardWalk

theorem emitUntil_walk {σ β γ : Type} {W : ForwardWalk} {bound : ℕ} {done : σ → Bool} {emit : σ → List β} {next : σ → σ}
    (At : σ → ℕ → Prop) {see : β → List γ} {place : ℕ → γ} (stops : ∀ s x, At s x → (done s = true ↔ bound ≤ x))
    (moves : ∀ s x, At s x → x < bound → At (next s) (W.next x))
    (shows : ∀ s x, At s x → x < bound → (emit s).flatMap see = (W.emit x).map place) {fuel x : ℕ} {s : σ}
      (here : At s x)
    (enough : bound - x ≤ fuel) :
    ∃ l last, emitUntil done emit next fuel s = some (l, last) ∧ l.flatMap see = (W.run bound x).1.map place ∧
      At last (W.run bound x).2 := by
  induction fuel generalizing s x with
  | zero =>
    have past : bound ≤ x := by omega
    refine ⟨[], s, if_pos ((stops s x here).mpr past), ?_, ?_⟩
    · rw [ForwardWalk.run_done past]
      rfl
    · rwa [ForwardWalk.run_done past]
  | succ fuel ih =>
    by_cases past : bound ≤ x
    · refine ⟨[], s, if_pos ((stops s x here).mpr past), ?_, ?_⟩
      · rw [ForwardWalk.run_done past]
        rfl
      · rwa [ForwardWalk.run_done past]
    · have below := not_le.mp past
      have forward := W.lt_next x
      obtain ⟨l, last, ran, emitted, there⟩ := ih (moves s x here below) (by omega)
      refine ⟨emit s ++ l, last, ?_, ?_, ?_⟩
      · rw [emitUntil, if_neg ((stops s x here).not.mpr past), ran]
        rfl
      · rw [List.flatMap_append, shows s x here below, emitted, ForwardWalk.run_step below, List.map_append]
      · rwa [ForwardWalk.run_step below]

end CadoNfs.Lib
