import CadoNfs.Filter.MergeFillIn

/-!
# Column weights through buckets

`compute_weights_backend` of `filter/merge_compute_weights.c`.
-/

namespace CadoNfs.Filter
open Lib Typerow

namespace BucketWeights

def bucketB : Nat := 2 ^ 16

inductive BucketData
  | asyncFlush (data : List Nat)
  | privateCache (data : Nat → Nat)

structure Bucket where
  data : BucketData
  lastFlush : Nat

def bucketInit : Bucket := ⟨.asyncFlush [], 0⟩

def addWeight (dst n : Nat) : Nat :=
  let c := (dst + n) % 256
  if c < dst then 255 else c

namespace Bucket

def flushRaw (b : Bucket) (wt : Nat → Nat) (base max : Nat) : Nat → Nat :=
  match b.data with
  | .privateCache data => fun j =>
      if base ≤ j ∧ j < base + min max (2 ^ 16) then addWeight (wt j) (data (j - base)) else wt j
  | .asyncFlush data =>
      data.foldl (fun wt i => Function.update wt (base + i) (addWeight (wt (base + i)) 1)) wt

def flush (b : Bucket) (wt : Nat → Nat) (base when T : Nat) : Bucket × (Nat → Nat) :=
  let data := match b.data with
    | .privateCache _ => .privateCache fun _ => 0
    | .asyncFlush _ => if when < b.lastFlush + 16 * T then .privateCache fun _ => 0 else .asyncFlush []
  (⟨data, when⟩, b.flushRaw wt base (2 ^ 32 - 1))

-- still flush every 65536 lines
def due (b : Bucket) (when : Nat) : Bool := when / 2 ^ 16 > b.lastFlush / 2 ^ 16

def push (b : Bucket) (jl : Nat) (wt : Nat → Nat) (base when T : Nat) : Bucket × (Nat → Nat) :=
  match b.data with
  | .privateCache data =>
    if b.due when then
      let (b, wt) := b.flush wt base when T
      (⟨.privateCache (Function.update (fun _ => 0) jl 1), b.lastFlush⟩, wt)
    else (⟨.privateCache (Function.update data jl ((data jl + 1) % 2 ^ 16)), b.lastFlush⟩, wt)
  | .asyncFlush data =>
    let b : Bucket := ⟨.asyncFlush (data ++ [jl]), b.lastFlush⟩
    if data.length + 1 = bucketB then b.flush wt base when T else (b, wt)

end Bucket

structure State (T : Nat) where
  wt : Nat → Nat
  buckets : Fin T → Nat → Bucket

variable {T : Nat}

abbrev Push (T : Nat) := Fin T × Nat × Nat

def State.push (s : State T) (e : Push T) : State T :=
  let (t, i, j) := e
  let jh := j / 2 ^ 16
  let (b, wt) := (s.buckets t jh).push (j % 2 ^ 16) s.wt (jh * 2 ^ 16) i T
  { wt := wt, buckets := Function.update s.buckets t (Function.update (s.buckets t) jh b) }

def State.run (s : State T) (events : List (Push T)) : State T := events.foldl State.push s

def numberOfSlots (ncols : Nat) : Nat := (ncols + (2 ^ 16 - 1)) / 2 ^ 16

def slotMax (ncols jh : Nat) : Nat := min (2 ^ 16) (ncols - jh * 2 ^ 16)

def flushSlot (buckets : Fin T → Nat → Bucket) (ncols jh : Nat) (wt : Nat → Nat) : Nat → Nat :=
  (List.finRange T).foldl (fun wt t => (buckets t jh).flushRaw wt (jh * 2 ^ 16) (slotMax ncols jh)) wt

def State.final (s : State T) (ncols : Nat) : Nat → Nat := fun j =>
  if j / 2 ^ 16 < numberOfSlots ncols then flushSlot s.buckets ncols (j / 2 ^ 16) s.wt j else s.wt j

variable {α : Type} [Typerow α]

def start (T : Nat) (mat : FilterMatrix α) : State T :=
  ⟨fun j => if j < mat.ncols then 0 else mat.wt j, fun _ _ => bucketInit⟩

def rowPushes (rows : Rows α) (i : Nat) : List (Nat × Nat) :=
  (rows i).elim [] fun row => (columns row).reverse.map fun j => (i, j)

structure Schedule (mat : FilterMatrix α) (assigned : Fin T → List Nat) (events : List (Push T)) : Prop where
  rows : ((List.finRange T).flatMap assigned).Perm (List.range mat.nrows)
  pushes : ∀ t, (events.filter fun e => e.1 = t).map Prod.snd = (assigned t).flatMap (rowPushes mat.rows)

def computeWeightsBackend (mat : FilterMatrix α) (events : List (Push T)) : FilterMatrix α × Nat :=
  let wt := ((start T mat).run events).final mat.ncols
  ({ mat with wt := wt, remNcols := mat.ncols - ((List.range mat.ncols).filter fun j => wt j = 0).length },
    totalLength mat.nrows mat.rows)

/-! ## When no update is lost -/

def Bucket.Exact (b : Bucket) (wt : Nat → Nat) (base max : Nat) : Prop :=
  match b.data with
  | .asyncFlush _ => True
  | .privateCache data => ∀ i < min max (2 ^ 16), data i < 256 ∨ 255 ≤ wt (base + i) + data i % 256

/-- No 16-bit counter overflows in this call, and the flush it makes is exact. -/
def State.Exact (s : State T) (e : Push T) : Prop :=
  let (t, i, j) := e
  let b := s.buckets t (j / 2 ^ 16)
  match b.data with
  | .asyncFlush _ => True
  | .privateCache data =>
    if b.due i then b.Exact s.wt (j / 2 ^ 16 * 2 ^ 16) (2 ^ 32 - 1) else data (j % 2 ^ 16) < 2 ^ 16 - 1

def State.ExactRun (s : State T) : List (Push T) → Prop
  | [] => True
  | e :: events => s.Exact e ∧ (s.push e).ExactRun events

def ExactSlot (buckets : Fin T → Nat → Bucket) (ncols jh : Nat) : List (Fin T) → (Nat → Nat) → Prop
  | [], _ => True
  | t :: threads, wt => (buckets t jh).Exact wt (jh * 2 ^ 16) (slotMax ncols jh) ∧
      ExactSlot buckets ncols jh threads ((buckets t jh).flushRaw wt (jh * 2 ^ 16) (slotMax ncols jh))

theorem addWeight_eq_iff {dst : Nat} (small : dst ≤ 255) (n : Nat) :
    addWeight dst n = min 255 (dst + n) ↔ n < 256 ∨ 255 ≤ dst + n % 256 := by
  simp only [addWeight]
  by_cases below : n < 256
  · rw [Nat.mod_eq_of_lt below, iff_true_intro below, true_or, iff_true]
    split <;> omega
  · have rest := Nat.mod_lt n (show 0 < 256 by decide)
    have sum : (dst + n) % 256 = (dst + n % 256) % 256 := (Nat.add_mod_mod dst n 256).symm
    rw [sum, min_eq_left (by omega)]
    generalize n % 256 = m at rest
    split <;> omega

namespace Bucket

def pending (b : Bucket) (i : Nat) : Nat :=
  match b.data with
  | .asyncFlush data => data.count i
  | .privateCache data => data i

variable {b : Bucket} {wt : Nat → Nat} {base max m : Nat}

theorem foldl_addWeight (data : List Nat) (wt : Nat → Nat) (base i : Nat) (small : wt (base + i) ≤ 255) :
    data.foldl (fun wt i => Function.update wt (base + i) (addWeight (wt (base + i)) 1)) wt (base + i) =
      min 255 (wt (base + i) + data.count i) := by
  induction data generalizing wt with
  | nil => simp [small]
  | cons k data ih =>
    have one : addWeight (wt (base + k)) 1 = if wt (base + k) ≤ 255 then min 255 (wt (base + k) + 1) else
        addWeight (wt (base + k)) 1 := by
      split
      · exact (addWeight_eq_iff (by assumption) 1).mpr (.inl (by omega))
      · rfl
    rw [List.foldl_cons]
    by_cases same : k = i
    · subst same
      rw [if_pos small] at one
      rw [ih _ (by rw [Function.update_self, one]; omega), Function.update_self, one, List.count_cons_self]
      omega
    · have other : base + i ≠ base + k := by omega
      rw [ih _ (by rwa [Function.update_of_ne other]), Function.update_of_ne other, List.count_cons_of_ne same]

theorem foldl_addWeight_below (data : List Nat) (wt : Nat → Nat) {base j : Nat}
    (outside : ∀ i ∈ data, j ≠ base + i) :
    data.foldl (fun wt i => Function.update wt (base + i) (addWeight (wt (base + i)) 1)) wt j = wt j := by
  induction data generalizing wt with
  | nil => rfl
  | cons k data ih =>
    rw [List.foldl_cons, ih _ fun i inside => outside i (by simp [inside]),
      Function.update_of_ne (outside k (by simp))]

theorem flushRaw_inside (exact : b.Exact wt base max) {i : Nat} (small : wt (base + i) ≤ 255)
    (inside : i < min max (2 ^ 16)) : b.flushRaw wt base max (base + i) = min 255 (wt (base + i) + b.pending i) := by
  unfold flushRaw pending
  unfold Exact at exact
  cases kind : b.data with
  | asyncFlush data => exact foldl_addWeight data wt base i small
  | privateCache data =>
    simp only [kind] at exact ⊢
    rw [if_pos ⟨by omega, by omega⟩, Nat.add_sub_cancel_left]
    exact (addWeight_eq_iff small _).mpr (exact i inside)

theorem flushRaw_exact_iff (small : ∀ i < min max (2 ^ 16), wt (base + i) ≤ 255) :
    (∀ i < min max (2 ^ 16), b.flushRaw wt base max (base + i) = min 255 (wt (base + i) + b.pending i)) ↔
      b.Exact wt base max := by
  constructor
  · intro all
    unfold Exact
    cases kind : b.data with
    | asyncFlush data => trivial
    | privateCache data =>
      intro i inside
      have flushed := all i inside
      simp only [flushRaw, pending, kind] at flushed
      rw [if_pos ⟨by omega, by omega⟩, Nat.add_sub_cancel_left] at flushed
      exact (addWeight_eq_iff (small i inside) _).mp flushed
  · exact fun exact i inside => flushRaw_inside exact (small i inside) inside

variable (max) in
theorem flushRaw_outside (held : ∀ i, b.pending i ≠ 0 → i < 2 ^ 16) {j : Nat}
    (outside : j < base ∨ base + 2 ^ 16 ≤ j) : b.flushRaw wt base max j = wt j := by
  unfold flushRaw
  unfold pending at held
  cases kind : b.data with
  | asyncFlush data =>
    simp only [kind] at held ⊢
    apply foldl_addWeight_below
    intro i inside
    have := held i (List.count_pos_iff.mpr inside).ne'
    omega
  | privateCache data =>
    simp only
    rw [if_neg (by omega)]

theorem flush_pending (when T i : Nat) : (b.flush wt base when T).1.pending i = 0 := by
  unfold flush pending
  cases kind : b.data with
  | asyncFlush data =>
    simp only
    split_ifs <;> rfl
  | privateCache data => rfl

structure Pushed (b b' : Bucket) (wt wt' : Nat → Nat) (base jl m : Nat) : Prop where
  outside : ∀ j, j < base ∨ base + 2 ^ 16 ≤ j → wt' j = wt j
  small : ∀ i < m, wt' (base + i) ≤ 255
  total : ∀ i < m, ∀ rest, min 255 (wt' (base + i) + (b'.pending i + rest)) =
    min 255 (wt (base + i) + (b.pending i + ((if i = jl then 1 else 0) + rest)))
  held : ∀ i, b'.pending i ≠ 0 → i < m

theorem push_spec {jl : Nat} (when T : Nat) (wide : m ≤ 2 ^ 16) (small : ∀ i < m, wt (base + i) ≤ 255)
    (held : ∀ i, b.pending i ≠ 0 → i < m) (here : jl < m)
    (exact : ∀ data, b.data = .privateCache data →
      if b.due when then b.Exact wt base (2 ^ 32 - 1) else data jl < 2 ^ 16 - 1) :
    Pushed b (b.push jl wt base when T).1 wt (b.push jl wt base when T).2 base jl m := by
  have held' (i : Nat) (some : b.pending i ≠ 0) : i < 2 ^ 16 := (held i some).trans_le wide
  unfold push
  cases kind : b.data with
  | privateCache data =>
    have exact := exact data kind
    simp only
    by_cases due : b.due when
    · rw [if_pos due] at exact
      rw [if_pos due]
      have flushed {i : Nat} (inside : i < m) : b.flushRaw wt base (2 ^ 32 - 1) (base + i) =
          min 255 (wt (base + i) + b.pending i) :=
        flushRaw_inside exact (small i inside) (by omega)
      refine ⟨fun j outside => flushRaw_outside _ held' outside, fun i inside => ?_, fun i inside rest => ?_,
        fun i some => ?_⟩
      · change b.flushRaw wt base (2 ^ 32 - 1) (base + i) ≤ 255
        rw [flushed inside]
        omega
      · change min 255 (b.flushRaw wt base (2 ^ 32 - 1) (base + i) +
          (Function.update (fun _ => 0) jl 1 i + rest)) = _
        rw [flushed inside, Function.update_apply]
        omega
      · simp only [pending, Function.update_apply] at some
        split_ifs at some with same
        · rw [same]
          exact here
        · exact absurd rfl some
    · rw [if_neg due] at exact
      rw [if_neg due]
      have counted (i : Nat) : Function.update data jl ((data jl + 1) % 2 ^ 16) i =
          b.pending i + if i = jl then 1 else 0 := by
        unfold pending
        rw [kind, Function.update_apply, Nat.mod_eq_of_lt (by omega)]
        split_ifs with same
        · rw [same]
        · rfl
      refine ⟨fun j _ => rfl, small, fun i inside rest => ?_, fun i some => ?_⟩
      · change min 255 (wt (base + i) + (Function.update data jl ((data jl + 1) % 2 ^ 16) i + rest)) = _
        rw [counted, Nat.add_assoc (b.pending i)]
      · change Function.update data jl ((data jl + 1) % 2 ^ 16) i ≠ 0 at some
        rw [counted] at some
        by_cases same : i = jl
        · rw [same]
          exact here
        · rw [if_neg same] at some
          exact held i (by omega)
  | asyncFlush data =>
    have counted (i : Nat) : pending ⟨.asyncFlush (data ++ [jl]), b.lastFlush⟩ i =
        b.pending i + if i = jl then 1 else 0 := by
      unfold pending
      rw [kind]
      simp only [List.count_append, List.count_singleton, beq_iff_eq, eq_comm (a := jl)]
    have grown (i : Nat) (some : pending ⟨.asyncFlush (data ++ [jl]), b.lastFlush⟩ i ≠ 0) : i < m := by
      rw [counted] at some
      by_cases same : i = jl
      · rw [same]
        exact here
      · rw [if_neg same] at some
        exact held i (by omega)
    simp only
    by_cases full : data.length + 1 = bucketB
    · rw [if_pos full]
      have flushed {i : Nat} (inside : i < m) :=
        flushRaw_inside (show Exact ⟨.asyncFlush (data ++ [jl]), b.lastFlush⟩ wt base (2 ^ 32 - 1) from trivial)
          (small i inside) (by omega)
      refine ⟨fun j outside => ?_, fun i inside => ?_, fun i inside rest => ?_, fun i some => ?_⟩
      · exact flushRaw_outside (2 ^ 32 - 1) (fun i some => (grown i some).trans_le wide) outside
      · change flushRaw ⟨.asyncFlush (data ++ [jl]), b.lastFlush⟩ wt base (2 ^ 32 - 1) (base + i) ≤ 255
        rw [flushed inside]
        omega
      · rw [flush_pending]
        change min 255 (flushRaw ⟨.asyncFlush (data ++ [jl]), b.lastFlush⟩ wt base (2 ^ 32 - 1) (base + i) + _) = _
        rw [flushed inside, counted]
        omega
      · exact absurd (flush_pending ..) some
    · rw [if_neg full]
      refine ⟨fun j _ => rfl, small, fun i inside rest => ?_, grown⟩
      rw [counted, Nat.add_assoc (b.pending i)]

end Bucket

structure Counts (ncols : Nat) (s : State T) (done : List (Push T)) : Prop where
  small : ∀ j < ncols, s.wt j ≤ 255
  held : ∀ t jh i, (s.buckets t jh).pending i ≠ 0 → i < slotMax ncols jh
  total : ∀ jh, ∀ i < slotMax ncols jh, min 255 (s.wt (jh * 2 ^ 16 + i) + ∑ t, (s.buckets t jh).pending i) =
    min 255 (done.countP fun e => e.2.2 = jh * 2 ^ 16 + i)

theorem lt_slotMax_iff {ncols jh i : Nat} : i < slotMax ncols jh ↔ i < 2 ^ 16 ∧ jh * 2 ^ 16 + i < ncols := by
  unfold slotMax
  omega

theorem Counts.push {ncols : Nat} {s : State T} {done : List (Push T)} (counts : Counts ncols s done) {e : Push T}
    (inside : e.2.2 < ncols) (exact : s.Exact e) : Counts ncols (s.push e) (done ++ [e]) := by
  obtain ⟨t, r, j⟩ := e
  have zone : j / 2 ^ 16 * 2 ^ 16 + j % 2 ^ 16 = j := Nat.div_add_mod' j (2 ^ 16)
  have here : j % 2 ^ 16 < slotMax ncols (j / 2 ^ 16) := by
    rw [lt_slotMax_iff, zone]
    exact ⟨Nat.mod_lt _ (by decide), inside⟩
  have pushed := Bucket.push_spec r T (by unfold slotMax; omega)
    (fun i bound => counts.small _ (lt_slotMax_iff.mp bound).2)
    (counts.held t _) here fun data kind => by simpa only [State.Exact, kind] using exact
  generalize result : (s.buckets t (j / 2 ^ 16)).push (j % 2 ^ 16) s.wt (j / 2 ^ 16 * 2 ^ 16) r T = after at pushed
  have eq : s.push (t, r, j) =
      ⟨after.2, Function.update s.buckets t (Function.update (s.buckets t) (j / 2 ^ 16) after.1)⟩ := by
    simp only [State.push, result]
  rw [eq]
  have bucket (u : Fin T) (jh : Nat) :
      Function.update s.buckets t (Function.update (s.buckets t) (j / 2 ^ 16) after.1) u jh =
        if u = t ∧ jh = j / 2 ^ 16 then after.1 else s.buckets u jh := by
    by_cases own : u = t
    · subst own
      rw [Function.update_self, Function.update_apply]
      simp
    · rw [Function.update_of_ne own, if_neg fun h => own h.1]
  constructor
  case small =>
    intro k bound
    by_cases own : j / 2 ^ 16 * 2 ^ 16 ≤ k ∧ k < j / 2 ^ 16 * 2 ^ 16 + 2 ^ 16
    · have small := pushed.small (k - j / 2 ^ 16 * 2 ^ 16) (lt_slotMax_iff.mpr ⟨by omega, by omega⟩)
      rwa [Nat.add_sub_cancel' own.1] at small
    · change after.2 k ≤ 255
      rw [pushed.outside k (by omega)]
      exact counts.small k bound
  case held =>
    intro u jh i some
    change (Function.update s.buckets t (Function.update (s.buckets t) (j / 2 ^ 16) after.1) u jh).pending i ≠ 0 at some
    rw [bucket] at some
    split_ifs at some with own
    · rw [own.2]
      exact pushed.held i some
    · exact counts.held u jh i some
  case total =>
    intro jh i bound
    simp only [bucket]
    rw [List.countP_append, List.countP_singleton]
    have before := counts.total jh i bound
    by_cases own : jh = j / 2 ^ 16
    · subst own
      have total := pushed.total i bound (∑ u ∈ Finset.univ.erase t, (s.buckets u (j / 2 ^ 16)).pending i)
      rw [← Finset.add_sum_erase _ _ (Finset.mem_univ t)] at before ⊢
      have others : ∑ u ∈ Finset.univ.erase t, Bucket.pending (if u = t ∧ j / 2 ^ 16 = j / 2 ^ 16 then after.1
          else s.buckets u (j / 2 ^ 16)) i = ∑ u ∈ Finset.univ.erase t, (s.buckets u (j / 2 ^ 16)).pending i := by
        apply Finset.sum_congr rfl
        intro u other
        rw [if_neg fun h => (Finset.ne_of_mem_erase other) h.1]
      rw [others, if_pos ⟨rfl, rfl⟩, total]
      have same : (decide (j = j / 2 ^ 16 * 2 ^ 16 + i) = true) ↔ i = j % 2 ^ 16 := by
        rw [decide_eq_true_iff, eq_comm (a := i)]
        exact ⟨fun eq => Nat.add_left_cancel (zone.trans eq), fun eq => zone.symm.trans (congrArg _ eq)⟩
      by_cases hit : i = j % 2 ^ 16
      · rw [if_pos hit, if_pos (same.mpr hit)]
        omega
      · rw [if_neg hit, if_neg fun h => hit (same.mp h)]
        omega
    · have others : ∑ u, Bucket.pending (if u = t ∧ jh = j / 2 ^ 16 then after.1 else s.buckets u jh) i =
          ∑ u, (s.buckets u jh).pending i := by
        apply Finset.sum_congr rfl
        intro u _
        rw [if_neg fun h => own h.2]
      have width := (lt_slotMax_iff.mp bound).1
      have miss : ¬ j = jh * 2 ^ 16 + i := by omega
      rw [others]
      change min 255 (after.2 _ + _) = _
      rw [pushed.outside _ (by omega), before, if_neg (by rw [decide_eq_true_iff]; exact miss), Nat.add_zero]

theorem Counts.run {ncols : Nat} {s : State T} {done events : List (Push T)} (counts : Counts ncols s done)
    (inside : ∀ e ∈ events, e.2.2 < ncols) (exact : s.ExactRun events) :
    Counts ncols (s.run events) (done ++ events) := by
  induction events generalizing s done with
  | nil => simpa [State.run] using counts
  | cons e events ih =>
    have step := counts.push (inside e (by simp)) exact.1
    have rest := ih step (fun e later => inside e (by simp [later])) exact.2
    rwa [List.append_assoc] at rest

theorem flushSlot_eq {buckets : Fin T → Nat → Bucket} {ncols jh i : Nat} {threads : List (Fin T)} {wt : Nat → Nat}
    (bound : i < slotMax ncols jh) (small : wt (jh * 2 ^ 16 + i) ≤ 255)
      (exact : ExactSlot buckets ncols jh threads wt) :
    threads.foldl (fun wt t => (buckets t jh).flushRaw wt (jh * 2 ^ 16) (slotMax ncols jh)) wt (jh * 2 ^ 16 + i) =
      min 255 (wt (jh * 2 ^ 16 + i) + (threads.map fun t => (buckets t jh).pending i).sum) := by
  induction threads generalizing wt with
  | nil =>
    simp only [List.foldl_nil, List.map_nil, List.sum_nil, Nat.add_zero]
    omega
  | cons t threads ih =>
    have first := Bucket.flushRaw_inside exact.1 small (by have := lt_slotMax_iff.mp bound; omega)
    rw [List.foldl_cons, ih (by rw [first]; omega) exact.2, first, List.map_cons, List.sum_cons]
    omega

theorem Counts.final {ncols : Nat} {s : State T} {done : List (Push T)} (counts : Counts ncols s done) {j : Nat}
    (inside : j < ncols) (exact : ExactSlot s.buckets ncols (j / 2 ^ 16) (List.finRange T) s.wt) :
    s.final ncols j = min 255 (done.countP fun e => e.2.2 = j) := by
  have zone : j / 2 ^ 16 * 2 ^ 16 + j % 2 ^ 16 = j := Nat.div_add_mod' j (2 ^ 16)
  have bound : j % 2 ^ 16 < slotMax ncols (j / 2 ^ 16) := by
    rw [lt_slotMax_iff, zone]
    exact ⟨Nat.mod_lt _ (by decide), inside⟩
  have slots : j / 2 ^ 16 < numberOfSlots ncols := by
    unfold numberOfSlots
    omega
  have total := counts.total _ _ bound
  have flushed := flushSlot_eq bound (zone.symm ▸ counts.small j inside) exact
  rw [zone] at total flushed
  rw [← Fin.sum_univ_def] at flushed
  unfold State.final flushSlot
  rw [if_pos slots, flushed, total]

/-! ## The pushes of a schedule -/

theorem countP_threads (p : Push T → Bool) (events : List (Push T)) :
    events.countP p = ∑ t, (events.filter fun e => e.1 = t).countP p := by
  induction events with
  | nil => simp
  | cons e events ih =>
    have split (t : Fin T) : ((e :: events).filter fun e => e.1 = t).countP p =
        (if e.1 = t then if p e then 1 else 0 else 0) + (events.filter fun e => e.1 = t).countP p := by
      rw [List.filter_cons]
      by_cases own : e.1 = t
      · simp [own, List.countP_cons, Nat.add_comm]
      · simp [own]
    simp only [split, Finset.sum_add_distrib, Finset.sum_ite_eq, Finset.mem_univ, if_true]
    rw [List.countP_cons, ih, Nat.add_comm]

theorem countP_rowPushes {rows : Rows α} {i : Nat} (sorted : ∀ row, rows i = some row → RowSorted row) (j : Nat) :
    (rowPushes rows i).countP (fun p => p.2 = j) = if Contains rows i j then 1 else 0 := by
  unfold rowPushes
  cases live : rows i with
  | none =>
    have absent : ¬ Contains rows i j := by
      rintro ⟨row, live', _⟩
      rw [live] at live'
      cases live'
    rw [if_neg absent]
    rfl
  | some row =>
    have nodup := (sorted row live).columns_nodup
    have count : ((columns row).reverse.map fun k => (i, k)).countP (fun p => p.2 = j) = (columns row).count j := by
      rw [List.countP_map, List.countP_reverse]
      rfl
    have member : Contains rows i j ↔ j ∈ columns row := by
      constructor
      · rintro ⟨row', live', inside⟩
        rw [live] at live'
        cases live'
        exact inside
      · exact fun inside => ⟨row, live, inside⟩
    rw [Option.elim_some, count]
    by_cases inside : j ∈ columns row
    · rw [List.count_eq_one_of_mem nodup inside, if_pos (member.mpr inside)]
    · rw [List.count_eq_zero_of_not_mem inside, if_neg fun h => inside (member.mp h)]

theorem Schedule.countP_eq {mat : FilterMatrix α} {assigned : Fin T → List Nat} {events : List (Push T)}
    (schedule : Schedule mat assigned events) (sorted : SortedRows mat.rows) (j : Nat) :
    (events.countP fun e => e.2.2 = j) = weight mat.nrows mat.rows j := by
  have thread (t : Fin T) : (events.filter fun e => e.1 = t).countP (fun e => e.2.2 = j) =
      ((assigned t).map fun i => if Contains mat.rows i j then 1 else 0).sum := by
    have mapped : (events.filter fun e => e.1 = t).countP (fun e => e.2.2 = j) =
        ((events.filter fun e => e.1 = t).map Prod.snd).countP (fun p => p.2 = j) := by
      rw [List.countP_map]
      rfl
    rw [mapped, schedule.pushes t, List.countP_flatMap]
    congr 1
    apply List.map_congr_left
    intro i _
    exact countP_rowPushes (sorted i) j
  calc (events.countP fun e => e.2.2 = j)
      = ∑ t, ((assigned t).map fun i => if Contains mat.rows i j then 1 else 0).sum := by
        rw [countP_threads]
        exact Finset.sum_congr rfl fun t _ => thread t
    _ = (((List.finRange T).flatMap assigned).map fun i => if Contains mat.rows i j then 1 else 0).sum := by
        rw [Fin.sum_univ_def, List.map_flatMap, List.flatMap_def, List.sum_flatten, List.map_map]
        rfl
    _ = ((List.range mat.nrows).map fun i => if Contains mat.rows i j then 1 else 0).sum :=
        (schedule.rows.map _).sum_eq
    _ = weight mat.nrows mat.rows j := by
        unfold weight
        rw [Finset.card_filter]
        rfl

/-! ## The weights of a run -/

omit [Typerow α] in
theorem start_counts (T : Nat) (mat : FilterMatrix α) : Counts mat.ncols (start T mat) [] where
  small j inside := by simp [start, inside]
  held _ _ i some := absurd rfl some
  total jh i bound := by
    have cleared : (start T mat).wt (jh * 2 ^ 16 + i) = 0 := if_pos (lt_slotMax_iff.mp bound).2
    rw [cleared]
    simp [start, Bucket.pending, bucketInit]

theorem Schedule.inside {mat : FilterMatrix α} {assigned : Fin T → List Nat} {events : List (Push T)}
    (schedule : Schedule mat assigned events) (columns : ∀ i j, Contains mat.rows i j → j < mat.ncols) :
    ∀ e ∈ events, e.2.2 < mat.ncols := by
  rintro ⟨t, i, j⟩ member
  have own : (i, j) ∈ (events.filter fun e => e.1 = t).map Prod.snd :=
    List.mem_map_of_mem (f := Prod.snd) (List.mem_filter.mpr ⟨member, by simp⟩)
  rw [schedule.pushes t, List.mem_flatMap] at own
  obtain ⟨k, _, pushed⟩ := own
  unfold rowPushes at pushed
  cases live : mat.rows k with
  | none => simp [live] at pushed
  | some row =>
    rw [live, Option.elim_some, List.mem_map] at pushed
    obtain ⟨j', inside, eq⟩ := pushed
    cases eq
    exact columns _ j ⟨row, live, List.mem_reverse.mp inside⟩

omit [Typerow α] in
theorem computeWeightsBackend_wt (mat : FilterMatrix α) (events : List (Push T)) :
    (computeWeightsBackend mat events).1.wt = ((start T mat).run events).final mat.ncols := rfl

/-- When no counter overflows and every flush is exact, the weights are the column weights up to 255; and a flush of
counters is exact only so. -/
theorem computeWeightsBackend_exact :
    (∀ (T : Nat) (mat : FilterMatrix α) (assigned : Fin T → List Nat) (events : List (Push T)),
      SortedRows mat.rows → (∀ i j, Contains mat.rows i j → j < mat.ncols) → Schedule mat assigned events →
      (start T mat).ExactRun events →
      (∀ jh < numberOfSlots mat.ncols, ExactSlot ((start T mat).run events).buckets mat.ncols jh (List.finRange T)
        ((start T mat).run events).wt) →
      ∀ j < mat.ncols, (computeWeightsBackend mat events).1.wt j = min 255 (weight mat.nrows mat.rows j)) ∧
    ∀ (b : Bucket) (wt : Nat → Nat) (base max : Nat), (∀ i < min max (2 ^ 16), wt (base + i) ≤ 255) →
      ((∀ i < min max (2 ^ 16), b.flushRaw wt base max (base + i) = min 255 (wt (base + i) + b.pending i)) ↔
        b.Exact wt base max) := by
  refine ⟨?_, fun b wt base max small => Bucket.flushRaw_exact_iff small⟩
  intro T mat assigned events sorted columns schedule exact last j inside
  have counts := (start_counts T mat).run (schedule.inside columns) exact
  rw [List.nil_append] at counts
  have slot : j / 2 ^ 16 < numberOfSlots mat.ncols := by
    unfold numberOfSlots
    omega
  have final := counts.final inside (last _ slot)
  rw [schedule.countP_eq sorted] at final
  exact final

/-- A row of 65536 columns sends the bucket of the first zone into counters, and `n` rows of a single cell are counted
by the first counter. -/
def heavyRows (n : Nat) : Rows Nat :=
  fun i => if i = 0 then some (List.range (2 ^ 16)) else if i < n + 1 then some [0] else none

def heavyMatrix (n : Nat) : FilterMatrix Nat := ⟨n + 1, 2 ^ 16, 2 ^ 16, heavyRows n, fun _ => 0, none⟩

def heavyEvents (n : Nat) : List (Push 1) :=
  (List.range (2 ^ 16)).reverse.map (fun j => (0, 0, j)) ++ (List.range' 1 n).map fun i => (0, i, 0)

theorem rowSorted_range (n : Nat) : RowSorted (List.range n) := List.pairwise_lt_range

theorem rowPushes_some {rows : Rows Nat} {i : Nat} {row : List Nat} (live : rows i = some row) :
    rowPushes rows i = row.reverse.map fun j => (i, j) := by
  unfold rowPushes
  rw [live, Option.elim_some, columns_nat]

theorem heavyRows_zero (n : Nat) : heavyRows n 0 = some (List.range (2 ^ 16)) := if_pos rfl

theorem heavyRows_later {n i : Nat} (positive : 0 < i) (small : i < n + 1) : heavyRows n i = some [0] := by
  unfold heavyRows
  rw [if_neg positive.ne', if_pos small]

theorem heavy_sorted (n : Nat) : SortedRows (heavyMatrix n).rows := by
  intro i row live
  change heavyRows n i = some row at live
  unfold heavyRows at live
  split_ifs at live
  · rw [← Option.some.inj live]
    exact rowSorted_range _
  · rw [← Option.some.inj live]
    exact List.pairwise_singleton _ _

theorem heavy_columns (n : Nat) : ∀ i j, Contains (heavyMatrix n).rows i j → j < (heavyMatrix n).ncols := by
  rintro i j ⟨row, live, inside⟩
  change heavyRows n i = some row at live
  rw [columns_nat] at inside
  unfold heavyRows at live
  split_ifs at live
  · rw [← Option.some.inj live] at inside
    exact List.mem_range.mp inside
  · rw [← Option.some.inj live, List.mem_singleton] at inside
    rw [inside]
    exact Nat.two_pow_pos 16

theorem heavySchedule (n : Nat) : Schedule (heavyMatrix n) (fun _ => List.range (n + 1)) (heavyEvents n) := by
  have later : ∀ i ∈ List.range' 1 n, rowPushes (heavyRows n) i = [(i, 0)] := by
    intro i inside
    have bounds := List.mem_range'_1.mp inside
    rw [rowPushes_some (heavyRows_later (by omega) (by omega))]
    rfl
  have range : List.range (n + 1) = 0 :: List.range' 1 n := by rw [List.range_eq_range', List.range'_succ]
  have first := rowPushes_some (heavyRows_zero n)
  constructor
  · rw [show List.finRange 1 = [0] from rfl, List.flatMap_singleton]
    exact List.Perm.refl _
  · intro t
    have all : ((heavyEvents n).filter fun e => e.1 = t) = heavyEvents n := by
      apply List.filter_eq_self.mpr
      intro e _
      simp [Subsingleton.elim e.1 t]
    have single : (List.range' 1 n).flatMap (rowPushes (heavyRows n)) = (List.range' 1 n).map fun i => (i, 0) := by
      rw [List.flatMap_congr later, List.map_eq_flatMap]
    change _ = (List.range (n + 1)).flatMap (rowPushes (heavyRows n))
    rw [all, range, List.flatMap_cons, first, single]
    unfold heavyEvents
    rw [List.map_append, List.map_map, List.map_map]
    rfl

theorem State.run_append (s : State T) (first later : List (Push T)) :
    s.run (first ++ later) = (s.run first).run later := List.foldl_append

theorem State.ExactRun.append {s : State T} {first later : List (Push T)} (before : s.ExactRun first)
    (after : (s.run first).ExactRun later) : s.ExactRun (first ++ later) := by
  induction first generalizing s with
  | nil => exact after
  | cons e first ih => exact ⟨before.1, ih before.2 after⟩

theorem run_async {s : State 1} {data : List Nat} (js : List Nat) (kind : s.buckets 0 0 = ⟨.asyncFlush data, 0⟩)
    (zone : ∀ j ∈ js, j < 2 ^ 16) (short : data.length + js.length < 2 ^ 16) :
    (s.run (js.map fun j => (0, 0, j))).buckets 0 0 = ⟨.asyncFlush (data ++ js), 0⟩ ∧
      (s.run (js.map fun j => (0, 0, j))).wt = s.wt ∧ s.ExactRun (js.map fun j => (0, 0, j)) := by
  induction js generalizing s data with
  | nil => simp [State.run, kind, State.ExactRun]
  | cons j js ih =>
    have here : j / 2 ^ 16 = 0 := Nat.div_eq_of_lt (zone j (by simp))
    have low : j % 2 ^ 16 = j := Nat.mod_eq_of_lt (zone j (by simp))
    simp only [List.length_cons] at short
    have pushed : s.push (0, 0, j) =
        ⟨s.wt, Function.update s.buckets 0 (Function.update (s.buckets 0) 0 ⟨.asyncFlush (data ++ [j]), 0⟩)⟩ := by
      have notFull : ¬ data.length + 1 = bucketB := by unfold bucketB; omega
      simp only [State.push, here, low, kind, Bucket.push, if_neg notFull]
    rw [List.map_cons]
    change (State.run (s.push (0, 0, j)) _).buckets 0 0 = _ ∧ (State.run (s.push (0, 0, j)) _).wt = _ ∧ _
    have bucket : (s.push (0, 0, j)).buckets 0 0 = ⟨.asyncFlush (data ++ [j]), 0⟩ := by rw [pushed]; simp
    have rest := ih bucket
      (fun j later => zone j (by simp [later])) (by simp only [List.length_append, List.length_singleton]; omega)
    rw [List.append_assoc, List.singleton_append] at rest
    refine ⟨rest.1, rest.2.1.trans ?_, ?_, rest.2.2⟩
    · rw [pushed]
    · simp only [State.Exact, here, kind]

theorem run_private {s : State 1} {data : Nat → Nat} (kind : s.buckets 0 0 = ⟨.privateCache data, 0⟩)
    (n r : Nat) (rows : r + n ≤ 2 ^ 16) (small : data 0 + n < 2 ^ 16) :
    (s.run ((List.range' r n).map fun i => (0, i, 0))).buckets 0 0 =
        ⟨.privateCache (Function.update data 0 (data 0 + n)), 0⟩ ∧
      (s.run ((List.range' r n).map fun i => (0, i, 0))).wt = s.wt ∧
      s.ExactRun ((List.range' r n).map fun i => (0, i, 0)) := by
  induction n generalizing s data r with
  | zero => simp [State.run, kind, State.ExactRun]
  | succ n ih =>
    have notDue : ¬ (Bucket.due ⟨.privateCache data, 0⟩ r = true) := by
      simp only [Bucket.due, gt_iff_lt, Nat.zero_div, decide_eq_true_eq]
      omega
    have pushed : s.push (0, r, 0) = ⟨s.wt, Function.update s.buckets 0
        (Function.update (s.buckets 0) 0 ⟨.privateCache (Function.update data 0 (data 0 + 1)), 0⟩)⟩ := by
      have low : (data 0 + 1) % 2 ^ 16 = data 0 + 1 := Nat.mod_eq_of_lt (by omega)
      simp only [State.push, Nat.zero_div, Nat.zero_mod, kind, Bucket.push, if_neg notDue, low]
    rw [List.range'_succ, List.map_cons]
    have bucket : (s.push (0, r, 0)).buckets 0 0 = ⟨.privateCache (Function.update data 0 (data 0 + 1)), 0⟩ := by
      rw [pushed]
      simp
    obtain ⟨bucket, wt, exact⟩ := ih bucket (r + 1) (by omega) (by rw [Function.update_self]; omega)
    rw [Function.update_idem, Function.update_self, show data 0 + 1 + n = data 0 + (n + 1) by omega] at bucket
    refine ⟨bucket, wt.trans ?_, ?_, exact⟩
    · rw [pushed]
    · simp only [State.Exact, Nat.zero_div, Nat.zero_mod, kind, if_neg notDue]
      omega

def zonePushes (js : List Nat) (n : Nat) : List (Push 1) :=
  (js ++ [0]).map (fun j => (0, 0, j)) ++ (List.range' 1 n).map fun i => (0, i, 0)

/-- The zone is counted from the flush on, and the counters are not flushed before the end. -/
theorem run_counters {s : State 1} {js : List Nat} {n : Nat} (empty : s.buckets 0 0 = bucketInit) (cleared : s.wt 0 = 0)
    (zone : ∀ j ∈ js, 0 < j ∧ j < 2 ^ 16) (length : js.length + 1 = 2 ^ 16) (few : n < 2 ^ 16) :
    s.ExactRun (zonePushes js n) ∧
      (s.run (zonePushes js n)).buckets 0 0 = ⟨.privateCache (Function.update (fun _ => 0) 0 n), 0⟩ ∧
      (s.run (zonePushes js n)).wt 0 = 1 := by
  rw [zonePushes, State.run_append]
  obtain ⟨bucket₁, wt₁, exact₁⟩ := run_async js empty (fun j inside => (zone j inside).2)
    (by simp only [List.length_nil]; omega)
  rw [List.nil_append] at bucket₁
  have ends : s.run ((js ++ [0]).map fun j => (0, 0, j)) = (s.run (js.map fun j => (0, 0, j))).push (0, 0, 0) := by
    rw [List.map_append, State.run_append]
    rfl
  have exact₂ : s.ExactRun ((js ++ [0]).map fun j => (0, 0, j)) := by
    rw [List.map_append]
    refine exact₁.append ⟨?_, trivial⟩
    simp only [State.Exact, Nat.zero_div, bucket₁]
  rw [ends]
  generalize s.run (js.map fun j => (0, 0, j)) = s₁ at bucket₁ wt₁ ends ⊢
  have full : js.length + 1 = bucketB := length
  have pushed : s₁.push (0, 0, 0) = ⟨Bucket.flushRaw ⟨.asyncFlush (js ++ [0]), 0⟩ s.wt 0 (2 ^ 32 - 1),
      Function.update s₁.buckets 0 (Function.update (s₁.buckets 0) 0 ⟨.privateCache fun _ => 0, 0⟩)⟩ := by
    simp only [State.push, Nat.zero_div, Nat.zero_mod, Nat.zero_mul, bucket₁, wt₁, Bucket.push, if_pos full]
    rfl
  have wt₂ : (s₁.push (0, 0, 0)).wt 0 = 1 := by
    have count : (js ++ [0]).count 0 = 1 := by
      rw [List.count_append, List.count_eq_zero_of_not_mem fun inside => absurd (zone 0 inside).1 (by omega)]
      rfl
    have flushed := Bucket.foldl_addWeight (js ++ [0]) s.wt 0 0 (by rw [Nat.zero_add, cleared]; omega)
    rw [count, Nat.zero_add, cleared] at flushed
    rw [pushed]
    exact flushed
  have bucket₂ : (s₁.push (0, 0, 0)).buckets 0 0 = ⟨.privateCache fun _ => 0, 0⟩ := by rw [pushed]; simp
  generalize s₁.push (0, 0, 0) = s₂ at bucket₂ wt₂ ends ⊢
  obtain ⟨bucket₃, wt₃, exact₃⟩ := run_private bucket₂ n 1 (by omega) (by rw [Nat.zero_add]; exact few)
  rw [Nat.zero_add] at bucket₃
  exact ⟨exact₂.append (ends ▸ exact₃), bucket₃, wt₃ ▸ wt₂⟩

section
variable {s : State 1} {n : Nat} (bucket : s.buckets 0 0 = ⟨.privateCache (Function.update (fun _ => 0) 0 n), 0⟩)
include bucket

theorem exact_of_counters (few : n < 256) :
    ∀ jh < numberOfSlots (2 ^ 16), ExactSlot s.buckets (2 ^ 16) jh (List.finRange 1) s.wt := by
  intro jh slot
  obtain rfl : jh = 0 := Nat.lt_one_iff.mp slot
  rw [show List.finRange 1 = [0] from rfl]
  refine ⟨?_, trivial⟩
  unfold Bucket.Exact
  rw [bucket]
  intro i _
  rw [Function.update_apply]
  split <;> omega

theorem final_of_counters : s.final (2 ^ 16) 0 = addWeight (s.wt 0) n := by
  unfold State.final flushSlot
  rw [if_pos (by decide), Nat.zero_div, show List.finRange 1 = [0] from rfl, List.foldl_cons, List.foldl_nil]
  unfold Bucket.flushRaw
  rw [bucket]
  simp only [Nat.zero_mul]
  rw [if_pos ⟨le_rfl, by decide⟩, Nat.sub_zero, Function.update_self]

end

theorem heavy_run (n : Nat) (few : n < 2 ^ 16) :
    (start 1 (heavyMatrix n)).ExactRun (heavyEvents n) ∧
      ((start 1 (heavyMatrix n)).run (heavyEvents n)).buckets 0 0 =
        ⟨.privateCache (Function.update (fun _ => 0) 0 n), 0⟩ ∧
      ((start 1 (heavyMatrix n)).run (heavyEvents n)).wt 0 = 1 := by
  have split : (List.range (2 ^ 16)).reverse = (List.range' 1 (2 ^ 16 - 1)).reverse ++ [0] := by
    rw [List.range_eq_range', show 2 ^ 16 = (2 ^ 16 - 1) + 1 from rfl, List.range'_succ, List.reverse_cons]
    rfl
  have zone : ∀ j ∈ (List.range' 1 (2 ^ 16 - 1)).reverse, 0 < j ∧ j < 2 ^ 16 := by
    intro j inside
    rw [List.mem_reverse, List.mem_range'_1] at inside
    omega
  have length : (List.range' 1 (2 ^ 16 - 1)).reverse.length + 1 = 2 ^ 16 := by
    rw [List.length_reverse, List.length_range']
    omega
  have cleared : (start 1 (heavyMatrix n)).wt 0 = 0 := by simp [start, heavyMatrix]
  unfold heavyEvents
  rw [split]
  generalize (List.range' 1 (2 ^ 16 - 1)).reverse = js at zone length
  exact run_counters rfl cleared zone length few

-- The elaborator would run through the events at every use of the hypotheses about them.
attribute [irreducible] heavyEvents

theorem computeWeightsBackend_exact_private : ∀ j < (heavyMatrix 2).ncols,
    (computeWeightsBackend (heavyMatrix 2) (heavyEvents 2)).1.wt j =
      min 255 (weight (heavyMatrix 2).nrows (heavyMatrix 2).rows j) :=
  computeWeightsBackend_exact.1 1 (heavyMatrix 2) _ _ (heavy_sorted 2) (heavy_columns 2) (heavySchedule 2)
    (heavy_run 2 (by decide)).1 (exact_of_counters (heavy_run 2 (by decide)).2.1 (by decide))

theorem heavy_weight (n : Nat) (few : n < 2 ^ 16) :
    (computeWeightsBackend (heavyMatrix n) (heavyEvents n)).1.wt 0 = addWeight 1 n := by
  obtain ⟨-, bucket, wt⟩ := heavy_run n few
  rw [computeWeightsBackend_wt, show (heavyMatrix n).ncols = 2 ^ 16 from rfl, final_of_counters bucket, wt]

theorem not_weights_heavy :
    ¬ ∀ (T : Nat) (mat : FilterMatrix Nat) (assigned : Fin T → List Nat) (events : List (Push T)),
      SortedRows mat.rows → (∀ i j, Contains mat.rows i j → j < mat.ncols) → Schedule mat assigned events →
      ∀ j < mat.ncols, (computeWeightsBackend mat events).1.wt j = min 255 (weight mat.nrows mat.rows j) := by
  intro claim
  have value := claim 1 (heavyMatrix 256) _ _ (heavy_sorted 256) (heavy_columns 256) (heavySchedule 256) 0
    (Nat.two_pow_pos 16)
  rw [heavy_weight 256 (by decide), show addWeight 1 256 = 1 from rfl] at value
  have heavy : 1 < weight (heavyMatrix 256).nrows (heavyMatrix 256).rows 0 := by
    have later {i : Nat} (positive : 0 < i) (small : i < 257) :
        i ∈ (Finset.range 257).filter fun i => Contains (heavyMatrix 256).rows i 0 :=
      Finset.mem_filter.mpr ⟨Finset.mem_range.mpr small, [0], heavyRows_later positive small, by simp [columns_nat]⟩
    exact Finset.one_lt_card.mpr ⟨1, later (by omega) (by omega), 2, later (by omega) (by omega), by omega⟩
  omega

end BucketWeights
end CadoNfs.Filter
