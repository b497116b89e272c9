import CadoNfs.Filter.HeapTurns

/-!
# The heap of rows over whole runs

The calls of `merge` keep the invariant, so that a collection from any state they reach ends and keeps
the rows.
-/

namespace CadoNfs.Filter.Heap
open Lib Typerow HeapCell

variable {α : Type} {T : Nat} [HeapCell α]

namespace RowHeap

variable {s s' : RowHeap α T} {t : Fin T} {p q : Pointer} {i n k : Nat}

theorem setup_invariant (data : Nat → Nat → α) (rows : Nat → Option Pointer) :
    (setup data rows : RowHeap α T).Invariant := by
  refine ⟨FullPages.holds_setup.listed, ⟨fun p => if h : p < T then .active ⟨p, h⟩ else .fresh, ?_⟩, ?_⟩
  · have none : (setup data rows : RowHeap α T).pages.followed = [] := FullPages.holds_setup.followed_eq
    constructor
    case full => intro p; rw [none]; by_cases h : p < T <;> simp [h]
    case active =>
      intro u p
      by_cases h : p < T
      · simp [setup, h, Fin.ext_iff, eq_comm]
      · simp only [setup, h, true_and, dif_neg, not_false_eq_true, reduceCtorEq, iff_false]
        omega
    case collecting => intro u p; by_cases h : p < T <;> simp [setup, h]
    case empty => intro p; by_cases h : p < T <;> simp [setup, h]
    case fresh => intro p; by_cases h : p < T <;> simp [setup, h] ; omega
    case emptyNodup => exact .nil
  · rintro page start (⟨rfl, _⟩ | ⟨u, phase⟩)
    · exact ⟨Nat.zero_le pageDataSize, [], .nil 0⟩
    · cases phase

theorem heapMalloc_spec (inv : s.Invariant) (fed : ∀ u, s.starved u = false) (t : Fin T)
    (fits : n + 2 ≤ pageDataSize) :
    ∃ s₀ : RowHeap α T, s.heapMalloc t (n + 2) = some (s₀.take t (n + 2)) ∧ s₀.Invariant ∧ SameRows s s₀ ∧
      (∀ u, s₀.starved u = false) ∧ s₀.phase = s.phase ∧ s₀.ptr (s₀.activePage t) + n + 2 ≤ pageDataSize := by
  by_cases room : s.room t (n + 2) = true
  · exact ⟨s, by simp only [heapMalloc, room, if_true], inv, ⟨fun _ => .rfl, fun _ _ => rfl, rfl⟩, fed, rfl,
      room_fits room⟩
  · obtain ⟨pages, _, released, _, _, _, inv₁, same₁⟩ := inv.releaseActive (fed t)
    obtain ⟨q, activePage, starved, ptr, _, phase, _, _, inv₂, same₂⟩ :=
      inv₁.renewActive (t := t) (Function.update_self ..)
    refine ⟨_, ?_, inv₂, same₁.trans same₂, fun u => ?_, phase, ?_⟩
    · simp only [heapMalloc, room, Bool.false_eq_true, if_false, released, Option.map_some]
    · rw [starved]
      by_cases own : u = t
      · rw [own, Function.update_self]
      · rw [Function.update_of_ne own]
        exact (Function.update_of_ne own _ _).trans (fed u)
    · rw [ptr, activePage, Function.update_self, Function.update_self]
      omega

theorem heapAllocRow_spec (inv : s.Invariant) (fed : ∀ u, s.starved u = false) (t : Fin T) (i : Nat)
    (fits : n + 2 ≤ pageDataSize) :
    ∃ s₀ : RowHeap α T, s.heapAllocRow t i n = some (s₀.top t, s₀.newRow t i n) ∧ s₀.Invariant ∧ SameRows s s₀ ∧
      (∀ u, s₀.starved u = false) ∧ s₀.phase = s.phase ∧ (s₀.newRow t i n).Invariant := by
  obtain ⟨s₀, room, inv₀, same, fed₀, phase, fits⟩ := heapMalloc_spec inv fed t fits
  refine ⟨s₀, ?_, inv₀, same, fed₀, phase, (s₀.newRow_appended t i n).invariant inv₀ fits⟩
  unfold heapAllocRow
  rw [room]
  rfl

theorem heapAllocRow_live (inv : s.Invariant) (fed : ∀ u, s.starved u = false) (t : Fin T) (small : i < 2 ^ 31)
    (fits : n + 2 ≤ pageDataSize) :
    ∃ p s', s.heapAllocRow t i n = some (p, s') ∧ ¬ s.Live p ∧ (∀ q, s'.Live q ↔ s.Live q ∨ q = p) ∧
      (∀ q, s.Live q → s'.row q = s.row q) ∧ s'.number p = i ∧ s'.size p = n := by
  obtain ⟨s₀, eq, inv₀, same, fed₀, _⟩ := heapAllocRow_spec inv fed t i fits
  have appended := s₀.newRow_appended t i n
  have number := s₀.newRow_number t i n
  refine ⟨_, _, eq, fun live => s₀.top_not_live t ((same.live _).mpr live), fun q => ?_, fun q live => ?_, number,
    appended.size⟩
  · rw [appended.live_iff inv₀ (fed₀ t), same.live]
    have alive (eq : q = s₀.top t) : (s₀.newRow t i n).number q ≠ deletedNumber := by
      rw [eq, number]
      unfold deletedNumber
      omega
    tauto
  · rw [appended.row_eq ((same.live q).mpr live), same.row q live]

/-! ## Writing into a row -/

theorem write_invariant (inv : s.Invariant) {x : α} (apart : ∀ start offs, s.Held p.1 start →
    RecordWalk (s.next p.1) start offs (s.ptr p.1) → ∀ off ∈ offs, off + 1 ≠ p.2) : (s.write p x).Invariant := by
  obtain ⟨role, roles⟩ := inv.roles
  refine ⟨inv.listed, ⟨role, roles.congr rfl rfl rfl rfl rfl rfl⟩, fun page start held => ?_⟩
  obtain ⟨bound, offs, walk⟩ := inv.laid page start held
  refine ⟨bound, offs, walk.frame fun off inside => ?_⟩
  have other : ¬ (page = p.1 ∧ off + 1 = p.2) := by
    rintro ⟨rfl, same⟩
    exact apart start offs held walk off inside same
  unfold next size
  rw [write_data, if_neg other]

omit [HeapCell α] in
theorem held_unique {role : Nat → Role T} {page start start' : Nat} (roles : Roles s role)
    (held : s.Held page start) (held' : s.Held page start') : start = start' := by
  rcases held with ⟨rfl, kind⟩ | ⟨u, phase⟩
  · rcases held' with ⟨rfl, _⟩ | ⟨u, phase⟩
    · rfl
    · exact (held_collecting roles phase).mp (.inl ⟨rfl, kind⟩)
  · exact ((held_collecting roles phase).mp held').symm

theorem Live.apart (live : s.Live p) (inv : s.Invariant) {start : Nat} {offs : List Nat}
    (held : s.Held p.1 start) (walk : RecordWalk (s.next p.1) start offs (s.ptr p.1)) {off : Nat} (inside : off ∈ offs)
    (other : off ≠ p.2) : s.next p.1 off ≤ p.2 ∨ s.next p.1 p.2 ≤ off := by
  obtain ⟨role, roles⟩ := inv.roles
  obtain ⟨_, start', offs', held', walk', inside'⟩ := live
  obtain rfl := held_unique roles held held'
  obtain rfl := walk.unique (s.next_grows p.1) walk'
  rcases Nat.lt_or_gt_of_ne other with before | after
  · exact .inl (walk.separated (s.next_grows p.1) inside inside' before)
  · exact .inr (walk.separated (s.next_grows p.1) inside' inside after)

theorem fill_invariant (inv : s.Invariant) (live : s.Live p) (inside : k < s.size p) (x : α) :
    (s.write (p.1, p.2 + 2 + k) x).Invariant := by
  apply write_invariant inv
  intro start offs held walk off member same
  change off + 1 = p.2 + 2 + k at same
  by_cases own : off = p.2
  · omega
  · have := live.apart inv held walk member own
    unfold next at this
    change _ ∨ p.2 + s.size p + 2 ≤ off at this
    omega

theorem heapDestroyRow_invariant (inv : s.Invariant) (live : s.Live p) : (s.heapDestroyRow p).Invariant := by
  apply write_invariant inv
  intro start offs held walk off member same
  have := live.apart inv held walk member (by omega)
  unfold next at this
  omega

theorem heapDestroyRow_data (s : RowHeap α T) (p : Pointer) (page k : Nat) (other : ¬ (page = p.1 ∧ k = p.2)) :
    (s.heapDestroyRow p).data page k = s.data page k := by
  unfold heapDestroyRow
  rw [write_data, if_neg other]

/-- A destroyed row is no longer live, and the other rows stay what they are. -/
theorem heapDestroyRow_live (inv : s.Invariant) (live : s.Live p) :
    (∀ q, (s.heapDestroyRow p).Live q ↔ s.Live q ∧ q ≠ p) ∧
      ∀ q, s.Live q → q ≠ p → (s.heapDestroyRow p).row q = s.row q := by
  have cell {q : Pointer} {j : Nat} (liveQ : s.Live q) (other : q ≠ p) (inside : j < s.size q + 2) :
      (s.heapDestroyRow p).data q.1 (q.2 + j) = s.data q.1 (q.2 + j) := by
    apply heapDestroyRow_data
    rintro ⟨same, eq⟩
    obtain ⟨_, start, offs, held, walk, member⟩ := liveQ
    have := live.apart inv (same ▸ held) (same ▸ walk) member (fun eq' => other (Prod.ext same eq'))
    rw [← same] at this
    unfold next at this
    change q.2 + s.size q + 2 ≤ p.2 ∨ _ at this
    omega
  have walks {page start : Nat} {offs : List Nat} (held : s.Held page start)
      (walk : RecordWalk (s.next page) start offs (s.ptr page)) :
      RecordWalk ((s.heapDestroyRow p).next page) start offs (s.ptr page) := by
    apply walk.frame
    intro off member
    have same := heapDestroyRow_data s p page (off + 1) <| by
      rintro ⟨rfl, eq⟩
      have := live.apart inv held walk member (by omega)
      unfold next at this
      omega
    exact congrArg (fun x => off + rowCell x + 2) same
  have gone : (s.heapDestroyRow p).number p = deletedNumber := by
    unfold heapDestroyRow number
    rw [write_data, if_pos ⟨rfl, rfl⟩, rowCell_setRowCell]
  refine ⟨fun q => ⟨?_, ?_⟩, fun q liveQ other => ?_⟩
  · rintro ⟨alive, start, offs', held, walk', member⟩
    have other : q ≠ p := by
      rintro rfl
      exact alive gone
    obtain ⟨_, offs, walk⟩ := inv.laid q.1 start held
    obtain rfl := walk'.unique ((s.heapDestroyRow p).next_grows q.1) (walks held walk)
    refine ⟨⟨?_, start, _, held, walk, member⟩, other⟩
    have same := heapDestroyRow_data s p q.1 q.2 fun eq => other (Prod.ext eq.1 eq.2)
    intro dead
    exact alive ((congrArg rowCell same).trans dead)
  · rintro ⟨liveQ, other⟩
    have same := cell liveQ other (j := 0) (by omega)
    obtain ⟨alive, start, offs, held, walk, member⟩ := liveQ
    exact ⟨fun dead => alive ((congrArg rowCell same).symm.trans dead), start, offs, held, walks held walk, member⟩
  · have size : (s.heapDestroyRow p).size q = s.size q := congrArg rowCell (cell liveQ other (j := 1) (by omega))
    have number : (s.heapDestroyRow p).number q = s.number q := congrArg rowCell (cell liveQ other (j := 0) (by omega))
    unfold row
    rw [number, size]
    refine Prod.ext rfl (List.map_congr_left fun k inside => ?_)
    have := List.mem_range.mp inside
    have same := cell liveQ other (j := 2 + k) (by omega)
    rwa [← Nat.add_assoc] at same

theorem heapResizeLastRow_invariant (inv : s.Invariant) (live : s.Live p) (shrinks : n ≤ s.size p)
    (resized : s.heapResizeLastRow t p n = some s') : s'.Invariant := by
  simp only [heapResizeLastRow] at resized
  split_ifs at resized with last
  obtain ⟨own, last⟩ := last
  have eq := Option.some.inj resized
  have data (page k : Nat) : s'.data page k =
      if page = p.1 ∧ k = p.2 + 1 then setRowCell (s.data p.1 (p.2 + 1)) n else s.data page k := by
    rw [← eq]
    exact write_data ..
  have ptr : s'.ptr = Function.update s.ptr p.1 (p.2 + n + 2) := by
    rw [← own] at last
    have less : s.ptr p.1 - (s.size p - n) = p.2 + n + 2 := by omega
    rw [← eq, ← less, own]
    rfl
  have same {page off : Nat} (other : ¬ (page = p.1 ∧ off = p.2)) : s'.next page off = s.next page off := by
    unfold next size
    rw [data, if_neg]
    rintro ⟨a, b⟩
    exact other ⟨a, Nat.succ.inj b⟩
  obtain ⟨role, roles⟩ := inv.roles
  refine ⟨?_, ⟨role, ?_⟩, fun page start held => ?_⟩
  · rw [← eq]
    exact inv.listed
  · rw [← eq]
    exact roles.congr rfl rfl rfl rfl rfl rfl
  · have before : s.Held page start := by
      rw [← eq] at held
      exact held
    obtain ⟨bound, offs, walk⟩ := inv.laid page start before
    rw [ptr]
    by_cases here : page = p.1
    · subst here
      rw [Function.update_self]
      rw [← own] at last
      refine ⟨by omega, offs, ?_⟩
      obtain ⟨_, start', offs', held', walk', inside⟩ := live
      obtain rfl := held_unique roles before held'
      obtain rfl := walk.unique (s.next_grows p.1) walk'
      obtain ⟨front, back, rfl⟩ := List.append_of_mem inside
      obtain ⟨left, right⟩ := walk.split
      have stop : s.next p.1 p.2 = s.ptr p.1 := last
      rw [stop] at right
      obtain rfl := right.eq_nil (s.next_grows p.1)
      have left' : RecordWalk (s'.next p.1) start front p.2 := by
        apply left.frame
        intro off member
        apply same
        rintro ⟨_, rfl⟩
        have := (left.bounds (s.next_grows p.1) member).2
        have := s.next_grows p.1 p.2
        omega
      have stop' : s'.next p.1 p.2 = p.2 + n + 2 := by
        unfold next size
        rw [data, if_pos ⟨rfl, rfl⟩, rowCell_setRowCell]
      rw [← stop']
      exact left'.concat
    · rw [Function.update_of_ne here]
      have walk' : RecordWalk (s'.next page) start offs (s.ptr page) := walk.frame fun _ _ => same fun h => here h.1
      exact ⟨bound, offs, walk'⟩

theorem starving_of_fed (fed : ∀ u, s.starved u = false) : s.Starving := by
  intro u starved
  rw [fed u] at starved
  cases starved

theorem Starving.fed (starving : s.Starving) (quiet : s.Quiet) (u : Fin T) : s.starved u = false := by
  cases starved : s.starved u with
  | false => rfl
  | true =>
    obtain ⟨page, bot, phase, _⟩ := starving u starved
    rw [quiet u] at phase
    cases phase

theorem startCollection_spec (inv : s.Invariant) (quiet : s.Quiet) :
    s.startCollection.Invariant ∧ SameRows s s.startCollection :=
  phase_spec inv inv.listed.nextGeneration rfl fun u page bot => by simp [quiet u]

theorem Reached.invariant (reached : Reached s) : s.Invariant ∧ s.Starving := by
  induction reached with
  | setup data rows => exact ⟨setup_invariant data rows, starving_of_fed fun _ => rfl⟩
  | alloc _ quiet _ fits alloc ih =>
    obtain ⟨inv, starving⟩ := ih
    obtain ⟨s₀, eq, _, _, fed, _, inv'⟩ := heapAllocRow_spec inv (starving.fed quiet) _ _ fits
    rw [alloc] at eq
    cases eq
    exact ⟨inv', starving_of_fed fed⟩
  | fill _ quiet live inside ih =>
    exact ⟨fill_invariant ih.1 live inside _, starving_of_fed (ih.2.fed quiet)⟩
  | store _ quiet ih =>
    obtain ⟨⟨listed, ⟨role, roles⟩, laid⟩, starving⟩ := ih
    exact ⟨⟨listed, ⟨role, roles.congr rfl rfl rfl rfl rfl rfl⟩, laid⟩, starving_of_fed (starving.fed quiet)⟩
  | resize _ quiet live shrinks resized ih =>
    refine ⟨heapResizeLastRow_invariant ih.1 live shrinks resized, starving_of_fed fun u => ?_⟩
    simp only [heapResizeLastRow] at resized
    split_ifs at resized
    cases resized
    exact ih.2.fed quiet u
  | destroy _ quiet live ih => exact ⟨heapDestroyRow_invariant ih.1 live, starving_of_fed (ih.2.fed quiet)⟩
  | collect _ quiet ih => exact ⟨(startCollection_spec ih.1 quiet).1, starving_of_fed (ih.2.fed quiet)⟩
  | step _ step ih =>
    have turn := collectStep_turn step
    exact ⟨(turn.spec ih.1).1, turn.starving ih.1 ih.2⟩

/-! ## A whole collection -/

def Collects (s s' : RowHeap α T) : Prop := ∃ t, s.collectStep t = some s'

theorem collects_moves {final : RowHeap α T} (run : Relation.ReflTransGen Collects s final) (inv : s.Invariant)
    (starving : s.Starving) : final.Invariant ∧ final.Starving ∧ ∃ move, Moves s final move := by
  induction run with
  | refl => exact ⟨inv, starving, id, SameRows.moves ⟨fun _ => .rfl, fun _ _ => rfl, rfl⟩⟩
  | tail _ step ih =>
    obtain ⟨inv', starving', move, moves⟩ := ih
    obtain ⟨t, step⟩ := step
    have turn := collectStep_turn step
    obtain ⟨inv'', move', moves'⟩ := turn.spec inv'
    exact ⟨inv'', turn.starving inv' starving', _, moves.trans moves'⟩

theorem collects_acc (inv : s.Invariant) : Acc (flip Collects) s := by
  induction work : s.work using Nat.strong_induction_on generalizing s with
  | h n ih =>
    constructor
    rintro s' ⟨t, step⟩
    have turn := collectStep_turn step
    exact ih s'.work (work ▸ turn.work_lt inv) (turn.spec inv).1 rfl

def Disjoint (s : RowHeap α T) (p q : Pointer) : Prop :=
  p.1 ≠ q.1 ∨ s.next p.1 p.2 ≤ q.2 ∨ s.next q.1 q.2 ≤ p.2

theorem live_disjoint (inv : s.Invariant) (live : s.Live p) (live' : s.Live q) (other : p ≠ q) : s.Disjoint p q := by
  by_cases same : p.1 = q.1
  · right
    obtain ⟨_, start, offs, held, walk, inside⟩ := live'
    rw [← same] at held walk ⊢
    have apart := live.apart inv held walk inside fun eq => other (Prod.ext same eq.symm)
    exact apart.symm
  · exact .inl same

theorem live_not_empty (inv : s.Invariant) (live : s.Live p) : p.1 ∉ s.emptyPages := by
  obtain ⟨role, roles⟩ := inv.roles
  obtain ⟨_, start, _, held, _⟩ := live
  rw [roles.empty]
  rcases roles.of_held held with role | ⟨_, role⟩ | ⟨_, role⟩ <;> simp [role]

/-- `heap_garbage_collection` ends. Every live row has then one copy with its number, its length and its
coefficients, to which `rows` points; the copies are not in empty pages and do not overlap. -/
theorem heapGarbageCollection_keeps (reached : Reached s) (quiet : s.Quiet) :
    Acc (flip Collects) s.startCollection ∧
    ∀ s', Relation.ReflTransGen Collects s.startCollection s' →
      (∀ t, s'.phase t ≠ .out → (s'.collectStep t).isSome) ∧
      (s'.Quiet → ∃ move, Set.BijOn move {p | s.Live p} {p | s'.Live p} ∧
        (∀ p, s.Live p → s'.row (move p) = s.row p ∧ (move p).1 ∉ s'.emptyPages) ∧
        (s.Registered → ∀ p, s.Live p → s'.rows (s.number p) = some (move p)) ∧
        ∀ p q, s'.Live p → s'.Live q → p ≠ q → s'.Disjoint p q) := by
  obtain ⟨inv, starving⟩ := reached.invariant
  obtain ⟨inv₁, same⟩ := startCollection_spec inv quiet
  have starving₁ : s.startCollection.Starving := starving_of_fed (starving.fed quiet)
  refine ⟨collects_acc inv₁, fun s' run => ?_⟩
  obtain ⟨inv', _, move, moves⟩ := collects_moves run inv₁ starving₁
  refine ⟨fun t inside => collectStep_isSome inv' inside, fun _ => ?_⟩
  have all := same.moves.trans moves
  refine ⟨move ∘ id, all.bij, fun p live => ⟨all.row p live, ?_⟩, fun registered p live => ?_, ?_⟩
  · exact live_not_empty inv' (all.bij.mapsTo live)
  · have number : s'.number ((move ∘ id) p) = s.number p := congrArg Prod.fst (all.row p live)
    rw [← number]
    exact all.registered registered _ (all.bij.mapsTo live)
  · exact fun p q live live' other => live_disjoint inv' live live' other

/-! ## A page with a live row and a deleted one -/

def twoRows : RowHeap Nat 1 := ((setup (fun _ _ => 0) fun _ => none).newRow (Fin.last 0) 7 1).newRow (Fin.last 0) 8 1

theorem reached_twoRows : Reached twoRows := by
  have first : Reached ((setup (fun _ _ => 0) fun _ => none : RowHeap Nat 1).newRow 0 7 1) :=
    .alloc (t := 0) (i := 7) (.setup ..) (fun _ => rfl) (by decide) (by decide : 1 + 2 ≤ pageDataSize) rfl
  exact .alloc (t := 0) (i := 8) first (fun _ => rfl) (by decide) (by decide : 1 + 2 ≤ pageDataSize) rfl

theorem live_twoRows : twoRows.Live (0, 0) ∧ twoRows.Live (0, 3) := by
  have walk : RecordWalk (twoRows.next 0) 0 [0, 3] (twoRows.ptr 0) := .cons (.cons (.nil 6))
  have held : twoRows.Held 0 0 := .inl ⟨rfl, .inr ⟨0, rfl, rfl⟩⟩
  exact ⟨⟨by decide, 0, _, held, walk, by simp⟩, by decide, 0, _, held, walk, by simp⟩

theorem heapAllocRow_live_fullPage : twoRows.room 0 (pageDataSize - 6) = false ∧
    ∃ p s', twoRows.heapAllocRow 0 9 (pageDataSize - 8) = some (p, s') ∧ s'.Live p ∧ s'.number p = 9 ∧
      s'.Live (0, 0) ∧ s'.row (0, 0) = twoRows.row (0, 0) := by
  obtain ⟨live, _⟩ := live_twoRows
  obtain ⟨p, s', alloc, _, lives, rows, number, _⟩ :=
    heapAllocRow_live reached_twoRows.invariant.1 (fun _ => rfl) 0 (i := 9) (n := pageDataSize - 8) (by decide) (by decide)
  exact ⟨by decide, p, s', alloc, (lives p).mpr (.inr rfl), number, (lives _).mpr (.inl live), rows _ live⟩

theorem heapDestroyRow_live_twoRows : ¬ (twoRows.heapDestroyRow (0, 3)).Live (0, 3) ∧
    (twoRows.heapDestroyRow (0, 3)).Live (0, 0) ∧ (twoRows.heapDestroyRow (0, 3)).row (0, 0) = twoRows.row (0, 0) := by
  obtain ⟨first, second⟩ := live_twoRows
  obtain ⟨lives, rows⟩ := heapDestroyRow_live reached_twoRows.invariant.1 second
  exact ⟨fun live => ((lives _).mp live).2 rfl, (lives _).mpr ⟨first, by decide⟩, rows _ first (by decide)⟩

def fullPage : RowHeap Nat 1 :=
  (((twoRows.heapDestroyRow (0, 3)).heapAllocRow (Fin.last 0) 9 (pageDataSize - 8)).map Prod.snd).getD twoRows

theorem reached_fullPage : Reached fullPage := by
  have destroyed : Reached (twoRows.heapDestroyRow (0, 3)) := .destroy reached_twoRows (fun _ => rfl) live_twoRows.2
  have fits : pageDataSize - 8 + 2 ≤ pageDataSize := by decide
  obtain ⟨s₀, alloc, _⟩ := heapAllocRow_spec destroyed.invariant.1 (fun _ => rfl) (Fin.last 0) 9 fits
  have same : fullPage = s₀.newRow (Fin.last 0) 9 (pageDataSize - 8) := by
    rw [fullPage, alloc]
    rfl
  rw [same]
  exact .alloc destroyed (fun _ => rfl) (by decide) fits alloc

theorem live_fullPage : fullPage.Live (0, 0) ∧ fullPage.number (0, 3) = deletedNumber :=
  ⟨⟨by decide, 0, [0, 3], .inl ⟨rfl, .inl (by decide)⟩, .cons (.cons (.nil 6)), by simp⟩, by decide⟩

def collect (s : RowHeap Nat 1) : Nat → RowHeap Nat 1
  | 0 => s
  | n + 1 => collect ((s.collectStep 0).getD s) n

theorem heapGarbageCollection_keeps_fullPage : fullPage.pages.followed = [0] ∧
    ∃ s', Relation.ReflTransGen Collects fullPage.startCollection s' ∧ s'.Quiet ∧ s'.emptyPages = [0] ∧
      ∃ move, Set.BijOn move {p | fullPage.Live p} {p | s'.Live p} ∧ s'.row (move (0, 0)) = fullPage.row (0, 0) ∧
        (move (0, 0)).1 ≠ 0 := by
  let after := fullPage.startCollection.collect
  have found : Collects (after 0) (after 1) := ⟨0, rfl⟩
  have copied : Collects (after 1) (after 2) := ⟨0, rfl⟩
  have skipped : Collects (after 2) (after 3) := ⟨0, rfl⟩
  have cleared : Collects (after 3) (after 4) := ⟨0, rfl⟩
  have finished : Collects (after 4) (after 5) := ⟨0, rfl⟩
  have run := (((((Relation.ReflTransGen.single found).tail copied).tail skipped).tail cleared).tail finished)
  have quiet : (after 5).Quiet := Fin.forall_fin_one.mpr rfl
  have empty : (after 5).emptyPages = [0] := rfl
  obtain ⟨move, bij, kept, _⟩ := ((heapGarbageCollection_keeps reached_fullPage fun _ => rfl).2 _ run).2 quiet
  obtain ⟨row, outside⟩ := kept (0, 0) live_fullPage.1
  exact ⟨rfl, _, run, quiet, empty, move, bij, row, fun zero => outside (by rw [zero, empty]; simp)⟩

end RowHeap
end CadoNfs.Filter.Heap
