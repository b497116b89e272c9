import CadoNfs.Filter.HeapInvariant

/-!
# `heap_garbage_collection` keeps the rows

A turn of a thread leaves the rows where they are, or moves one of them to the active page of the thread.
-/

namespace CadoNfs.Filter.Heap
open Lib Typerow HeapCell

variable {α : Type} {T : Nat} [HeapCell α]

namespace RowHeap

variable {s s' : RowHeap α T} {t : Fin T} {page bot n : Nat} {p old : Pointer}

/-! ## The two ways to write a row -/

omit [HeapCell α] in
theorem write_data (s : RowHeap α T) (p : Pointer) (x : α) (page k : Nat) :
    (s.write p x).data page k = if page = p.1 ∧ k = p.2 then x else s.data page k := by
  unfold write
  by_cases own : page = p.1
  · subst own
    by_cases same : k = p.2
    · simp [same]
    · simp [same]
  · simp [own]

omit [HeapCell α] in
theorem memcpy_data (s : RowHeap α T) (new old : Pointer) (n page k : Nat) :
    (s.memcpy new old n).data page k =
      if page = new.1 ∧ new.2 ≤ k ∧ k < new.2 + n then s.data old.1 (old.2 + (k - new.2)) else s.data page k := by
  unfold memcpy
  by_cases own : page = new.1
  · subst own
    simp
  · simp [own]

theorem writeHeader_data (s : RowHeap α T) (p : Pointer) (i n page k : Nat) :
    (s.writeHeader p i n).data page k =
      if page = p.1 ∧ k = p.2 + 1 then setRowCell (s.data p.1 (p.2 + 1)) n
      else if page = p.1 ∧ k = p.2 then setRowCell (s.data p.1 p.2) i else s.data page k := by
  simp [writeHeader, write_data]

def newRow (s : RowHeap α T) (t : Fin T) (i n : Nat) : RowHeap α T :=
  (s.take t (n + 2)).2.writeHeader (s.top t) i n

theorem newRow_data (s : RowHeap α T) (t : Fin T) (i n page k : Nat) (old : page ≠ s.activePage t ∨
    k < s.ptr (s.activePage t)) : (s.newRow t i n).data page k = s.data page k := by
  unfold newRow
  rw [writeHeader_data, if_neg, if_neg]
  · rfl
  · rintro ⟨rfl, rfl⟩
    simp [top] at old
  · rintro ⟨rfl, rfl⟩
    simp [top] at old

theorem newRow_appended (s : RowHeap α T) (t : Fin T) (i n : Nat) : Appended s (s.newRow t i n) t n := by
  constructor
  case other => exact fun page k other => s.newRow_data t i n page k (.inl other)
  case below => exact fun k below => s.newRow_data t i n _ k (.inr below)
  case size =>
    unfold newRow size
    rw [writeHeader_data, if_pos ⟨rfl, rfl⟩, rowCell_setRowCell]
  all_goals rfl

theorem newRow_number (s : RowHeap α T) (t : Fin T) (i n : Nat) : (s.newRow t i n).number (s.top t) = i := by
  unfold newRow number
  rw [writeHeader_data, if_neg, if_pos ⟨rfl, rfl⟩, rowCell_setRowCell]
  simp

section
variable (apart : old.1 ≠ s.activePage t)
include apart

theorem copyRow_data (page k : Nat) : (s.copyRow t old).data page k =
    if page = s.activePage t ∧ k = s.ptr (s.activePage t) then setCell (s.number old)
    else if page = s.activePage t ∧ s.ptr (s.activePage t) + 1 ≤ k ∧
        k < s.ptr (s.activePage t) + 1 + (s.size old + 1) then
      s.data old.1 (old.2 + 1 + (k - (s.ptr (s.activePage t) + 1)))
    else (s.newRow t (s.number old) (s.size old)).data page k := by
  change RowHeap.data (RowHeap.write (RowHeap.memcpy (s.newRow t (s.number old) (s.size old))
    ((s.top t).1, (s.top t).2 + 1) (old.1, old.2 + 1) (s.size old + 1)) (s.top t)
    (setCell (RowHeap.number (RowHeap.memcpy (s.newRow t (s.number old) (s.size old))
      ((s.top t).1, (s.top t).2 + 1) (old.1, old.2 + 1) (s.size old + 1)) old))) page k = _
  have number : (RowHeap.memcpy (s.newRow t (s.number old) (s.size old))
      ((s.top t).1, (s.top t).2 + 1) (old.1, old.2 + 1) (s.size old + 1)).number old = s.number old := by
    unfold RowHeap.number
    rw [memcpy_data, if_neg, newRow_data _ _ _ _ _ _ (.inl apart)]
    exact fun own => apart own.1
  rw [number, write_data, memcpy_data, newRow_data _ _ _ _ _ _ (.inl apart)]
  rfl

variable (t old) in
theorem copyRow_appended : Appended s (s.copyRow t old) t (s.size old) := by
  constructor
  case other =>
    intro page k other
    rw [copyRow_data apart, if_neg fun own => other own.1, if_neg fun own => other own.1,
      newRow_data _ _ _ _ _ _ (.inl other)]
  case below =>
    intro k below
    rw [copyRow_data apart, if_neg (by omega), if_neg (by omega), newRow_data _ _ _ _ _ _ (.inr below)]
  case size =>
    unfold size
    rw [copyRow_data apart, if_neg (by omega), if_pos ⟨rfl, by omega, by omega⟩]
    simp
  all_goals rfl

theorem copyRow_row : (s.copyRow t old).row (s.top t) = s.row old := by
  have number : (s.copyRow t old).number (s.top t) = s.number old := by
    unfold RowHeap.number
    rw [copyRow_data apart, if_pos ⟨rfl, rfl⟩, rowCell_setCell]
    rfl
  have size : (s.copyRow t old).size (s.top t) = s.size old := (copyRow_appended t old apart).size
  unfold row
  rw [number, size]
  refine Prod.ext rfl (List.map_congr_left fun k inside => ?_)
  have := List.mem_range.mp inside
  rw [copyRow_data apart, if_neg, if_pos]
  · congr 1
    simp only [top]
    omega
  · exact ⟨rfl, by simp only [top]; omega, by simp only [top]; omega⟩
  · simp only [top]
    omega

end

/-! ## The walk over a page -/

omit [HeapCell α] in
theorem held_collecting {role : Nat → Role T} {start : Nat} (roles : Roles s role)
    (here : s.phase t = .collecting page bot) : s.Held page start ↔ start = bot := by
  have own : role page = .collecting t := (roles.collecting t page).mp ⟨bot, here⟩
  constructor
  · rintro (⟨_, inFull | ⟨u, active⟩⟩ | ⟨u, phase⟩)
    · rw [roles.full, own] at inFull
      cases inFull
    · rw [roles.active, own] at active
      cases active
    · have other := (roles.collecting u page).mp ⟨start, phase⟩
      rw [own] at other
      cases other
      rw [here] at phase
      cases phase
      rfl
  · rintro rfl
    exact .inr ⟨t, here⟩

omit [HeapCell α] in
theorem held_congr {page start : Nat} (followed : s'.pages.followed = s.pages.followed)
    (activePage : s'.activePage = s.activePage) (starved : s'.starved = s.starved)
    (phase : ∀ u, s'.phase u = .collecting page start ↔ s.phase u = .collecting page start) :
    s'.Held page start ↔ s.Held page start := by
  unfold Held
  rw [followed, activePage, starved]
  simp only [phase]

omit [HeapCell α] in
theorem setPhase_phase {phase : Phase} {start : Nat} (before : s.phase t ≠ .collecting page start)
    (after : phase ≠ .collecting page start) (u : Fin T) :
    (s.setPhase t phase).phase u = .collecting page start ↔ s.phase u = .collecting page start := by
  unfold setPhase
  by_cases own : u = t
  · subst own
    simp [before, after]
  · simp [own]

section
variable {role : Nat → Role T} (inv : s.Invariant) (here : s.phase t = .collecting page bot)
include here

omit [HeapCell α] in
theorem advance_roles (roles : Roles s role) : Roles (s.advance t (page, bot) n) role := by
  constructor
  case collecting =>
    intro u p
    rw [← roles.collecting u p]
    unfold advance setPhase
    by_cases own : u = t
    · subst own
      simp [here]
    · simp [own]
  case full => exact roles.full
  case active => exact roles.active
  case empty => exact roles.empty
  case fresh => exact roles.fresh
  case emptyNodup => exact roles.emptyNodup

omit [HeapCell α] in
theorem held_advance_of_ne {page' start : Nat} (other : page' ≠ page) :
    (s.advance t (page, bot) n).Held page' start ↔ s.Held page' start := by
  refine held_congr rfl rfl rfl (setPhase_phase ?_ ?_)
  · rw [here]
    intro same
    cases same
    exact other rfl
  · intro same
    cases same
    exact other rfl

include inv

theorem advance_spec (more : bot < s.ptr page) :
    (s.advance t (page, bot) (s.size (page, bot))).Invariant ∧
      ∀ p, (s.advance t (page, bot) (s.size (page, bot))).Live p ↔ s.Live p ∧ p ≠ (page, bot) := by
  obtain ⟨role, roles⟩ := inv.roles
  have roles' := advance_roles (n := s.size (page, bot)) here roles
  have here' : (s.advance t (page, bot) (s.size (page, bot))).phase t = .collecting page (s.next page bot) :=
    Function.update_self ..
  have held (start : Nat) : s.Held page start ↔ start = bot := held_collecting roles here
  have held' (start : Nat) : (s.advance t (page, bot) (s.size (page, bot))).Held page start ↔ start = _ :=
    held_collecting roles' here'
  obtain ⟨bound, offs, walk⟩ := inv.laid page bot ((held bot).mpr rfl)
  obtain ⟨rest, rfl, walk', later⟩ := walk.uncons (s.next_grows page) more
  refine ⟨⟨inv.listed, ⟨role, roles'⟩, fun page' start inUse => ?_⟩, fun p => ?_⟩
  · by_cases own : page' = page
    · subst own
      obtain rfl := (held' start).mp inUse
      exact ⟨bound, rest, walk'⟩
    · exact inv.laid page' start ((held_advance_of_ne here own).mp inUse)
  · obtain ⟨page', off⟩ := p
    by_cases own : page' = page
    · subst own
      constructor
      · rintro ⟨alive, start, offs, inUse, walk'', inside⟩
        obtain rfl := (held' start).mp inUse
        obtain rfl := walk''.unique (s.next_grows page') walk'
        refine ⟨⟨alive, bot, _, (held bot).mpr rfl, walk, List.mem_cons_of_mem bot inside⟩, ?_⟩
        intro same
        cases same
        exact later inside
      · rintro ⟨⟨alive, start, offs, inUse, walk'', inside⟩, other⟩
        obtain rfl := (held _).mp inUse
        obtain rfl := walk''.unique (s.next_grows page') walk
        rcases inside with _ | ⟨_, inside⟩
        · exact absurd rfl other
        · exact ⟨alive, _, rest, (held' _).mpr rfl, walk', inside⟩
    · have apart : (page', off) ≠ (page, bot) := fun same => own (congrArg Prod.fst same)
      constructor
      · rintro ⟨alive, start, offs, inUse, walk, inside⟩
        exact ⟨⟨alive, start, offs, (held_advance_of_ne here own).mp inUse, walk, inside⟩, apart⟩
      · rintro ⟨⟨alive, start, offs, inUse, walk, inside⟩, _⟩
        exact ⟨alive, start, offs, (held_advance_of_ne here own).mpr inUse, walk, inside⟩

theorem clear_spec (none : ¬ bot < s.ptr page) :
    ((s.heapClearPage page).setPhase t .searching).Invariant ∧
      SameRows s ((s.heapClearPage page).setPhase t .searching) := by
  obtain ⟨role, roles⟩ := inv.roles
  have own : role page = .collecting t := (roles.collecting t page).mp ⟨bot, here⟩
  have held (start : Nat) : s.Held page start ↔ start = bot := held_collecting roles here
  obtain ⟨bound, offs, walk⟩ := inv.laid page bot ((held bot).mpr rfl)
  have top : bot = s.ptr page := by
    have := walk.le (s.next_grows page)
    omega
  have nothing {offs : List Nat} (walk : RecordWalk (s.next page) bot offs (s.ptr page)) : offs = [] := by
    rw [← top] at walk
    exact walk.eq_nil (s.next_grows page)
  have other {page' start : Nat} (apart : page' ≠ page) :
      ((s.heapClearPage page).setPhase t .searching).Held page' start ↔ s.Held page' start := by
    refine held_congr rfl rfl rfl (setPhase_phase ?_ ?_)
    · change s.phase t ≠ _
      rw [here]
      intro same
      cases same
      exact apart rfl
    · simp
  have roles' : Roles ((s.heapClearPage page).setPhase t .searching) (Function.update role page .empty) := by
    unfold heapClearPage setPhase
    constructor
    case full => intro p; grind [roles.full p]
    case active => intro u p; grind [roles.active u p]
    case collecting => intro u p; grind [roles.collecting u p]
    case empty => intro p; grind [roles.empty p]
    case fresh => intro p; grind [roles.fresh p]
    case emptyNodup => grind [roles.emptyNodup, roles.empty page]
  have gone (start : Nat) : ¬ ((s.heapClearPage page).setPhase t .searching).Held page start := by
    intro inUse
    have := roles'.of_held inUse
    simp at this
  refine ⟨⟨inv.listed, ⟨_, roles'⟩, fun page' start inUse => ?_⟩, fun p => ?_, fun _ _ => rfl, rfl⟩
  · by_cases own : page' = page
    · exact absurd (own ▸ inUse) (gone start)
    · exact inv.laid page' start ((other own).mp inUse)
  · by_cases own : p.1 = page
    · constructor
      · rintro ⟨_, start, _, inUse, _⟩
        exact absurd (own ▸ inUse) (gone start)
      · rintro ⟨_, start, offs', inUse, walk', inside⟩
        rw [own] at inUse walk'
        rw [(held start).mp inUse] at walk'
        rw [nothing walk'] at inside
        cases inside
    · constructor
      · rintro ⟨alive, start, offs, inUse, walk, inside⟩
        exact ⟨alive, start, offs, (other own).mp inUse, walk, inside⟩
      · rintro ⟨alive, start, offs, inUse, walk, inside⟩
        exact ⟨alive, start, offs, (other own).mpr inUse, walk, inside⟩

end

/-! ## The full list in a collection -/

theorem phase_spec (inv : s.Invariant) {pages : FullPages} {phase : Fin T → Phase} (listed : pages.Listed)
    (followed : pages.followed = s.pages.followed)
    (same : ∀ u page bot, phase u = .collecting page bot ↔ s.phase u = .collecting page bot) :
    Invariant { s with pages := pages, phase := phase } ∧ SameRows s { s with pages := pages, phase := phase } := by
  obtain ⟨role, roles⟩ := inv.roles
  have held (page start : Nat) : Held { s with pages := pages, phase := phase } page start ↔ s.Held page start :=
    held_congr followed rfl rfl fun u => same u page start
  refine ⟨⟨listed, ⟨role, ?_⟩, ?_⟩, ?_⟩
  · constructor
    case full => intro p; rw [← roles.full p, followed]
    case collecting => intro u p; rw [← roles.collecting u p]; exact exists_congr fun bot => same u p bot
    case active => exact roles.active
    case empty => exact roles.empty
    case fresh => exact roles.fresh
    case emptyNodup => exact roles.emptyNodup
  · exact inv.laid.of_held rfl fun page start inUse => .inl ⟨(held page start).mp inUse, rfl⟩
  · exact sameRows_of_held rfl rfl (fun _ _ _ => rfl) (fun page start => (held page start).mpr)
      fun page start inUse => .inl ((held page start).mp inUse)

theorem found_spec (inv : s.Invariant) (here : s.phase t = .searching) {pages : FullPages} (listed : pages.Listed)
    (followed : s.pages.followed = page :: pages.followed) :
    (setPhase { s with pages := pages } t (.collecting page 0)).Invariant ∧
      SameRows s (setPhase { s with pages := pages } t (.collecting page 0)) := by
  obtain ⟨role, roles⟩ := inv.roles
  have full : role page = .full := (roles.full page).mp (by simp [followed])
  have apart : page ∉ pages.followed := by
    have nodup := inv.listed.nodup
    rw [followed] at nodup
    exact (List.nodup_cons.mp nodup).1
  have member (p : Nat) : p ∈ s.pages.followed ↔ p = page ∨ p ∈ pages.followed := by rw [followed, List.mem_cons]
  have roles' : Roles (setPhase { s with pages := pages } t (.collecting page 0))
      (Function.update role page (.collecting t)) := by
    unfold setPhase
    constructor
    case full => intro p; grind [roles.full p]
    case active => intro u p; grind [roles.active u p]
    case collecting =>
      intro u p
      by_cases same : p = page
      · subst same
        have idle : ¬ ∃ bot, s.phase u = .collecting p bot := by simp [roles.collecting u p, full]
        by_cases own : u = t
        · simp [own]
        · simpa [own, Ne.symm own] using idle
      · rw [Function.update_of_ne same, ← roles.collecting u p]
        by_cases own : u = t
        · subst own
          simp [here, Ne.symm same]
        · simp [own]
    case empty => intro p; grind [roles.empty p]
    case fresh => intro p; grind [roles.fresh p]
    case emptyNodup => exact roles.emptyNodup
  have held (page' start : Nat) :
      (setPhase { s with pages := pages } t (.collecting page 0)).Held page' start ↔ s.Held page' start := by
    by_cases own : page' = page
    · subst own
      have begun : (setPhase { s with pages := pages } t (.collecting page' 0)).phase t = .collecting page' 0 :=
        Function.update_self ..
      rw [held_collecting roles' begun]
      constructor
      · rintro rfl
        exact .inl ⟨rfl, .inl ((roles.full page').mpr full)⟩
      · rintro (⟨rfl, _⟩ | ⟨u, phase⟩)
        · rfl
        · have other := (roles.collecting u page').mp ⟨start, phase⟩
          rw [full] at other
          cases other
    · have phase (u : Fin T) : (setPhase { s with pages := pages } t (.collecting page 0)).phase u =
          .collecting page' start ↔ s.phase u = .collecting page' start := by
        apply setPhase_phase
        · simp [here]
        · intro same
          cases same
          exact own rfl
      simp only [setPhase] at phase
      unfold Held
      simp only [setPhase, phase, member, own, false_or]
  refine ⟨⟨listed, ⟨_, roles'⟩, ?_⟩, ?_⟩
  · exact inv.laid.of_held rfl fun page start inUse => .inl ⟨(held page start).mp inUse, rfl⟩
  · exact sameRows_of_held rfl rfl (fun _ _ _ => rfl) (fun page start => (held page start).mpr)
      fun page start inUse => .inl ((held page start).mp inUse)

/-! ## Where the rows go -/

structure Moves (s s' : RowHeap α T) (move : Pointer → Pointer) : Prop where
  bij : Set.BijOn move {p | s.Live p} {p | s'.Live p}
  row : ∀ p, s.Live p → s'.row (move p) = s.row p
  registered : s.Registered → s'.Registered

theorem Moves.trans {s'' : RowHeap α T} {f g : Pointer → Pointer} (first : Moves s s' f) (second : Moves s' s'' g) :
    Moves s s'' (g ∘ f) where
  bij := second.bij.comp first.bij
  row p live := (second.row (f p) (first.bij.mapsTo live)).trans (first.row p live)
  registered before := second.registered (first.registered before)

theorem SameRows.moves (same : SameRows s s') : Moves s s' id := by
  have eq : {p | s'.Live p} = {p | s.Live p} := Set.ext same.live
  refine ⟨?_, same.row, fun registered p live => ?_⟩
  · rw [eq]
    exact Set.bijOn_id _
  · have before := (same.live p).mp live
    have number : s'.number p = s.number p := congrArg Prod.fst (same.row p before)
    rw [same.rows, number]
    exact registered p before

theorem copy_moves (inv : s.Invariant) (here : s.phase t = .collecting page bot) (more : bot < s.ptr page)
    (fed : s.starved t = false) (alive : s.number (page, bot) ≠ deletedNumber)
    (fits : s.ptr (s.activePage t) + s.size (page, bot) + 2 ≤ pageDataSize) :
    let s' := (s.copyRow t (page, bot)).advance t (page, bot) (s.size (page, bot))
    s'.Invariant ∧ Moves s s' fun p => if p = (page, bot) then s.top t else p := by
  intro s'
  obtain ⟨role, roles⟩ := inv.roles
  have apart : page ≠ s.activePage t := by
    intro same
    have active := (roles.active t _).mp ⟨fed, rfl⟩
    have collecting := (roles.collecting t page).mp ⟨bot, here⟩
    rw [same, active] at collecting
    cases collecting
  have appended := copyRow_appended t (page, bot) apart
  have inv' := appended.invariant inv fits
  have here' : (s.copyRow t (page, bot)).phase t = .collecting page bot := here
  have ptr : (s.copyRow t (page, bot)).ptr page = s.ptr page := by
    rw [appended.ptr, Function.update_of_ne apart]
  have liveOld : s.Live (page, bot) := by
    have held := (held_collecting roles here).mpr rfl
    obtain ⟨_, offs, walk⟩ := inv.laid page bot held
    obtain ⟨rest, rfl, _, _⟩ := walk.uncons (s.next_grows page) more
    exact ⟨alive, bot, _, held, walk, by simp⟩
  have rowOld := appended.row_eq liveOld
  have size : (s.copyRow t (page, bot)).size (page, bot) = s.size (page, bot) := by
    have length := congrArg (fun row => row.2.length) rowOld
    simpa [row] using length
  have passed := advance_spec inv' here' (ptr ▸ more)
  rw [size] at passed
  obtain ⟨inv'', live''⟩ := passed
  have copied : (s.copyRow t (page, bot)).row (s.top t) = s.row (page, bot) := copyRow_row apart
  have number : (s.copyRow t (page, bot)).number (s.top t) = s.number (page, bot) := congrArg Prod.fst copied
  have live' (p : Pointer) : s'.Live p ↔ (s.Live p ∨ p = s.top t) ∧ p ≠ (page, bot) := by
    rw [live'', appended.live_iff inv fed]
    have newAlive (eq : p = s.top t) : (s.copyRow t (page, bot)).number p ≠ deletedNumber := by
      rw [eq, number]
      exact alive
    tauto
  have topNe : s.top t ≠ (page, bot) := fun same => apart (congrArg Prod.fst same).symm
  have noTop := s.top_not_live t
  refine ⟨inv'', ⟨?_, ?_, ?_⟩, ?_, ?_⟩
  · intro p live
    by_cases own : p = (page, bot)
    · simp only [own, if_true, Set.mem_ofPred_eq]
      exact (live' _).mpr ⟨.inr rfl, topNe⟩
    · simp only [own, if_false, Set.mem_ofPred_eq]
      exact (live' _).mpr ⟨.inl live, own⟩
  · intro p live q live'' same
    have ne {r : Pointer} (live : s.Live r) : r ≠ s.top t := by
      rintro rfl
      exact noTop live
    simp only at same
    split_ifs at same with a b b
    · rw [a, b]
    · exact absurd same.symm (ne live'')
    · exact absurd same (ne live)
    · exact same
  · intro q live
    obtain ⟨before | rfl, other⟩ := (live' q).mp live
    · exact ⟨q, before, by simp [other]⟩
    · exact ⟨(page, bot), liveOld, by simp⟩
  · intro p live
    change (s.copyRow t (page, bot)).row _ = _
    by_cases own : p = (page, bot)
    · subst own
      rw [if_pos rfl]
      exact copied
    · rw [if_neg own]
      exact appended.row_eq live
  · intro registered p live
    change Function.update s.rows (s.number (page, bot)) (some (s.top t)) ((s.copyRow t (page, bot)).number p) = some p
    obtain ⟨before | rfl, other⟩ := (live' p).mp live
    · have kept : (s.copyRow t (page, bot)).number p = s.number p := congrArg Prod.fst (appended.row_eq before)
      have place := registered p before
      rw [kept, Function.update_of_ne, place]
      intro same
      rw [same, registered _ liveOld] at place
      exact other (Option.some.inj place).symm
    · rw [number, Function.update_self]

end RowHeap
end CadoNfs.Filter.Heap
