import CadoNfs.Filter.HeapRows

/-!
# What the heap of rows keeps

Every page is in one role, and the pages in use are filled with whole rows.
-/

namespace CadoNfs.Filter.Heap
open Lib Typerow HeapCell

namespace FullPages

variable {s : FullPages} {page : Nat}

def Listed (s : FullPages) : Prop := s.Holds s.followed

theorem Holds.listed {l : List Nat} (holds : s.Holds l) : s.Listed := by
  unfold Listed
  rw [holds.followed_eq]
  exact holds

theorem Released.perm {generation : Nat → Nat} {l l' : List Nat} (released : Released generation page l l') :
    l'.Perm (page :: l) := by
  cases released with
  | atEnd _ => exact List.perm_append_singleton page l
  | before _ _ => exact List.perm_middle

theorem Listed.release (listed : s.Listed) (fresh : page ∉ s.followed) :
    ∃ s', s.heapReleasePage page = some s' ∧ s'.Listed ∧ s'.followed.Perm (page :: s.followed) ∧
      s'.generation = s.generation ∧ s'.currentGeneration = s.currentGeneration := by
  obtain ⟨s', l', released, place, holds, generation, current⟩ := Holds.release listed fresh
  refine ⟨s', released, holds.listed, ?_, generation, current⟩
  rw [holds.followed_eq]
  exact place.perm

theorem Listed.get (listed : s.Listed) :
    s.heapGetFullPage = (none, s) ∨
    ∃ p s', s.heapGetFullPage = (some p, s') ∧ s'.Listed ∧ s.followed = p :: s'.followed ∧
      s.generation p < s.currentGeneration ∧
      s'.generation = s.generation ∧ s'.currentGeneration = s.currentGeneration := by
  rcases Holds.get listed with ⟨_, got⟩ | ⟨_, _, _, _, got⟩ | ⟨p, rest, split, old, got, holds, same⟩
  · exact .inl got
  · exact .inl got
  · refine .inr ⟨p, s.heapGetFullPage.2, Prod.ext got rfl, holds.listed, ?_, old, same⟩
    rw [holds.followed_eq, split]

theorem get_generation (s : FullPages) : s.heapGetFullPage.2.generation = s.generation ∧
    s.heapGetFullPage.2.currentGeneration = s.currentGeneration := by
  unfold heapGetFullPage
  split
  · exact ⟨rfl, rfl⟩
  · split <;> exact ⟨rfl, rfl⟩

theorem Listed.nodup (listed : s.Listed) : s.followed.Nodup :=
  (List.nodup_cons.mp listed.circle.nodup).2.of_map some

@[simp] theorem renew_followed (p : Nat) : (s.renew p).followed = s.followed := rfl

@[simp] theorem nextGeneration_followed : s.nextGeneration.followed = s.followed := rfl

theorem Listed.renew (listed : s.Listed) : (s.renew page).Listed := Holds.renew listed

theorem Listed.nextGeneration (listed : s.Listed) : s.nextGeneration.Listed := Holds.nextGeneration listed

end FullPages

inductive Role (T : Nat)
  | full
  | active (t : Fin T)
  | collecting (t : Fin T)
  | empty
  | fresh
  deriving DecidableEq

variable {α : Type} {T : Nat}

structure Roles (s : RowHeap α T) (role : Nat → Role T) : Prop where
  full : ∀ p, p ∈ s.pages.followed ↔ role p = .full
  active : ∀ t p, s.starved t = false ∧ s.activePage t = p ↔ role p = .active t
  collecting : ∀ t p, (∃ bot, s.phase t = .collecting p bot) ↔ role p = .collecting t
  empty : ∀ p, p ∈ s.emptyPages ↔ role p = .empty
  fresh : ∀ p, s.nPages ≤ p ↔ role p = .fresh
  emptyNodup : s.emptyPages.Nodup

section
variable {s s' : RowHeap α T} {role : Nat → Role T} {t : Fin T} {page : Nat}

theorem Roles.of_held {start : Nat} (roles : Roles s role) (held : s.Held page start) :
    role page = .full ∨ (∃ u, role page = .active u) ∨ ∃ u, role page = .collecting u := by
  rcases held with ⟨_, inFull | ⟨u, active⟩⟩ | ⟨u, phase⟩
  · exact .inl ((roles.full page).mp inFull)
  · exact .inr (.inl ⟨u, (roles.active u page).mp active⟩)
  · exact .inr (.inr ⟨u, (roles.collecting u page).mp ⟨start, phase⟩⟩)

theorem Roles.congr (roles : Roles s role) (pages : s'.pages.followed = s.pages.followed)
    (emptyPages : s'.emptyPages = s.emptyPages) (nPages : s'.nPages = s.nPages)
    (activePage : s'.activePage = s.activePage) (starved : s'.starved = s.starved) (phase : s'.phase = s.phase) :
    Roles s' role := by
  constructor
  case full => rw [pages]; exact roles.full
  case active => rw [starved, activePage]; exact roles.active
  case collecting => rw [phase]; exact roles.collecting
  case empty => rw [emptyPages]; exact roles.empty
  case fresh => rw [nPages]; exact roles.fresh
  case emptyNodup => rw [emptyPages]; exact roles.emptyNodup

end

namespace RowHeap

variable [HeapCell α]

def Laid (s : RowHeap α T) : Prop :=
  ∀ page start, s.Held page start → s.ptr page ≤ pageDataSize ∧
    ∃ offs, RecordWalk (s.next page) start offs (s.ptr page)

structure Invariant (s : RowHeap α T) : Prop where
  listed : s.pages.Listed
  roles : ∃ role, Roles s role
  laid : s.Laid

theorem next_grows (s : RowHeap α T) (page b : Nat) : b < s.next page b := by
  unfold next
  omega

variable {s s' : RowHeap α T} {role : Nat → Role T} {t : Fin T} {page : Nat} {p q : Pointer}

structure SameRows (s s' : RowHeap α T) : Prop where
  live : ∀ p, s'.Live p ↔ s.Live p
  row : ∀ p, s.Live p → s'.row p = s.row p
  rows : s'.rows = s.rows

theorem SameRows.trans {s'' : RowHeap α T} (first : SameRows s s') (second : SameRows s' s'') : SameRows s s'' where
  live p := (second.live p).trans (first.live p)
  row p live := (second.row p ((first.live p).mpr live)).trans (first.row p live)
  rows := second.rows.trans first.rows

theorem sameRows_of_held (data : s'.data = s.data) (rows : s'.rows = s.rows)
    (kept : ∀ page start, s.Held page start → s'.ptr page = s.ptr page)
    (held : ∀ page start, s.Held page start → s'.Held page start)
    (new : ∀ page start, s'.Held page start → s.Held page start ∨ s'.ptr page = 0 ∧ start = 0) :
    SameRows s s' := by
  have next (page : Nat) : s'.next page = s.next page := by
    unfold RowHeap.next size
    rw [data]
  have number (p : Pointer) : s'.number p = s.number p := by
    unfold RowHeap.number
    rw [data]
  refine ⟨fun p => ?_, fun p _ => ?_, rows⟩
  · unfold Live
    rw [number, next]
    constructor
    · rintro ⟨alive, start, offs, inUse, walk, inside⟩
      rcases new p.1 start inUse with before | ⟨empty, rfl⟩
      · exact ⟨alive, start, offs, before, kept _ _ before ▸ walk, inside⟩
      · rw [empty] at walk
        rw [walk.eq_nil (s.next_grows p.1)] at inside
        cases inside
    · rintro ⟨alive, start, offs, inUse, walk, inside⟩
      exact ⟨alive, start, offs, held p.1 start inUse, (kept _ _ inUse).symm ▸ walk, inside⟩
  · unfold RowHeap.row size
    rw [number, data]

theorem Laid.of_held (laid : s.Laid) (data : s'.data = s.data)
    (held : ∀ page start, s'.Held page start →
      s.Held page start ∧ s'.ptr page = s.ptr page ∨ s'.ptr page = 0 ∧ start = 0) : s'.Laid := by
  intro page start inUse
  have next : s'.next page = s.next page := by
    unfold RowHeap.next size
    rw [data]
  rw [next]
  rcases held page start inUse with ⟨before, ptr⟩ | ⟨ptr, rfl⟩
  · rw [ptr]
    exact laid page start before
  · rw [ptr]
    exact ⟨by unfold pageDataSize; omega, [], .nil 0⟩

/-! ## The two halves of a change of the active page -/

theorem Invariant.releaseActive (inv : s.Invariant) (fed : s.starved t = false) :
    ∃ pages, s.pages.heapReleasePage (s.activePage t) = some pages ∧
      s.releaseActive t = some { s with pages := pages, starved := Function.update s.starved t true } ∧
      pages.followed.Perm (s.activePage t :: s.pages.followed) ∧
      pages.generation = s.pages.generation ∧ pages.currentGeneration = s.pages.currentGeneration ∧
      Invariant { s with pages := pages, starved := Function.update s.starved t true } ∧
      SameRows s { s with pages := pages, starved := Function.update s.starved t true } := by
  obtain ⟨role, roles⟩ := inv.roles
  have own : role (s.activePage t) = .active t := (roles.active t _).mp ⟨fed, rfl⟩
  have fresh : s.activePage t ∉ s.pages.followed := by
    rw [roles.full, own]
    simp
  obtain ⟨pages, released, listed, perm, generation, current⟩ := inv.listed.release fresh
  have member (p : Nat) : p ∈ pages.followed ↔ p = s.activePage t ∨ p ∈ s.pages.followed := by
    rw [perm.mem_iff, List.mem_cons]
  have held (page start : Nat) :
      Held { s with pages := pages, starved := Function.update s.starved t true } page start ↔
        s.Held page start := by
    unfold Held
    grind
  refine ⟨pages, released, ?_, perm, generation, current, ⟨listed, ?_, ?_⟩, ?_⟩
  · simp [RowHeap.releaseActive, released]
  · refine ⟨Function.update role (s.activePage t) .full, ?_⟩
    constructor
    case full => intro p; grind [roles.full p]
    case active => intro u p; grind [roles.active u p, roles.active t p]
    case collecting => intro u p; grind [roles.collecting u p]
    case empty => intro p; grind [roles.empty p]
    case fresh => intro p; grind [roles.fresh p]
    case emptyNodup => exact roles.emptyNodup
  · exact inv.laid.of_held rfl fun page start inUse => .inl ⟨(held page start).mp inUse, rfl⟩
  · exact sameRows_of_held rfl rfl (fun _ _ _ => rfl) (fun page start => (held page start).mpr)
      fun page start inUse => .inl ((held page start).mp inUse)

omit [HeapCell α] in
theorem heapGetFreePage_eq (s : RowHeap α T) : ∃ q empties n,
    s.heapGetFreePage = (q, { s with
      emptyPages := empties, nPages := n, ptr := Function.update s.ptr q 0, pages := s.pages.renew q }) ∧
    (s.emptyPages = q :: empties ∧ n = s.nPages ∨
      s.emptyPages = [] ∧ empties = [] ∧ q = s.nPages ∧ n = s.nPages + 1) := by
  unfold heapGetFreePage
  cases empties : s.emptyPages with
  | nil => exact ⟨s.nPages, [], s.nPages + 1, by simp, .inr ⟨rfl, rfl, rfl, rfl⟩⟩
  | cons q rest => exact ⟨q, rest, s.nPages, by simp, .inl ⟨rfl, rfl⟩⟩

theorem Invariant.renewActive (inv : s.Invariant) (starved : s.starved t = true) :
    ∃ q, (s.renewActive t).activePage = Function.update s.activePage t q ∧
      (s.renewActive t).starved = Function.update s.starved t false ∧
      (s.renewActive t).ptr = Function.update s.ptr q 0 ∧
      (s.renewActive t).pages = s.pages.renew q ∧ (s.renewActive t).phase = s.phase ∧
      (s.renewActive t).data = s.data ∧
      (∀ start, ¬ s.Held q start) ∧
      (s.renewActive t).Invariant ∧ SameRows s (s.renewActive t) := by
  obtain ⟨role, roles⟩ := inv.roles
  obtain ⟨q, empties, n, got, kind⟩ := s.heapGetFreePage_eq
  have idle : role q = .empty ∨ role q = .fresh := by
    rcases kind with ⟨empty, _⟩ | ⟨_, _, rfl, _⟩
    · exact .inl ((roles.empty q).mp (by simp [empty]))
    · exact .inr ((roles.fresh _).mp le_rfl)
  have unheld (start : Nat) : ¬ s.Held q start := by
    intro inUse
    have := roles.of_held inUse
    grind
  have eq : s.renewActive t = { s with
      emptyPages := empties, nPages := n, ptr := Function.update s.ptr q 0, pages := s.pages.renew q,
      activePage := Function.update s.activePage t q, starved := Function.update s.starved t false } := by
    simp only [RowHeap.renewActive, got]
  have active (p : Nat) : (∃ u, Function.update s.starved t false u = false ∧
      Function.update s.activePage t q u = p) ↔ p = q ∨ ∃ u, s.starved u = false ∧ s.activePage u = p := by
    constructor
    · rintro ⟨u, fed, own⟩
      by_cases same : u = t
      · subst same
        rw [Function.update_self] at own
        exact .inl own.symm
      · rw [Function.update_of_ne same] at fed own
        exact .inr ⟨u, fed, own⟩
    · rintro (rfl | ⟨u, fed, own⟩)
      · exact ⟨t, Function.update_self .., Function.update_self ..⟩
      · have other : u ≠ t := by
          rintro rfl
          rw [starved] at fed
          cases fed
        exact ⟨u, by rwa [Function.update_of_ne other], by rwa [Function.update_of_ne other]⟩
  have held (page start : Nat) :
      (s.renewActive t).Held page start ↔ s.Held page start ∨ page = q ∧ start = 0 := by
    rw [eq]
    unfold Held
    simp only [FullPages.renew_followed, active]
    grind
  refine ⟨q, by rw [eq], by rw [eq], by rw [eq], by rw [eq], by rw [eq], by rw [eq], unheld, ⟨?_, ?_, ?_⟩, ?_⟩
  · rw [eq]
    exact inv.listed.renew
  · refine ⟨Function.update role q (.active t), ?_⟩
    rw [eq]
    constructor
    case full => intro p; simp only [FullPages.renew_followed]; grind [roles.full p]
    case active => intro u p; grind [roles.active u p, roles.active t p]
    case collecting => intro u p; grind [roles.collecting u p]
    case empty => intro p; grind [roles.empty p, roles.emptyNodup, List.nodup_cons]
    case fresh => intro p; grind [roles.fresh p, roles.empty q, roles.fresh q]
    case emptyNodup => grind [roles.emptyNodup, List.nodup_cons]
  · apply inv.laid.of_held (by rw [eq])
    intro page start inUse
    rw [eq]
    rcases (held page start).mp inUse with before | ⟨rfl, rfl⟩
    · left
      refine ⟨before, Function.update_of_ne ?_ _ _⟩
      rintro rfl
      exact unheld start before
    · exact .inr ⟨Function.update_self .., rfl⟩
  · apply sameRows_of_held (by rw [eq]) (by rw [eq])
    · intro page start before
      rw [eq]
      apply Function.update_of_ne
      rintro rfl
      exact unheld start before
    · exact fun page start before => (held page start).mpr (.inl before)
    · intro page start inUse
      rcases (held page start).mp inUse with before | ⟨rfl, rfl⟩
      · exact .inl before
      · rw [eq]
        exact .inr ⟨Function.update_self .., rfl⟩

/-! ## A row after the others of the active page -/

structure Appended (s s' : RowHeap α T) (t : Fin T) (n : Nat) : Prop where
  ptr : s'.ptr = Function.update s.ptr (s.activePage t) (s.ptr (s.activePage t) + n + 2)
  other : ∀ page k, page ≠ s.activePage t → s'.data page k = s.data page k
  below : ∀ k < s.ptr (s.activePage t), s'.data (s.activePage t) k = s.data (s.activePage t) k
  size : s'.size (s.activePage t, s.ptr (s.activePage t)) = n
  pages : s'.pages = s.pages
  emptyPages : s'.emptyPages = s.emptyPages
  nPages : s'.nPages = s.nPages
  activePage : s'.activePage = s.activePage
  starved : s'.starved = s.starved
  phase : s'.phase = s.phase

def top (s : RowHeap α T) (t : Fin T) : Pointer := (s.activePage t, s.ptr (s.activePage t))

theorem Appended.held {n start : Nat} (appended : Appended s s' t n) : s'.Held page start ↔ s.Held page start := by
  unfold Held
  rw [appended.pages, appended.starved, appended.activePage, appended.phase]

section
variable {n : Nat} (appended : Appended s s' t n)
include appended

theorem Appended.data_row {p : Pointer} (below : p.1 = s.activePage t → p.2 + s.size p + 2 ≤ s.ptr p.1) (k : Nat)
    (inside : k < s.size p + 2) : s'.data p.1 (p.2 + k) = s.data p.1 (p.2 + k) := by
  by_cases own : p.1 = s.activePage t
  · have le := below own
    rw [own] at le ⊢
    exact appended.below _ (by omega)
  · exact appended.other _ _ own

theorem Appended.next_eq {b : Nat} (below : page = s.activePage t → s.next page b ≤ s.ptr page) :
    s'.next page b = s.next page b := by
  have same := appended.data_row (p := (page, b)) (fun own => below own) 1 (by omega)
  exact congrArg (fun x => b + rowCell x + 2) same

theorem Appended.walk {offs : List Nat} {start : Nat} (walk : RecordWalk (s.next page) start offs (s.ptr page)) :
    RecordWalk (s'.next page) start offs (s.ptr page) :=
  walk.frame fun _ inside => appended.next_eq fun _ => (walk.bounds (s.next_grows page) inside).2

theorem Appended.walk_new {offs : List Nat} {start : Nat}
    (walk : RecordWalk (s.next page) start offs (s.ptr page)) :
    RecordWalk (s'.next page) start (if page = s.activePage t then offs ++ [s.ptr page] else offs) (s'.ptr page) := by
  have before := appended.walk walk
  by_cases own : page = s.activePage t
  · subst own
    rw [if_pos rfl, appended.ptr, Function.update_self]
    have last : s'.next (s.activePage t) (s.ptr (s.activePage t)) = s.ptr (s.activePage t) + n + 2 := by
      unfold next
      rw [appended.size]
    rw [← last]
    exact before.concat
  · rw [if_neg own, appended.ptr, Function.update_of_ne own]
    exact before

theorem Appended.invariant (inv : s.Invariant) (fits : s.ptr (s.activePage t) + n + 2 ≤ pageDataSize) :
    s'.Invariant := by
  obtain ⟨role, roles⟩ := inv.roles
  refine ⟨?_, ⟨role, ?_⟩, fun page start held => ?_⟩
  · rw [appended.pages]
    exact inv.listed
  · exact roles.congr (by rw [appended.pages]) appended.emptyPages appended.nPages appended.activePage
      appended.starved appended.phase
  · rw [appended.held] at held
    obtain ⟨bound, offs, walk⟩ := inv.laid page start held
    refine ⟨?_, _, appended.walk_new walk⟩
    rw [appended.ptr]
    by_cases own : page = s.activePage t
    · rw [own, Function.update_self]
      exact fits
    · rw [Function.update_of_ne own]
      exact bound

theorem Appended.row_eq {p : Pointer} (live : s.Live p) : s'.row p = s.row p := by
  obtain ⟨_, start, offs, _, walk, inside⟩ := live
  have below := (walk.bounds (s.next_grows p.1) inside).2
  have cell := appended.data_row (p := p) fun _ => below
  have size : s'.size p = s.size p := congrArg rowCell (cell 1 (by omega))
  have number : s'.number p = s.number p := congrArg rowCell (cell 0 (by omega))
  unfold row
  rw [number, size]
  refine Prod.ext rfl (List.map_congr_left fun k inside => ?_)
  have := List.mem_range.mp inside
  have same := cell (2 + k) (by omega)
  rwa [← Nat.add_assoc] at same

theorem Appended.live_iff (inv : s.Invariant) (fed : s.starved t = false) {p : Pointer} :
    s'.Live p ↔ s.Live p ∨ p = s.top t ∧ s'.number p ≠ deletedNumber := by
  obtain ⟨role, roles⟩ := inv.roles
  constructor
  · rintro ⟨alive, start, offs', held, walk', inside⟩
    rw [appended.held] at held
    obtain ⟨_, offs, walk⟩ := inv.laid p.1 start held
    rw [walk'.unique (s'.next_grows p.1) (appended.walk_new walk)] at inside
    have old (before : p.2 ∈ offs) : s.Live p := by
      refine ⟨?_, start, offs, held, walk, before⟩
      have below := (walk.bounds (s.next_grows p.1) before).2
      have same := appended.data_row (p := p) (fun _ => below) 0 (by omega)
      intro dead
      exact alive ((congrArg rowCell same).trans dead)
    by_cases own : p.1 = s.activePage t
    · rw [if_pos own] at inside
      rcases List.mem_append.mp inside with before | last
      · exact .inl (old before)
      · right
        refine ⟨Prod.ext own ?_, alive⟩
        rw [List.mem_singleton.mp last, own]
        rfl
    · rw [if_neg own] at inside
      exact .inl (old inside)
  · rintro (live | ⟨rfl, alive⟩)
    · have number : s'.number p = s.number p := congrArg Prod.fst (appended.row_eq live)
      obtain ⟨alive, start, offs, held, walk, inside⟩ := live
      refine ⟨number ▸ alive, start, _, appended.held.mpr held, appended.walk_new walk, ?_⟩
      split
      · exact List.mem_append_left _ inside
      · exact inside
    · have held : s.Held (s.activePage t) 0 := .inl ⟨rfl, .inr ⟨t, fed, rfl⟩⟩
      obtain ⟨_, offs, walk⟩ := inv.laid _ _ held
      refine ⟨alive, 0, _, appended.held.mpr held, appended.walk_new walk, ?_⟩
      rw [if_pos (show (s.top t).1 = s.activePage t from rfl)]
      exact List.mem_append_right _ (List.mem_singleton.mpr rfl)

end

theorem top_not_live (s : RowHeap α T) (t : Fin T) : ¬ s.Live (s.top t) := by
  rintro ⟨_, start, offs, _, walk, inside⟩
  have below := (walk.bounds (s.next_grows _) inside).2
  have := s.next_grows (s.activePage t) (s.ptr (s.activePage t))
  change s.next (s.activePage t) (s.ptr (s.activePage t)) ≤ s.ptr (s.activePage t) at below
  omega

end RowHeap
end CadoNfs.Filter.Heap
