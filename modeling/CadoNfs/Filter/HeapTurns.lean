import CadoNfs.Filter.HeapCollection

/-!
# `heap_garbage_collection` ends

Each turn of a thread takes up some work.
-/

namespace CadoNfs.Filter.Heap
open Lib Typerow HeapCell

variable {α : Type} {T : Nat} [HeapCell α]

namespace RowHeap

variable {s s' : RowHeap α T} {t u : Fin T} {page bot : Nat}

inductive Turn (s : RowHeap α T) (t : Fin T) : RowHeap α T → Prop
  | leave {pages : FullPages} : s.phase t = .searching → s.pages.heapGetFullPage = (none, pages) →
      Turn s t (setPhase { s with pages := pages } t .out)
  | found {pages : FullPages} {page : Nat} : s.phase t = .searching →
      s.pages.heapGetFullPage = (some page, pages) →
      Turn s t (setPhase { s with pages := pages } t (.collecting page 0))
  | skip {page bot : Nat} : s.phase t = .collecting page bot → bot < s.ptr page →
      s.number (page, bot) = deletedNumber → Turn s t (s.advance t (page, bot) (s.size (page, bot)))
  | copyNew {page bot : Nat} : s.phase t = .collecting page bot → bot < s.ptr page →
      s.number (page, bot) ≠ deletedNumber → s.starved t = true →
      Turn s t (((s.renewActive t).copyRow t (page, bot)).advance t (page, bot) (s.size (page, bot)))
  | copy {page bot : Nat} : s.phase t = .collecting page bot → bot < s.ptr page →
      s.number (page, bot) ≠ deletedNumber → s.starved t = false → s.room t (s.size (page, bot) + 2) = true →
      Turn s t ((s.copyRow t (page, bot)).advance t (page, bot) (s.size (page, bot)))
  | release {page bot : Nat} {s' : RowHeap α T} : s.phase t = .collecting page bot → bot < s.ptr page →
      s.number (page, bot) ≠ deletedNumber → s.starved t = false → s.releaseActive t = some s' → Turn s t s'
  | clear {page bot : Nat} : s.phase t = .collecting page bot → ¬ bot < s.ptr page →
      Turn s t ((s.heapClearPage page).setPhase t .searching)

theorem collectStep_turn (step : s.collectStep t = some s') : Turn s t s' := by
  unfold collectStep at step
  cases here : s.phase t with
  | out => simp [here] at step
  | searching =>
    cases got : s.pages.heapGetFullPage with
    | mk found pages =>
      cases found with
      | none =>
        simp only [here, got, Option.some.injEq] at step
        exact step ▸ .leave here got
      | some page =>
        simp only [here, got, Option.some.injEq] at step
        exact step ▸ .found here got
  | collecting page bot =>
    simp only [here] at step
    split_ifs at step with more dead starved room
    · exact Option.some.inj step ▸ .skip here more dead
    · exact Option.some.inj step ▸ .copyNew here more dead starved
    · exact Option.some.inj step ▸ .copy here more dead (by simpa using starved) room
    · exact .release here more dead (by simpa using starved) step
    · exact Option.some.inj step ▸ .clear here more

theorem collectStep_isSome (inv : s.Invariant) (inside : s.phase t ≠ .out) : (s.collectStep t).isSome := by
  unfold collectStep
  cases here : s.phase t with
  | out => exact absurd here inside
  | searching =>
    cases got : s.pages.heapGetFullPage with
    | mk found pages => cases found <;> simp
  | collecting page bot =>
    simp only
    split_ifs with more dead starved room
    · rfl
    · rfl
    · rfl
    · obtain ⟨_, _, released, _⟩ := inv.releaseActive (t := t) (by simpa using starved)
      rw [released]
      rfl
    · rfl

omit [HeapCell α] in
theorem room_fits {n : Nat} (room : s.room t (n + 2) = true) : s.ptr (s.activePage t) + n + 2 ≤ pageDataSize := by
  simp only [RowHeap.room, Bool.not_eq_true', decide_eq_false_iff_not] at room
  omega

/-! ## What a turn does to the rows -/

theorem collecting_bounds (inv : s.Invariant) (here : s.phase t = .collecting page bot) (more : bot < s.ptr page) :
    bot + s.size (page, bot) + 2 ≤ s.ptr page ∧ s.ptr page ≤ pageDataSize := by
  obtain ⟨bound, offs, walk⟩ := inv.laid page bot (.inr ⟨t, here⟩)
  obtain ⟨rest, _, walk', _⟩ := walk.uncons (s.next_grows page) more
  exact ⟨walk'.le (s.next_grows page), bound⟩

theorem renewed_facts (inv : s.Invariant) (starved : s.starved t = true) (here : s.phase t = .collecting page bot) :
    (s.renewActive t).ptr page = s.ptr page ∧ (s.renewActive t).size (page, bot) = s.size (page, bot) ∧
      (s.renewActive t).number (page, bot) = s.number (page, bot) ∧
      (s.renewActive t).ptr ((s.renewActive t).activePage t) = 0 := by
  obtain ⟨q, activePage, _, ptr, _, _, data, unheld, _⟩ := inv.renewActive starved
  have other : page ≠ q := by
    rintro rfl
    exact unheld bot (.inr ⟨t, here⟩)
  refine ⟨?_, ?_, ?_, ?_⟩
  · rw [ptr, Function.update_of_ne other]
  · exact congrArg (fun d => rowCell (d page (bot + 1))) data
  · exact congrArg (fun d => rowCell (d page bot)) data
  · rw [ptr, activePage, Function.update_self, Function.update_self]

theorem Turn.spec (turn : Turn s t s') (inv : s.Invariant) : s'.Invariant ∧ ∃ move, Moves s s' move := by
  cases turn with
  | leave here got =>
    rcases inv.listed.get with same | ⟨_, _, found, _⟩
    · rw [got] at same
      cases same
      have idle (u : Fin T) (page bot : Nat) : Function.update s.phase t .out u = .collecting page bot ↔
          s.phase u = .collecting page bot := setPhase_phase (by simp [here]) (by simp) u
      obtain ⟨inv', same⟩ := phase_spec inv inv.listed rfl idle
      exact ⟨inv', id, same.moves⟩
    · rw [got] at found
      cases found
  | found here got =>
    rcases inv.listed.get with same | ⟨_, _, found, listed, followed, _⟩
    · rw [got] at same
      cases same
    · rw [got] at found
      cases found
      obtain ⟨inv', same⟩ := found_spec inv here listed followed
      exact ⟨inv', id, same.moves⟩
  | @skip page bot here more dead =>
    obtain ⟨inv', live⟩ := advance_spec inv here more
    have same : SameRows s (s.advance t (page, bot) (s.size (page, bot))) := by
      refine ⟨fun p => ?_, fun _ _ => rfl, rfl⟩
      rw [live]
      constructor
      · exact And.left
      · intro alive
        refine ⟨alive, ?_⟩
        rintro rfl
        exact alive.1 dead
    exact ⟨inv', id, same.moves⟩
  | copyNew here more alive starved =>
    obtain ⟨q, _, fed, _, _, phase, _, _, inv', same⟩ := inv.renewActive starved
    obtain ⟨ptr, size, number, empty⟩ := renewed_facts inv starved here
    obtain ⟨inside, bound⟩ := collecting_bounds inv here more
    have fits := copy_moves inv' (phase ▸ here) (ptr ▸ more) (by rw [fed, Function.update_self])
      (number ▸ alive) (by rw [empty, size]; omega)
    rw [size] at fits
    exact ⟨fits.1, _, same.moves.trans fits.2⟩
  | copy here more alive fed room =>
    obtain ⟨inv', moves⟩ := copy_moves inv here more fed alive (room_fits room)
    exact ⟨inv', _, moves⟩
  | release here more alive fed released =>
    obtain ⟨_, _, eq, _, _, _, inv', same⟩ := inv.releaseActive fed
    rw [released] at eq
    cases eq
    exact ⟨inv', id, same.moves⟩
  | clear here none =>
    obtain ⟨inv', same⟩ := clear_spec inv here none
    exact ⟨inv', id, same.moves⟩

/-! ## What a turn does to the other threads -/

def Starving (s : RowHeap α T) : Prop :=
  ∀ t, s.starved t = true → ∃ page bot, s.phase t = .collecting page bot ∧ bot < s.ptr page ∧
    s.number (page, bot) ≠ deletedNumber

structure Unseen (s s' : RowHeap α T) (u : Fin T) : Prop where
  phase : s'.phase u = s.phase u
  starved : s'.starved u = s.starved u
  activePage : s'.activePage u = s.activePage u
  ptr : ∀ page bot, s.phase u = .collecting page bot → s'.ptr page = s.ptr page
  number : ∀ page bot, s.phase u = .collecting page bot → s'.number (page, bot) = s.number (page, bot)
  generation : s.starved u = false → s'.pages.generation (s.activePage u) = s.pages.generation (s.activePage u)
  currentGeneration : s'.pages.currentGeneration = s.pages.currentGeneration

theorem Unseen.trans {s'' : RowHeap α T} (first : Unseen s s' u) (second : Unseen s' s'' u) : Unseen s s'' u where
  phase := second.phase.trans first.phase
  starved := second.starved.trans first.starved
  activePage := second.activePage.trans first.activePage
  ptr page bot here := (second.ptr page bot (first.phase.trans here)).trans (first.ptr page bot here)
  number page bot here := (second.number page bot (first.phase.trans here)).trans (first.number page bot here)
  generation fed := by
    rw [← first.activePage, second.generation (first.starved.trans fed), first.activePage, first.generation fed]
  currentGeneration := second.currentGeneration.trans first.currentGeneration

theorem setPhase_unseen (other : u ≠ t) (phase : Phase) : Unseen s (s.setPhase t phase) u := by
  refine ⟨?_, rfl, rfl, fun _ _ _ => rfl, fun _ _ _ => rfl, fun _ => rfl, rfl⟩
  exact Function.update_of_ne other _ _

theorem copyRow_unseen (inv : s.Invariant) (fed : s.starved t = false) (here : s.phase t = .collecting page bot) :
    Unseen s (s.copyRow t (page, bot)) u := by
  obtain ⟨role, roles⟩ := inv.roles
  have apart {v : Fin T} {page bot : Nat} (here : s.phase v = .collecting page bot) : page ≠ s.activePage t := by
    intro same
    have active := (roles.active t _).mp ⟨fed, rfl⟩
    have collecting := (roles.collecting v page).mp ⟨bot, here⟩
    rw [same, active] at collecting
    cases collecting
  have appended := copyRow_appended t (page, bot) (apart here)
  refine ⟨rfl, rfl, rfl, fun page bot here => ?_, fun page bot here => ?_, fun _ => rfl, rfl⟩
  · rw [appended.ptr, Function.update_of_ne (apart here)]
  · exact congrArg rowCell (appended.other page bot (apart here))

theorem renewActive_unseen (inv : s.Invariant) (starved : s.starved t = true) (other : u ≠ t) :
    Unseen s (s.renewActive t) u := by
  obtain ⟨q, activePage, fed, ptr, pages, phase, data, unheld, _⟩ := inv.renewActive starved
  constructor
  case phase => rw [phase]
  case starved => rw [fed, Function.update_of_ne other]
  case activePage => rw [activePage, Function.update_of_ne other]
  case ptr =>
    intro page bot here
    rw [ptr, Function.update_of_ne]
    rintro rfl
    exact unheld bot (.inr ⟨u, here⟩)
  case number => exact fun page bot _ => congrArg (fun d => rowCell (d page bot)) data
  case generation =>
    intro fed
    rw [pages]
    apply Function.update_of_ne
    rintro rfl
    exact unheld 0 (.inl ⟨rfl, .inr ⟨u, fed, rfl⟩⟩)
  case currentGeneration => rw [pages]; rfl

theorem Turn.unseen (turn : Turn s t s') (inv : s.Invariant) (other : u ≠ t) : Unseen s s' u := by
  cases turn with
  | @leave pages here got | @found pages _ here got =>
    have pages' := s.pages.get_generation
    rw [got] at pages'
    refine ⟨Function.update_of_ne other _ _, rfl, rfl, fun _ _ _ => rfl, fun _ _ _ => rfl, fun _ => ?_, pages'.2⟩
    exact congrFun pages'.1 _
  | skip here more dead => exact setPhase_unseen other _
  | copyNew here more alive starved =>
    obtain ⟨q, _, fed, _, _, phase, _, _, inv', _⟩ := inv.renewActive starved
    have renewed := renewActive_unseen inv starved other
    have copied := copyRow_unseen (u := u) inv' (by rw [fed, Function.update_self]) (phase ▸ here)
    exact (renewed.trans copied).trans (setPhase_unseen other _)
  | copy here more alive fed room => exact (copyRow_unseen inv fed here).trans (setPhase_unseen other _)
  | release here more alive fed released =>
    obtain ⟨_, _, eq, _, generation, current, _⟩ := inv.releaseActive fed
    rw [released] at eq
    cases eq
    refine ⟨rfl, Function.update_of_ne other _ _, rfl, fun _ _ _ => rfl, fun _ _ _ => rfl, fun _ => ?_, current⟩
    exact congrFun generation _
  | @clear page _ here none =>
    have cleared : Unseen s (s.heapClearPage page) u :=
      ⟨rfl, rfl, rfl, fun _ _ _ => rfl, fun _ _ _ => rfl, fun _ => rfl, rfl⟩
    exact cleared.trans (setPhase_unseen other _)

theorem Turn.starving (turn : Turn s t s') (inv : s.Invariant) (starving : s.Starving) : s'.Starving := by
  intro u starved
  by_cases own : u = t
  · subst own
    cases turn with
    | leave here _ | found here _ =>
      obtain ⟨page, bot, collecting, _⟩ := starving u starved
      rw [here] at collecting
      cases collecting
    | skip here _ dead =>
      obtain ⟨page, bot, collecting, _, alive⟩ := starving u starved
      rw [here] at collecting
      cases collecting
      exact absurd dead alive
    | copyNew here more alive before =>
      obtain ⟨_, _, fed, _⟩ := inv.renewActive before
      change (s.renewActive u).starved u = true at starved
      rw [fed, Function.update_self] at starved
      cases starved
    | copy here more alive fed room =>
      change s.starved u = true at starved
      rw [fed] at starved
      cases starved
    | release here more alive fed released =>
      obtain ⟨_, _, eq, _⟩ := inv.releaseActive fed
      rw [released] at eq
      cases eq
      exact ⟨_, _, here, more, alive⟩
    | clear here none =>
      obtain ⟨page, bot, collecting, more, _⟩ := starving u starved
      rw [here] at collecting
      cases collecting
      exact absurd more none
  · have unseen := turn.unseen inv own
    rw [unseen.starved] at starved
    obtain ⟨page, bot, here, more, alive⟩ := starving u starved
    exact ⟨page, bot, unseen.phase.trans here, (unseen.ptr page bot here).symm ▸ more,
      (unseen.number page bot here).symm ▸ alive⟩

/-! ## The work that is left -/

def old (s : RowHeap α T) (page : Nat) : Bool := decide (s.pages.generation page < s.pages.currentGeneration)

def pageWork : Nat := 2 * pageDataSize + 4

def activeWork (s : RowHeap α T) (u : Fin T) : Nat :=
  if s.starved u = false ∧ s.old (s.activePage u) then pageWork else 0

def phaseWork (s : RowHeap α T) (u : Fin T) : Nat :=
  match s.phase u with
  | .out => 0
  | .searching => 1
  | .collecting page bot => 2 + 2 * (s.ptr page - bot) + if s.starved u then 0 else 1

def oldPages (s : RowHeap α T) : Nat := s.pages.followed.countP s.old

def work (s : RowHeap α T) : Nat := pageWork * s.oldPages + ∑ u, (s.activeWork u + s.phaseWork u)

omit [HeapCell α] in
theorem phaseWork_collecting (here : s.phase u = .collecting page bot) :
    s.phaseWork u = 2 + 2 * (s.ptr page - bot) + if s.starved u then 0 else 1 := by
  simp only [phaseWork, here]

theorem Unseen.work (unseen : Unseen s s' u) : s'.activeWork u + s'.phaseWork u = s.activeWork u + s.phaseWork u := by
  have active : s'.activeWork u = s.activeWork u := by
    unfold activeWork old
    rw [unseen.starved, unseen.activePage, unseen.currentGeneration]
    by_cases fed : s.starved u = false
    · rw [unseen.generation fed]
    · simp [fed]
  rw [active]
  cases here : s.phase u with
  | out | searching => simp only [phaseWork, unseen.phase, here]
  | collecting page bot =>
    rw [phaseWork_collecting here, phaseWork_collecting (unseen.phase.trans here), unseen.ptr page bot here,
      unseen.starved]

theorem work_lt (others : ∀ u, u ≠ t → Unseen s s' u)
    (own : pageWork * s'.oldPages + (s'.activeWork t + s'.phaseWork t) <
      pageWork * s.oldPages + (s.activeWork t + s.phaseWork t)) : s'.work < s.work := by
  have rest : ∑ u ∈ Finset.univ.erase t, (s'.activeWork u + s'.phaseWork u) =
      ∑ u ∈ Finset.univ.erase t, (s.activeWork u + s.phaseWork u) :=
    Finset.sum_congr rfl fun u inside => (others u (Finset.ne_of_mem_erase inside)).work
  unfold work
  rw [← Finset.add_sum_erase _ _ (Finset.mem_univ t), ← Finset.add_sum_erase _ _ (Finset.mem_univ t), rest]
  omega

theorem renewActive_work (inv : s.Invariant) (starved : s.starved t = true) :
    (s.renewActive t).oldPages = s.oldPages ∧ (s.renewActive t).activeWork t = 0 := by
  obtain ⟨q, activePage, fed, _, pages, _, _, unheld, _⟩ := inv.renewActive starved
  have generation (p : Nat) : (s.renewActive t).pages.generation p =
      if p = q then s.pages.currentGeneration else s.pages.generation p := by
    rw [pages]
    exact Function.update_apply ..
  have current : (s.renewActive t).pages.currentGeneration = s.pages.currentGeneration := by
    rw [pages]
    rfl
  constructor
  · unfold oldPages
    rw [pages, FullPages.renew_followed]
    apply List.countP_congr
    intro p inside
    have other : p ≠ q := by
      rintro rfl
      exact unheld 0 (.inl ⟨rfl, .inl inside⟩)
    unfold old
    rw [generation, current, if_neg other]
  · unfold activeWork old
    rw [activePage, Function.update_self, generation, current, if_pos rfl]
    simp

theorem releaseActive_work (inv : s.Invariant) (fed : s.starved t = false) (released : s.releaseActive t = some s') :
    pageWork * s'.oldPages + s'.activeWork t = pageWork * s.oldPages + s.activeWork t := by
  obtain ⟨pages, _, eq, perm, generation, current, _⟩ := inv.releaseActive fed
  rw [released] at eq
  cases eq
  have same (p : Nat) : old { s with pages := pages, starved := Function.update s.starved t true } p = s.old p := by
    unfold old
    rw [generation, current]
  have active : activeWork { s with pages := pages, starved := Function.update s.starved t true } t = 0 := by
    simp [activeWork]
  have pages' : oldPages { s with pages := pages, starved := Function.update s.starved t true } =
      s.oldPages + if s.old (s.activePage t) then 1 else 0 := by
    unfold oldPages
    rw [funext same, perm.countP_eq, List.countP_cons]
  rw [active, pages']
  unfold activeWork
  by_cases isOld : s.old (s.activePage t) = true
  · rw [if_pos isOld, if_pos ⟨fed, isOld⟩, Nat.mul_add, Nat.mul_one]
    rfl
  · rw [if_neg isOld, if_neg fun h => isOld h.2]
    rfl

theorem Turn.work_lt (turn : Turn s t s') (inv : s.Invariant) : s'.work < s.work := by
  apply RowHeap.work_lt fun u other => turn.unseen inv other
  cases turn with
  | @leave pages here got =>
    rcases inv.listed.get with same | ⟨_, _, found, _⟩
    · rw [got] at same
      cases same
      have before : s.phaseWork t = 1 := by simp only [phaseWork, here]
      have after : (s.setPhase t .out).phaseWork t = 0 := by simp [phaseWork, setPhase]
      change pageWork * s.oldPages + (s.activeWork t + (s.setPhase t .out).phaseWork t) < _
      omega
    · rw [got] at found
      cases found
  | @found pages page here got =>
    rcases inv.listed.get with same | ⟨_, _, found, _, followed, isOld, generation, current⟩
    · rw [got] at same
      cases same
    · rw [got] at found
      cases found
      have full : s.Held page 0 := .inl ⟨rfl, .inl (by simp [followed])⟩
      have bound := (inv.laid page 0 full).1
      have before : s.phaseWork t = 1 := by simp only [phaseWork, here]
      have after : (setPhase { s with pages := pages } t (.collecting page 0)).phaseWork t ≤
          2 * pageDataSize + 3 := by
        have begun : (setPhase { s with pages := pages } t (.collecting page 0)).phase t = .collecting page 0 :=
          Function.update_self ..
        rw [phaseWork_collecting begun]
        change 2 + 2 * s.ptr page + (if s.starved t = true then 0 else 1) ≤ _
        split <;> omega
      have same (p : Nat) : old { s with pages := pages } p = s.old p := by
        unfold old
        rw [generation, current]
      have active : activeWork { s with pages := pages } t = s.activeWork t := by
        unfold activeWork
        rw [same]
      have less : s.oldPages = oldPages { s with pages := pages } + 1 := by
        unfold oldPages
        rw [followed, List.countP_cons, funext same, if_pos]
        exact decide_eq_true isOld
      change pageWork * oldPages { s with pages := pages } + (activeWork { s with pages := pages } t + _) < _
      rw [active, less, before, Nat.mul_add, Nat.mul_one]
      unfold pageWork at *
      omega
  | @skip page bot here more dead =>
    have phase : (s.advance t (page, bot) (s.size (page, bot))).phaseWork t =
        2 + 2 * (s.ptr page - (bot + s.size (page, bot) + 2)) + if s.starved t then 0 else 1 :=
      phaseWork_collecting (Function.update_self ..)
    rw [phase, phaseWork_collecting here]
    change pageWork * s.oldPages + (s.activeWork t + _) < _
    omega
  | @copyNew page bot here more alive starved =>
    obtain ⟨q, _, fed, _, _, phase, _, _, inv', _⟩ := inv.renewActive starved
    obtain ⟨ptr, _, _, _⟩ := renewed_facts inv starved here
    obtain ⟨pages, active⟩ := renewActive_work inv starved
    have fed' : (s.renewActive t).starved t = false := by rw [fed, Function.update_self]
    have copied := (copyRow_unseen (u := t) inv' fed' (phase ▸ here)).ptr page bot (phase ▸ here)
    have after : (((s.renewActive t).copyRow t (page, bot)).advance t (page, bot) (s.size (page, bot))).phaseWork t =
        2 + 2 * (s.ptr page - (bot + s.size (page, bot) + 2)) + 1 := by
      rw [phaseWork_collecting (Function.update_self ..)]
      change 2 + 2 * (((s.renewActive t).copyRow t (page, bot)).ptr page - _) +
        (if (s.renewActive t).starved t = true then 0 else 1) = _
      rw [copied, ptr, fed']
      simp
    have inside := (collecting_bounds inv here more).1
    rw [after, phaseWork_collecting here, starved]
    change pageWork * (s.renewActive t).oldPages + ((s.renewActive t).activeWork t + _) < _
    rw [pages, active]
    simp only [if_true]
    omega
  | @copy page bot here more alive fed room =>
    have copied := (copyRow_unseen (u := t) inv fed here).ptr page bot here
    have after : ((s.copyRow t (page, bot)).advance t (page, bot) (s.size (page, bot))).phaseWork t =
        2 + 2 * (s.ptr page - (bot + s.size (page, bot) + 2)) + if s.starved t then 0 else 1 := by
      rw [phaseWork_collecting (Function.update_self ..)]
      change 2 + 2 * ((s.copyRow t (page, bot)).ptr page - _) + _ = _
      rw [copied]
      rfl
    rw [after, phaseWork_collecting here]
    change pageWork * s.oldPages + (s.activeWork t + _) < _
    omega
  | @release page bot s' here more alive fed released =>
    have balance := releaseActive_work inv fed released
    obtain ⟨_, _, eq, _⟩ := inv.releaseActive fed
    have starved : s'.starved t = true ∧ s'.phase t = s.phase t ∧ s'.ptr = s.ptr := by
      rw [released] at eq
      cases eq
      exact ⟨Function.update_self .., rfl, rfl⟩
    have phase : s'.phase t = .collecting page bot := starved.2.1.trans here
    rw [phaseWork_collecting here, phaseWork_collecting phase, fed, starved.1, starved.2.2]
    simp only [if_true, Bool.false_eq_true, if_false]
    omega
  | @clear page bot here none =>
    have after : ((s.heapClearPage page).setPhase t .searching).phaseWork t = 1 := by simp [phaseWork, setPhase]
    rw [after, phaseWork_collecting here]
    change pageWork * s.oldPages + (s.activeWork t + 1) < _
    omega

end RowHeap
end CadoNfs.Filter.Heap
