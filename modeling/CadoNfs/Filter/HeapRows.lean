import CadoNfs.Lib.CircularList
import CadoNfs.Lib.RecordWalk
import CadoNfs.Filter.MergeFillIn

/-!
# The full pages of `merge`

`filter/merge_heap.c` keeps the pages of rows that are full in a circular doubly linked list with a dummy
node, and a collection takes pages of old generations from its front.
-/

namespace CadoNfs.Filter.Heap
open Lib

/-- The nodes of the list are `headnode` and the items of the pages. -/
abbrev PageItem := Option Nat

structure FullPages where
  links : Links PageItem
  generation : Nat → Nat
  currentGeneration : Nat
  nFullPages : Nat

def heapSetup : FullPages := ⟨⟨fun _ => none, fun _ => none⟩, fun _ => 0, 0, 0⟩

namespace FullPages

def renew (s : FullPages) (page : Nat) : FullPages :=
  { s with generation := Function.update s.generation page s.currentGeneration }

def nextGeneration (s : FullPages) : FullPages := { s with currentGeneration := s.currentGeneration + 1 }

def heapGetFullPage (s : FullPages) : Option Nat × FullPages :=
  match s.links.next none with
  | none => (none, s)
  | some page =>
    if s.generation page < s.currentGeneration then
      (some page, { s with links := s.links.unlink (some page), nFullPages := s.nFullPages - 1 })
    else (none, s)

def releaseTarget (s : FullPages) (page : Nat) : Nat → PageItem → Option PageItem
  | 0, _ => none
  | _ + 1, none => some none
  | fuel + 1, some target =>
    if s.generation page < s.generation target then s.releaseTarget page fuel (s.links.prev (some target))
    else some (some target)

def heapReleasePage (s : FullPages) (page : Nat) : Option FullPages :=
  (s.releaseTarget page (s.nFullPages + 1) (s.links.prev none)).map fun target =>
    { s with links := s.links.insertBefore target (some page), nFullPages := s.nFullPages + 1 }

def followNext (k : Links PageItem) : Nat → PageItem → List Nat
  | 0, _ => []
  | _ + 1, none => []
  | n + 1, some page => page :: followNext k n (k.next (some page))

def followed (s : FullPages) : List Nat := followNext s.links s.nFullPages (s.links.next none)

def Sorted (s : FullPages) : Prop := s.followed.Pairwise fun p q => s.generation p ≤ s.generation q

def NullMeansNone (s : FullPages) : Prop :=
  s.heapGetFullPage.1 = none → ∀ q ∈ s.followed, ¬ s.generation q < s.currentGeneration

/-- The calls of `heap_release_page` that `place` allows, with everything else that happens to the pages. -/
inductive Reached (place : FullPages → Nat → Prop) : FullPages → Prop
  | setup : Reached place heapSetup
  | renew {s : FullPages} {page : Nat} : Reached place s → page ∉ s.followed → Reached place (s.renew page)
  | nextGeneration {s : FullPages} : Reached place s → Reached place s.nextGeneration
  | get {s : FullPages} : Reached place s → Reached place s.heapGetFullPage.2
  | release {s s' : FullPages} {page : Nat} : Reached place s → page ∉ s.followed → place s page →
      s.heapReleasePage page = some s' → Reached place s'

def Level (s : FullPages) (page : Nat) : Prop :=
  s.followed = [] ∨ ∃ q ∈ s.followed, s.generation q = s.generation page

structure Holds (s : FullPages) (l : List Nat) : Prop where
  circle : Circle s.links none (l.map some)
  length : s.nFullPages = l.length

theorem followNext_eq {k : Links PageItem} (l₁ : List Nat) {l₂ : List Nat}
    (circle : Circle k none ((l₁ ++ l₂).map some)) :
    followNext k l₂.length ((l₂.map some).headD none) = l₂ := by
  induction l₂ generalizing l₁ with
  | nil => rfl
  | cons p l₂ ih =>
    have next : k.next (some p) = (l₂.map some).headD none := by
      apply Circle.next_eq ((l₁ ++ [p]).map some) (by simpa using circle)
      rw [List.map_append, List.map_singleton, ← List.cons_append, List.getLast?_concat]
    have rest := ih (l₁ ++ [p]) (by simpa using circle)
    simp only [List.map_cons, List.headD_cons, List.length_cons, followNext, next, rest]

variable {s s' : FullPages} {l : List Nat} {page : Nat}

theorem Holds.followed_eq (holds : Holds s l) : s.followed = l := by
  unfold followed
  rw [holds.length, Circle.next_eq [] holds.circle (by simp)]
  exact followNext_eq [] holds.circle

theorem holds_setup : Holds heapSetup [] := ⟨⟨by simp [heapSetup, Links.Joined], by simp⟩, rfl⟩

theorem Holds.renew (holds : Holds s l) : Holds (s.renew page) l := ⟨holds.circle, holds.length⟩

theorem Holds.nextGeneration (holds : Holds s l) : Holds s.nextGeneration l := ⟨holds.circle, holds.length⟩

theorem Holds.get (holds : Holds s l) :
    (l = [] ∧ s.heapGetFullPage = (none, s)) ∨
    (∃ p rest, l = p :: rest ∧ ¬ s.generation p < s.currentGeneration ∧ s.heapGetFullPage = (none, s)) ∨
    (∃ p rest, l = p :: rest ∧ s.generation p < s.currentGeneration ∧ s.heapGetFullPage.1 = some p ∧
      Holds s.heapGetFullPage.2 rest ∧ s.heapGetFullPage.2.generation = s.generation ∧
      s.heapGetFullPage.2.currentGeneration = s.currentGeneration) := by
  have first : s.links.next none = (l.map some).headD none := Circle.next_eq [] holds.circle (by simp)
  cases l with
  | nil =>
    left
    simp only [List.map_nil, List.headD_nil] at first
    exact ⟨rfl, by simp [heapGetFullPage, first]⟩
  | cons p rest =>
    simp only [List.map_cons, List.headD_cons] at first
    by_cases old : s.generation p < s.currentGeneration
    · right; right
      have got : s.heapGetFullPage =
          (some p, { s with links := s.links.unlink (some p), nFullPages := s.nFullPages - 1 }) := by
        simp [heapGetFullPage, first, old]
      rw [got]
      refine ⟨p, rest, rfl, old, rfl, ⟨Circle.unlink [] holds.circle, ?_⟩, rfl, rfl⟩
      simp [holds.length]
    · right; left
      exact ⟨p, rest, rfl, old, by simp [heapGetFullPage, first, old]⟩

inductive Released (generation : Nat → Nat) (page : Nat) : List Nat → List Nat → Prop
  | atEnd {l : List Nat} : (∀ r ∈ l, generation page < generation r) → Released generation page l (l ++ [page])
  | before {l₁ l₂ : List Nat} {q : Nat} : generation q ≤ generation page →
      (∀ r ∈ l₂, generation page < generation r) →
      Released generation page (l₁ ++ q :: l₂) (l₁ ++ page :: q :: l₂)

theorem releaseTarget_released (l₁ l₂ : List Nat) (fuel : Nat) (circle : Circle s.links none ((l₁ ++ l₂).map some))
    (fresh : page ∉ l₁ ++ l₂) (newer : ∀ r ∈ l₂, s.generation page < s.generation r) (enough : l₁.length < fuel) :
    ∃ target l', s.releaseTarget page fuel ((l₁.map some).getLastD none) = some target ∧
      Released s.generation page (l₁ ++ l₂) l' ∧
      Circle (s.links.insertBefore target (some page)) none (l'.map some) := by
  obtain ⟨fuel, rfl⟩ := Nat.exists_eq_add_one_of_ne_zero (Nat.ne_zero_of_lt enough)
  induction l₁ using List.reverseRecOn generalizing l₂ fuel with
  | nil =>
    refine ⟨none, l₂ ++ [page], rfl, .atEnd newer, ?_⟩
    rw [List.map_append]
    apply Circle.insertBefore (by simpa using circle)
    · simpa using fresh
    · simp
  | append_singleton l₁ q ih =>
    rw [List.append_assoc, List.singleton_append] at circle fresh ⊢
    rw [List.map_append, List.map_singleton, List.getLastD_concat]
    by_cases newerQ : s.generation page < s.generation q
    · have back : s.links.prev (some q) = (l₁.map some).getLastD none := by
        apply Circle.prev_eq ((q :: l₂).map some) (by simpa using circle)
        simp
      rw [List.length_append, List.length_singleton] at enough
      obtain ⟨fuel, rfl⟩ := Nat.exists_eq_add_one_of_ne_zero (n := fuel) (by omega)
      have all : ∀ r ∈ q :: l₂, s.generation page < s.generation r := by
        rintro r (_ | ⟨_, later⟩)
        · exact newerQ
        · exact newer r later
      simp only [releaseTarget, if_pos newerQ, back]
      exact ih (q :: l₂) circle fresh all fuel (by omega)
    · refine ⟨some q, l₁ ++ page :: q :: l₂, ?_, .before (Nat.le_of_not_lt newerQ) newer, ?_⟩
      · simp only [releaseTarget, if_neg newerQ]
      · rw [List.map_append, List.map_cons]
        apply Circle.insertBefore (by simpa using circle)
        · simpa using fresh
        · simp

theorem Released.length {generation : Nat → Nat} {l' : List Nat} (released : Released generation page l l') :
    l'.length = l.length + 1 := by
  cases released with
  | atEnd _ => simp
  | before _ _ => simp only [List.length_append, List.length_cons]; omega

theorem Holds.release (holds : Holds s l) (fresh : page ∉ l) :
    ∃ s' l', s.heapReleasePage page = some s' ∧ Released s.generation page l l' ∧ Holds s' l' ∧
      s'.generation = s.generation ∧ s'.currentGeneration = s.currentGeneration := by
  have last : s.links.prev none = (l.map some).getLastD none :=
    Circle.prev_eq [] (by simpa using holds.circle) (by simp)
  obtain ⟨target, l', found, released, circle⟩ := releaseTarget_released l [] (s.nFullPages + 1)
    (by simpa using holds.circle) (by simpa using fresh) (by simp)
    (by rw [holds.length]; omega)
  rw [List.append_nil] at released
  refine ⟨{ s with links := s.links.insertBefore target (some page), nFullPages := s.nFullPages + 1 }, l', ?_,
    released, ⟨circle, ?_⟩, rfl, rfl⟩
  · unfold heapReleasePage
    rw [last, found, Option.map_some]
  · change s.nFullPages + 1 = l'.length
    rw [released.length, holds.length]

theorem Released.pairwise_iff {generation : Nat → Nat} {l' : List Nat} (released : Released generation page l l')
    (sorted : l.Pairwise fun p q => generation p ≤ generation q) :
    l'.Pairwise (fun p q => generation p ≤ generation q) ↔
      l = [] ∨ ∃ q ∈ l, generation q = generation page := by
  cases released with
  | atEnd newer =>
    rw [List.pairwise_append]
    constructor
    · rintro ⟨_, _, below⟩
      cases l with
      | nil => exact .inl rfl
      | cons q l =>
        have older := below q (by simp) page (by simp)
        have later := newer q (by simp)
        omega
    · rintro (rfl | ⟨q, inside, level⟩)
      · simp
      · have later := newer q inside
        omega
  | @before l₁ l₂ q older newer =>
    rw [List.pairwise_append, List.pairwise_cons] at sorted
    obtain ⟨front, ⟨afterQ, back⟩, across⟩ := sorted
    rw [List.pairwise_append, List.pairwise_cons, List.pairwise_cons]
    constructor
    · rintro ⟨_, ⟨afterPage, _⟩, _⟩
      have level := afterPage q (by simp)
      exact .inr ⟨q, by simp, by omega⟩
    · intro level
      have same : generation q = generation page := by
        obtain ⟨r, inside, level⟩ := level.resolve_left (by simp)
        rcases List.mem_append.mp inside with left | _ | ⟨_, right⟩
        · have := across r left q (by simp)
          omega
        · exact level
        · have := newer r right
          omega
      refine ⟨front, ⟨?_, afterQ, back⟩, ?_⟩
      · rintro r (_ | ⟨_, right⟩)
        · exact same.ge
        · exact (newer r right).le
      · rintro r left t (_ | ⟨_, right⟩)
        · rw [← same]
          exact across r left q (by simp)
        · exact across r left t right

theorem Reached.holds {place : FullPages → Nat → Prop} (reached : Reached place s) : ∃ l, Holds s l := by
  induction reached with
  | setup => exact ⟨[], holds_setup⟩
  | renew _ _ ih =>
    obtain ⟨l, holds⟩ := ih
    exact ⟨l, holds.renew⟩
  | nextGeneration _ ih =>
    obtain ⟨l, holds⟩ := ih
    exact ⟨l, holds.nextGeneration⟩
  | get _ ih =>
    obtain ⟨l, holds⟩ := ih
    rcases holds.get with ⟨_, got⟩ | ⟨_, _, _, _, got⟩ | ⟨_, rest, _, _, _, holds', _, _⟩
    · exact ⟨l, got ▸ holds⟩
    · exact ⟨l, got ▸ holds⟩
    · exact ⟨rest, holds'⟩
  | release _ fresh _ released ih =>
    obtain ⟨l, holds⟩ := ih
    rw [holds.followed_eq] at fresh
    obtain ⟨s', l', done, _, holds', _, _⟩ := holds.release fresh
    rw [released] at done
    obtain rfl := Option.some.inj done
    exact ⟨l', holds'⟩

theorem Holds.sorted_iff (holds : Holds s l) :
    Sorted s ↔ l.Pairwise fun p q => s.generation p ≤ s.generation q := by
  unfold Sorted
  rw [holds.followed_eq]

theorem Holds.sorted_renew (holds : Holds s l) (fresh : page ∉ l) (sorted : Sorted s) : Sorted (s.renew page) := by
  rw [holds.renew.sorted_iff]
  rw [holds.sorted_iff] at sorted
  apply sorted.imp_of_mem
  intro p q hp hq le
  have apart {r : Nat} (inside : r ∈ l) : r ≠ page := by
    rintro rfl
    exact fresh inside
  change Function.update s.generation page _ p ≤ Function.update s.generation page _ q
  rw [Function.update_of_ne (apart hp), Function.update_of_ne (apart hq)]
  exact le

theorem Holds.sorted_get (holds : Holds s l) (sorted : Sorted s) : Sorted s.heapGetFullPage.2 := by
  rcases holds.get with ⟨_, got⟩ | ⟨_, _, _, _, got⟩ | ⟨p, rest, rfl, _, _, holds', same, _⟩
  · rw [got]
    exact sorted
  · rw [got]
    exact sorted
  · rw [holds.sorted_iff] at sorted
    rw [holds'.sorted_iff, same]
    exact (List.pairwise_cons.mp sorted).2

theorem Holds.sorted_release_iff (holds : Holds s l) (fresh : page ∉ l) (sorted : Sorted s)
    (released : s.heapReleasePage page = some s') : Sorted s' ↔ Level s page := by
  obtain ⟨s'', l', done, place, holds', same, _⟩ := holds.release fresh
  rw [released] at done
  obtain rfl := Option.some.inj done
  rw [holds.sorted_iff] at sorted
  rw [holds'.sorted_iff, same, place.pairwise_iff sorted, Level, holds.followed_eq]

theorem Reached.sorted (reached : Reached Level s) : Sorted s := by
  induction reached with
  | setup => exact holds_setup.sorted_iff.mpr .nil
  | renew before fresh ih =>
    obtain ⟨l, holds⟩ := before.holds
    rw [holds.followed_eq] at fresh
    exact holds.sorted_renew fresh ih
  | nextGeneration _ ih => exact ih
  | get before ih =>
    obtain ⟨l, holds⟩ := before.holds
    exact holds.sorted_get ih
  | release before fresh level released ih =>
    obtain ⟨l, holds⟩ := before.holds
    rw [holds.followed_eq] at fresh
    exact (holds.sorted_release_iff fresh ih released).mpr level

theorem Holds.nullMeansNone (holds : Holds s l) (sorted : Sorted s) : NullMeansNone s := by
  intro null q inside
  rw [holds.followed_eq] at inside
  rw [holds.sorted_iff] at sorted
  rcases holds.get with ⟨rfl, _⟩ | ⟨p, rest, rfl, young, _⟩ | ⟨p, rest, rfl, _, got, _⟩
  · simp at inside
  · rcases inside with _ | ⟨_, later⟩
    · exact young
    · have := (List.pairwise_cons.mp sorted).1 q later
      omega
  · rw [got] at null
    cases null

/-- In a run whose released pages are level with the list, the list is sorted and no old page is missed; a release
into a sorted list leaves it sorted only when its page is level. -/
theorem releases_sorted (s : FullPages) :
    (Reached Level s → Sorted s ∧ NullMeansNone s) ∧
    ∀ place page, Reached place s → page ∉ s.followed →
      ∃ s', s.heapReleasePage page = some s' ∧ (Sorted s → (Sorted s' ↔ Level s page)) := by
  constructor
  · intro reached
    obtain ⟨l, holds⟩ := reached.holds
    exact ⟨reached.sorted, holds.nullMeansNone reached.sorted⟩
  · intro place page reached fresh
    obtain ⟨l, holds⟩ := reached.holds
    rw [holds.followed_eq] at fresh
    obtain ⟨s', _, released, _⟩ := holds.release fresh
    exact ⟨s', released, fun sorted => holds.sorted_release_iff fresh sorted released⟩

theorem releases_sorted_twoPages : ∃ s, Reached Level s ∧ s.followed = [1, 0] ∧ Sorted s ∧ NullMeansNone s ∧
    ∃ s', s.heapReleasePage 2 = some s' ∧ Sorted s' := by
  have first : Reached Level _ := @Reached.release _ _ _ 0 .setup (by decide) (.inl rfl) rfl
  have second : Reached Level _ := @Reached.release _ _ _ 1 first (by decide) (.inr ⟨0, by decide, rfl⟩) rfl
  obtain ⟨sorted, null⟩ := (releases_sorted _).1 second
  obtain ⟨s', released, iff⟩ := (releases_sorted _).2 Level 2 second (by decide)
  exact ⟨_, second, rfl, sorted, null, s', released, (iff sorted).mpr (.inr ⟨0, by decide, rfl⟩)⟩

theorem release_hides_old_page :
    ∃ s, Reached (fun _ _ => True) s ∧ ¬ Sorted s ∧ s.heapGetFullPage.1 = none ∧
      ∃ q ∈ s.followed, s.generation q < s.currentGeneration := by
  have first : Reached (fun _ _ => True) _ := @Reached.release _ _ _ 0 .setup (by decide) trivial rfl
  have second : Reached (fun _ _ => True) (FullPages.renew _ 1) := first.nextGeneration.renew (by decide)
  have third : Reached (fun _ _ => True) _ := @Reached.release _ _ _ 1 second (by decide) trivial rfl
  refine ⟨_, third, ?_, by decide, 0, by decide, by decide⟩
  unfold Sorted
  decide

end FullPages
end CadoNfs.Filter.Heap

/-!
# The rows of `merge` in pages

`filter/merge_heap.c` writes the rows one after the other into the active page of a thread, each with its number and
its size in front.
-/

namespace CadoNfs.Filter.Heap
open Lib Typerow

class HeapCell (α : Type) extends Typerow α where
  setCell : Nat → α
  rowCell_setCell : ∀ j, rowCell (setCell j) = j

instance : HeapCell Nat where
  setCell j := j
  rowCell_setCell _ := rfl

instance : HeapCell IdealMerge where
  setCell j := ⟨j, 0⟩
  rowCell_setCell _ := rfl

open HeapCell

def deletedNumber : Nat := 2 ^ 32 - 1

inductive Phase
  | out
  | searching
  | collecting (page bot : Nat)
  deriving DecidableEq

abbrev Pointer := Nat × Nat

/-- `starved` holds of a thread between `heap_release_page` and `heap_get_free_page` of `heap_malloc`. -/
structure RowHeap (α : Type) (T : Nat) where
  data : Nat → Nat → α
  ptr : Nat → Nat
  pages : FullPages
  emptyPages : List Nat
  nPages : Nat
  activePage : Fin T → Nat
  starved : Fin T → Bool
  phase : Fin T → Phase
  rows : Nat → Option Pointer

namespace RowHeap

variable {α : Type} {T : Nat} [HeapCell α]

def setup (data : Nat → Nat → α) (rows : Nat → Option Pointer) : RowHeap α T where
  data := data
  ptr _ := 0
  pages := heapSetup
  emptyPages := []
  nPages := T
  activePage t := t
  starved _ := false
  phase _ := .out
  rows := rows

def heapGetFreePage (s : RowHeap α T) : Nat × RowHeap α T :=
  match s.emptyPages with
  | page :: rest => (page, { s with emptyPages := rest, ptr := Function.update s.ptr page 0, pages := s.pages.renew page })
  | [] => (s.nPages,
      { s with nPages := s.nPages + 1, ptr := Function.update s.ptr s.nPages 0, pages := s.pages.renew s.nPages })

def heapClearPage (s : RowHeap α T) (page : Nat) : RowHeap α T := { s with emptyPages := page :: s.emptyPages }

def write (s : RowHeap α T) (p : Pointer) (x : α) : RowHeap α T :=
  { s with data := Function.update s.data p.1 (Function.update (s.data p.1) p.2 x) }

def room (s : RowHeap α T) (t : Fin T) (size : Nat) : Bool := !decide (pageDataSize ≤ s.ptr (s.activePage t) + size)

def releaseActive (s : RowHeap α T) (t : Fin T) : Option (RowHeap α T) :=
  (s.pages.heapReleasePage (s.activePage t)).map fun pages =>
    { s with pages := pages, starved := Function.update s.starved t true }

def renewActive (s : RowHeap α T) (t : Fin T) : RowHeap α T :=
  let (page, s) := s.heapGetFreePage
  { s with activePage := Function.update s.activePage t page, starved := Function.update s.starved t false }

def take (s : RowHeap α T) (t : Fin T) (size : Nat) : Pointer × RowHeap α T :=
  let page := s.activePage t
  ((page, s.ptr page), { s with ptr := Function.update s.ptr page (s.ptr page + size) })

def heapMalloc (s : RowHeap α T) (t : Fin T) (size : Nat) : Option (Pointer × RowHeap α T) :=
  if s.room t size then some (s.take t size)
  else (s.releaseActive t).map fun s => (s.renewActive t).take t size

def writeHeader (s : RowHeap α T) (p : Pointer) (i size : Nat) : RowHeap α T :=
  let s := s.write p (setRowCell (s.data p.1 p.2) i)
  s.write (p.1, p.2 + 1) (setRowCell (s.data p.1 (p.2 + 1)) size)

def heapAllocRow (s : RowHeap α T) (t : Fin T) (i size : Nat) : Option (Pointer × RowHeap α T) :=
  (s.heapMalloc t (size + 2)).map fun (p, s) => (p, s.writeHeader p i size)

def number (s : RowHeap α T) (p : Pointer) : Nat := rowCell (s.data p.1 p.2)

def size (s : RowHeap α T) (p : Pointer) : Nat := rowCell (s.data p.1 (p.2 + 1))

def row (s : RowHeap α T) (p : Pointer) : Nat × List α :=
  (s.number p, (List.range (s.size p)).map fun k => s.data p.1 (p.2 + 2 + k))

def heapResizeLastRow (s : RowHeap α T) (t : Fin T) (p : Pointer) (newSize : Nat) : Option (RowHeap α T) :=
  let page := s.activePage t
  if p.1 = page ∧ p.2 + s.size p + 2 = s.ptr page then
    let delta := s.size p - newSize
    let s := s.write (p.1, p.2 + 1) (setRowCell (s.data p.1 (p.2 + 1)) newSize)
    some { s with ptr := Function.update s.ptr page (s.ptr page - delta) }
  else none

def heapDestroyRow (s : RowHeap α T) (p : Pointer) : RowHeap α T :=
  s.write p (setRowCell (s.data p.1 p.2) deletedNumber)

def memcpy (s : RowHeap α T) (new old : Pointer) (n : Nat) : RowHeap α T :=
  { s with data := Function.update s.data new.1 fun k =>
      if new.2 ≤ k ∧ k < new.2 + n then s.data old.1 (old.2 + (k - new.2)) else s.data new.1 k }

def copyRow (s : RowHeap α T) (t : Fin T) (old : Pointer) : RowHeap α T :=
  let i := s.number old
  let size := s.size old
  let (new, s) := s.take t (size + 2)
  let s := s.writeHeader new i size
  let s := s.memcpy (new.1, new.2 + 1) (old.1, old.2 + 1) (size + 1)
  let s := s.write new (setCell (s.number old))
  { s with rows := Function.update s.rows i (some new) }

def setPhase (s : RowHeap α T) (t : Fin T) (phase : Phase) : RowHeap α T :=
  { s with phase := Function.update s.phase t phase }

def advance (s : RowHeap α T) (t : Fin T) (old : Pointer) (size : Nat) : RowHeap α T :=
  s.setPhase t (.collecting old.1 (old.2 + size + 2))

/-- What a thread does next in `heap_garbage_collection`; the critical sections of two threads are in any
order, and a row is copied between two of them. -/
def collectStep (s : RowHeap α T) (t : Fin T) : Option (RowHeap α T) :=
  match s.phase t with
  | .out => none
  | .searching =>
    let (found, pages) := s.pages.heapGetFullPage
    let s := { s with pages := pages }
    match found with
    | none => some (s.setPhase t .out)
    | some page => some (s.setPhase t (.collecting page 0))
  | .collecting page bot =>
    if bot < s.ptr page then
      let size := s.size (page, bot)
      if s.number (page, bot) = deletedNumber then some (s.advance t (page, bot) size)
      else if s.starved t then some (((s.renewActive t).copyRow t (page, bot)).advance t (page, bot) size)
      else if s.room t (size + 2) then some ((s.copyRow t (page, bot)).advance t (page, bot) size)
      else s.releaseActive t
    else some ((s.heapClearPage page).setPhase t .searching)

def startCollection (s : RowHeap α T) : RowHeap α T :=
  { s with pages := s.pages.nextGeneration, phase := fun _ => .searching }

def Quiet (s : RowHeap α T) : Prop := ∀ t, s.phase t = .out

def Held (s : RowHeap α T) (page start : Nat) : Prop :=
  (start = 0 ∧ (page ∈ s.pages.followed ∨ ∃ t, s.starved t = false ∧ s.activePage t = page)) ∨
    ∃ t, s.phase t = .collecting page start

def next (s : RowHeap α T) (page b : Nat) : Nat := b + s.size (page, b) + 2

def Live (s : RowHeap α T) (p : Pointer) : Prop :=
  s.number p ≠ deletedNumber ∧
    ∃ start offs, s.Held p.1 start ∧ RecordWalk (s.next p.1) start offs (s.ptr p.1) ∧ p.2 ∈ offs

def Registered (s : RowHeap α T) : Prop := ∀ p, s.Live p → s.rows (s.number p) = some p

/-- The states of the heap under the calls of `merge`, between them and within a collection. -/
inductive Reached : RowHeap α T → Prop
  | setup (data : Nat → Nat → α) (rows : Nat → Option Pointer) : Reached (setup data rows)
  | alloc {s s' : RowHeap α T} {t : Fin T} {i size : Nat} {p : Pointer} : Reached s → s.Quiet → i < 2 ^ 31 →
      size + 2 ≤ pageDataSize → s.heapAllocRow t i size = some (p, s') → Reached s'
  | fill {s : RowHeap α T} {p : Pointer} {k : Nat} {x : α} : Reached s → s.Quiet → s.Live p → k < s.size p →
      Reached (s.write (p.1, p.2 + 2 + k) x)
  | store {s : RowHeap α T} {i : Nat} {p : Option Pointer} : Reached s → s.Quiet →
      Reached { s with rows := Function.update s.rows i p }
  | resize {s s' : RowHeap α T} {t : Fin T} {p : Pointer} {newSize : Nat} : Reached s → s.Quiet → s.Live p →
      newSize ≤ s.size p → s.heapResizeLastRow t p newSize = some s' → Reached s'
  | destroy {s : RowHeap α T} {p : Pointer} : Reached s → s.Quiet → s.Live p → Reached (s.heapDestroyRow p)
  | collect {s : RowHeap α T} : Reached s → s.Quiet → Reached s.startCollection
  | step {s s' : RowHeap α T} {t : Fin T} : Reached s → s.collectStep t = some s' → Reached s'

end RowHeap
end CadoNfs.Filter.Heap
