import CadoNfs.Lib.Ring

/-!
# Ring buffers

The rotating buffer of `utils/ringbuf.hpp`: one thread puts bytes, another one gets them.
-/

namespace CadoNfs.Utils
open Lib Lib.Ring

/-- The heads are offsets into the `alloc` bytes at `p`. -/
structure Ringbuf where
  p : ℕ → Int8
  alloc : ℕ
  availToRead : ℕ
  availToWrite : ℕ
  rhead : ℕ
  whead : ℕ
  done : Bool

inductive Search
  | aborts
  | undefined
  | returns (n : ℤ)
  deriving DecidableEq

namespace Ringbuf

def ringbufMaxSize : ℕ := 2 ^ 26
def ringbufAlignedReturns : ℕ := 4
def preemptOneRead : ℕ := 2 ^ 20
def preemptBuf : ℕ := 2 ^ 22

def sizeSub (a b : ℕ) : ℕ := (a + 2 ^ 64 - b) % 2 ^ 64

def toInt (s : ℕ) : ℤ := (s : ℤ).bmod (2 ^ 32)

variable (rb : Ringbuf)

def readable : List Int8 := window rb.p rb.alloc rb.rhead rb.availToRead

def newalloc (page claim : ℕ) : ℕ :=
  if claim = 0 then ((rb.alloc + rb.alloc / 2) ||| page) + 1 else ((claim - 1) ||| page) + 1

def moved : ℕ → Int8 :=
  let tail := rb.alloc - rb.rhead
  if rb.availToRead = 0 then fun _ => 0
  else if tail < rb.availToRead then
    copy (copy (fun _ => 0) 0 (slice rb.p rb.rhead tail)) tail (slice rb.p 0 (rb.availToRead - tail))
  else copy (fun _ => 0) 0 (slice rb.p rb.rhead rb.availToRead)

/-- `none` when the allocation throws: no object is larger than `PTRDIFF_MAX`. -/
def grow (page claim : ℕ) : Option Ringbuf :=
  if claim ≠ 0 ∧ claim ≤ rb.alloc then some rb
  else if 2 ^ 63 ≤ rb.newalloc page claim then none
  else some { rb with
    p := rb.moved
    rhead := 0
    whead := rb.availToRead
    availToWrite := rb.availToWrite + (rb.newalloc page claim - rb.alloc)
    alloc := rb.newalloc page claim }

def make (page claim : ℕ) : Option Ringbuf :=
  grow ⟨fun _ => 0, 0, 0, 0, 0, 0, false⟩ page (if claim = 0 then preemptBuf else claim)

theorem alloc_lt_newalloc (page : ℕ) : rb.alloc < rb.newalloc page 0 := by
  have le := @Nat.left_le_or (rb.alloc + rb.alloc / 2) page
  rw [newalloc, if_pos rfl]
  omega

variable {rb} in
theorem availToWrite_lt_grow {page : ℕ} {g : Ringbuf} (grown : rb.grow page 0 = some g) :
    rb.availToWrite < g.availToWrite := by
  have lt := rb.alloc_lt_newalloc page
  simp only [grow, ne_eq, not_true_eq_false, false_and, if_false] at grown
  split at grown
  · cases grown
  · cases grown
    exact Nat.lt_add_of_pos_right (Nat.sub_pos_of_lt lt)

def Full (s : ℕ) : Prop := rb.availToWrite < s ∧ ringbufMaxSize ≤ rb.alloc ∧ s < rb.alloc

instance (s : ℕ) : Decidable (rb.Full s) := inferInstanceAs (Decidable (_ ∧ _))

/-- The loop of `put` until it has room for `s` bytes, or waits. -/
def makeRoom (page s : ℕ) (rb : Ringbuf) : Option Ringbuf :=
  if s ≤ rb.availToWrite ∨ rb.Full s then some rb
  else match _grown : rb.grow page 0 with
    | none => none
    | some g => makeRoom page s g
termination_by s - rb.availToWrite
decreasing_by
  have lt := availToWrite_lt_grow ‹_›
  omega

def write (data : List Int8) : Ringbuf :=
  let s := data.length
  let tail := rb.alloc - rb.whead
  let (p, whead) :=
    if rb.availToWrite ≤ tail ∨ s ≤ tail then (copy rb.p rb.whead data, rb.whead + s)
    else (copy (copy rb.p rb.whead (data.take tail)) 0 (data.drop tail), s - tail)
  { rb with
    p, whead := if whead = rb.alloc then 0 else whead
    availToWrite := rb.availToWrite - s, availToRead := rb.availToRead + s }

def markDone : Ringbuf := { rb with done := true }

def granted (s : ℕ) : ℕ :=
  let s := min rb.availToRead s
  if ringbufAlignedReturns ≤ s then s - s % ringbufAlignedReturns else s

/-- `none` when `get` waits. -/
def get (s : ℕ) : Option (List Int8 × Ringbuf) :=
  if !rb.done && rb.availToRead < ringbufAlignedReturns then none
  else if rb.done && rb.availToRead = 0 then some ([], rb)
  else
    let tail := rb.alloc - rb.rhead
    let s := rb.granted s
    let (data, rhead) :=
      if rb.availToRead ≤ tail ∨ s ≤ tail then (slice rb.p rb.rhead s, rb.rhead + s)
      else (slice rb.p rb.rhead tail ++ slice rb.p 0 (s - tail), s - tail)
    some (data, { rb with
      rhead := if rhead = rb.alloc then 0 else rhead
      availToRead := rb.availToRead - s, availToWrite := rb.availToWrite + s })

def feedable (wAvail : ℕ) : ℕ := min (min (rb.alloc - rb.whead) wAvail) preemptOneRead

/-- The read of `feed_stream`, made without the mutex. -/
def fread (chunk : List Int8) : Ringbuf := { rb with p := copy rb.p rb.whead chunk }

def publish (s : ℕ) : Ringbuf :=
  { rb with
    whead := if rb.whead + s = rb.alloc then 0 else rb.whead + s
    availToRead := rb.availToRead + s, availToWrite := rb.availToWrite - s }

-- The first loop of `strchr`, up to the end of the buffer.
def findBefore (c : ℤ) (offset tail : ℕ) : Option ℕ :=
  (List.range' offset (tail - offset)).find? fun s => (rb.p (rb.rhead + s)).toInt = c

-- The second loop. Its index `t` is an `int`, and there is nothing to read behind the buffer.
def findBehind (c : ℤ) (s left : ℕ) : Search :=
  match (List.range (min left (min rb.alloc (2 ^ 31)))).find? fun t => (rb.p t).toInt = c with
  | some t => .returns (toInt (s + t))
  | none => if left ≤ rb.alloc ∧ left < 2 ^ 31 then .returns (-1) else .undefined

def strchr (c : ℤ) (offset : ℕ) : Search :=
  if rb.availToRead < offset then .aborts
  else
    let tail := rb.alloc - rb.rhead
    match rb.findBefore c offset tail with
    | some s => .returns (toInt s)
    | none =>
      let s := max offset tail
      rb.findBehind c s (sizeSub rb.availToRead s)

/-- `none` when its assertion fails. -/
def skipGet (s : ℕ) : Option Ringbuf :=
  if rb.alloc < s then none
  else
    let d := rb.rhead + s
    some { rb with
      rhead := if rb.alloc ≤ d then d - rb.alloc else d
      availToRead := sizeSub rb.availToRead s, availToWrite := (rb.availToWrite + s) % 2 ^ 64 }

end Ringbuf
end CadoNfs.Utils

/-!
# First in, first out

Every operation of a ring buffer keeps its heads and counters consistent, adds bytes at the end of
the readable ones and takes them from their front.
-/

namespace CadoNfs.Utils
open Lib Lib.Ring

namespace Ringbuf

structure Valid (rb : Ringbuf) : Prop where
  small : rb.alloc < 2 ^ 63
  rhead : rb.rhead < rb.alloc
  sum : rb.availToRead + rb.availToWrite = rb.alloc
  whead : rb.whead = cell rb.alloc rb.rhead rb.availToRead

variable {rb g : Ringbuf} {page s : ℕ} {data : List Int8}

theorem Valid.le (valid : rb.Valid) : rb.availToRead ≤ rb.alloc := by
  have sum := valid.sum
  omega

theorem Valid.whead_lt (valid : rb.Valid) : rb.whead < rb.alloc :=
  valid.whead ▸ cell_lt valid.rhead valid.le

theorem slice_moved (valid : rb.Valid) : slice rb.moved 0 rb.availToRead = rb.readable := by
  have inside := valid.rhead
  unfold moved readable
  dsimp only
  split_ifs with empty wraps
  · rw [empty]
    rfl
  · rw [window_eq_slices inside (by omega) valid.le]
    have copies := @slice_copies _ (fun _ => (0 : Int8)) (slice rb.p rb.rhead (rb.alloc - rb.rhead))
      (slice rb.p 0 (rb.availToRead - (rb.alloc - rb.rhead)))
    rwa [length_slice, length_slice, Nat.add_sub_of_le (by omega)] at copies
  · rw [window_eq_slice (by omega)]
    have copied := @slice_copy _ (fun _ => (0 : Int8)) 0 (slice rb.p rb.rhead rb.availToRead)
    rwa [length_slice] at copied

theorem grow_spec (valid : rb.Valid) (grown : rb.grow page 0 = some g) :
    g.Valid ∧ g.readable = rb.readable ∧ g.done = rb.done := by
  have larger := rb.alloc_lt_newalloc page
  have sum := valid.sum
  simp only [grow, ne_eq, not_true_eq_false, false_and, if_false] at grown
  split at grown
  case isTrue => cases grown
  case isFalse fits =>
    cases grown
    have le : rb.availToRead ≤ rb.newalloc page 0 := by omega
    refine ⟨⟨Nat.lt_of_not_le fits, by dsimp only; omega, by dsimp only; omega, ?_⟩, ?_, rfl⟩
    · dsimp only
      rw [cell, if_pos (by omega), Nat.zero_add]
    · rw [← slice_moved valid]
      exact window_eq_slice (by simpa using le)

theorem make_spec {claim : ℕ} (made : make page claim = some g) : g.Valid ∧ g.readable = [] := by
  generalize size : (if claim = 0 then preemptBuf else claim) = claim' at *
  have pos : claim' ≠ 0 := by
    rw [← size]
    split
    · decide
    · assumption
  have le := @Nat.left_le_or (claim' - 1) page
  simp only [make, size, grow, newalloc, pos] at made
  simp only [ne_eq, not_false_eq_true, Nat.le_zero_eq, pos, and_false, if_false] at made
  split at made
  case isTrue => cases made
  case isFalse fits =>
    cases made
    refine ⟨⟨Nat.lt_of_not_le fits, by simp, by simp, ?_⟩, rfl⟩
    simp [cell]

theorem makeRoom_spec (valid : rb.Valid) (room : makeRoom page s rb = some g) :
    g.Valid ∧ g.readable = rb.readable ∧ g.done = rb.done := by
  induction rb using makeRoom.induct page s with
  | case1 rb enough =>
    rw [makeRoom, if_pos enough] at room
    cases room
    exact ⟨valid, rfl, rfl⟩
  | case2 rb short failed =>
    rw [makeRoom, if_neg short] at room
    split at room
    · cases room
    · simp_all
  | case3 rb short larger grown ih =>
    rw [makeRoom, if_neg short] at room
    split at room
    · cases room
    · rename_i found
      obtain rfl := Option.some.inj (grown.symm.trans found)
      obtain ⟨valid', same, same_done⟩ := grow_spec valid grown
      rw [← same, ← same_done]
      exact ih valid' room

theorem Valid.advance (valid : rb.Valid) {mem : ℕ → Int8} {head n : ℕ} (fits : n ≤ rb.availToWrite)
    (eq : head = cell rb.alloc rb.whead n) :
    Valid { rb with p := mem, whead := head, availToWrite := rb.availToWrite - n, availToRead := rb.availToRead + n } := by
  have sum := valid.sum
  refine ⟨valid.small, valid.rhead, by dsimp only; omega, ?_⟩
  rw [eq, valid.whead, cell_add valid.rhead (by omega)]

theorem reset_eq {alloc head n : ℕ} (le : head + n ≤ alloc) :
    (if head + n = alloc then 0 else head + n) = cell alloc head n := by
  unfold cell
  split <;> split <;> omega

theorem write_spec (valid : rb.Valid) (fits : data.length ≤ rb.availToWrite) :
    (rb.write data).Valid ∧ (rb.write data).readable = rb.readable ++ data := by
  have sum := valid.sum
  have inside := valid.whead_lt
  have stored : ∃ mem head, Stored rb.alloc rb.whead data rb.p mem ∧ head = cell rb.alloc rb.whead data.length ∧
      rb.write data = { rb with
        p := mem, whead := head
        availToWrite := rb.availToWrite - data.length, availToRead := rb.availToRead + data.length } := by
    by_cases straight : rb.availToWrite ≤ rb.alloc - rb.whead ∨ data.length ≤ rb.alloc - rb.whead
    · exact ⟨_, _, stored_copy (by omega), reset_eq (by omega), by simp [write, straight]⟩
    · refine ⟨_, _, stored_copies inside (by omega) (by omega), ?_, by simp [write, straight]; rfl⟩
      rw [if_neg (by omega), cell, if_neg (by omega)]
      omega
  obtain ⟨mem, head, stored, eq, same⟩ := stored
  rw [same]
  refine ⟨valid.advance fits eq, ?_⟩
  rw [valid.whead] at stored
  exact stored.append valid.rhead (by omega)

/-- The bytes `chunk` stand in the ring behind the readable ones, not readable yet. -/
structure Staged (rb : Ringbuf) (chunk : List Int8) : Prop where
  straight : rb.whead + chunk.length ≤ rb.alloc
  fits : chunk.length ≤ rb.availToWrite
  bytes : slice rb.p rb.whead chunk.length = chunk

theorem Valid.fread (valid : rb.Valid) : (rb.fread data).Valid :=
  ⟨valid.small, valid.rhead, valid.sum, valid.whead⟩

theorem readable_fread (valid : rb.Valid) (fits : data.length ≤ rb.feedable s) (within : s ≤ rb.availToWrite) :
    (rb.fread data).readable = rb.readable := by
  have inside := valid.whead_lt
  have sum := valid.sum
  have straight : rb.whead + data.length ≤ rb.alloc := by
    unfold feedable at fits
    omega
  have le : data.length ≤ rb.availToWrite := by
    unfold feedable at fits
    omega
  have appended := (valid.whead ▸ stored_copy straight : Stored rb.alloc (cell rb.alloc rb.rhead rb.availToRead)
    data rb.p (copy rb.p rb.whead data)).append valid.rhead (by omega)
  have front := congrArg (List.take rb.availToRead) appended
  rwa [take_window (Nat.le_add_right _ _), List.take_left' length_window] at front

theorem staged_fread (valid : rb.Valid) (fits : data.length ≤ rb.feedable s) (within : s ≤ rb.availToWrite) :
    (rb.fread data).Staged data := by
  have inside := valid.whead_lt
  unfold feedable at fits
  refine ⟨?_, ?_, slice_copy⟩
  · change rb.whead + data.length ≤ rb.alloc
    omega
  · change data.length ≤ rb.availToWrite
    omega

theorem publish_spec (valid : rb.Valid) (staged : rb.Staged data) :
    (rb.publish data.length).Valid ∧ (rb.publish data.length).readable = rb.readable ++ data := by
  have sum := valid.sum
  have fits := staged.fits
  refine ⟨valid.advance fits (reset_eq staged.straight), ?_⟩
  refine (window_append valid.rhead (by omega)).trans ?_
  rw [← valid.whead, window_eq_slice staged.straight]
  exact congrArg _ staged.bytes

theorem Valid.take (valid : rb.Valid) {head n : ℕ} (le : n ≤ rb.availToRead) (eq : head = cell rb.alloc rb.rhead n) :
    Valid { rb with rhead := head, availToRead := rb.availToRead - n, availToWrite := rb.availToWrite + n } ∧
      readable { rb with rhead := head, availToRead := rb.availToRead - n, availToWrite := rb.availToWrite + n } =
        rb.readable.drop n := by
  have sum := valid.sum
  have small := valid.small
  constructor
  · refine ⟨small, ?_, by dsimp only; omega, ?_⟩
    · rw [eq]
      exact cell_lt valid.rhead (by omega)
    · rw [eq, valid.whead]
      dsimp only
      rw [cell_add valid.rhead (by omega), Nat.add_sub_of_le le]
  · rw [readable, readable, drop_window valid.rhead le valid.le, eq]

theorem granted_le : rb.granted s ≤ rb.availToRead := by
  unfold granted
  dsimp only
  split <;> omega

theorem get_spec (valid : rb.Valid) (got : rb.get s = some (data, g)) :
    g.Valid ∧ data ++ g.readable = rb.readable := by
  have inside := valid.rhead
  have le := @granted_le rb s
  have le_alloc := valid.le
  unfold get at got
  split_ifs at got with waits ended
  · cases got
    exact ⟨valid, rfl⟩
  · by_cases straight : rb.availToRead ≤ rb.alloc - rb.rhead ∨ rb.granted s ≤ rb.alloc - rb.rhead
    · simp only [if_pos straight] at got
      cases got
      obtain ⟨valid', rest⟩ := valid.take le (reset_eq (by omega : rb.rhead + rb.granted s ≤ rb.alloc))
      refine ⟨valid', ?_⟩
      rw [rest, ← window_eq_slice (by omega : rb.rhead + rb.granted s ≤ rb.alloc), ← take_window le]
      exact List.take_append_drop _ _
    · simp only [if_neg straight] at got
      cases got
      have wrapped : (if rb.granted s - (rb.alloc - rb.rhead) = rb.alloc then 0
          else rb.granted s - (rb.alloc - rb.rhead)) = cell rb.alloc rb.rhead (rb.granted s) := by
        rw [if_neg (by omega), cell, if_neg (by omega)]
        omega
      obtain ⟨valid', rest⟩ := valid.take le wrapped
      refine ⟨valid', ?_⟩
      rw [rest, ← window_eq_slices inside (by omega) (by omega), ← take_window le]
      exact List.take_append_drop _ _

theorem get_frame (got : rb.get s = some (data, g)) :
    g.p = rb.p ∧ g.alloc = rb.alloc ∧ g.whead = rb.whead ∧ rb.availToWrite ≤ g.availToWrite := by
  unfold get at got
  split_ifs at got with waits ended
  · cases got
    exact ⟨rfl, rfl, rfl, Nat.le_refl _⟩
  · cases got
    exact ⟨rfl, rfl, rfl, Nat.le_add_right _ _⟩

theorem sizeSub_of_le {a b : ℕ} (le : b ≤ a) (small : a < 2 ^ 64) : sizeSub a b = a - b := by
  unfold sizeSub
  omega

theorem skipGet_spec (valid : rb.Valid) (le : s ≤ rb.availToRead) (skipped : rb.skipGet s = some g) :
    g.Valid ∧ g.readable = rb.readable.drop s := by
  have inside := valid.rhead
  have sum := valid.sum
  have small := valid.small
  unfold skipGet at skipped
  rw [if_neg (by omega)] at skipped
  have eq : (if rb.alloc ≤ rb.rhead + s then rb.rhead + s - rb.alloc else rb.rhead + s) =
      cell rb.alloc rb.rhead s := by
    unfold cell
    split <;> split <;> omega
  cases skipped
  obtain ⟨valid', rest⟩ := valid.take le eq
  rw [sizeSub_of_le le (by omega), Nat.mod_eq_of_lt (by omega)]
  exact ⟨valid', rest⟩

theorem skipGet_frame (valid : rb.Valid) (le : s ≤ rb.availToRead) (skipped : rb.skipGet s = some g) :
    g.p = rb.p ∧ g.alloc = rb.alloc ∧ g.whead = rb.whead ∧ rb.availToWrite ≤ g.availToWrite := by
  have sum := valid.sum
  have small := valid.small
  unfold skipGet at skipped
  rw [if_neg (by omega)] at skipped
  cases skipped
  refine ⟨rfl, rfl, rfl, ?_⟩
  dsimp only
  rw [Nat.mod_eq_of_lt (by omega)]
  exact Nat.le_add_right _ _

theorem skipGet_done (skipped : rb.skipGet s = some g) : g.done = rb.done := by
  rw [skipGet] at skipped
  split at skipped
  · cases skipped
  · cases skipped
    rfl

end Ringbuf
end CadoNfs.Utils

/-!
# Searching a ring buffer

The search runs up to the end of the buffer wherever the readable bytes end, and then goes on at
the start of the buffer wherever it began.
-/

namespace CadoNfs.Utils
open Lib Lib.Ring

namespace Ringbuf

variable (rb : Ringbuf) (c : ℤ) (offset : ℕ)

def Matches (s : ℕ) : Prop := ∃ b, rb.readable[s]? = some b ∧ b.toInt = c

def Finds (n : ℤ) : Prop :=
  (∃ s : ℕ, n = s ∧ IsLeast {s | offset ≤ s ∧ rb.Matches c s} s) ∨ (n = -1 ∧ ∀ s ≥ offset, ¬ rb.Matches c s)

def SearchCorrect : Prop := ∃ n, rb.strchr c offset = .returns n ∧ rb.Finds c offset n

/-- The bytes to search that stand at the start of the buffer are found there as from the offset on. -/
def Aligned : Prop :=
  offset ≤ rb.alloc - rb.rhead ∨ ∀ t,
    IsLeast {t | t < rb.availToRead - offset ∧ rb.Matches c (rb.alloc - rb.rhead + t)} t ↔
      IsLeast {t | rb.Matches c (offset + t)} t

structure Searchable : Prop where
  offset_le : offset ≤ rb.availToRead
  stays : (∃ s ≥ offset, s < rb.alloc - rb.rhead ∧ rb.Matches c s) ∨
    rb.alloc - rb.rhead ≤ rb.availToRead ∧ rb.Aligned c offset
  index : ∀ s, IsLeast {s | offset ≤ s ∧ rb.Matches c s} s → s < 2 ^ 31
  length : (∀ s ≥ offset, ¬ rb.Matches c s) → rb.availToRead - max offset (rb.alloc - rb.rhead) < 2 ^ 31

variable {rb c offset} {s t : ℕ}

theorem matches_iff : rb.Matches c s ↔ s < rb.availToRead ∧ (rb.p (cell rb.alloc rb.rhead s)).toInt = c := by
  constructor
  · rintro ⟨b, read, rfl⟩
    have lt : s < rb.availToRead := by
      simpa [readable] using (List.getElem?_eq_some_iff.mp read).1
    rw [readable, getElem?_window lt] at read
    exact ⟨lt, by rw [Option.some.inj read]⟩
  · rintro ⟨lt, eq⟩
    exact ⟨_, getElem?_window lt, eq⟩

theorem matches_iff_of_lt (lt : s < rb.alloc - rb.rhead) :
    rb.Matches c s ↔ s < rb.availToRead ∧ (rb.p (rb.rhead + s)).toInt = c := by
  rw [matches_iff, cell, if_pos (by omega)]

theorem matches_iff_of_le (le : rb.rhead ≤ rb.alloc) :
    rb.Matches c (rb.alloc - rb.rhead + t) ↔
      rb.alloc - rb.rhead + t < rb.availToRead ∧ (rb.p t).toInt = c := by
  rw [matches_iff, cell, if_neg (by omega)]
  congr! 4
  omega

theorem toInt_of_lt (lt : s < 2 ^ 31) : toInt s = s :=
  Int.bmod_eq_of_le (by omega) (by omega)

inductive Scans (rb : Ringbuf) (c : ℤ) (offset tail left : ℕ) : Search → Prop
  | before (s : ℕ) (ge : offset ≤ s) (lt : s < tail) (eq : (rb.p (rb.rhead + s)).toInt = c)
      (least : ∀ t ≥ offset, t < s → (rb.p (rb.rhead + t)).toInt ≠ c) : Scans rb c offset tail left (.returns (toInt s))
  | behind (t : ℕ) (none_before : ∀ s ≥ offset, s < tail → (rb.p (rb.rhead + s)).toInt ≠ c)
      (lt : t < left) (lt_alloc : t < rb.alloc) (small : t < 2 ^ 31) (eq : (rb.p t).toInt = c)
      (least : ∀ u < t, (rb.p u).toInt ≠ c) : Scans rb c offset tail left (.returns (toInt (max offset tail + t)))
  | nowhere (none_before : ∀ s ≥ offset, s < tail → (rb.p (rb.rhead + s)).toInt ≠ c)
      (le : left ≤ rb.alloc) (small : left < 2 ^ 31) (none_behind : ∀ t < left, (rb.p t).toInt ≠ c) :
      Scans rb c offset tail left (.returns (-1))
  | escapes (none_before : ∀ s ≥ offset, s < tail → (rb.p (rb.rhead + s)).toInt ≠ c)
      (long : rb.alloc < left ∨ 2 ^ 31 ≤ left)
      (none_behind : ∀ t < left, t < rb.alloc → t < 2 ^ 31 → (rb.p t).toInt ≠ c) :
      Scans rb c offset tail left .undefined

theorem scans_findBehind {tail left : ℕ} (none_before : ∀ s ≥ offset, s < tail → (rb.p (rb.rhead + s)).toInt ≠ c) :
    Scans rb c offset tail left (rb.findBehind c (max offset tail) left) := by
  unfold findBehind
  split
  case h_1 t found =>
    obtain ⟨eq, member, least⟩ := List.find?_range_eq_some.mp found
    have lt := List.mem_range.mp member
    exact .behind t none_before (by omega) (by omega) (by omega) (by simpa using eq) fun u lt => by
      simpa using least u lt
  case h_2 missing =>
    have none_behind := List.find?_range_eq_none.mp missing
    split
    case isTrue ends =>
      exact .nowhere none_before ends.1 ends.2 fun t lt => by simpa using none_behind t (by omega)
    case isFalse goes =>
      exact .escapes none_before (by omega) fun t lt lt_alloc small => by simpa using none_behind t (by omega)

theorem scans_strchr (le : offset ≤ rb.availToRead) :
    Scans rb c offset (rb.alloc - rb.rhead) (sizeSub rb.availToRead (max offset (rb.alloc - rb.rhead)))
      (rb.strchr c offset) := by
  rw [strchr, if_neg (Nat.not_lt.mpr le)]
  dsimp only
  cases found : rb.findBefore c offset (rb.alloc - rb.rhead) with
  | some s =>
    obtain ⟨eq, member, least⟩ := List.find?_range'_eq_some.mp found
    obtain ⟨ge, lt⟩ := List.mem_range'_1.mp member
    have lt_tail : s < rb.alloc - rb.rhead := by omega
    exact .before s ge lt_tail (by simpa using eq) fun t ge lt => by simpa using least t ge lt
  | none =>
    apply scans_findBehind
    intro s ge lt
    simpa using List.find?_range'_eq_none.mp found s ge (by omega)

variable {tail : ℕ}

theorem Aligned.isLeast_iff (aligned : rb.Aligned c offset) (inside : rb.rhead ≤ rb.alloc)
    (tail_eq : rb.alloc - rb.rhead = tail) (t : ℕ) :
    IsLeast {t | t < rb.availToRead - max offset tail ∧ (rb.p t).toInt = c} t ↔
      IsLeast {t | rb.Matches c (max offset tail + t)} t := by
  have matches_tail (t : ℕ) : rb.Matches c (tail + t) ↔ tail + t < rb.availToRead ∧ (rb.p t).toInt = c :=
    tail_eq ▸ matches_iff_of_le inside
  by_cases straight : offset ≤ tail
  · rw [max_eq_right straight]
    congr! 3 with t
    rw [matches_tail]
    exact and_congr_left' Nat.lt_sub_iff_add_lt'
  · rw [max_eq_left (by omega), ← (aligned.resolve_left (tail_eq ▸ straight)) t, tail_eq]
    congr! 3 with t
    rw [matches_tail]
    constructor
    · rintro ⟨lt, eq⟩
      exact ⟨lt, by omega, eq⟩
    · rintro ⟨lt, -, eq⟩
      exact ⟨lt, eq⟩

theorem isLeast_shift (none_before : ∀ s ≥ offset, s < tail → ¬ rb.Matches c s)
    (least : IsLeast {t | rb.Matches c (max offset tail + t)} t) :
    IsLeast {s | offset ≤ s ∧ rb.Matches c s} (max offset tail + t) := by
  refine ⟨⟨by omega, least.1⟩, ?_⟩
  rintro s ⟨ge, found⟩
  by_cases before : s < tail
  · exact absurd found (none_before s ge before)
  · have shifted := least.2 (show rb.Matches c (max offset tail + (s - max offset tail)) by
      rwa [Nat.add_sub_of_le (by omega)])
    omega

theorem exists_isLeast (none_before : ∀ s ≥ offset, s < tail → ¬ rb.Matches c s) (ge : offset ≤ s)
    (found : rb.Matches c s) : ∃ t, IsLeast {t | rb.Matches c (max offset tail + t)} t := by
  have after : tail ≤ s := Nat.le_of_not_lt fun before => none_before s ge before found
  classical
  have some : ∃ t, rb.Matches c (max offset tail + t) := ⟨s - max offset tail, by rwa [Nat.add_sub_of_le (by omega)]⟩
  exact ⟨Nat.find some, Nat.find_spec some, fun t => Nat.find_min' some⟩

theorem Searchable.correct (searchable : rb.Searchable c offset) (valid : rb.Valid) :
    rb.SearchCorrect c offset := by
  have small := valid.small
  have sum := valid.sum
  have inside := valid.rhead.le
  have scans := scans_strchr (c := c) searchable.offset_le
  have stays := searchable.stays
  have index := searchable.index
  have length := searchable.length
  generalize tail_eq : rb.alloc - rb.rhead = tail at *
  have before_iff {s : ℕ} (lt : s < tail) : rb.Matches c s ↔ s < rb.availToRead ∧ (rb.p (rb.rhead + s)).toInt = c :=
    matches_iff_of_lt (tail_eq ▸ lt)
  generalize answer_eq : rb.strchr c offset = answer at scans
  have past (none_before : ∀ s ≥ offset, s < tail → (rb.p (rb.rhead + s)).toInt ≠ c) :
      (∀ s ≥ offset, s < tail → ¬ rb.Matches c s) ∧ tail ≤ rb.availToRead ∧ rb.Aligned c offset ∧
        sizeSub rb.availToRead (max offset tail) = rb.availToRead - max offset tail := by
    have none_matches (s : ℕ) (ge : s ≥ offset) (lt : s < tail) (found : rb.Matches c s) : False :=
      none_before s ge lt ((before_iff lt).mp found).2
    obtain ⟨s, ge, lt, found⟩ | ⟨le, aligned⟩ := stays
    · exact absurd found (none_matches s ge lt)
    · have le_avail : max offset tail ≤ rb.availToRead := max_le searchable.offset_le le
      exact ⟨none_matches, le, aligned, sizeSub_of_le le_avail (by omega)⟩
  cases scans with
  | before s ge lt eq least =>
    have readable : s < rb.availToRead := by
      obtain ⟨s', ge', lt', found⟩ | ⟨le, -⟩ := stays
      · have first : s ≤ s' := Nat.le_of_not_lt fun lt => least s' ge' lt ((before_iff lt').mp found).2
        exact first.trans_lt ((before_iff lt').mp found).1
      · omega
    have first : IsLeast {s | offset ≤ s ∧ rb.Matches c s} s := by
      refine ⟨⟨ge, (before_iff lt).mpr ⟨readable, eq⟩⟩, ?_⟩
      rintro t ⟨ge', found⟩
      by_contra behind
      exact least t ge' (by omega) ((before_iff (by omega)).mp found).2
    exact ⟨_, answer_eq, .inl ⟨s, toInt_of_lt (index s first), first⟩⟩
  | behind t none_before lt lt_alloc short eq least =>
    obtain ⟨none_matches, le, aligned, left_eq⟩ := past none_before
    have first : IsLeast {t | t < rb.availToRead - max offset tail ∧ (rb.p t).toInt = c} t :=
      ⟨⟨left_eq ▸ lt, eq⟩, fun u found => Nat.le_of_not_lt fun lt => least u lt found.2⟩
    have overall := isLeast_shift none_matches ((aligned.isLeast_iff inside tail_eq t).mp first)
    exact ⟨_, answer_eq, .inl ⟨_, toInt_of_lt (index _ overall), overall⟩⟩
  | nowhere none_before le short none_behind =>
    obtain ⟨none_matches, -, aligned, left_eq⟩ := past none_before
    refine ⟨_, answer_eq, .inr ⟨rfl, fun s ge found => ?_⟩⟩
    obtain ⟨t, least⟩ := exists_isLeast none_matches ge found
    obtain ⟨lt, eq⟩ := ((aligned.isLeast_iff inside tail_eq t).mpr least).1
    exact none_behind t (left_eq ▸ lt) eq
  | escapes none_before long none_behind =>
    obtain ⟨none_matches, le, aligned, left_eq⟩ := past none_before
    rw [left_eq] at long none_behind
    by_cases missing : ∀ s ≥ offset, ¬ rb.Matches c s
    · have short := length missing
      omega
    · push Not at missing
      obtain ⟨s, ge, found⟩ := missing
      obtain ⟨t, least⟩ := exists_isLeast none_matches ge found
      obtain ⟨lt, eq⟩ := ((aligned.isLeast_iff inside tail_eq t).mpr least).1
      have short := index _ (isLeast_shift none_matches least)
      exact absurd eq (none_behind t lt (by omega) (by omega))

theorem Finds.exists_isLeast {n : ℤ} (finds : rb.Finds c offset n) (nonneg : 0 ≤ n) :
    ∃ s : ℕ, n = s ∧ IsLeast {s | offset ≤ s ∧ rb.Matches c s} s := by
  obtain ⟨s, rfl, least⟩ | ⟨rfl, -⟩ := finds
  · exact ⟨s, rfl, least⟩
  · omega

theorem bmod_eq_sub {n : ℤ} {m : ℕ} (ge : m ≤ 2 * n) (lt : n < m) : n.bmod m = n - m := by
  rw [← Int.sub_bmod_right]
  exact Int.bmod_eq_of_le (by omega) (by omega)

theorem toInt_eq (lt : s < 2 ^ 32 - 1) : toInt s = s ∨ toInt s = s - (2 ^ 32 : ℕ) := by
  by_cases low : s < 2 ^ 31
  · exact .inl (toInt_of_lt low)
  · exact .inr (bmod_eq_sub (by omega) (by omega))

theorem not_finds_toInt (ge : rb.availToRead ≤ s) (lt : s < 2 ^ 32 - 1) :
    ¬ rb.Finds c offset (toInt s) := by
  rintro (⟨m, eq, least⟩ | ⟨eq, -⟩)
  · have below := (matches_iff.mp least.1.2).1
    have wrapped := toInt_eq lt
    omega
  · have wrapped := toInt_eq lt
    omega

theorem sizeSub_of_lt {a b : ℕ} (lt : a < b) (small : b < 2 ^ 64) : sizeSub a b = a + 2 ^ 64 - b := by
  unfold sizeSub
  omega

theorem aligned_of_isLeast (inside : rb.rhead ≤ rb.alloc) (wrapped : rb.alloc - rb.rhead < offset)
    (least : ∀ u, IsLeast {t | t < rb.availToRead - offset ∧ (rb.p t).toInt = c} u ↔
      IsLeast {t | rb.Matches c (offset + t)} u) : rb.Aligned c offset := by
  refine .inr fun u => ?_
  rw [← least u]
  congr! 3 with t
  rw [matches_iff_of_le inside]
  constructor
  · rintro ⟨lt, -, eq⟩
    exact ⟨lt, eq⟩
  · rintro ⟨lt, eq⟩
    exact ⟨lt, by omega, eq⟩

theorem SearchCorrect.searchable (correct : rb.SearchCorrect c offset) (valid : rb.Valid)
    (small : rb.alloc < 2 ^ 31) : rb.Searchable c offset := by
  have le_alloc := valid.le
  have inside := valid.rhead.le
  obtain ⟨n, answer_eq, finds⟩ := correct
  have offset_le : offset ≤ rb.availToRead := by
    by_contra beyond
    rw [strchr, if_pos (Nat.lt_of_not_le beyond)] at answer_eq
    cases answer_eq
  have scans := scans_strchr (c := c) offset_le
  refine ⟨offset_le, ?_, fun s least => ?_, fun missing => by omega⟩
  · generalize rb.strchr c offset = answer at scans answer_eq
    cases scans with
    | before s ge lt eq least =>
      obtain rfl := Search.returns.inj answer_eq
      by_cases readable : s < rb.availToRead
      · exact .inl ⟨s, ge, lt, (matches_iff_of_lt lt).mpr ⟨readable, eq⟩⟩
      · exact absurd finds (not_finds_toInt (by omega) (by omega))
    | behind t none_before lt lt_alloc short eq least =>
      obtain rfl := Search.returns.inj answer_eq
      by_cases reaches : rb.alloc - rb.rhead ≤ rb.availToRead
      · refine .inr ⟨reaches, ?_⟩
        by_cases straight : offset ≤ rb.alloc - rb.rhead
        · exact .inl straight
        · rw [max_eq_left (by omega)] at lt finds
          rw [sizeSub_of_le offset_le (by omega)] at lt
          rw [toInt_of_lt (by omega)] at finds
          obtain ⟨s, s_eq, first⟩ := finds.exists_isLeast (Int.natCast_nonneg _)
          obtain rfl := Int.ofNat_inj.mp s_eq
          have here : IsLeast {t | t < rb.availToRead - offset ∧ (rb.p t).toInt = c} t :=
            ⟨⟨lt, eq⟩, fun u found => Nat.le_of_not_lt fun lt => least u lt found.2⟩
          have there : IsLeast {t | rb.Matches c (offset + t)} t :=
            ⟨first.1.2, fun u found => Nat.le_of_add_le_add_left (first.2 ⟨Nat.le_add_right _ _, found⟩)⟩
          refine aligned_of_isLeast inside (by omega) fun u => ⟨fun other => ?_, fun other => ?_⟩
          · rwa [other.unique here]
          · rwa [other.unique there]
      · exact absurd finds (not_finds_toInt (by omega) (by omega))
    | nowhere none_before le short none_behind =>
      cases answer_eq
      have reaches : rb.alloc - rb.rhead ≤ rb.availToRead := by
        by_contra stale
        rw [sizeSub_of_lt (by omega) (by omega)] at le
        omega
      refine .inr ⟨reaches, ?_⟩
      by_cases straight : offset ≤ rb.alloc - rb.rhead
      · exact .inl straight
      · rw [max_eq_left (by omega), sizeSub_of_le offset_le (by omega)] at none_behind
        obtain ⟨s, eq, -⟩ | ⟨-, missing⟩ := finds
        · omega
        · refine aligned_of_isLeast inside (by omega) fun u => ⟨fun other => ?_, fun other => ?_⟩
          · exact absurd other.1.2 (none_behind u other.1.1)
          · exact absurd other.1 (missing _ (Nat.le_add_right _ _))
    | escapes => cases answer_eq
  · have below := (matches_iff.mp least.1.2).1
    omega

end Ringbuf
end CadoNfs.Utils
