import CadoNfs.Sieve.ReducePlattice

/-!
# Reducing a lattice in assembly

`reduce_plattice_asm` of `sieve/las-reduce-plattice-production-asm.hpp`, instruction by instruction.
The vectors `(mi0, -j0)` and `(i1, j1)` are kept in 64-bit registers, first coordinate low.
-/

namespace CadoNfs.Sieve

/-! ## The instructions used

Operands are in AT&T order, and a 32-bit result clears the upper half of its register. Every
conditional instruction follows a `cmpl`, and only the flags of `cmpl` are kept. -/

inductive Reg
  | branch | u0 | u1 | I | rax | rdx
  deriving DecidableEq

structure Machine where
  reg : Reg → BitVec 64
  carry : Bool
  zero : Bool

namespace Machine

def low (m : Machine) (r : Reg) : BitVec 32 := (m.reg r).setWidth 32

def setq (m : Machine) (dst : Reg) (value : BitVec 64) : Machine :=
  { m with reg := Function.update m.reg dst value }

def setl (m : Machine) (dst : Reg) (value : BitVec 32) : Machine := m.setq dst (value.setWidth 64)

@[simp] theorem low_setl (m : Machine) (dst : Reg) (value : BitVec 32) : (m.setl dst value).low dst = value := by
  apply BitVec.eq_of_toNat_eq
  have := value.isLt
  simp only [low, setl, setq, Function.update_self, BitVec.toNat_setWidth]
  omega

theorem reg_setl_of_ne (m : Machine) {dst r : Reg} (other : r ≠ dst) (value : BitVec 32) :
    (m.setl dst value).reg r = m.reg r := Function.update_of_ne other _ _

theorem low_setl_of_ne (m : Machine) {dst r : Reg} (other : r ≠ dst) (value : BitVec 32) :
    (m.setl dst value).low r = m.low r := by
  rw [low, reg_setl_of_ne m other, low]

def movq (m : Machine) (src dst : Reg) : Machine := m.setq dst (m.reg src)
def movl (m : Machine) (src dst : Reg) : Machine := m.setl dst (m.low src)
def xorl (m : Machine) (src dst : Reg) : Machine := m.setl dst (m.low dst ^^^ m.low src)
def subq (m : Machine) (src dst : Reg) : Machine := m.setq dst (m.reg dst - m.reg src)
def subl (m : Machine) (src dst : Reg) : Machine := m.setl dst (m.low dst - m.low src)
def imull (m : Machine) (src dst : Reg) : Machine := m.setl dst (m.low dst * m.low src)

def leal (m : Machine) (base index : Reg) (scale : BitVec 32) (dst : Reg) : Machine :=
  m.setl dst (m.low base + m.low index * scale)

def shll (m : Machine) (count : Nat) (dst : Reg) : Machine := m.setl dst (m.low dst <<< count)
def shlq (m : Machine) (count : Nat) (dst : Reg) : Machine := m.setq dst (m.reg dst <<< count)
def shrq (m : Machine) (count : Nat) (dst : Reg) : Machine := m.setq dst (m.reg dst >>> count)

def shldq (m : Machine) (count : Nat) (src dst : Reg) : Machine :=
  m.setq dst ((m.reg dst <<< count) ||| (m.reg src >>> (64 - count)))

def cmpl (m : Machine) (src dst : Reg) : Machine :=
  { m with carry := m.low dst < m.low src, zero := m.low dst = m.low src }

@[simp] theorem low_cmpl (m : Machine) (src dst r : Reg) : (m.cmpl src dst).low r = m.low r := rfl

@[simp] theorem low_shll (m : Machine) (count : Nat) (dst : Reg) :
    (m.shll count dst).low dst = m.low dst <<< count := low_setl _ _ _

@[simp] theorem low_leal (m : Machine) (base index : Reg) (scale : BitVec 32) (dst : Reg) :
    (m.leal base index scale dst).low dst = m.low base + m.low index * scale := low_setl _ _ _

def above (m : Machine) : Bool := !m.carry && !m.zero
def belowOrEqual (m : Machine) : Bool := m.carry || m.zero

theorem above_cmpl (m : Machine) (src dst : Reg) :
    (m.cmpl src dst).above = true ↔ m.low src < m.low dst := by
  simp only [above, cmpl, Bool.and_eq_true, Bool.not_eq_true', decide_eq_false_iff_not]
  bv_omega

theorem belowOrEqual_cmpl (m : Machine) (src dst : Reg) :
    (m.cmpl src dst).belowOrEqual = true ↔ m.low dst ≤ m.low src := by
  simp only [belowOrEqual, cmpl, Bool.or_eq_true, decide_eq_true_eq]
  bv_omega

def cmovb (m : Machine) (src dst : Reg) : Machine := if m.carry then m.movq src dst else m

-- Divides `edx:eax`; traps if the quotient does not fit.
def divl (m : Machine) (src : Reg) : Except Failure Machine :=
  let dividend := (m.low .rdx).toNat * 2 ^ 32 + (m.low .rax).toNat
  let divisor := (m.low src).toNat
  if divisor = 0 ∨ 2 ^ 32 ≤ dividend / divisor then .error .divideError
  else .ok ((m.setl .rax (.ofNat 32 (dividend / divisor))).setl .rdx (.ofNat 32 (dividend % divisor)))

/-! ## The blocks

The two branches are the same up to the exchange of the two vectors. -/

def subtractiveBlockNoHead (src dst : Reg) (m : Machine) : Machine := m.subq src dst

def subtractiveBlock (src dst : Reg) (m : Machine) : Machine :=
  (((m.movq dst .rdx).subtractiveBlockNoHead src dst).cmpl src .rdx).cmovb .rdx dst

def subtractiveBlockBranch1NoHead : Machine → Machine := subtractiveBlockNoHead .u1 .u0
def subtractiveBlockBranch1 : Machine → Machine := subtractiveBlock .u1 .u0
def subtractiveBlockBranch2NoHead : Machine → Machine := subtractiveBlockNoHead .u0 .u1
def subtractiveBlockBranch2 : Machine → Machine := subtractiveBlock .u0 .u1

inductive Label
  | first | second | divideFirst | divideSecond | exit
  deriving DecidableEq

def branchBlock (src dst : Reg) (noHead block : Machine → Machine) (divide next : Label)
    (m : Machine) : Label × Machine :=
  let m := m.cmpl src .I
  if m.above then (.exit, m) else
  let m := m.leal src src 2 .rdx
  let m := m.shll 1 .rdx
  let m := m.cmpl dst .rdx
  if m.belowOrEqual then (divide, m) else
  let m := noHead m
  let m := block m
  let m := block m
  let m := block m
  let m := block m
  let m := block m
  (next, m)

def first (m : Machine) : Label × Machine :=
  branchBlock .u1 .u0 subtractiveBlockBranch1NoHead subtractiveBlockBranch1 .divideFirst .second
    (m.xorl .branch .branch)

def second (m : Machine) : Label × Machine :=
  branchBlock .u0 .u1 subtractiveBlockBranch2NoHead subtractiveBlockBranch2 .divideSecond .first
    (m.movl .I .branch)

def divideBlock (src dst : Reg) (next : Label) (m : Machine) : Except Failure (Label × Machine) := do
  let m := m.xorl .rdx .rdx
  let m := m.movl dst .rax
  let m ← m.divl src
  let m := m.shrq 0x20 dst
  let m := m.shlq 0x20 .rdx
  let m := m.shldq 0x20 src .branch
  let m := m.imull .branch .rax
  let m := m.subl .rax dst
  let m := m.shldq 0x20 .rdx dst
  return (next, m)

def divideFirst : Machine → Except Failure (Label × Machine) := divideBlock .u1 .u0 .second
def divideSecond : Machine → Except Failure (Label × Machine) := divideBlock .u0 .u1 .first

def run : Nat → Label → Machine → Except Failure Machine
  | _, .exit, m => .ok m
  | 0, _, _ => .error .outOfFuel
  | fuel + 1, .first, m => run fuel m.first.1 m.first.2
  | fuel + 1, .second, m => run fuel m.second.1 m.second.2
  | fuel + 1, .divideFirst, m => m.divideFirst.bind fun next => run fuel next.1 next.2
  | fuel + 1, .divideSecond, m => m.divideSecond.bind fun next => run fuel next.1 next.2

end Machine

namespace PlatticeInfo

def pack (high low : BitVec 32) : BitVec 64 := (high.setWidth 64 <<< 32) ||| low.setWidth 64

def load (p : PlatticeInfo) (I : BitVec 32) (scratch : Reg → BitVec 64) : Machine where
  reg
    | .u0 => pack (-p.j0) p.mi0
    | .u1 => pack p.j1 p.i1
    | .I => I.setWidth 64
    | r => scratch r
  carry := false
  zero := false

def unload (m : Machine) : PlatticeInfo where
  mi0 := m.low .u0
  j0 := -(m.reg .u0 >>> 32).setWidth 32
  i1 := m.low .u1
  j1 := (m.reg .u1 >>> 32).setWidth 32

def finishAsm (ndebug : Bool) (I : BitVec 32) (branch : BitVec 32) (p : PlatticeInfo) :
    Except Failure PlatticeInfo := do
  if branch ≠ 0 then
    if p.mi0 = 0 then
      return reduceWithVerticalVector ⟨p.i1, p.j1, 0, p.j0⟩ I
    assert ndebug (I ≤ p.mi0 + p.i1)
    return p.addWarp ((p.mi0 + p.i1 - I) / p.mi0)
  if p.i1 = 0 then
    return reduceWithVerticalVector { p with j0 := p.j1 - p.j0 } I
  assert ndebug (I ≤ p.mi0 + p.i1)
  return p.addStep ((p.mi0 + p.i1 - I) / p.i1)

def reducePlatticeAsm (ndebug : Bool) (scratch : Reg → BitVec 64) (p : PlatticeInfo) (I : BitVec 32) :
    Except Failure PlatticeInfo :=
  if p.needsSpecialTreatment I then .ok (p.reduceWithVerticalVector I)
  else
    ((p.load I scratch).run (4 * p.i1.toNat + 4) .first).bind fun m =>
      finishAsm ndebug I (m.low .branch) (unload m)

/-! ## Words in halves of registers -/

@[simp] theorem toNat_pack (high low : BitVec 32) :
    (pack high low).toNat = high.toNat * 2 ^ 32 + low.toNat := by
  have h := high.isLt
  have l := low.isLt
  have shifted : (high.setWidth 64 <<< 32).toNat = high.toNat <<< 32 := by
    simp only [BitVec.toNat_shiftLeft, BitVec.toNat_setWidth, Nat.shiftLeft_eq]
    omega
  rw [pack, BitVec.toNat_or, shifted, BitVec.toNat_setWidth, Nat.mod_eq_of_lt (by omega),
    ← Nat.shiftLeft_add_eq_or_of_lt l, Nat.shiftLeft_eq]

@[simp] theorem low_pack (high low : BitVec 32) : (pack high low).setWidth 32 = low := by
  apply BitVec.eq_of_toNat_eq
  rw [BitVec.toNat_setWidth, toNat_pack, Nat.mul_add_mod_self_right, Nat.mod_eq_of_lt low.isLt]

theorem high_pack (high low : BitVec 32) : pack high low >>> 32 = high.setWidth 64 := by
  apply BitVec.eq_of_toNat_eq
  have h := high.isLt
  have l := low.isLt
  rw [BitVec.toNat_ushiftRight, toNat_pack, Nat.shiftRight_eq_div_pow, BitVec.toNat_setWidth]
  omega

theorem pack_sub {high high' low low' : BitVec 32} (le : low'.toNat ≤ low.toNat) :
    pack high low - pack high' low' = pack (high - high') (low - low') := by
  apply BitVec.eq_of_toNat_eq
  rw [BitVec.toNat_sub, toNat_pack, toNat_pack, toNat_pack, BitVec.toNat_sub_of_le le, BitVec.toNat_sub]
  have := high.isLt
  have := high'.isLt
  have := low.isLt
  omega

theorem umod_eq_sub (x y : BitVec 32) : x - x / y * y = x % y := by
  apply BitVec.eq_of_toNat_eq
  have le := Nat.div_mul_le_self x.toNat y.toNat
  have product : (x / y * y).toNat = x.toNat / y.toNat * y.toNat := by
    rw [BitVec.toNat_mul, BitVec.toNat_udiv, Nat.mod_eq_of_lt (le.trans_lt x.isLt)]
  rw [BitVec.toNat_sub_of_le (by rwa [BitVec.le_def, product]), product, BitVec.toNat_umod, mul_comm,
    ← Nat.mod_eq_sub_mul_div]

/-! ## One half of the loop -/

variable {ndebug : Bool} {I : BitVec 32} {p : PlatticeInfo} {m : Machine}

structure Pair (src dst : Reg) (m : Machine) (I h' l' h l : BitVec 32) : Prop where
  vectors : src = .u1 ∧ dst = .u0 ∨ src = .u0 ∧ dst = .u1
  src : m.reg src = pack h' l'
  dst : m.reg dst = pack h l
  I : m.low .I = I

section
variable {src dst : Reg} {h' l' h l : BitVec 32}

theorem Pair.low_src (pair : Pair src dst m I h' l' h l) : m.low src = l' := by
  rw [Machine.low, pair.src, low_pack]

theorem Pair.low_dst (pair : Pair src dst m I h' l' h l) : m.low dst = l := by
  rw [Machine.low, pair.dst, low_pack]

theorem Pair.other (pair : Pair src dst m I h' l' h l) {m' : Machine}
    (same : ∀ r, r = .u0 ∨ r = .u1 ∨ r = .I → m'.reg r = m.reg r) : Pair src dst m' I h' l' h l := by
  refine ⟨pair.vectors, ?_, ?_, ?_⟩
  · rw [same src (by rcases pair.vectors with ⟨rfl, rfl⟩ | ⟨rfl, rfl⟩ <;> simp), pair.src]
  · rw [same dst (by rcases pair.vectors with ⟨rfl, rfl⟩ | ⟨rfl, rfl⟩ <;> simp), pair.dst]
  · rw [← pair.I, Machine.low, Machine.low, same .I (by simp)]

theorem Pair.subtract (pair : Pair src dst m I h' l' h l) (le : l'.toNat ≤ l.toNat) :
    Pair src dst (m.subtractiveBlockNoHead src dst) I h' l' (h - h') (l - l') := by
  have difference : m.reg dst - m.reg src = pack (h - h') (l - l') := by
    rw [pair.src, pair.dst, pack_sub le]
  rcases pair.vectors with ⟨rfl, rfl⟩ | ⟨rfl, rfl⟩
  · exact ⟨pair.vectors, pair.src, difference, pair.I⟩
  · exact ⟨pair.vectors, pair.src, difference, pair.I⟩

theorem Pair.block (pair : Pair src dst m I h' l' h l) :
    Pair src dst (m.subtractiveBlock src dst) I h' l' (if l < l' then h else h - h')
      (if l < l' then l else l - l') := by
  have compared : (((m.movq dst .rdx).subtractiveBlockNoHead src dst).cmpl src .rdx).carry =
      decide (l < l') := by
    rw [← pair.low_src, ← pair.low_dst]
    rcases pair.vectors with ⟨rfl, rfl⟩ | ⟨rfl, rfl⟩ <;> rfl
  unfold Machine.subtractiveBlock Machine.cmovb
  rw [compared]
  by_cases borrow : l < l'
  · rw [if_pos (by simpa using borrow), if_pos borrow, if_pos borrow]
    have restored : m.reg dst = pack h l := pair.dst
    rcases pair.vectors with ⟨rfl, rfl⟩ | ⟨rfl, rfl⟩
    · exact ⟨pair.vectors, pair.src, restored, pair.I⟩
    · exact ⟨pair.vectors, pair.src, restored, pair.I⟩
  · rw [if_neg (by simpa using borrow), if_neg borrow, if_neg borrow]
    have after := pair.subtract (not_lt.mp borrow)
    rcases pair.vectors with ⟨rfl, rfl⟩ | ⟨rfl, rfl⟩
    · exact ⟨after.vectors, after.src, after.dst, after.I⟩
    · exact ⟨after.vectors, after.src, after.dst, after.I⟩

theorem div_of_ge {x y : BitVec 32} (pos : 0 < y.toNat) (ge : y.toNat ≤ x.toNat) :
    x / y = (x - y) / y + 1 := by
  apply BitVec.eq_of_toNat_eq
  have quotient : (x - y).toNat / y.toNat + 1 = x.toNat / y.toNat := by
    rw [BitVec.toNat_sub_of_le ge, ← Nat.div_eq_sub_div pos ge]
  have := Nat.div_le_self x.toNat y.toNat
  have := x.isLt
  rw [BitVec.toNat_add, BitVec.toNat_udiv, BitVec.toNat_udiv, ← quotient, show (1 : BitVec 32).toNat = 1 from rfl,
    Nat.mod_eq_of_lt (by omega)]

theorem Pair.cascade (pair : Pair src dst m I h' l' h l) (pos : 0 < l'.toNat) (n : Nat)
    (few : l.toNat / l'.toNat ≤ n) :
    Pair src dst ((Machine.subtractiveBlock src dst)^[n] m) I h' l' (h - l / l' * h') (l - l / l' * l') := by
  induction n generalizing m h l with
  | zero =>
    have none : l / l' = 0 := BitVec.eq_of_toNat_eq (by rw [BitVec.toNat_udiv]; simpa using few)
    simpa [none] using pair
  | succ n ih =>
    rw [Function.iterate_succ_apply]
    have next := pair.block
    by_cases borrow : l < l'
    · rw [if_pos borrow, if_pos borrow] at next
      exact ih next (by rw [Nat.div_eq_of_lt borrow]; exact Nat.zero_le n)
    · rw [if_neg borrow, if_neg borrow] at next
      have ge : l'.toNat ≤ l.toNat := not_lt.mp borrow
      have fewer : (l - l').toNat / l'.toNat ≤ n := by
        rw [Nat.div_eq_sub_div pos ge] at few
        rw [BitVec.toNat_sub_of_le ge]
        omega
      have rest := ih next fewer
      rw [div_of_ge pos ge]
      have high : h - ((l - l') / l' + 1) * h' = h - h' - (l - l') / l' * h' := by ring
      have low : l - ((l - l') / l' + 1) * l' = l - l' - (l - l') / l' * l' := by ring
      rwa [high, low]

-- `leal` and `shl` compute six times the divisor, modulo `2^32`.
theorem six_times (x : BitVec 32) : ((x + x * 2) <<< 1).toNat = 6 * x.toNat % 2 ^ 32 := by
  have := x.isLt
  simp only [BitVec.toNat_shiftLeft, BitVec.toNat_add, BitVec.toNat_mul, Nat.shiftLeft_eq,
    show (2 : BitVec 32).toNat = 2 from rfl]
  omega

theorem Pair.exit (pair : Pair src dst m I h' l' h l) (narrow : l' < I)
    (noHead block : Machine → Machine) (divide next : Machine.Label) :
    ∃ m', m.branchBlock src dst noHead block divide next = (.exit, m') ∧
      Pair src dst m' I h' l' h l ∧ m'.low .branch = m.low .branch := by
  have above : (m.cmpl src .I).above = true := by
    rw [Machine.above_cmpl, pair.I, pair.low_src]
    exact narrow
  refine ⟨m.cmpl src .I, ?_, pair.other fun _ _ => rfl, rfl⟩
  rw [Machine.branchBlock, if_pos above]

theorem Pair.branch (pair : Pair src dst m I h' l' h l) (pos : 0 < I.toNat) (wide : I ≤ l')
    (ordered : l'.toNat ≤ l.toNat) (divide next : Machine.Label) :
    ∃ m', (m.branchBlock src dst (Machine.subtractiveBlockNoHead src dst)
          (Machine.subtractiveBlock src dst) divide next = (next, m') ∧
        Pair src dst m' I h' l' (h - l / l' * h') (l - l / l' * l')) ∨
      (m.branchBlock src dst (Machine.subtractiveBlockNoHead src dst)
          (Machine.subtractiveBlock src dst) divide next = (divide, m') ∧
        Pair src dst m' I h' l' h l) := by
  have l'pos : 0 < l'.toNat := pos.trans_le wide
  have above : ¬ (m.cmpl src .I).above = true := by
    rw [Machine.above_cmpl, pair.I, pair.low_src]
    exact BitVec.not_lt.mpr wide
  set m5 := ((m.cmpl src .I).leal src src 2 .rdx).shll 1 .rdx with hm5
  have pair5 : Pair src dst m5 I h' l' h l := by
    apply pair.other
    rintro r (rfl | rfl | rfl) <;> rfl
  have pair6 : Pair src dst (m5.cmpl dst .rdx) I h' l' h l := pair5.other fun _ _ => rfl
  have product : m5.low .rdx = (l' + l' * 2) <<< 1 := by
    rw [hm5, Machine.low_shll, Machine.low_leal, Machine.low_cmpl, pair.low_src]
  unfold Machine.branchBlock
  rw [if_neg above]
  by_cases division : (m5.cmpl dst .rdx).belowOrEqual = true
  · exact ⟨m5.cmpl dst .rdx, .inr ⟨if_pos division, pair6⟩⟩
  · -- The quotient is at most five, also when six times the divisor wraps.
    have few : l.toNat / l'.toNat ≤ 5 := by
      rw [Machine.belowOrEqual_cmpl, pair5.low_dst, product, BitVec.le_def, six_times] at division
      have := Nat.mod_le (6 * l'.toNat) (2 ^ 32)
      exact Nat.le_of_lt_succ ((Nat.div_lt_iff_lt_mul l'pos).mpr (by omega))
    refine ⟨_, .inl ⟨if_neg division, ?_⟩⟩
    have reduced := (pair6.subtract ordered).cascade l'pos 5 (by
      rw [BitVec.toNat_sub_of_le ordered]
      exact (Nat.div_le_div_right (Nat.sub_le _ _)).trans few)
    have high : h - l / l' * h' = h - h' - (l - l') / l' * h' := by
      rw [div_of_ge l'pos ordered]
      ring
    have low : l - l / l' * l' = l - l' - (l - l') / l' * l' := by
      rw [div_of_ge l'pos ordered]
      ring
    rw [high, low]
    exact reduced

theorem shift_back (x : BitVec 32) : (x.setWidth 64 <<< 32) >>> 32 = x.setWidth 64 := by
  apply BitVec.eq_of_toNat_eq
  have := x.isLt
  simp only [BitVec.toNat_ushiftRight, BitVec.toNat_shiftLeft, BitVec.toNat_setWidth, Nat.shiftLeft_eq,
    Nat.shiftRight_eq_div_pow]
  omega

theorem setWidth_back (x : BitVec 32) : (x.setWidth 64).setWidth 32 = x := by
  apply BitVec.eq_of_toNat_eq
  have := x.isLt
  simp only [BitVec.toNat_setWidth]
  omega

theorem setWidth_shld (x : BitVec 64) (h l : BitVec 32) :
    ((x <<< 32) ||| (pack h l >>> 32)).setWidth 32 = h := by
  have cleared : (x <<< 32).setWidth 32 = 0#32 := by
    apply BitVec.eq_of_toNat_eq
    simp only [BitVec.toNat_setWidth, BitVec.toNat_shiftLeft, Nat.shiftLeft_eq, BitVec.toNat_ofNat]
    omega
  rw [BitVec.setWidth_or, cleared, high_pack, setWidth_back, BitVec.zero_or]

theorem Pair.divide (pair : Pair src dst m I h' l' h l) (nonzero : l' ≠ 0) (next : Machine.Label) :
    ∃ m', m.divideBlock src dst next = .ok (next, m') ∧
      Pair src dst m' I h' l' (h - l / l' * h') (l - l / l' * l') := by
  set m2 := (m.xorl .rdx .rdx).movl dst .rax with hm2
  have pair2 : Pair src dst m2 I h' l' h l := by
    apply pair.other
    rintro r (rfl | rfl | rfl) <;> rfl
  have edx : m2.low .rdx = 0 := by
    rw [hm2, Machine.movl, Machine.low_setl_of_ne _ (by decide), Machine.xorl, Machine.low_setl,
      BitVec.xor_self]
    rfl
  have eax : m2.low .rax = l := by
    rw [hm2, Machine.movl, Machine.low_setl]
    rcases pair.vectors with ⟨rfl, rfl⟩ | ⟨rfl, rfl⟩ <;> exact pair.low_dst
  have quotient : BitVec.ofNat 32 (l.toNat / l'.toNat) = l / l' := by
    have := (Nat.div_le_self l.toNat l'.toNat).trans_lt l.isLt
    exact BitVec.eq_of_toNat_eq (by rw [BitVec.toNat_ofNat, BitVec.toNat_udiv, Nat.mod_eq_of_lt this])
  have remainder : BitVec.ofNat 32 (l.toNat % l'.toNat) = l % l' := by
    have := (Nat.mod_le l.toNat l'.toNat).trans_lt l.isLt
    exact BitVec.eq_of_toNat_eq (by rw [BitVec.toNat_ofNat, BitVec.toNat_umod, Nat.mod_eq_of_lt this])
  have run : m2.divl src = .ok ((m2.setl .rax (l / l')).setl .rdx (l % l')) := by
    have l'pos : l'.toNat ≠ 0 := fun zero => nonzero (BitVec.eq_of_toNat_eq zero)
    have fits : ¬ (l'.toNat = 0 ∨ 2 ^ 32 ≤ l.toNat / l'.toNat) := by
      have := Nat.div_le_self l.toNat l'.toNat
      have := l.isLt
      omega
    simp only [Machine.divl, edx, eax, pair2.low_src, show (0 : BitVec 32).toNat = 0 from rfl, zero_mul,
      zero_add, if_neg fits, quotient, remainder]
  have packed : (((pack h l >>> 32).setWidth 32 - (l / l' *
        ((m2.reg .branch <<< 32) ||| (pack h' l' >>> 32)).setWidth 32)).setWidth 64 <<< 32 |||
      (((l % l').setWidth 64 <<< 32) >>> 32)) = pack (h - l / l' * h') (l - l / l' * l') := by
    rw [shift_back, high_pack, setWidth_back, setWidth_shld, umod_eq_sub]
    rfl
  rw [Machine.divideBlock, run]
  refine ⟨_, rfl, pair.vectors, ?_, ?_, ?_⟩
  · rcases pair.vectors with ⟨rfl, rfl⟩ | ⟨rfl, rfl⟩ <;> exact pair.src
  · have source := pair2.src
    have target := pair2.dst
    rw [← packed, ← source, ← target]
    rcases pair.vectors with ⟨rfl, rfl⟩ | ⟨rfl, rfl⟩ <;>
      simp only [Machine.shldq, Machine.subl, Machine.imull, Machine.shlq, Machine.shrq, Machine.setl,
        Machine.setq, Machine.low, Function.update_self, Function.update_of_ne, ne_eq, reduceCtorEq,
        not_false_eq_true, setWidth_back, Nat.reduceSub]
  · rcases pair.vectors with ⟨rfl, rfl⟩ | ⟨rfl, rfl⟩ <;> exact pair.I

end

structure Loaded (I : BitVec 32) (p : PlatticeInfo) (m : Machine) : Prop where
  u0 : m.reg .u0 = pack (-p.j0) p.mi0
  u1 : m.reg .u1 = pack p.j1 p.i1
  I : m.low .I = I

theorem Loaded.first (loaded : Loaded I p m) : Pair .u1 .u0 m I p.j1 p.i1 (-p.j0) p.mi0 :=
  ⟨.inl ⟨rfl, rfl⟩, loaded.u1, loaded.u0, loaded.I⟩

theorem Loaded.second (loaded : Loaded I p m) : Pair .u0 .u1 m I (-p.j0) p.mi0 p.j1 p.i1 :=
  ⟨.inr ⟨rfl, rfl⟩, loaded.u0, loaded.u1, loaded.I⟩

theorem Loaded.of_first {quotient : BitVec 32}
    (pair : Pair .u1 .u0 m I p.j1 p.i1 (-p.j0 - quotient * p.j1) (p.mi0 - quotient * p.i1)) :
    Loaded I (p.addStep quotient) m := by
  refine ⟨?_, pair.src, pair.I⟩
  rw [pair.dst]
  congr 1
  show -p.j0 - quotient * p.j1 = -(p.j0 + quotient * p.j1)
  ring

theorem Loaded.of_second {quotient : BitVec 32}
    (pair : Pair .u0 .u1 m I (-p.j0) p.mi0 (p.j1 - quotient * -p.j0) (p.i1 - quotient * p.mi0)) :
    Loaded I (p.addWarp quotient) m := by
  refine ⟨pair.src, ?_, pair.I⟩
  rw [pair.dst]
  congr 1
  show p.j1 - quotient * -p.j0 = p.j1 + quotient * p.j0
  ring

theorem Loaded.unload (loaded : Loaded I p m) : unload m = p := by
  have mi0 : m.low .u0 = p.mi0 := loaded.second.low_src
  have i1 : m.low .u1 = p.i1 := loaded.first.low_src
  rw [PlatticeInfo.unload, mi0, i1, loaded.u0, loaded.u1, high_pack, high_pack, setWidth_back,
    setWidth_back, neg_neg]

theorem loaded_load (p : PlatticeInfo) (I : BitVec 32) (scratch : Reg → BitVec 64) :
    Loaded I p (p.load I scratch) :=
  ⟨rfl, rfl, setWidth_back I⟩

theorem run_succ {fuel : Nat} {label : Machine.Label} {r : Machine} (returns : m.run fuel label = .ok r) :
    m.run (fuel + 1) label = .ok r := by
  induction fuel generalizing label m with
  | zero =>
    cases label with
    | exit => exact returns
    | _ => cases returns
  | succ fuel ih =>
    cases label with
    | exit => exact returns
    | first => exact ih returns
    | second => exact ih returns
    | divideFirst =>
      rw [Machine.run] at returns ⊢
      cases step : m.divideFirst with
      | error e => rw [step] at returns; cases returns
      | ok next => rw [step] at returns; exact ih returns
    | divideSecond =>
      rw [Machine.run] at returns ⊢
      cases step : m.divideSecond with
      | error e => rw [step] at returns; cases returns
      | ok next => rw [step] at returns; exact ih returns

theorem Loaded.first_exit (loaded : Loaded I p m) (narrow : p.i1 < I) :
    ∃ m', m.first = (.exit, m') ∧ Loaded I p m' ∧ m'.low .branch = 0 := by
  have pair : Pair .u1 .u0 (m.xorl .branch .branch) I p.j1 p.i1 (-p.j0) p.mi0 := by
    apply loaded.first.other
    rintro r (rfl | rfl | rfl) <;> rfl
  obtain ⟨m', step, after, branch⟩ := pair.exit narrow Machine.subtractiveBlockBranch1NoHead
    Machine.subtractiveBlockBranch1 .divideFirst .second
  refine ⟨m', step, ⟨after.dst, after.src, after.I⟩, ?_⟩
  rw [branch, Machine.xorl, Machine.low_setl, BitVec.xor_self]
  rfl

theorem Loaded.second_exit (loaded : Loaded I p m) (narrow : p.mi0 < I) :
    ∃ m', m.second = (.exit, m') ∧ Loaded I p m' ∧ m'.low .branch = I := by
  have pair : Pair .u0 .u1 (m.movl .I .branch) I (-p.j0) p.mi0 p.j1 p.i1 := by
    apply loaded.second.other
    rintro r (rfl | rfl | rfl) <;> rfl
  obtain ⟨m', step, after, branch⟩ := pair.exit narrow Machine.subtractiveBlockBranch2NoHead
    Machine.subtractiveBlockBranch2 .divideSecond .first
  refine ⟨m', step, ⟨after.src, after.dst, after.I⟩, ?_⟩
  rw [branch, Machine.movl, Machine.low_setl, loaded.I]

theorem Loaded.first_more (loaded : Loaded I p m) (pos : 0 < I.toNat) (wide : I ≤ p.i1)
    (ordered : p.i1.toNat ≤ p.mi0.toNat) :
    ∃ m', Loaded I (p.addStep (p.mi0 / p.i1)) m' ∧
      ∀ fuel r, m'.run fuel .second = .ok r → m.run (fuel + 2) .first = .ok r := by
  have pair : Pair .u1 .u0 (m.xorl .branch .branch) I p.j1 p.i1 (-p.j0) p.mi0 := by
    apply loaded.first.other
    rintro r (rfl | rfl | rfl) <;> rfl
  obtain ⟨m', ⟨step, after⟩ | ⟨step, after⟩⟩ := pair.branch pos wide ordered .divideFirst .second
  · refine ⟨m', .of_first after, fun fuel r returns => ?_⟩
    show m.first.2.run (fuel + 1) m.first.1 = .ok r
    rw [show m.first = (.second, m') from step]
    exact run_succ returns
  · have nonzero : p.i1 ≠ 0 := fun zero => by
      rw [zero, BitVec.le_def] at wide
      exact absurd wide (not_le.mpr pos)
    obtain ⟨m'', divided, reduced⟩ := after.divide nonzero .second
    refine ⟨m'', .of_first reduced, fun fuel r returns => ?_⟩
    show m.first.2.run (fuel + 1) m.first.1 = .ok r
    rw [show m.first = (.divideFirst, m') from step, Machine.run,
      show m'.divideFirst = .ok (.second, m'') from divided]
    exact returns

theorem Loaded.second_more (loaded : Loaded I p m) (pos : 0 < I.toNat) (wide : I ≤ p.mi0)
    (ordered : p.mi0.toNat ≤ p.i1.toNat) :
    ∃ m', Loaded I (p.addWarp (p.i1 / p.mi0)) m' ∧
      ∀ fuel r, m'.run fuel .first = .ok r → m.run (fuel + 2) .second = .ok r := by
  have pair : Pair .u0 .u1 (m.movl .I .branch) I (-p.j0) p.mi0 p.j1 p.i1 := by
    apply loaded.second.other
    rintro r (rfl | rfl | rfl) <;> rfl
  obtain ⟨m', ⟨step, after⟩ | ⟨step, after⟩⟩ := pair.branch pos wide ordered .divideSecond .first
  · refine ⟨m', .of_second after, fun fuel r returns => ?_⟩
    show m.second.2.run (fuel + 1) m.second.1 = .ok r
    rw [show m.second = (.first, m') from step]
    exact run_succ returns
  · have nonzero : p.mi0 ≠ 0 := fun zero => by
      rw [zero, BitVec.le_def] at wide
      exact absurd wide (not_le.mpr pos)
    obtain ⟨m'', divided, reduced⟩ := after.divide nonzero .first
    refine ⟨m'', .of_second reduced, fun fuel r returns => ?_⟩
    show m.second.2.run (fuel + 1) m.second.1 = .ok r
    rw [show m.second = (.divideSecond, m') from step, Machine.run,
      show m'.divideSecond = .ok (.first, m'') from divided]
    exact returns

theorem le_of_div_ne_zero {x y : BitVec 32} (nonzero : x / y ≠ 0) : y.toNat ≤ x.toNat := by
  by_contra less
  exact nonzero (BitVec.eq_of_toNat_eq (by
    rw [BitVec.toNat_udiv, Nat.div_eq_of_lt (not_le.mp less)]
    rfl))

theorem addStep_div_mi0 (p : PlatticeInfo) : (p.addStep (p.mi0 / p.i1)).mi0 = p.mi0 % p.i1 :=
  umod_eq_sub _ _

theorem addWarp_div_i1 (p : PlatticeInfo) : (p.addWarp (p.i1 / p.mi0)).i1 = p.i1 % p.mi0 :=
  umod_eq_sub _ _

theorem firstHalf_done {r : PlatticeInfo} (run : firstHalf ndebug I p = .ok (.done r)) :
    p.i1 < I ∧ finishAsm ndebug I 0 p = .ok r := by
  obtain ⟨-, run⟩ := of_assert run
  by_cases narrow : p.i1 < I
  · refine ⟨narrow, ?_⟩
    rw [if_pos narrow] at run
    simp only [finishAsm, ne_eq, not_true_eq_false, if_false]
    by_cases zero : p.i1 = 0
    · rw [if_pos zero] at run ⊢
      cases run
      rfl
    · rw [if_neg zero] at run ⊢
      obtain ⟨checked, run⟩ := of_assert run
      rw [assert, if_pos checked]
      cases run
      rfl
  · rw [if_neg narrow] at run
    obtain ⟨-, run⟩ := of_assert run
    cases run

theorem firstHalf_more {r : PlatticeInfo} (run : firstHalf ndebug I p = .ok (.more r)) :
    I ≤ p.i1 ∧ r = p.addStep (p.mi0 / p.i1) ∧ (ndebug = true ∨ p.i1.toNat ≤ p.mi0.toNat) := by
  obtain ⟨-, run⟩ := of_assert run
  by_cases narrow : p.i1 < I
  · rw [if_pos narrow] at run
    by_cases zero : p.i1 = 0
    · rw [if_pos zero] at run
      cases run
    · rw [if_neg zero] at run
      obtain ⟨-, run⟩ := of_assert run
      cases run
  · rw [if_neg narrow] at run
    obtain ⟨checked, run⟩ := of_assert run
    cases run
    exact ⟨BitVec.not_lt.mp narrow, rfl, checked.imp_right le_of_div_ne_zero⟩

theorem secondHalf_done {r : PlatticeInfo} (pos : 0 < I.toNat) (run : secondHalf ndebug I p = .ok (.done r)) :
    p.mi0 < I ∧ finishAsm ndebug I I p = .ok r := by
  have nonzero : I ≠ 0 := fun zero => by
    rw [zero] at pos
    exact absurd pos (lt_irrefl _)
  obtain ⟨-, run⟩ := of_assert run
  by_cases narrow : p.mi0 < I
  · refine ⟨narrow, ?_⟩
    rw [if_pos narrow] at run
    simp only [finishAsm, ne_eq, nonzero, not_false_eq_true, if_true]
    by_cases zero : p.mi0 = 0
    · rw [if_pos zero] at run ⊢
      cases run
      rfl
    · rw [if_neg zero] at run ⊢
      obtain ⟨checked, run⟩ := of_assert run
      rw [assert, if_pos checked]
      cases run
      rfl
  · rw [if_neg narrow] at run
    obtain ⟨-, run⟩ := of_assert run
    cases run

theorem secondHalf_more {r : PlatticeInfo} (run : secondHalf ndebug I p = .ok (.more r)) :
    I ≤ p.mi0 ∧ r = p.addWarp (p.i1 / p.mi0) := by
  obtain ⟨-, run⟩ := of_assert run
  by_cases narrow : p.mi0 < I
  · rw [if_pos narrow] at run
    by_cases zero : p.mi0 = 0
    · rw [if_pos zero] at run
      cases run
    · rw [if_neg zero] at run
      obtain ⟨-, run⟩ := of_assert run
      cases run
  · rw [if_neg narrow] at run
    obtain ⟨-, run⟩ := of_assert run
    cases run
    exact ⟨BitVec.not_lt.mp narrow, rfl⟩

/-- An iteration of the loop takes at most four blocks. -/
theorem Loaded.run (loaded : Loaded I p m) (pos : 0 < I.toNat)
    (ordered : ndebug = true → p.i1.toNat ≤ p.mi0.toNat ∨ p.i1 < I) {fuel : Nat} {r : PlatticeInfo}
    (returns : reduceLoop ndebug I fuel p = .ok r) :
    ∃ m', m.run (4 * fuel) .first = .ok m' ∧
      finishAsm ndebug I (m'.low .branch) (PlatticeInfo.unload m') = .ok r := by
  induction fuel generalizing p m with
  | zero => cases returns
  | succ fuel ih =>
    rw [reduceLoop] at returns
    cases half : firstHalf ndebug I p with
    | error e => rw [half] at returns; cases returns
    | ok next =>
    rw [half] at returns
    cases next with
    | done s =>
      cases returns
      obtain ⟨narrow, finished⟩ := firstHalf_done half
      obtain ⟨m', step, after, branch⟩ := loaded.first_exit narrow
      refine ⟨m', ?_, by rw [branch, after.unload, finished]⟩
      show m.first.2.run (4 * fuel + 3) m.first.1 = .ok m'
      rw [step]
      rfl
    | more q =>
    obtain ⟨wide, rfl, checked⟩ := firstHalf_more half
    have le : p.i1.toNat ≤ p.mi0.toNat := by
      rcases checked with release | le
      · exact (ordered release).resolve_right (BitVec.not_lt.mpr wide)
      · exact le
    obtain ⟨m1, loaded1, onward1⟩ := loaded.first_more pos wide le
    have less : (p.addStep (p.mi0 / p.i1)).mi0.toNat ≤ p.i1.toNat := by
      rw [addStep_div_mi0, BitVec.toNat_umod]
      exact (Nat.mod_lt _ (pos.trans_le wide)).le
    simp only [bind, Except.bind] at returns
    cases half' : secondHalf ndebug I (p.addStep (p.mi0 / p.i1)) with
    | error e => rw [half'] at returns; cases returns
    | ok next =>
    rw [half'] at returns
    cases next with
    | done s =>
      cases returns
      obtain ⟨narrow, finished⟩ := secondHalf_done pos half'
      obtain ⟨m', step, after, branch⟩ := loaded1.second_exit narrow
      refine ⟨m', onward1 (4 * fuel + 2) m' ?_, by rw [branch, after.unload, finished]⟩
      show m1.second.2.run (4 * fuel + 1) m1.second.1 = .ok m'
      rw [step]
      rfl
    | more q =>
    obtain ⟨wide', rfl⟩ := secondHalf_more half'
    obtain ⟨m2, loaded2, onward2⟩ := loaded1.second_more pos wide' less
    have less' : ((p.addStep (p.mi0 / p.i1)).addWarp ((p.addStep (p.mi0 / p.i1)).i1 /
        (p.addStep (p.mi0 / p.i1)).mi0)).i1.toNat ≤ (p.addStep (p.mi0 / p.i1)).mi0.toNat := by
      rw [addWarp_div_i1, BitVec.toNat_umod]
      exact (Nat.mod_lt _ (pos.trans_le wide')).le
    obtain ⟨m', finished, result⟩ := ih loaded2 (fun _ => .inl less') returns
    exact ⟨m', onward1 _ _ (onward2 _ _ finished), result⟩

theorem reduceLoop_returns (pos : 0 < I.toNat) {fuel : Nat} (enough : p.i1.toNat < fuel) :
    ∃ r, reduceLoop true I fuel p = .ok r := by
  induction fuel generalizing p with
  | zero => exact absurd enough (Nat.not_lt_zero _)
  | succ fuel ih =>
    simp only [reduceLoop, firstHalf, secondHalf, assert_of_ndebug, bind, Except.bind, pure, Except.pure]
    by_cases narrow : p.i1 < I
    · simp only [if_pos narrow]
      by_cases zero : p.i1 = 0
      · exact ⟨_, by rw [if_pos zero]⟩
      · exact ⟨_, by rw [if_neg zero]⟩
    · simp only [if_neg narrow]
      by_cases narrow' : (p.addStep (p.mi0 / p.i1)).mi0 < I
      · simp only [if_pos narrow']
        by_cases zero : (p.addStep (p.mi0 / p.i1)).mi0 = 0
        · exact ⟨_, by rw [if_pos zero]⟩
        · exact ⟨_, by rw [if_neg zero]⟩
      · simp only [if_neg narrow']
        apply ih
        have first : (p.addStep (p.mi0 / p.i1)).mi0.toNat < p.i1.toNat := by
          rw [addStep_div_mi0, BitVec.toNat_umod]
          exact Nat.mod_lt _ (pos.trans_le (BitVec.not_lt.mp narrow))
        rw [addWarp_div_i1, BitVec.toNat_umod]
        have := Nat.mod_lt (p.addStep (p.mi0 / p.i1)).i1.toNat (pos.trans_le (BitVec.not_lt.mp narrow'))
        omega

/-- The ordering is what `ASSERT(k)` checks in the first iteration. -/
theorem reducePlatticeAsm_eq (scratch : Reg → BitVec 64) {logI : Nat} (width : logI < 32)
    (p : PlatticeInfo) : p.checkPreConditions (sieveWidth logI) = true →
    let I := sieveWidth logI
    (p.i1 ≤ p.mi0 ∨ p.i1 < I →
      ∃ r, reducePlatticeSimplistic true p I = .ok r ∧ reducePlatticeAsm true scratch p I = .ok r) ∧
    ∀ r, reducePlatticeSimplistic false p I = .ok r → reducePlatticeAsm false scratch p I = .ok r := by
  intro _ I
  have pos : 0 < I.toNat := by
    rw [toNat_sieveWidth width]
    exact Nat.two_pow_pos logI
  unfold reducePlatticeSimplistic reducePlatticeAsm
  cases special : p.needsSpecialTreatment I with
  | true => exact ⟨fun _ => ⟨_, rfl, rfl⟩, fun r returns => returns⟩
  | false =>
    simp only [Bool.false_eq_true, if_false]
    have same {ndebug : Bool} {r : PlatticeInfo}
        (ordered : ndebug = true → p.i1.toNat ≤ p.mi0.toNat ∨ p.i1 < I)
        (returns : reduceLoop ndebug I (p.i1.toNat + 1) p = .ok r) :
        (((p.load I scratch).run (4 * p.i1.toNat + 4) .first).bind fun m =>
          finishAsm ndebug I (m.low .branch) (unload m)) = .ok r := by
      obtain ⟨m', finished, result⟩ := (loaded_load p I scratch).run pos ordered returns
      rw [show 4 * p.i1.toNat + 4 = 4 * (p.i1.toNat + 1) from rfl, finished]
      exact result
    constructor
    · intro ordered
      obtain ⟨r, returns⟩ := reduceLoop_returns (p := p) pos (Nat.lt_succ_self _)
      exact ⟨r, returns, same (fun _ => ordered) returns⟩
    · exact fun r => same fun release => absurd release Bool.false_ne_true

theorem reducePlatticeAsm_eq_seven :
    ∃ r, reducePlatticeSimplistic true ⟨7, 0, 5, 1⟩ 4 = .ok r ∧
      reducePlatticeAsm true (fun _ => 0) ⟨7, 0, 5, 1⟩ 4 = .ok r :=
  (reducePlatticeAsm_eq (fun _ => 0) (show 2 < 32 by decide) ⟨7, 0, 5, 1⟩ (by decide)).1
    (by decide)

theorem reducePlatticeAsm_borrows : ¬ ∀ (scratch : Reg → BitVec 64) (p : PlatticeInfo) (logI : Nat),
    logI < 32 → p.checkPreConditions (sieveWidth logI) = true →
    reducePlatticeAsm true scratch p (sieveWidth logI) =
      reducePlatticeSimplistic true p (sieveWidth logI) := by
  intro always
  have same := always (fun _ => 0) ⟨7, 0, 9, 1⟩ 2 (by decide) (by decide)
  have simplistic : reducePlatticeSimplistic true ⟨7, 0, 9, 1⟩ (sieveWidth 2) = .ok ⟨3, 2, 2, 1⟩ := by decide
  have asm : reducePlatticeAsm true (fun _ => 0) ⟨7, 0, 9, 1⟩ (sieveWidth 2) ≠ .ok ⟨3, 2, 2, 1⟩ := by
    decide +kernel
  exact asm (same.trans simplistic)

end PlatticeInfo

end CadoNfs.Sieve
