import CadoNfs.Ecm.PracBytecode
import CadoNfs.Lib.Double
import CadoNfs.Utils.Getprime

/-!
# PRAC chains

`prac_chain` of `sieve/ecm/bytecode.c`.
-/

namespace CadoNfs.Ecm
open Lib

structure PracCost (κ : Type*) where
  DBL : κ
  dADD : κ

def pracMul : List ℚ :=
  [1.61803398874989484820, 1.38196601125010515179, 1.72360679774997896964, 1.58017872829546410471,
   1.63283980608870628543, 1.61242994950949500192, 1.62018198080741576482, 1.61721461653440386266,
   1.61834711965622805798, 1.61791440652881789386].map double

def u32 (x : ℤ) : ℕ := (x % 2 ^ 32).toNat

variable {κ : Type*} [Add κ] [Mul κ] [OfNat κ 3] (opcost : PracCost κ)

def pracRule (d e : ℕ) : BytecodeElt × ℕ × ℕ × κ :=
  let near : Prop := u32 (4 * d) ≤ u32 (5 * e)
  if near ∧ u32 (d + e) % 3 = 0 then
    let d := u32 (2 * d - e) / 3
    (1, d, u32 (e - d) / 2, 3 * opcost.dADD)
  else if near ∧ u32 (d - e) % 6 = 0 then (2, u32 (d - e) / 2, e, opcost.dADD + opcost.DBL)
  else if d ≤ u32 (4 * e) then (3, u32 (d - e), e, opcost.dADD)
  else if u32 (d + e) % 2 = 0 then (4, u32 (d - e) / 2, e, opcost.dADD + opcost.DBL)
  else if d % 2 = 0 then (5, d / 2, e, opcost.dADD + opcost.DBL)
  else if d % 3 = 0 then (6, u32 (d / 3 - e), e, 3 * opcost.dADD + opcost.DBL)
  else if u32 (d + e) % 3 = 0 then (7, u32 (d - 2 * e) / 3, e, 3 * opcost.dADD + opcost.DBL)
  else if u32 (d - e) % 3 = 0 then (8, u32 (d - e) / 3, e, 3 * opcost.dADD + opcost.DBL)
  else (9, d, e / 2, opcost.dADD + opcost.DBL)

-- `d + e` gets smaller; the loop is cut off after `fuel` iterations.
def pracLoop : ℕ → ℕ → ℕ → κ → Option (ℕ × κ × List BytecodeElt)
  | 0, _, _, _ => none
  | fuel + 1, d, e, cost =>
    if d = e then some (d, cost, [])
    else do
      let (d, e, swap) := if d < e then (e, d, [pracSwap]) else (d, e, [])
      let (b, d, e, c) := pracRule opcost d e
      let (g, cost, bc) ← pracLoop fuel d e (cost + c)
      some (g, cost, swap ++ b :: bc)

def pracRatio (n : ℕ) (v : ℚ) : ℕ := ⌊double (double (n / v) + 1 / 2)⌋₊

def pracChain (n : ℕ) (v : ℚ) : Option (Option κ × List BytecodeElt) :=
  let r := pracRatio n v
  if n ≤ r then some (none, [])
  else do
    let (d, cost, bc) ← pracLoop opcost n (u32 (n - r)) (u32 (2 * r - n)) opcost.DBL
    some (if d = 1 then some (cost + opcost.dADD) else none, pracSubblockInit :: bc ++ [pracSubblockFinal])

theorem u32_natCast {x : ℤ} {n : ℕ} (eq : x = n) (small : n < 2 ^ 32) : u32 x = n := by
  rw [u32, eq]
  omega

def Advances (d e : ℕ) (b : BytecodeElt) (d' e' : ℕ) : Prop :=
  ∃ α β γ δ, Acts b α β γ δ ∧ 0 < α + β ∧ 0 < γ + δ ∧ d = α * d' + γ * e' ∧ e = β * d' + δ * e'

def Progress (d e : ℕ) (b : BytecodeElt) (d' e' : ℕ) : Prop :=
  Advances d e b d' e' ∧ (0 < d' ∧ d' ≤ d) ∧ (0 < e' ∧ e' ≤ e) ∧ d' + e' < d + e ∧ b ≠ pracBlockFinal

/-- The rules 2 to 8 keep `e`. -/
theorem progress_first {α γ d d' e : ℕ} {b : BytecodeElt} (acts : Acts b α 0 γ 1) (more : b ≠ pracBlockFinal)
    (positive : 0 < α) (epos : 0 < e) (whole : d = α * d' + γ * e) (d'pos : 0 < d') (less : d' < d) :
    Progress d e b d' e :=
  ⟨⟨α, 0, γ, 1, acts, positive, Nat.succ_pos γ, whole, by omega⟩, ⟨d'pos, less.le⟩, ⟨epos, le_rfl⟩, by omega, more⟩

theorem progress_both {d e : ℕ} (less : e < d) (small : 5 * d < 2 ^ 32) (near : 4 * d ≤ 5 * e) (whole : (d + e) % 3 = 0) :
    Progress d e 1 (u32 (2 * d - e) / 3) (u32 (e - (u32 (2 * d - e) / 3 : ℕ)) / 2) := by
  have second : u32 (2 * d - e) = 2 * d - e := u32_natCast (by omega) (by omega)
  have third : u32 (e - ((2 * d - e) / 3 : ℕ)) = e - (2 * d - e) / 3 := u32_natCast (by omega) (by omega)
  rw [second, third]
  obtain ⟨k, eq⟩ : ∃ k, d + e = 3 * k := ⟨(d + e) / 3, by omega⟩
  have first : (2 * d - e) / 3 = d - k := by omega
  have other : (e - (d - k)) / 2 = e - k := by omega
  rw [first, other]
  clear second third first other whole small
  exact ⟨⟨2, 1, 1, 2, acts_one, by omega, by omega, by omega, by omega⟩, by omega, by omega, by omega, by decide⟩

theorem pracRule_spec {d e : ℕ} (pos : 0 < e) (less : e < d) (small : 5 * d < 2 ^ 32) {b : BytecodeElt}
    {d' e' : ℕ} {c : κ} (rule : pracRule opcost d e = (b, d', e', c)) : Progress d e b d' e' := by
  have four : u32 (4 * d) = 4 * d := u32_natCast (by push_cast; ring) (by omega)
  have five : u32 (5 * e) = 5 * e := u32_natCast (by push_cast; ring) (by omega)
  have four' : u32 (4 * e) = 4 * e := u32_natCast (by push_cast; ring) (by omega)
  have sum : u32 (d + e) = d + e := u32_natCast (by push_cast; ring) (by omega)
  have difference : u32 (d - e) = d - e := u32_natCast (by omega) (by omega)
  unfold pracRule at rule
  simp only [four, five, four', sum, difference] at rule
  clear four five four' sum difference
  split_ifs at rule with one two three four five six seven eight <;> cases rule
  · exact progress_both less small one.1 one.2
  · exact progress_first acts_two (by decide) two_pos pos (by omega) (by omega) (by omega)
  · exact progress_first acts_three (by decide) one_pos pos (by omega) (by omega) (by omega)
  · exact progress_first acts_four (by decide) two_pos pos (by omega) (by omega) (by omega)
  · exact progress_first acts_five (by decide) two_pos pos (by omega) (by omega) (by omega)
  · rw [show u32 (d / 3 - e) = d / 3 - e from u32_natCast (by omega) (by omega)]
    exact progress_first acts_six (by decide) three_pos pos (by omega) (by omega) (by omega)
  · rw [show u32 (d - 2 * e) = d - 2 * e from u32_natCast (by omega) (by omega)]
    exact progress_first acts_seven (by decide) three_pos pos (by omega) (by omega) (by omega)
  · exact progress_first acts_eight (by decide) three_pos pos (by omega) (by omega) (by omega)
  · obtain ⟨k, rfl⟩ : ∃ k, e = 2 * k := ⟨e / 2, by omega⟩
    rw [Nat.mul_div_cancel_left k two_pos]
    exact ⟨⟨1, 0, 0, 2, acts_nine, by omega, by omega, by omega, by omega⟩, by omega, by omega, by omega, by decide⟩

/-- `n` times the multiple `g` of the chain comes from its start: the bytes lead from the pair `x`, `y` to a
pair with `g` times the sum equal to `d * x + e * y`. -/
def Reduces (d e g : ℕ) (bc : List BytecodeElt) : Prop :=
  ∀ x y, 0 < x → 0 < y → ∃ x' y', Leads multiples bc (pair x y) (pair x' y') ∧ 0 < x' ∧ 0 < y' ∧
    g * (x' + y') = d * x + e * y

theorem Advances.reduces {d e d' e' g : ℕ} {b : BytecodeElt} {bc : List BytecodeElt}
    (advances : Advances d e b d' e') (more : b ≠ pracBlockFinal) (rest : Reduces d' e' g bc) :
    Reduces d e g (b :: bc) := by
  intro x y xpos ypos
  obtain ⟨α, β, γ, δ, acts, left, right, rfl, rfl⟩ := advances
  have x'pos : 0 < α * x + β * y := by
    rcases Nat.add_pos_iff_pos_or_pos.mp left with pos | pos
    · exact Nat.add_pos_left (Nat.mul_pos pos xpos) _
    · exact Nat.add_pos_right _ (Nat.mul_pos pos ypos)
  have y'pos : 0 < γ * x + δ * y := by
    rcases Nat.add_pos_iff_pos_or_pos.mp right with pos | pos
    · exact Nat.add_pos_left (Nat.mul_pos pos xpos) _
    · exact Nat.add_pos_right _ (Nat.mul_pos pos ypos)
  obtain ⟨x', y', leads, x''pos, y''pos, total⟩ := rest _ _ x'pos y'pos
  refine ⟨x', y', (Leads.single more (acts x y xpos ypos)).append leads, x''pos, y''pos, ?_⟩
  rw [total]
  ring

theorem advances_swap (d e : ℕ) : Advances d e pracSwap e d :=
  ⟨0, 1, 1, 0, acts_swap, by omega, by omega, by omega, by omega⟩

theorem pracLoop_spec {fuel d e : ℕ} (dpos : 0 < d) (epos : 0 < e) (dsmall : 5 * d < 2 ^ 32)
    (esmall : 5 * e < 2 ^ 32) (enough : d + e ≤ fuel) (cost : κ) :
    ∃ g cost' bc, pracLoop opcost fuel d e cost = some (g, cost', bc) ∧ 0 < g ∧ g ≤ d + e ∧
      Reduces d e g bc := by
  induction fuel generalizing d e cost with
  | zero => omega
  | succ fuel ih =>
    have rule : ∀ d' e', 0 < e' → e' < d' → 5 * d' < 2 ^ 32 → d' + e' ≤ fuel + 1 → ∃ b d₁ e₁ c g cost' bc,
        pracRule opcost d' e' = (b, d₁, e₁, c) ∧ pracLoop opcost fuel d₁ e₁ (cost + c) = some (g, cost', bc) ∧
        0 < g ∧ g ≤ d' + e' ∧ Reduces d' e' g (b :: bc) := by
      intro d' e' pos less small bound
      rcases result : pracRule opcost d' e' with ⟨b, d₁, e₁, c⟩
      obtain ⟨advances, ⟨d₁pos, d₁le⟩, ⟨e₁pos, e₁le⟩, smaller, more⟩ := pracRule_spec opcost pos less small result
      obtain ⟨g, cost', bc, loop, gpos, gle, reduces⟩ := ih d₁pos e₁pos (by omega) (by omega) (by omega) (cost + c)
      exact ⟨b, d₁, e₁, c, g, cost', bc, rfl, loop, gpos, by omega, advances.reduces more reduces⟩
    unfold pracLoop
    rcases lt_trichotomy d e with less | rfl | less
    · obtain ⟨b, d₁, e₁, c, g, cost', bc, result, loop, gpos, gle, reduces⟩ := rule e d dpos less esmall (by omega)
      refine ⟨g, cost', pracSwap :: b :: bc, ?_, gpos, by omega, (advances_swap d e).reduces (by decide) reduces⟩
      simp [less.ne, less, result, loop]
    · refine ⟨d, cost, [], if_pos rfl, dpos, by omega, fun x y xpos ypos => ?_⟩
      exact ⟨x, y, Leads.refl _, xpos, ypos, by ring⟩
    · obtain ⟨b, d₁, e₁, c, g, cost', bc, result, loop, gpos, gle, reduces⟩ := rule d e epos less dsmall enough
      refine ⟨g, cost', b :: bc, ?_, gpos, gle, reduces⟩
      simp [less.ne', less.not_gt, result, loop]

theorem pracMul_bounds {v : ℚ} (member : v ∈ pracMul) : 1.38 ≤ v ∧ v ≤ 1.73 := by
  rw [pracMul, List.mem_map] at member
  obtain ⟨x, member, rfl⟩ := member
  have bounds : 1.381 ≤ x ∧ x ≤ 1.724 := by
    simp only [List.mem_cons, List.not_mem_nil, or_false] at member
    rcases member with rfl | rfl | rfl | rfl | rfl | rfl | rfl | rfl | rfl | rfl <;> norm_num
  have close := double_between (x := x) (by linarith)
  constructor <;> linarith

theorem pracRatio_bounds {n : ℕ} {v : ℚ} (odd : n % 2 = 1) (large : 3 ≤ n) (small : n < 7 * 2 ^ 28)
    (member : v ∈ pracMul) :
    n < 2 * pracRatio n v ∧ pracRatio n v < n ∧ 5 * (n - pracRatio n v) < 2 ^ 32 ∧
      5 * (2 * pracRatio n v - n) < 2 ^ 32 := by
  obtain ⟨low, high⟩ := pracMul_bounds member
  have largeQ : (3 : ℚ) ≤ n := by exact_mod_cast large
  have smallQ : (n : ℚ) < 7 * 2 ^ 28 := by exact_mod_cast small
  have vpos : 0 < v := by linarith
  set q : ℚ := n / v with hq
  have qpos : 0 < q := by positivity
  have product : q * v = n := div_mul_cancel₀ _ vpos.ne'
  have qlow : (n : ℚ) ≤ q * 1.73 := product ▸ mul_le_mul_of_nonneg_left high qpos.le
  have qhigh : q * 1.38 ≤ n := product ▸ mul_le_mul_of_nonneg_left low qpos.le
  obtain ⟨low₁, high₁⟩ := double_between qpos
  obtain ⟨low₂, high₂⟩ := double_between (x := double q + 1 / 2) (by linarith)
  have ratio : pracRatio n v = ⌊double (double q + 1 / 2)⌋₊ := rfl
  set y : ℚ := double (double q + 1 / 2)
  have floor : (pracRatio n v : ℚ) ≤ y := ratio ▸ Nat.floor_le (by linarith)
  have floor' : y < pracRatio n v + 1 := ratio ▸ Nat.lt_floor_add_one y
  have half : (n + 1) / 2 ≤ pracRatio n v := by
    rw [ratio]
    refine Nat.le_floor ?_
    have halves : 2 * (((n + 1) / 2 : ℕ) : ℚ) = n + 1 := by exact_mod_cast (by omega : 2 * ((n + 1) / 2) = n + 1)
    linarith only [halves, low₂, low₁, qlow, largeQ]
  have below : (pracRatio n v : ℚ) < n := by linarith only [floor, high₂, high₁, qhigh, largeQ]
  have first : 5 * (n : ℚ) < 2 ^ 32 + 5 * pracRatio n v := by
    linarith only [floor', low₂, low₁, qlow, smallQ]
  have second : 10 * (pracRatio n v : ℚ) < 2 ^ 32 + 5 * n := by linarith only [floor, high₂, high₁, qhigh, smallQ]
  have below' : pracRatio n v < n := by exact_mod_cast below
  have first' : 5 * n < 2 ^ 32 + 5 * pracRatio n v := by exact_mod_cast first
  have second' : 10 * pracRatio n v < 2 ^ 32 + 5 * n := by exact_mod_cast second
  exact ⟨by omega, below', by omega, by omega⟩

def Multiplies (bc : List BytecodeElt) (n : ℕ) : Prop :=
  ∃ pre, bc = pracSubblockInit :: pre ++ [pracSubblockFinal] ∧
    ∀ R : Registers ℕ, 0 < R.r0 → ∃ x y, Leads multiples (pracSubblockInit :: pre) R (pair x y) ∧ x + y = n * R.r0

theorem leads_init {R : Registers ℕ} :
    Leads multiples [pracSubblockInit] R (pair (2 * R.r0) R.r0) := by
  refine Leads.single (by decide) ?_
  exact some_pair rfl rfl (dist_eq (.inl (two_mul R.r0)))

theorem pracChain_spec {n : ℕ} {v : ℚ} (prime : n.Prime) (odd : n % 2 = 1) (small : n < 7 * 2 ^ 28)
    (member : v ∈ pracMul) : ∃ cost bc, pracChain opcost n v = some (some cost, bc) ∧ Multiplies bc n := by
  have large : 3 ≤ n := by
    have := prime.two_le
    omega
  obtain ⟨half, below, dsmall, esmall⟩ := pracRatio_bounds odd large small member
  set r := pracRatio n v with hr
  have dvalue : u32 (n - r) = n - r := u32_natCast (by omega) (by omega)
  have evalue : u32 (2 * r - n) = 2 * r - n := u32_natCast (by omega) (by omega)
  obtain ⟨g, cost, bc, loop, gpos, gle, reduces⟩ := pracLoop_spec opcost (by omega) (by omega) dsmall
    esmall (show n - r + (2 * r - n) ≤ n by omega) opcost.DBL
  have one : g = 1 := by
    obtain ⟨x, y, -, -, -, total⟩ := reduces 2 1 (by omega) (by omega)
    have divides : g ∣ n := ⟨x + y, by rw [total]; omega⟩
    exact (prime.eq_one_or_self_of_dvd g divides).resolve_right (by omega)
  subst one
  refine ⟨cost + opcost.dADD, pracSubblockInit :: bc ++ [pracSubblockFinal], ?_, bc, rfl, fun R pos => ?_⟩
  · rw [pracChain, ← hr, dvalue, evalue, if_neg (by omega), loop]
    rfl
  · obtain ⟨x, y, leads, -, -, total⟩ := reduces (2 * R.r0) R.r0 (by omega) pos
    refine ⟨x, y, leads_init.append leads, ?_⟩
    calc x + y
      _ = (n - r) * (2 * R.r0) + (2 * r - n) * R.r0 := by rw [← total, Nat.one_mul]
      _ = (2 * (n - r) + (2 * r - n)) * R.r0 := by ring
      _ = n * R.r0 := by congr 1; omega

end CadoNfs.Ecm

/-!
# The bytecode of stage 1

`bytecode_prac_encode` of `sieve/ecm/bytecode.c`, with its cache of multipliers.
-/

namespace CadoNfs.Ecm

structure PracCacheEntry (κ : Type) where
  k : ℕ
  opcost : ℕ
  bestMul : ℚ
  mincost : Option κ

variable {κ : Type}

def costLess [LT κ] [DecidableLT κ] : Option κ → Option κ → Bool
  | some cost, some mincost => cost < mincost
  | some _, none => true
  | none, _ => false

variable [Add κ] [Mul κ] [OfNat κ 3] [LT κ] [DecidableLT κ] (opcost : PracCost κ) (address : ℕ)

def bestMultiplier (k : ℕ) : Option (Option κ × ℚ) :=
  pracMul.foldlM (fun (mincost, bestMul) mul => do
    let (cost, _) ← pracChain opcost k mul
    some (if costLess cost mincost then (cost, mul) else (mincost, bestMul))) (none, 0)

def chooseMul (k : ℕ) (cache : List (PracCacheEntry κ)) : Option (ℚ × Option κ × List (PracCacheEntry κ)) :=
  if k = 3 then some (pracMul.headD 0, some (opcost.DBL + opcost.dADD), cache)
  else match cache.find? fun entry => entry.k = k && entry.opcost = address with
    | some entry => some (entry.bestMul, entry.mincost, cache)
    | none => do
      let (mincost, bestMul) ← bestMultiplier opcost k
      some (bestMul, mincost, cache ++ [⟨k, address, bestMul, mincost⟩])

def bytecodePracEncodeOne (k val : ℕ) (cache : List (PracCacheEntry κ)) :
    Option (List BytecodeElt × List (PracCacheEntry κ)) := do
  guard (k % 2 = 1)
  let (bestMul, mincost, cache) ← chooseMul opcost address k cache
  guard (mincost.isSome = true)
  let chains ← (List.replicate val (pracChain opcost k bestMul)).mapM id
  some ((chains.map Prod.snd).flatten, cache)

def addPowers (B1 p : ℕ) : ℕ → ℕ → ℕ → ℕ
  | 0, _, val => val
  | fuel + 1, q, val => if q ≤ B1 / p then addPowers B1 p fuel (u32 (q * p)) (u32 (val + 1)) else val

def oddPrimes (B1 : ℕ) : List ℕ := (List.range (B1 + 1)).filter fun p => p.Prime ∧ p ≠ 2

def pracPrimes (B1 pow3Extra : ℕ) (cache : List (PracCacheEntry κ)) :
    Option (List BytecodeElt × List (PracCacheEntry κ)) :=
  (oddPrimes B1).foldlM (fun (bc, cache) p => do
    let val := addPowers B1 p 32 1 (if p = 3 then pow3Extra else 0)
    let (subblocks, cache) ← bytecodePracEncodeOne opcost address p val cache
    some (bc ++ subblocks, cache)) ([], cache)

def encoderRoom : ℕ := 2 ^ 32 - 32

def bytecodePracEncode (B1 pow3Extra : ℕ) (compress : Bool) (cache : List (PracCacheEntry κ)) :
    Option (Option (List BytecodeElt) × List (PracCacheEntry κ)) := do
  let (bc, cache) ← pracPrimes opcost address B1 pow3Extra cache
  guard (bc.length ≤ encoderRoom)
  let bc := if 0 < bc.length then bc.dropLast ++ [pracBlockFinal] else bc
  let bc := if compress then bytecodePracCompress bc else bc
  some (if 0 < bc.length then some bc else none, cache)

def pracMultiple (bc : Option (List BytecodeElt)) : Option ℕ :=
  match bc with
  | none => some 1
  | some bc => bytecodePracCheckInternal multiples bc ⟨1, 0, 0⟩

theorem Multiplies.append {bc bc' : List BytecodeElt} {n n' : ℕ} (pos : 0 < n) (first : Multiplies bc n)
    (second : Multiplies bc' n') : Multiplies (bc ++ bc') (n * n') := by
  obtain ⟨pre, rfl, leads⟩ := first
  obtain ⟨pre', rfl, leads'⟩ := second
  refine ⟨pre ++ [pracSubblockFinal] ++ pracSubblockInit :: pre', by simp, fun R Rpos => ?_⟩
  obtain ⟨x, y, start, total⟩ := leads R Rpos
  have final : Leads multiples [pracSubblockFinal] (pair x y) ⟨x + y, y, Nat.dist x y⟩ := by
    refine Leads.single (by decide) ?_
    simp only [pracStep, pair, dADD_sum rfl, Option.bind_eq_bind, Option.bind_some]
  have sum_pos : 0 < x + y := by
    rw [total]
    exact Nat.mul_pos pos Rpos
  obtain ⟨x', y', next, total'⟩ := leads' ⟨x + y, y, Nat.dist x y⟩ sum_pos
  refine ⟨x', y', ?_, ?_⟩
  · simpa using (start.append final).append next
  · rw [total', total]
    ring

def Computes (bc : List BytecodeElt) (n : ℕ) : Prop := bc = [] ∧ n = 1 ∨ Multiplies bc n

theorem Computes.append {bc bc' : List BytecodeElt} {n n' : ℕ} (pos : 0 < n) (first : Computes bc n)
    (second : Computes bc' n') : Computes (bc ++ bc') (n * n') := by
  rcases first with ⟨rfl, rfl⟩ | first
  · simpa using second
  · rcases second with ⟨rfl, rfl⟩ | second
    · rw [List.append_nil, Nat.mul_one]
      exact .inr first
    · exact .inr (first.append pos second)

theorem computes_replicate {bc : List BytecodeElt} {n : ℕ} (pos : 0 < n) (one : Multiplies bc n) (val : ℕ) :
    Computes (List.replicate val bc).flatten (n ^ val) := by
  induction val with
  | zero => exact .inl ⟨rfl, pow_zero n⟩
  | succ val ih =>
    rw [List.replicate_succ, List.flatten_cons, pow_succ']
    exact .append pos (.inr one) ih

theorem mapM_replicate {β : Type*} (val : ℕ) (b : β) :
    (List.replicate val (some b)).mapM id = some (List.replicate val b) := by
  induction val with
  | zero => rfl
  | succ val ih =>
    rw [List.replicate_succ, List.mapM_cons, ih]
    rfl

def CacheValid (cache : List (PracCacheEntry κ)) : Prop :=
  ∀ entry ∈ cache, entry.bestMul ∈ pracMul ∧ entry.mincost.isSome = true

theorem bestMultiplier_spec {k : ℕ} (prime : k.Prime) (odd : k % 2 = 1) (small : k < 7 * 2 ^ 28) :
    ∃ cost bestMul, bestMultiplier opcost k = some (some cost, bestMul) ∧ bestMul ∈ pracMul := by
  have later : ∀ muls : List ℚ, muls ⊆ pracMul → ∀ cost, ∀ bestMul ∈ pracMul, ∃ cost' bestMul',
      muls.foldlM (fun (mincost, bestMul) mul => do
        let (cost, _) ← pracChain opcost k mul
        some (if costLess cost mincost then (cost, mul) else (mincost, bestMul))) (some cost, bestMul) =
      some (some cost', bestMul') ∧ bestMul' ∈ pracMul := by
    intro muls
    induction muls with
    | nil => exact fun _ cost bestMul member => ⟨cost, bestMul, rfl, member⟩
    | cons mul muls ih =>
      intro subset cost bestMul member
      rw [List.cons_subset] at subset
      obtain ⟨cost', bc, chain, -⟩ := pracChain_spec opcost prime odd small subset.1
      rw [List.foldlM_cons, chain]
      by_cases less : costLess (some cost') (some cost) = true
      · simpa [less] using ih subset.2 cost' mul subset.1
      · simpa [less] using ih subset.2 cost bestMul member
  obtain ⟨mul, muls, table⟩ : ∃ mul muls, pracMul = mul :: muls := ⟨_, _, rfl⟩
  have members : mul ∈ pracMul ∧ muls ⊆ pracMul := by
    rw [table]
    exact ⟨List.mem_cons_self, List.subset_cons_self mul muls⟩
  obtain ⟨cost, bc, chain, -⟩ := pracChain_spec opcost prime odd small members.1
  unfold bestMultiplier
  rw [table, List.foldlM_cons, chain]
  rw [table] at later
  exact table ▸ later muls (List.subset_cons_self mul muls) cost mul (.head _)

theorem chooseMul_spec {k : ℕ} (prime : k.Prime) (odd : k % 2 = 1) (small : k < 7 * 2 ^ 28)
    {cache : List (PracCacheEntry κ)} (valid : CacheValid cache) :
    ∃ bestMul cost cache', chooseMul opcost address k cache = some (bestMul, some cost, cache') ∧
      bestMul ∈ pracMul ∧ CacheValid cache' := by
  unfold chooseMul
  by_cases three : k = 3
  · refine ⟨_, _, cache, if_pos three, ?_, valid⟩
    exact (.head _)
  rw [if_neg three]
  cases found : cache.find? fun entry => entry.k = k && entry.opcost = address with
  | some entry =>
    obtain ⟨member, known⟩ := valid entry (List.mem_of_find?_eq_some found)
    obtain ⟨cost, mincost⟩ := Option.isSome_iff_exists.mp known
    exact ⟨entry.bestMul, cost, cache, by simp only [mincost], member, valid⟩
  | none =>
    obtain ⟨cost, bestMul, best, member⟩ := bestMultiplier_spec opcost prime odd small
    refine ⟨bestMul, cost, _, by simp only [best]; rfl, member, fun entry there => ?_⟩
    rcases List.mem_append.mp there with old | new
    · exact valid entry old
    · rw [List.mem_singleton.mp new]
      exact ⟨member, rfl⟩

theorem encodeOne_spec {k : ℕ} (prime : k.Prime) (odd : k % 2 = 1) (small : k < 7 * 2 ^ 28) (val : ℕ)
    {cache : List (PracCacheEntry κ)} (valid : CacheValid cache) :
    ∃ bc cache', bytecodePracEncodeOne opcost address k val cache = some (bc, cache') ∧ Computes bc (k ^ val) ∧
      CacheValid cache' := by
  obtain ⟨bestMul, cost, cache', chosen, member, valid'⟩ := chooseMul_spec opcost address prime odd small valid
  obtain ⟨cost', bc, chain, one⟩ := pracChain_spec opcost prime odd small member
  refine ⟨(List.replicate val bc).flatten, cache', ?_, computes_replicate prime.pos one val, valid'⟩
  simp [bytecodePracEncodeOne, chosen, chain, mapM_replicate, odd, guard]

theorem mem_oddPrimes {B1 p : ℕ} : p ∈ oddPrimes B1 ↔ p ≤ B1 ∧ p.Prime ∧ p % 2 = 1 := by
  rw [oddPrimes, List.mem_filter, List.mem_range, decide_eq_true_iff, Nat.lt_succ_iff]
  refine and_congr_right fun _ => and_congr_right fun prime => ?_
  have := prime.eq_two_or_odd
  omega

theorem oddPrimes_eq (B1 : ℕ) : oddPrimes B1 = (List.range' 3 (B1 - 2)).filter (·.Prime) := by
  rcases Nat.lt_or_ge B1 2 with small | large
  · interval_cases B1 <;> rfl
  · obtain ⟨n, rfl⟩ := Nat.exists_eq_add_of_le large
    rw [oddPrimes, List.range_eq_range', show 2 + n + 1 = 3 + n by omega, ← List.range'_append_1, List.filter_append,
      Nat.add_sub_cancel_left]
    refine (congrArg _ (List.filter_congr fun p inside => ?_)).trans (List.nil_append _)
    have above := (List.mem_range'_1.mp inside).1
    exact decide_eq_decide.mpr (and_iff_left (by omega))

open Utils.Getprime in
/-- The loop over the odd primes, with the primes as `getprime_mt` returns them. -/
theorem getprimes_oddPrimes {B1 : ℕ} (meets : RunMeets (oddPrimes B1).length primeInfoInit) :
    ∃ pi', getprimes (oddPrimes B1).length primeInfoInit = some (oddPrimes B1, pi') := by
  rw [oddPrimes_eq] at meets ⊢
  exact getprimes_filter meets

theorem addPowers_eq {B1 p fuel i val : ℕ} (small : B1 < 2 ^ 32) (large : 1 < p) (below : p ≤ B1)
    (done : i ≤ Nat.log p B1) (enough : Nat.log p B1 ≤ i + fuel) (fits : val + (Nat.log p B1 - i) < 2 ^ 32) :
    addPowers B1 p fuel (p ^ i) val = val + (Nat.log p B1 - i) := by
  induction fuel generalizing i val with
  | zero =>
    rw [addPowers]
    omega
  | succ fuel ih =>
    have condition : p ^ i ≤ B1 / p ↔ i + 1 ≤ Nat.log p B1 := by
      rw [Nat.le_div_iff_mul_le (by omega), ← pow_succ, ← Nat.le_log_iff_pow_le large (by omega)]
    unfold addPowers
    by_cases more : i + 1 ≤ Nat.log p B1
    · have power : p ^ (i + 1) ≤ B1 := (Nat.le_log_iff_pow_le large (by omega)).mp more
      have q : u32 ((p ^ i : ℕ) * p) = p ^ (i + 1) := u32_natCast (by push_cast; ring) (by omega)
      have val' : u32 (val + 1) = val + 1 := u32_natCast (by push_cast; ring) (by omega)
      rw [if_pos (condition.mpr more), q, val', ih more (by omega) (by omega)]
      omega
    · rw [if_neg (condition.not.mpr more)]
      omega

variable {B1 : ℕ} {pow3Extra : ℕ}

def exponent (B1 pow3Extra p : ℕ) : ℕ := (if p = 3 then pow3Extra else 0) + Nat.log p B1

theorem addPowers_one {p : ℕ} (small : B1 < 2 ^ 32) (large : 1 < p) (below : p ≤ B1)
    (fits : pow3Extra + Nat.log 3 B1 < 2 ^ 32) :
    addPowers B1 p 32 1 (if p = 3 then pow3Extra else 0) = exponent B1 pow3Extra p := by
  have short : Nat.log p B1 < 32 := by
    have two : Nat.log p B1 ≤ Nat.log 2 B1 := Nat.log_anti_left (by norm_num) large
    have := Nat.log_lt_of_lt_pow (by omega) small
    omega
  have sum : (if p = 3 then pow3Extra else 0) + (Nat.log p B1 - 0) < 2 ^ 32 := by
    split_ifs with three
    · rw [three]
      omega
    · omega
  have powers := addPowers_eq (i := 0) small large below (by omega) (by omega : Nat.log p B1 ≤ 0 + 32) sum
  rw [pow_zero] at powers
  rw [powers, exponent, Nat.sub_zero]

theorem pracPrimes_spec (small : B1 < 7 * 2 ^ 28) (fits : pow3Extra + Nat.log 3 B1 < 2 ^ 32)
    {cache : List (PracCacheEntry κ)} (valid : CacheValid cache) :
    ∃ bc cache', pracPrimes opcost address B1 pow3Extra cache = some (bc, cache') ∧
      Computes bc ((oddPrimes B1).map fun p => p ^ exponent B1 pow3Extra p).prod ∧ CacheValid cache' := by
  have run : ∀ ps ⊆ oddPrimes B1, ∀ bc n, 0 < n → Computes bc n → ∀ cache : List (PracCacheEntry κ),
      CacheValid cache → ∃ bc' cache', ps.foldlM (fun (bc, cache) p => do
        let val := addPowers B1 p 32 1 (if p = 3 then pow3Extra else 0)
        let (subblocks, cache) ← bytecodePracEncodeOne opcost address p val cache
        some (bc ++ subblocks, cache)) (bc, cache) = some (bc', cache') ∧
      Computes bc' (n * (ps.map fun p => p ^ exponent B1 pow3Extra p).prod) ∧ CacheValid cache' := by
    intro ps
    induction ps with
    | nil =>
      intro _ bc n _ computes cache valid
      exact ⟨bc, cache, rfl, by simpa using computes, valid⟩
    | cons p ps ih =>
      intro subset bc n pos computes cache valid
      rw [List.cons_subset] at subset
      obtain ⟨below, prime, odd⟩ := mem_oddPrimes.mp subset.1
      have val := addPowers_one (by omega) prime.one_lt below fits
      obtain ⟨subblocks, cache', one, power, valid'⟩ :=
        encodeOne_spec opcost address prime odd (by omega) (exponent B1 pow3Extra p) valid
      obtain ⟨bc', cache'', rest, product, valid''⟩ := ih subset.2 (bc ++ subblocks) _
        (Nat.mul_pos pos (Nat.pow_pos prime.pos)) (computes.append pos power) cache' valid'
      refine ⟨bc', cache'', ?_, ?_, valid''⟩
      · rw [List.foldlM_cons]
        simpa [val, one] using rest
      · rwa [List.map_cons, List.prod_cons, ← Nat.mul_assoc]
  obtain ⟨bc, cache', result, product, valid'⟩ := run _ (List.Subset.refl _) [] 1 one_pos (.inl ⟨rfl, rfl⟩) cache valid
  exact ⟨bc, cache', result, by rwa [Nat.one_mul] at product, valid'⟩

theorem prod_oddPrimes (extra : 3 ≤ B1 ∨ pow3Extra = 0) :
    ((oddPrimes B1).map fun p => p ^ exponent B1 pow3Extra p).prod =
      3 ^ pow3Extra * ∏ p ∈ Finset.range (B1 + 1) with p.Prime ∧ p ≠ 2, p ^ Nat.log p B1 := by
  have nodup : (oddPrimes B1).Nodup := List.nodup_range.filter _
  have finset : (oddPrimes B1).toFinset = {p ∈ Finset.range (B1 + 1) | p.Prime ∧ p ≠ 2} := by
    ext p
    simp [oddPrimes]
  have three : ∏ p ∈ Finset.range (B1 + 1) with p.Prime ∧ p ≠ 2, p ^ (if p = 3 then pow3Extra else 0) =
      3 ^ pow3Extra := by
    have power : ∀ p : ℕ, p ^ (if p = 3 then pow3Extra else 0) = if p = 3 then 3 ^ pow3Extra else 1 := by
      intro p
      split_ifs with eq
      · rw [eq]
      · exact pow_zero p
    rw [Finset.prod_congr rfl fun p _ => power p, Finset.prod_ite_eq']
    refine ite_eq_left_iff.mpr fun absent => ?_
    have none : pow3Extra = 0 := extra.resolve_left fun le => absent (by
      simp only [Finset.mem_filter, Finset.mem_range]
      exact ⟨by omega, by norm_num, by norm_num⟩)
    rw [none, pow_zero]
  rw [← List.prod_toFinset _ nodup, finset, ← three, ← Finset.prod_mul_distrib]
  exact Finset.prod_congr rfl fun p _ => pow_add p _ _

theorem head_compress (bc : List BytecodeElt) :
    bytecodePracCompress (pracSubblockInit :: bc) = pracSubblockInit :: bytecodePracCompress bc := by
  rw [bytecodePracCompress]
  all_goals simp [pracSubblockInit]

theorem pracMultiple_final {pre : List BytecodeElt} {x y : ℕ} (compress : Bool)
    (leads : Leads multiples (pracSubblockInit :: pre) ⟨1, 0, 0⟩ (pair x y)) :
    pracMultiple (some (if compress then bytecodePracCompress (pracSubblockInit :: pre ++ [pracBlockFinal])
      else pracSubblockInit :: pre ++ [pracBlockFinal])) = some (x + y) := by
  have block : pracInterpret multiples (pracSubblockInit :: pre ++ [pracBlockFinal]) ⟨1, 0, 0⟩ =
      some ⟨x, x + y, Nat.dist x y⟩ := by
    rw [leads]
    simp [pracInterpret, pracStep, pair, dADD_sum]
  cases compress
  · simp only [pracMultiple, bytecodePracCheckInternal, Bool.false_eq_true, if_false, block]
    rfl
  · simp only [pracMultiple, bytecodePracCheckInternal, if_true, pracInterpret_compress, block]
    rw [List.cons_append, head_compress]
    rfl

/-- Below `7 * 2^28` no product of `prac_chain` wraps. Each differential addition of the block has the difference
of its operands, or it would have no result. -/
theorem bytecodePracEncode_multiple (compress : Bool) {cache : List (PracCacheEntry κ)} (valid : CacheValid cache)
    (small : B1 < 7 * 2 ^ 28) (fits : pow3Extra + Nat.log 3 B1 < 2 ^ 32) (extra : 3 ≤ B1 ∨ pow3Extra = 0) :
    ∃ subblocks cache', pracPrimes opcost address B1 pow3Extra cache = some (subblocks, cache') ∧
      CacheValid cache' ∧ (subblocks.length ≤ encoderRoom → ∃ bc,
        bytecodePracEncode opcost address B1 pow3Extra compress cache = some (bc, cache') ∧
        pracMultiple bc = some (3 ^ pow3Extra *
          ∏ p ∈ Finset.range (B1 + 1) with p.Prime ∧ p ≠ 2, p ^ Nat.log p B1)) := by
  obtain ⟨subblocks, cache', result, computes, valid'⟩ := pracPrimes_spec opcost address small fits valid
  refine ⟨subblocks, cache', result, valid', fun room => ?_⟩
  rw [prod_oddPrimes extra] at computes
  unfold bytecodePracEncode
  rw [result]
  rcases computes with ⟨rfl, one⟩ | ⟨pre, rfl, leads⟩
  · refine ⟨none, by cases compress <;> rfl, ?_⟩
    rw [one]
    rfl
  · obtain ⟨x, y, leads, sum⟩ := leads ⟨1, 0, 0⟩ one_pos
    refine ⟨_, ?_, (pracMultiple_final compress leads).trans (by rw [sum, Nat.mul_one])⟩
    have some_byte : 0 < (if compress then bytecodePracCompress (pracSubblockInit :: pre ++ [pracBlockFinal])
        else pracSubblockInit :: pre ++ [pracBlockFinal]).length := by
      cases compress
      · simp
      · simp [head_compress]
    have last : (if 0 < (pracSubblockInit :: pre ++ [pracSubblockFinal]).length then
        (pracSubblockInit :: pre ++ [pracSubblockFinal]).dropLast ++ [pracBlockFinal] else
        pracSubblockInit :: pre ++ [pracSubblockFinal]) = pracSubblockInit :: pre ++ [pracBlockFinal] := by
      rw [if_pos (by simp), List.dropLast_concat]
    simp only [Option.bind_eq_bind, Option.bind_some, guard, if_pos room, last, if_pos some_byte]
    rfl

theorem bytecodePracEncode_multiple_seven : ∃ subblocks cache',
    pracPrimes (⟨1, 1⟩ : PracCost ℕ) 0 7 1 [] = some (subblocks, cache') ∧ CacheValid cache' ∧
      (subblocks.length ≤ encoderRoom → ∃ bc,
        bytecodePracEncode (⟨1, 1⟩ : PracCost ℕ) 0 7 1 true [] = some (bc, cache') ∧
        pracMultiple bc = some (3 ^ 1 * ∏ p ∈ Finset.range (7 + 1) with p.Prime ∧ p ≠ 2, p ^ Nat.log p 7)) :=
  bytecodePracEncode_multiple ⟨1, 1⟩ 0 true nofun (by norm_num) (by norm_num) (.inl (by norm_num))

theorem bytecodePracEncode_two : ¬ ∀ B1 pow3Extra : ℕ, ∀ bc cache',
    bytecodePracEncode (⟨1, 1⟩ : PracCost ℕ) 0 B1 pow3Extra true [] = some (bc, cache') →
      pracMultiple bc = some (3 ^ pow3Extra *
        ∏ p ∈ Finset.range (B1 + 1) with p.Prime ∧ p ≠ 2, p ^ Nat.log p B1) := by
  intro always
  have no_prime : oddPrimes 2 = [] := by
    rw [List.eq_nil_iff_forall_not_mem]
    intro p member
    obtain ⟨below, prime, odd⟩ := mem_oddPrimes.mp member
    have := prime.two_le
    omega
  have encoded : bytecodePracEncode (⟨1, 1⟩ : PracCost ℕ) 0 2 1 true [] = some (none, []) := by
    rw [bytecodePracEncode, pracPrimes, no_prime]
    rfl
  have claim := Option.some.inj (always 2 1 none [] encoded)
  omega

end CadoNfs.Ecm
