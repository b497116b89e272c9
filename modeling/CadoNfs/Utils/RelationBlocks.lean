import CadoNfs.Lib.Digits

/-!
# Relations as text

The blocks of `utils/filter_io.hpp` that read and print relations. The head of a text is the character that the
iterator has just read.
-/

namespace CadoNfs.Utils.FilterIo
open Lib

abbrev Text := List Char

def ugly (c : Char) : ℕ :=
  if '0' ≤ c ∧ c ≤ '9' then c.toNat - 48
  else if 'A' ≤ c ∧ c ≤ 'F' then c.toNat - 55
  else if 'a' ≤ c ∧ c ≤ 'f' then c.toNat - 87
  else 255

-- A null character follows the text.
def cur (s : Text) : Char := s.headD (Char.ofNat 0)

def formatInt (base : ℕ) (x : ℤ) : Text :=
  if x < 0 then '-' :: Nat.toDigits base x.natAbs else Nat.toDigits base x.natAbs

inductive AbType
  | uint64
  | mpz
  deriving DecidableEq

def AbType.word : AbType → ℕ → ℕ
  | uint64, w => w % 2 ^ 64
  | mpz, w => w

-- `runtime_numeric_cast<a_type>`
def AbType.signed : AbType → ℕ → Option ℤ
  | uint64, w => if w < 2 ^ 63 then some w else none
  | mpz, w => some w

-- An `mpz` `b` may be negative.
structure AbBlock where
  a : ℤ
  b : ℤ
  activeSides : ℕ × ℕ
  deriving DecidableEq

def parseAb (t : AbType) (base : ℕ) (s : Text) : Option (AbBlock × Text) := do
  let negative := cur s == '-'
  let (w, s) := readNumber ugly base 0 (if negative then s.tail else s)
  let w ← t.signed (t.word w)
  let a := if negative then -w else w
  guard (cur s = ',')
  let (w, s) := readNumber ugly base 0 s.tail
  let b := t.word w
  if cur s = '@' then
    let (side0, s) := readNumber ugly 10 0 s.tail
    guard (cur s = ',')
    let (side1, s) := readNumber ugly 10 0 s.tail
    return (⟨a, b, (side0, side1)⟩, s)
  else return (⟨a, b, (0, 1)⟩, s)

-- The active sides are not printed.
def AbBlock.format (base : ℕ) (x : AbBlock) : Text := formatInt base x.a ++ ',' :: formatInt base x.b

structure ExponentType (E : Type) where
  one : E
  add : E → E → E
  neg : E → E
  isZero : E → Bool
  le : E → E → Bool
  parse : Text → Option (E × Text)

-- The digits of an exponent do not start with 0.
def parseScalar (s : Text) : Option (ℕ × Text) := do
  guard (ugly (cur s) ≠ 0)
  let (w, s) := readNumber ugly 10 0 s
  return (if w = 0 then 1 else w, s)

def intExponent : ExponentType ℤ where
  one := 1
  add := (· + ·)
  neg := Neg.neg
  isZero e := e = 0
  le e f := e ≤ f
  parse s := do
    let negative := cur s == '-'
    let (w, s) ← parseScalar (if negative then s.tail else s)
    return (if negative then -(w : ℤ) else w, s)

def parsePower : ℕ → ℕ → Text → ℕ × Text
  | 0, j, s => (j, s)
  | fuel + 1, j, s =>
    let t := if cur s = '*' then s.tail else s
    if cur t ≠ 's' then (j, s)
    else
      let j := j + (t.takeWhile (· = 's')).length
      let t := t.dropWhile (· = 's')
      if cur t = '^' then
        let (w, t) := readNumber ugly 10 0 t.tail
        parsePower fuel (j + w - 1) t
      else parsePower fuel j t

def parseTerm (n : ℕ) (negative : Bool) (v : List ℤ) (s : Text) : Option (List ℤ × Text) := do
  let (w, s) ← parseScalar s
  let (j, s) := parsePower (s.length + 1) 0 s
  return (v.modify (j % n) (· + if negative then -(w : ℤ) else w), s)

def parseTerms (n : ℕ) : ℕ → Bool → List ℤ → Text → Option (List ℤ × Text)
  | 0, _, _, _ => none
  | fuel + 1, first, v, s =>
    if cur s = '-' then do
      let (v, s) ← parseTerm n true v s.tail
      parseTerms n fuel false v s
    else if first then do
      let (v, s) ← parseTerm n false v s
      parseTerms n fuel false v s
    else if cur s = '+' then do
      let (v, s) ← parseTerm n false v s.tail
      parseTerms n fuel false v s
    else some (v, s)

def exponentVector (n : ℕ) : ExponentType (List ℤ) where
  one := 1 :: List.replicate (n - 1) 0
  add := List.zipWith (· + ·)
  neg := List.map Neg.neg
  isZero e := e.all (· = 0)
  le e f := e ≤ f
  parse s := parseTerms n (s.length + 1) true (List.replicate n 0) s

def formatTerm (i : ℕ) (c : ℤ) (first : Bool) : Text :=
  (if c < -1 then formatInt 10 c
    else if c = -1 then ['-']
    else if c = 1 then (if first then [] else ['+'])
    else if first then formatInt 10 c else '+' :: formatInt 10 c) ++
  if i = 1 then ['s'] else if i = 2 then ['s', 's'] else if 3 < i then 's' :: '^' :: Nat.toDigits 10 i else []

def formatTerms : ℕ → Bool → List ℤ → Text
  | _, _, [] => []
  | i, first, c :: v => if c = 0 then formatTerms (i + 1) first v else formatTerm i c first ++ formatTerms (i + 1) false v

structure Prime (σ E : Type) where
  side : σ
  p : ℕ
  e : E
  deriving DecidableEq

structure PrimeType (σ E : Type) where
  bits : ℕ
  side : ℤ → σ
  exponent : ExponentType E
  format : Prime σ E → Option Text

structure Relation (σ E : Type) where
  ab : AbBlock
  primes : List (Prime σ E)
  nsides : ℤ
  deriving DecidableEq

variable {σ E : Type} [LinearOrder σ]

namespace ExponentType

variable (X : ExponentType E)

-- The last prime is the head.
def appendOrCollate (primes : List (Prime σ E)) (x : Prime σ E) : List (Prime σ E) :=
  match primes with
  | y :: primes =>
    if x.p = y.p ∧ y.side = x.side then { y with e := X.add y.e x.e } :: primes else x :: y :: primes
  | [] => [x]

def lePrime (x y : Prime σ E) : Bool :=
  x.side < y.side || x.side = y.side && (x.p < y.p || x.p = y.p && X.le x.e y.e)

def compress (primes : List (Prime σ E)) (x : Prime σ E) : List (Prime σ E) :=
  match primes with
  | y :: primes =>
    if x.p = y.p then
      let e := X.add y.e x.e
      if X.isZero e then primes else { y with e } :: primes
    else x :: y :: primes
  | [] => [x]

def sortAndCompress (primes : List (Prime σ E)) : List (Prime σ E) :=
  ((primes.insertionSort fun x y => X.lePrime x y).foldl X.compress []).reverse

end ExponentType

namespace PrimeType

variable (T : PrimeType σ E)

structure State (σ E : Type) where
  side : ℤ
  sorted : Bool
  primes : List (Prime σ E)

-- `last_prime` stays 0.
def parsePrime (st : State σ E) (s : Text) : Option (State σ E × Text) := do
  let negative := cur s == '-'
  let (w, s) := readNumber ugly 16 0 (if negative then s.tail else s)
  let p := w % 2 ^ 64 % 2 ^ T.bits
  let (e, s) ← if cur s = '/' then T.exponent.parse s.tail else some (T.exponent.one, s)
  let e := if negative then T.exponent.neg e else e
  return ({ st with primes := T.exponent.appendOrCollate st.primes ⟨T.side st.side, p, e⟩ }, s)

def skipSides (delim : Char) : ℤ → Text → ℤ × Text
  | side, [] => (side, [])
  | side, c :: s => if c ≠ delim ∧ c = ':' then skipSides delim (side + 1) s else (side, c :: s)

def parseLoop (delim : Char) : ℕ → Bool → State σ E → Text → Option (State σ E × Text)
  | 0, _, _, _ => none
  | fuel + 1, first, st, s =>
    if first ∨ cur s ≠ Char.ofNat 0 ∧ cur s ≠ delim ∧ cur s ≠ '\n' then
      if cur s = ':' then
        let (side, s) := skipSides delim (st.side + 1) s.tail
        let st := { st with side, sorted := false }
        if cur s = delim ∨ cur s = '\n' then some (st, s)
        else do
          let (st, s) ← T.parsePrime st s
          parseLoop delim fuel false st s
      else do
        guard (cur s = ',')
        let (st, s) ← T.parsePrime st s.tail
        parseLoop delim fuel false st s
    else some (st, s)

def parse (t : AbType) (base : ℕ) (delim : Char) (s : Text) : Option (Relation σ E × Text) := do
  let (ab, s) ← parseAb t base s
  let (st, s) ← T.parseLoop delim (s.length + 1) true ⟨-1, true, []⟩ s
  let primes := st.primes.reverse
  return (⟨ab, if st.sorted then primes else T.exponent.sortAndCompress primes, st.side + 1⟩, s)

def formatPrimes (primes : List (Prime σ E)) : Option Text := do
  let texts ← primes.mapM T.format
  return List.intercalate [','] texts

end PrimeType

/-! ## The types of relations -/

section
variable (bits n : ℕ)

def formatUnary (base : ℕ) (sign : Text) (p e : ℕ) : Text :=
  List.intercalate [','] (List.replicate e (sign ++ Nat.toDigits base p))

def sieveType : PrimeType ℤ ℤ where
  bits
  side := id
  exponent := intExponent
  format x := if 0 ≤ x.e then some (formatUnary 10 [] x.p x.e.natAbs) else none

def indexedType : PrimeType Unit ℤ where
  bits
  side _ := ()
  exponent := intExponent
  format x :=
    if x.e = 0 then none
    else some (formatUnary 16 (if x.e < 0 then ['-'] else []) x.p x.e.natAbs)

def formatTnfs (p : ℕ) (e : List ℤ) : Option Text :=
  if (exponentVector n).isZero e then none
  else some (Nat.toDigits 16 p ++ if e = (exponentVector n).one then [] else '/' :: formatTerms 0 true e)

def tnfsSievedType : PrimeType ℤ (List ℤ) where
  bits
  side := id
  exponent := exponentVector n
  format x := formatTnfs n x.p x.e

def tnfsIndexedType : PrimeType Unit (List ℤ) where
  bits
  side _ := ()
  exponent := exponentVector n
  format x := formatTnfs n x.p x.e

end

-- With sides: `Ps[p.side]` is out of bounds if the side is not below `nsides`.
def Relation.formatSides (T : PrimeType ℤ E) (base : ℕ) (R : Relation ℤ E) : Option Text := do
  guard (∀ x ∈ R.primes, 0 ≤ x.side ∧ x.side < R.nsides)
  let texts ← (List.range R.nsides.toNat).mapM fun (k : ℕ) => T.formatPrimes (R.primes.filter fun x => x.side = (k : ℤ))
  return R.ab.format base ++ texts.flatMap (':' :: ·)

def Relation.formatIndices (T : PrimeType Unit E) (base : ℕ) (R : Relation Unit E) : Option Text := do
  let text ← T.formatPrimes R.primes
  return R.ab.format base ++ ':' :: text

def parseSm : ℕ → Bool → Text → Option (List ℕ × Text)
  | 0, _, _ => none
  | fuel + 1, first, s =>
    if cur s = '\n' then some ([], s)
    else do
      guard (cur s = if first then ':' else ',')
      let (w, s) := readNumber ugly 16 0 s.tail
      let (sm, s) ← parseSm fuel false s
      return (w :: sm, s)

def parseWithSm (T : PrimeType σ E) (t : AbType) (base : ℕ) (s : Text) : Option (Relation σ E × List ℕ × Text) := do
  let (R, s) ← T.parse t base ':' s
  let (sm, s) ← parseSm (s.length + 1) true s
  return (R, sm, s)

end CadoNfs.Utils.FilterIo
