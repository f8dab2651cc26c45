import Reckoner.Decimal.Significant

/-!
# Balls

A ball is a dyadic midpoint with a dyadic radius: it encloses the reals at distance at most
`rad * 2 ^ exp` from `mid * 2 ^ exp`. Each operation returns a ball that encloses every result on
enclosed operands; the precision `w` only says how many bits of the midpoint are kept, and what is
dropped goes into the radius.

Operations that are undefined somewhere on their operands' balls return `none`: more precision may
help.
-/

namespace Reckoner

open Reckoner.Decimal (bitLength)

/-- The reals at distance at most `rad * 2 ^ exp` from `mid * 2 ^ exp`. -/
structure Ball where
  mid : Int
  rad : Nat
  exp : Int
  deriving DecidableEq, Repr, Inhabited

namespace Ball

/-! ## §1 Exact and rounded numbers -/

def zero : Ball :=
  ⟨0, 0, 0⟩

/-- The ball that holds an integer alone. -/
def ofInt (n : Int) : Ball :=
  ⟨n, 0, 0⟩

/-- Keep `w` bits of the midpoint. -/
def trim (w : Nat) (b : Ball) : Ball :=
  let s := bitLength b.mid.natAbs - w
  if s = 0 then b else ⟨b.mid >>> s, (b.rad >>> s) + 2, b.exp + s⟩

/-- A rational, to `w` bits. -/
def ofRat (w : Nat) (q : Rat) : Ball :=
  let k : Int := (w : Int) - ((bitLength q.num.natAbs : Int) - bitLength q.den)
  let num := if 0 ≤ k then q.num * 2 ^ k.toNat else q.num
  let den : Int := if 0 ≤ k then q.den else q.den * 2 ^ (-k).toNat
  ⟨num / den, if num % den = 0 then 0 else 1, -k⟩

/-- A magnitude exponent: every enclosed real is below `2 ^ top` in absolute value. -/
def top (b : Ball) : Int :=
  (bitLength (b.mid.natAbs + b.rad) : Int) + b.exp

/-- Whether zero is not enclosed. -/
def excludesZero (b : Ball) : Bool :=
  b.rad < b.mid.natAbs

/-- Whether the radius is at most `2 ^ -bits` of the midpoint. -/
def accurate (bits : Nat) (b : Ball) : Bool :=
  b.rad <<< bits ≤ b.mid.natAbs

/-! ## §2 Field operations -/

def neg (b : Ball) : Ball :=
  ⟨-b.mid, b.rad, b.exp⟩

/-- Rewrite a ball with another exponent; bits that are lost widen it. -/
def align (e : Int) (b : Ball) : Ball :=
  if e ≤ b.exp then
    let s := (b.exp - e).toNat
    ⟨b.mid <<< s, b.rad <<< s, e⟩
  else
    let s := (e - b.exp).toNat
    if bitLength (b.mid.natAbs + b.rad) < s then ⟨0, 1, e⟩
    else ⟨b.mid >>> s, (b.rad >>> s) + 2, e⟩

/-- The sum. Bits far below the larger operand are dropped before adding. -/
def add (w : Nat) (a b : Ball) : Ball :=
  if a.mid = 0 ∧ a.rad = 0 then b
  else if b.mid = 0 ∧ b.rad = 0 then a
  else
    -- Not below the precision, or a small operand would make the sum as long as their distance.
    let e := max (min a.exp b.exp) (max a.top b.top - w - 8)
    let a := a.align e
    let b := b.align e
    trim w ⟨a.mid + b.mid, a.rad + b.rad, e⟩

def sub (w : Nat) (a b : Ball) : Ball :=
  add w a b.neg

def mul (w : Nat) (a b : Ball) : Ball :=
  trim w ⟨a.mid * b.mid, a.mid.natAbs * b.rad + b.mid.natAbs * a.rad + a.rad * b.rad,
    a.exp + b.exp⟩

/-- Exact multiplication by a power of two. -/
def scale (k : Int) (b : Ball) : Ball :=
  ⟨b.mid, b.rad, b.exp + k⟩

/-- The reciprocal. -/
def inv? (w : Nat) (b : Ball) : Option Ball :=
  if b.excludesZero then
    let m := b.mid.natAbs
    let k := bitLength m + w
    let q : Nat := 2 ^ k / m
    -- The slope of the reciprocal is steepest at the end next to zero.
    let r := b.rad * 2 ^ k / (m * (m - b.rad)) + 2
    some (trim w ⟨if b.mid < 0 then -q else q, r, -(k : Int) - b.exp⟩)
  else none

/-- The quotient. -/
def div? (w : Nat) (a b : Ball) : Option Ball :=
  (b.inv? w).map (mul w a)

/-! ## §3 Integer powers and roots -/

/-- Power by squaring: `acc * b ^ n`, in at most `fuel` squarings. -/
def powLoop (w : Nat) : Nat → Ball → Nat → Ball → Ball
  | 0, _, _, acc => acc
  | fuel + 1, b, n, acc =>
    if n = 0 then acc
    else
      let acc := if n % 2 = 1 then mul w acc b else acc
      powLoop w fuel (mul w b b) (n / 2) acc

/-- A natural power. -/
def powNat (w : Nat) (b : Ball) (n : Nat) : Ball :=
  powLoop w (bitLength n) b n (ofInt 1)

/-- An integer power. -/
def powInt? (w : Nat) (b : Ball) (n : Int) : Option Ball :=
  if 0 ≤ n then some (powNat w b n.toNat) else (powNat w b n.natAbs).inv? w

/-- Newton's iteration for the `n`-th root from above, until it stops falling. -/
def rootLoop (n a : Nat) : Nat → Nat → Nat
  | 0, x => x
  | fuel + 1, x =>
    let y := ((n - 1) * x + a / x ^ (n - 1)) / n
    if y < x then rootLoop n a fuel y else x

/-- The whole part of the `n`-th root of a natural. -/
def natRoot (n a : Nat) : Nat :=
  if n = 0 ∨ a = 0 then 0
  else rootLoop n a (bitLength a + n) (2 ^ ((bitLength a + n - 1) / n))

/-- The `n`-th root. The part of the ball below zero is left out. -/
def root (w n : Nat) (b : Ball) : Ball :=
  let lo := (b.mid - b.rad).toNat
  let hi := (b.mid + b.rad).toNat
  let least := n * (w + 2) - bitLength hi
  let t := least + ((b.exp - least) % n).toNat
  -- The exponent must be divisible by `n` before the roots of both ends are taken.
  let rootLo := natRoot n (lo <<< t)
  let rootHi := natRoot n (hi <<< t) + 1
  let mid := (rootLo + rootHi) / 2
  trim w ⟨mid, rootHi - mid, (b.exp - t) / n⟩

end Ball

end Reckoner
