import Reckoner.Quantity.Basic
import Reckoner.Quantity.Elementary
import Reckoner.Decimal.Approximate

/-!
# Enclosures of quantities

A quantity is enclosed in a ball at any working precision. `enclosure?` raises the precision until
the ball is accurate enough; a quantity whose enclosures still hold zero at the last precision cannot
be told from zero, and has no accurate enclosure.

Exponentials, sines and cosines need all the bits that their arguments have in front of the point, so
these come on top of the precision. `isOversized` tells the quantities for which they are too many;
no enclosure is looked for then.

- `sign?` is the sign that some enclosure shows;
- `known` is what is known of a quantity that is to be written with a count of digits;
- `nearestRat?` is a rational that agrees with the quantity to a count of bits.
-/

namespace Reckoner

open Reckoner.Decimal

namespace Quantity

/-! ## §1 One enclosure -/

/-- Largest denominator of an exponent for which a root is taken; others go through logarithms. -/
def largestRoot : Nat := 8

/-- A power of a ball to a rational exponent. -/
def powRat? (w : Nat) (b : Ball) (r : Rat) : Option Ball :=
  if r.den = 1 then b.powInt? w r.num
  else if r.den ≤ largestRoot then (b.root w r.den).powInt? w r.num
  else do (← b.log? w).mul w (Ball.ofRat w r) |>.exp? w

/-- Enclose a quantity with a working precision of `w` bits. -/
def enclose? (w : Nat) : Quantity → Option Ball
  | .rational q => some (Ball.ofRat w q)
  | .pi => some (Ball.pi w)
  | .euler => (Ball.ofInt 1).exp? w
  | .sum a b => do return (← a.enclose? w).add w (← b.enclose? w)
  | .product a b => do return (← a.enclose? w).mul w (← b.enclose? w)
  | .power b (.rational r) => do powRat? w (← b.enclose? w) r
  | .power b e => do (((← (← b.enclose? w).log? w)).mul w (← e.enclose? w)).exp? w
  | .apply .exp x => do (← x.enclose? w).exp? w
  | .apply .log x => do (← x.enclose? w).log? w
  | .apply .sin x => do return (← x.enclose? w).sin w
  | .apply .cos x => do return (← x.enclose? w).cos w
  | .apply .asin x => do (← x.enclose? w).asin? w
  | .apply .acos x => do (← x.enclose? w).acos? w
  | .apply .atan x => do (← x.enclose? w).atan? w

/-! ## §2 The bits of arguments -/

/-- The bits in front of the point, as far as a working precision of `w` bits shows them. -/
def wholeBits (w : Nat) (x : Quantity) : Nat :=
  (x.enclose? w).elim 0 fun b => b.top.toNat

/-- The most bits in front of the point that a form has in an argument in which they count: of an
exponential, a sine or a cosine, or in an exponent. -/
def argumentBits (w : Nat) : Quantity → Nat
  | .rational _ | .pi | .euler => 0
  | .sum a b | .product a b => max (a.argumentBits w) (b.argumentBits w)
  | .power b (.rational r) => max (b.argumentBits w) (bitLength r.num.natAbs)
  | .power b e =>
    max (max (b.argumentBits w) (e.argumentBits w)) (wholeBits w (.product (.apply .log b) e))
  | .apply .exp x | .apply .sin x | .apply .cos x => max (x.argumentBits w) (wholeBits w x)
  | .apply _ x => x.argumentBits w

/-- Bits to which arguments are enclosed to count the bits that they have. -/
def surveyBits : Nat := 64

/-- Bits that arguments have in front of the point. Where a first survey finds more than it can see,
a second one looks at the arguments that depend on them. -/
def demand (x : Quantity) : Nat :=
  let seen := x.argumentBits surveyBits
  if seen ≤ surveyBits then seen else max seen (x.argumentBits (surveyBits + seen))

/-- Most bits that an argument may have in front of the point. -/
def largestDemand : Nat := 2 ^ 20

/-- Whether an argument in a form is too large to be computed with, as in `exp (exp (exp (exp 10)))`. -/
def isOversized (x : Quantity) : Bool :=
  largestDemand < x.demand

/-! ## §3 Accurate enclosures -/

/-- Try working precisions `w`, `2 w`, `4 w`, … until a ball passes. -/
def searchEnclosure (x : Quantity) (passes : Ball → Bool) : Nat → Nat → Option Ball
  | 0, _ => none
  | rounds + 1, w =>
    match x.enclose? w with
    | some b => if passes b then some b else searchEnclosure x passes rounds (2 * w)
    | none => searchEnclosure x passes rounds (2 * w)

/-- Doublings of the working precision after which a quantity counts as one that cannot be told from
zero: with these the last precision is above a thousand bits. -/
def precisionRounds : Nat := 5

/-- An enclosure whose radius is below `2 ^ -bits` of its midpoint. -/
def enclosure? (x : Quantity) (bits : Nat) : Option Ball :=
  if x.isOversized then none
  else searchEnclosure x (Ball.accurate bits) precisionRounds (bits + 64 + x.demand)

/-- The sign of a quantity, if some enclosure shows it: never zero. -/
def sign? (x : Quantity) : Option Int :=
  (searchEnclosure x Ball.excludesZero precisionRounds 64).map fun b => if b.mid < 0 then -1 else 1

/-! ## §4 Leading digits and rational neighbours -/

/-- The midpoint of a ball as a ratio. -/
def midRatio (b : Ball) : Ratio :=
  (⟨b.mid.natAbs, 1⟩ : Ratio).scale 2 b.exp

/-- Binary exponents up to which a midpoint is written out as a ratio. -/
def largestExponent : Nat := 2 ^ 20

/-- An estimate of the decimal exponent of a ball's midpoint. -/
def decadeEstimate (b : Ball) : Int :=
  let e := b.exp + bitLength b.mid.natAbs
  -- The logarithms need as many bits as the exponent has, or the estimate is off by powers of ten.
  let q := bitLength e.natAbs + Ball.spare
  let logTen := ((Ball.ofInt 10).log? q).elim 1 (Ball.midFixed q)
  e * Ball.logTwoFixed q / logTen

/-- The first `k` digits of a ball's midpoint. Midpoints with a large exponent are first divided
by a power of ten. -/
def leadingDigits? (b : Ball) (k : Nat) : Option Significant :=
  if (b.exp + bitLength b.mid.natAbs).natAbs ≤ largestExponent then
    some (Significant.ofRatio (midRatio b) k)
  else do
    let e := decadeEstimate b
    let w := 4 * k + 128 + 2 * bitLength e.natAbs
    let tenth ← (Ball.ofInt 10).powInt? w (-e)
    let s := Significant.ofRatio (midRatio (b.mul w tenth)) k
    return ⟨s.digits, s.exponent + e⟩

/-- What is known of a quantity that is to be written with `n` digits. Without an accurate enclosure it
counts as zero, from which it cannot be told unless it is oversized. -/
def known (x : Quantity) (n : Nat) : Known :=
  match x with
  | .rational q => Known.ofRat q n
  | x =>
    match x.enclosure? (bitsForDigits (n + guard) + 32) with
    | none => .zero
    | some b =>
      match leadingDigits? b (n + guard) with
      | none => .zero
      | some s => .signed (b.mid < 0) s

/-- A rational within `2 ^ -bits` of the quantity, relative to its size; zero if it cannot be told
from zero; `none` if it is too large to be written out, or oversized. -/
def nearestRat? (x : Quantity) (bits : Nat) : Option Rat :=
  match x with
  | .rational q => some q
  | x =>
    match x.enclosure? bits with
    | none => if x.isOversized then none else some 0
    | some b =>
      if largestExponent < b.top then none
      else if b.top < -(largestExponent : Int) then some 0
      else
        let r := (midRatio b)
        some (mkRat (if b.mid < 0 then -r.num else r.num) r.den)

end Quantity

end Reckoner
