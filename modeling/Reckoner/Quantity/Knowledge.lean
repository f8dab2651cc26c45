import Reckoner.Quantity.Enclosure
import Reckoner.Quantity.Sum

/-!
# What is known of a quantity without rounding

`knownSign?` decides the sign of a quantity exactly, or not at all:

- a product by the signs of its factors, a power by its base and the parity of its exponent;
- a sum or a function by an enclosure that leaves zero out;
- an algebraic number that no enclosure separates from zero by a root separation bound: it is zero
  if it is smaller than every other algebraic number of its build could be.

The bound is the one for expressions in rationals, field operations and roots: such an expression
with numerator bound `u`, denominator bound `l` and roots of total degree `d` is zero or at least
`1 / (l * u ^ (d - 1))`.
-/

namespace Reckoner.Quantity

open Reckoner.Decimal (bitLength)

/-! ## §1 Algebraic numbers -/

/-- Whether a form is built of rationals by field operations and rational powers. -/
def isAlgebraic : Quantity → Bool
  | .rational _ => true
  | .sum a b | .product a b => a.isAlgebraic && b.isAlgebraic
  | .power b (.rational _) => b.isAlgebraic
  | _ => false

/-- Bit counts that bound the numerator and the denominator of an algebraic number. -/
structure AlgebraicSize where
  upper : Nat
  lower : Nat
  deriving Repr, Inhabited

/-- Size of a power with rational exponent. -/
def AlgebraicSize.pow (s : AlgebraicSize) (r : Rat) : AlgebraicSize :=
  let n := r.num.natAbs
  let u := if 0 ≤ r.num then s.upper * n else s.lower * n
  let l := if 0 ≤ r.num then s.lower * n else s.upper * n
  let q := r.den
  if q = 1 then ⟨u, l⟩
  else if l ≤ u then ⟨(u + (q - 1) * l) / q + 1, l⟩
  else ⟨u, ((q - 1) * u + l) / q + 1⟩

/-- Numerator and denominator bounds of an algebraic form. -/
def algebraicSize : Quantity → AlgebraicSize
  | .rational q => ⟨bitLength q.num.natAbs, bitLength q.den⟩
  | .sum a b =>
    let s := a.algebraicSize
    let t := b.algebraicSize
    ⟨max (s.upper + t.lower) (s.lower + t.upper) + 1, s.lower + t.lower⟩
  | .product a b =>
    let s := a.algebraicSize
    let t := b.algebraicSize
    ⟨s.upper + t.upper, s.lower + t.lower⟩
  | .power b (.rational r) => b.algebraicSize.pow r
  | _ => ⟨0, 0⟩

/-- The roots that occur in a form, each once. -/
def roots : Quantity → List Quantity
  | .sum a b | .product a b => (b.roots.filter fun x => !a.roots.contains x) ++ a.roots
  | .power b (.rational r) =>
    let inner := b.roots
    if r.den = 1 ∨ inner.contains (.power b (.rational r)) then inner
    else .power b (.rational r) :: inner
  | _ => []

/-- The product of the degrees of the roots in a form. -/
def rootDegree (x : Quantity) : Nat :=
  x.roots.foldl
    (fun d y => match y with
      | .power _ (.rational r) => d * r.den
      | _ => d) 1

/-- Most bits to which an algebraic number is compared with zero. -/
def separationLimit : Nat := 100000

/-- Whether an algebraic form is below its separation bound, and hence zero. -/
def isAlgebraicZero (x : Quantity) : Bool :=
  if x.isAlgebraic then
    let s := x.algebraicSize
    let bits := s.lower + (x.rootDegree - 1) * s.upper + 1
    if separationLimit < bits then false
    else
      match x.enclose? (bits + s.upper + 64) with
      | some b => b.top ≤ -(bits : Int)
      | none => false
  else false

/-! ## §2 Signs -/

/-- Whether an integer is even. -/
def isEven (n : Int) : Bool :=
  n % 2 = 0

/-- The sign of a product of known or unknown signs. -/
def signProduct : Option Int → Option Int → Option Int
  | some 0, _ | _, some 0 => some 0
  | some s, some t => some (s * t)
  | _, _ => none

/-- The sign that an enclosure shows, or zero for an algebraic zero. -/
def enclosedSign? (x : Quantity) : Option Int :=
  match x.sign? with
  | some s => some s
  | none =>
    match x with
    | .apply .log y => if (subtract y 1).isAlgebraicZero then some 0 else none
    | x => if x.isAlgebraicZero then some 0 else none

/-- The sign of a quantity, if it is known exactly. -/
def knownSign? : Quantity → Option Int
  | .rational q => some q.num.sign
  | .pi | .euler | .apply .exp _ => some 1
  | .product a b => signProduct a.knownSign? b.knownSign?
  | .power b (.rational r) =>
    match b.knownSign? with
    | some 1 => some 1
    | some (-1) => if r.den = 1 then some (if isEven r.num then 1 else -1) else none
    | _ => none
  | .power b _ => if b.knownSign? = some 1 then some 1 else none
  | x => x.enclosedSign?

/-- Whether a quantity is known to be zero. -/
def isZero (x : Quantity) : Bool :=
  x.knownSign? = some 0

/-- Whether a quantity is known to be positive. -/
def isPositive (x : Quantity) : Bool :=
  x.knownSign? = some 1

/-- Whether a quantity is known to be negative. -/
def isNegative (x : Quantity) : Bool :=
  x.knownSign? = some (-1)

/-- The absolute value, as far as the sign is known. -/
def absolute (x : Quantity) : Quantity :=
  if x.isNegative then x.negate else x

end Reckoner.Quantity
