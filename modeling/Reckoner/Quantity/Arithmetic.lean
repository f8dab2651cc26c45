import Reckoner.Quantity.Inverse
import Reckoner.Quantity.Logarithm

/-!
# Arithmetic of quantities

The operations that a calculator offers on exact reals, with the causes for which they fail.

Signs are decided exactly where they are known. Where they are not, fifty digits are computed and
magnitudes below `tolerance` count as zero, so a divisor that vanishes without being known to vanish
is still refused. Rationals are always decided exactly, however small.
-/

namespace Reckoner

/-- Why an operation on quantities has no result. -/
inductive ArithmeticError where
  | divisionByZero
  | undefinedResult
  | complexResult
  | negativeRadicand
  | negativeBase
  | arcOutOfRange
  | logarithmDomain
  | fractionalFactorial
  | negativeFactorial
  | hugeFactorial
  deriving DecidableEq, Repr, Inhabited

namespace ArithmeticError

def message : ArithmeticError → String
  | .divisionByZero => "Division by zero"
  | .undefinedResult => "Undefined result"
  | .complexResult => "Result is not a real number"
  | .negativeRadicand => "Square root of negative number"
  | .negativeBase => "Negative base for pow() with non-integer exponent"
  | .arcOutOfRange => "Inverse trig argument out of range"
  | .logarithmDomain => "Logarithm of non-positive number"
  | .fractionalFactorial => "Non-integral factorial argument"
  | .negativeFactorial => "Negative factorial argument"
  | .hugeFactorial => "Factorial argument too big"

def code : ArithmeticError → String
  | .divisionByZero => "DIVISION_BY_ZERO"
  | .undefinedResult | .arcOutOfRange | .logarithmDomain => "DOMAIN_ERROR"
  | .complexResult | .negativeRadicand | .negativeBase => "NON_REAL"
  | .fractionalFactorial | .negativeFactorial | .hugeFactorial => "FACTORIAL_ERROR"

end ArithmeticError

/-- Why a quantity has no factorial: the operation fails, or the integer that it is taken of has to be
written out and has too many digits for that. -/
inductive FactorialError where
  | arithmetic (e : ArithmeticError)
  | tooManyDigits
  deriving DecidableEq, Repr, Inhabited

namespace Quantity

open Reckoner.Decimal (bitLength)

/-! ## §1 Limits -/

/-- Largest integer exponent whose powers are worked out. -/
def largestExpandedExponent : Nat := 100000

/-- Bits of fifty decimal digits, with some to spare. -/
def tolerantBits : Nat := 176

/-- Magnitudes below this count as zero when a sign is not known exactly: the binary64 number
nearest to `1e-40`. -/
def tolerance : Rat := mkRat 1225996432692711 (2 ^ 183)

/-- Bits of the largest factorial argument. -/
def factorialBits : Nat := 20

/-! ## §2 Classification -/

/-- The sign of a quantity: exact where it is known, else up to `tolerance`. -/
def signum (x : Quantity) : Int :=
  match x.knownSign? with
  | some s => s
  | none =>
    match x.nearestRat? tolerantBits with
    | some q => if q < tolerance ∧ -tolerance < q then 0 else q.num.sign
    | none => x.sign?.getD 0

/-- Whether two quantities agree to fifty digits, up to `tolerance`. -/
def approxEquals (x y : Quantity) : Bool :=
  match (subtract x y).nearestRat? tolerantBits with
  | some q => q < tolerance && -tolerance < q
  | none => false

/-- Whether two quantities are equal: exactly where that is known, else as far as they can be told
apart at all. -/
def definitelyEquals (x y : Quantity) : Bool :=
  let d := subtract x y
  match d.knownSign? with
  | some s => s = 0
  | none => d.sign?.isNone

/-- Whether a form is built of known integers. -/
def isIntegralForm : Quantity → Bool
  | .rational q => q.den = 1
  | .power (.rational b) (.rational n) =>
    n.den = 1 &&
      (b.num.natAbs = 1 && b.den = 1 || b.den = 1 && 0 < n || b.num.natAbs = 1 && n < 0)
  | .sum a b | .product a b => a.isIntegralForm && b.isIntegralForm
  | _ => false

/-- Whether a quantity is known to be an integer. -/
def isInteger (x : Quantity) : Bool :=
  match x with
  | .rational q => q.den = 1
  | x => x.isIntegralForm || x.isZero

/-- Whether a form is built of known rationals. -/
def isRationalForm : Quantity → Bool
  | .rational _ => true
  | .power b (.rational n) =>
    n.den = 1 && (b.toRat?.isSome || (raise b (.rational n)).toRat?.isSome)
  | .sum a b | .product a b =>
    (a.isRationalForm || a.isZero) && (b.isRationalForm || b.isZero)
  | _ => false

/-- Whether a quantity is known to be rational. -/
def isRational (x : Quantity) : Bool :=
  match x with
  | .rational _ => true
  | x => x.isRationalForm || x.isZero

/-! ## §3 Division, powers and roots -/

def divide (x y : Quantity) : Except ArithmeticError Quantity :=
  if y.signum = 0 then .error .divisionByZero else .ok (quotient x y)

/-- Powers. Zero to the power zero is one. Integer exponents that are too large leave the power as
it stands, still to be approximated; negative bases take integer exponents only. -/
def pow (x e : Quantity) : Except ArithmeticError Quantity :=
  if e.isZero then .ok 1
  else
    let sign := x.signum
    if sign = 0 then if e.signum < 0 then .error .divisionByZero else .ok 0
    else if e.isInteger then
      -- An integer that is not given as a rational is not expanded either.
      match e.toInt? with
      | some n =>
        if largestExpandedExponent < n.natAbs then .ok (.power x e) else .ok (raise x e)
      | none => .ok (.power x e)
    else if sign < 0 then .error .negativeBase
    else .ok (raise x e)

def sqrt (x : Quantity) : Except ArithmeticError Quantity :=
  let sign := x.signum
  if sign < 0 then .error .negativeRadicand else if sign = 0 then .ok 0 else .ok (root x)

/-! ## §4 Elementary functions -/

/-- Refuse arguments outside the unit interval. -/
def checkArc (x : Quantity) : Except ArithmeticError Unit :=
  if 0 < (subtract x.absolute 1).signum then .error .arcOutOfRange else .ok ()

def arcSine (x : Quantity) : Except ArithmeticError Quantity := do
  checkArc x
  return asin x

def arcCosine (x : Quantity) : Except ArithmeticError Quantity := do
  checkArc x
  return acos x

/-- The tangent, as sine over cosine. -/
def tangent (x : Quantity) : Except ArithmeticError Quantity :=
  divide (sin x) (cos x)

/-- Refuse arguments that are not positive. -/
def checkLogarithm (x : Quantity) : Except ArithmeticError Unit :=
  if x.signum ≤ 0 then .error .logarithmDomain else .ok ()

def naturalLog (x : Quantity) : Except ArithmeticError Quantity := do
  checkLogarithm x
  return log x

def decimalLog (x : Quantity) : Except ArithmeticError Quantity := do
  checkLogarithm x
  return log10 x

/-! ## §5 Factorials -/

/-- The product of `count` naturals from `first` on, by halves. -/
def productFrom : Nat → Nat → Nat → Nat
  | 0, _, _ => 1
  | fuel + 1, first, count =>
    if count = 0 then 1
    else if count = 1 then first
    else productFrom fuel first (count / 2) * productFrom fuel (first + count / 2) (count - count / 2)

def factorialNat (n : Nat) : Nat :=
  productFrom (bitLength n + 1) 1 n

/-- The nearest integer to a rational, a half going up. -/
def nearestInt (q : Rat) : Int :=
  (q + 1 / 2).floor

/-- The integer that a form stands for which is known to be one. Unless it is given as a rational, its
digits are written out to find it. -/
def integerOf (x : Quantity) : Except FactorialError Int :=
  match x.toInt? with
  | some n => .ok n
  | none =>
    match (x.nearestRat? tolerantBits).map nearestInt with
    | none => .error .tooManyDigits
    | some n => if Decimal.beyondConversion n then .error .tooManyDigits else .ok n

/-- The integer next to a form that is not known to be one, within `tolerance`. -/
def integerNear (x : Quantity) : Except FactorialError Int :=
  -- Rationals are rounded to fifty digits first.
  let held := match x with
    | .rational q =>
      let r := Decimal.nearestBinary 169 (Decimal.Ratio.ofRat q)
      some (if q < 0 then -r.toRat else r.toRat)
    | x => x.nearestRat? tolerantBits
  match held with
  | none => .error (.arithmetic .fractionalFactorial)
  | some q =>
    let n := nearestInt q
    if approxEquals x (ofInt n) then .ok n else .error (.arithmetic .fractionalFactorial)

/-- The integer that a factorial is taken of. -/
def factorialArgument (x : Quantity) : Except FactorialError Int :=
  if x.isInteger then x.integerOf else x.integerNear

/-- The factorial of a quantity. -/
def factorial (x : Quantity) : Except FactorialError Quantity := do
  -- Only the bits of the argument are limited, not those of the result.
  let n ← factorialArgument x
  if n < 0 then .error (.arithmetic .negativeFactorial)
  else if factorialBits < bitLength n.natAbs then .error (.arithmetic .hugeFactorial)
  else .ok (ofInt (factorialNat n.natAbs))

end Quantity

end Reckoner
