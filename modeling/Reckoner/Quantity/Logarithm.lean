import Reckoner.Quantity.Power

/-!
# Logarithms

The natural logarithm undoes the exponential and writes the logarithm of `1 / n` as an opposite; it
is not expanded over products and powers. The decimal logarithm of a rational gives up the powers
of ten that divide it, so logarithms of exact powers of ten are integers.
-/

namespace Reckoner.Quantity

open Reckoner.Decimal (bitLength divideOut)

/-- The natural logarithm of a positive quantity. -/
def log : Quantity → Quantity
  | .rational q =>
    if q = 1 then 0
    else if q.num = 1 then negate (.apply .log (.rational q.den))
    else .apply .log (.rational q)
  | .euler => 1
  | .apply .exp x => x
  | x => .apply .log x

/-- How often ten divides a natural. -/
def tensIn (n : Nat) : Nat :=
  (divideOut 10 (bitLength n) n).1

/-- The power of ten that is taken out of a rational before its decimal logarithm. -/
def tensOf (q : Rat) : Int :=
  if q.den = 1 then tensIn q.num.natAbs
  else if q.num = 1 then -(tensIn q.den : Int)
  else (tensIn q.num.natAbs : Int) - tensIn q.den

/-- The decimal logarithm of a positive quantity. -/
def log10 (x : Quantity) : Quantity :=
  let ratio (y : Quantity) : Quantity := quotient (log y) (.apply .log (ofInt 10))
  match x with
  | .rational q =>
    let n := tensOf q
    if n = 0 then ratio x else add (ofInt n) (ratio (.rational (q / ratPow 10 n)))
  | x => ratio x

end Reckoner.Quantity
