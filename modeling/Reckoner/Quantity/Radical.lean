import Reckoner.Decimal.Exact
import Reckoner.Quantity.Ball
import Reckoner.Quantity.Sum

/-!
# Radicals of rationals

A positive rational to a fractional power is split over the prime factors of its base: whole powers
go into a rational coefficient, and each prime keeps an exponent between zero and one. A product
of radicals is therefore rational exactly when every exponent comes out whole: `√2 * √8` is `4`.

Primes are searched for up to `trialLimit`. What is left above it counts as one prime, unless it is
a perfect power.
-/

namespace Reckoner.Quantity

open Reckoner.Decimal (bitLength divideOut)

/-! ## §1 Factors of naturals -/

/-- Largest divisor that is tried. -/
def trialLimit : Nat := 2 ^ 15

/-- Divide by `p`, `p + 1`, …; what is left is returned with the factors found. -/
def trialDivide : Nat → Nat → Nat → List (Nat × Nat) → List (Nat × Nat) × Nat
  | 0, _, m, found => (found, m)
  | fuel + 1, p, m, found =>
    if m < p * p then (found, m)
    else if m % p = 0 then
      let (count, rest) := divideOut p (bitLength m) m
      trialDivide fuel (p + 1) rest ((p, count) :: found)
    else trialDivide fuel (p + 1) m found

/-- The largest exponent at most `k` under which a natural is a perfect power, and its root. -/
def perfectPower (m : Nat) : Nat → Nat × Nat
  | 0 => (m, 1)
  | k + 1 =>
    let r := Ball.natRoot (k + 1) m
    if r ^ (k + 1) = m then (r, k + 1) else perfectPower m k

/-- The factors of a positive natural with their exponents. -/
def primeFactors (m : Nat) : List (Nat × Nat) :=
  let (found, rest) := trialDivide trialLimit 2 m []
  if rest = 1 then found
  else if rest < trialLimit * trialLimit then (rest, 1) :: found
  else perfectPower rest (bitLength rest / 15) :: found

/-! ## §2 Products of radicals -/

/-- A rational coefficient and prime bases with exponents between zero and one. -/
structure Radical where
  coefficient : Rat
  roots : List (Nat × Rat)
  deriving Repr, Inhabited

namespace Radical

/-- The radical without factors. -/
def one : Radical :=
  ⟨1, []⟩

/-- Change the exponent of one base. -/
def addExponent (p : Nat) (e : Rat) : List (Nat × Rat) → List (Nat × Rat)
  | [] => [(p, e)]
  | (q, f) :: rest =>
    if p < q then (p, e) :: (q, f) :: rest
    else if p = q then (q, f + e) :: rest
    else (q, f) :: addExponent p e rest

/-- Move whole powers into the coefficient and drop bases whose exponent is zero. -/
def reduce (r : Radical) : Radical :=
  r.roots.foldr
    (fun (p, e) acc =>
      let whole := e.floor
      let part := e - whole
      ⟨acc.coefficient * ratPow p whole, if part = 0 then acc.roots else (p, part) :: acc.roots⟩)
    ⟨r.coefficient, []⟩

/-- Multiply by a factor's power. -/
def mulPower (r : Radical) (p : Nat) (e : Rat) : Radical :=
  { r with roots := addExponent p e r.roots }

/-- Multiply by a positive rational to a rational power. -/
def mulRat (r : Radical) (b : Rat) (e : Rat) : Radical :=
  let above := (primeFactors b.num.natAbs).foldl (fun r (p, k) => r.mulPower p (k * e)) r
  (primeFactors b.den).foldl (fun r (p, k) => r.mulPower p (-(k * e))) above

/-- The factors that the roots stand for. -/
def factors (r : Radical) : List Quantity :=
  r.roots.map fun (p, e) => .power (.rational p) (.rational e)

end Radical

end Reckoner.Quantity
