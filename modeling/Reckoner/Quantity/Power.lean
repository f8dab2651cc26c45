import Reckoner.Quantity.Knowledge
import Reckoner.Quantity.Product

/-!
# Powers and exponentials

How a power is brought into closed form:

- rationals to integer powers are worked out, to fractional powers they become radicals;
- a power of a power multiplies the exponents where that is sound: for integer exponents, for
  bases that are not negative, and for even inner powers of the base's absolute value;
- a product to an integer power is a product of powers, and so is one to a fractional power as far
  as the signs of its factors are known;
- `exp (log x)` and `b ^ (k / log b)` undo the logarithm.

Undoing a logarithm may make a new power, whose exponent has one logarithm less; the number of nodes
bounds how often that can happen.
-/

namespace Reckoner.Quantity

/-! ## §1 Rational exponents -/

/-- A positive rational to a rational power, as a radical. -/
def radicalPower (b e : Rat) : Quantity :=
  (Monomial.one.mulFactor (.power (.rational b) (.rational e))).toQuantity

/-- A rational to a rational power. -/
def rationalPower (b e : Rat) : Quantity :=
  if e.den = 1 then .rational (ratPow b e.num)
  else if 0 < b then radicalPower b e
  else .power (.rational b) (.rational e)

/-! ## §2 Exponents that divide by a logarithm -/

/-- Take one factor `1 / log b` out of a term. -/
def dropLogarithm (b t : Quantity) : Option (List Quantity) :=
  let inverse : Quantity := .power (.apply .log b) (ofInt (-1))
  if t.factors.contains inverse then some (t.factors.erase inverse) else none

/-- Whether a factor is a denominator. -/
def isDenominator : Quantity → Bool
  | .power _ e => e.isNegative
  | .apply .exp x => x.splitCoefficient.1 < 0
  | _ => false

/-- The exponent `k` with `b ^ e = exp k`, if every term of `e` is divided by `log b` and by nothing
else that all terms share. -/
def naturalExponent? (b e : Quantity) : Option Quantity := do
  let parts ← e.terms.mapM (dropLogarithm b)
  match parts with
  | [] => none
  | first :: others =>
    if first.any fun f => f.isDenominator && others.all (·.contains f) then none
    else return addAll (parts.map multiplyAll)

/-! ## §3 Exponentials -/

/-- The operand of a logarithm. -/
def logArgument? : Quantity → Option Quantity
  | .apply .log x => some x
  | _ => none

/-- `exp x` for an `x` that is no sum, given a way to form powers. -/
def exponentialTerm (power : Quantity → Quantity → Quantity) (x : Quantity) : Quantity :=
  match x with
  | .rational q => powerForm .euler (.rational q)
  | .apply .log y => y
  | .product a b =>
    let fs := (Quantity.product a b).factors
    match fs.filterMap logArgument? with
    | [y] => power y (multiplyAll (fs.filter fun f => (logArgument? f).isNone))
    | _ => .apply .exp x
  | x => if x.isZero then 1 else .apply .exp x

/-- `exp x`, given a way to form powers: terms whose exponential is no exponential are taken out. -/
def exponential (power : Quantity → Quantity → Quantity) (x : Quantity) : Quantity :=
  match x with
  | .sum a b =>
    let images := (Quantity.sum a b).terms.map fun t => (t, exponentialTerm power t)
    let stays := fun (p : Quantity × Quantity) => p.2 = powerForm .euler p.1
    let out := (images.filter fun p => !stays p).map (·.2)
    if out.isEmpty then if x.isZero then 1 else .apply .exp x
    else multiplyAll (out ++ [powerForm .euler (addAll ((images.filter stays).map (·.1)))])
  | x => exponentialTerm power x

/-! ## §4 Powers -/

/-- A power of a power, given a way to form powers. -/
def powerOfPower (power : Quantity → Quantity → Quantity) (b e r : Quantity) : Quantity :=
  if r.toInt?.isSome then power b (multiply e r)
  else
    let even := (e.toInt?.map isEven).getD false
    let base := if even then b.absolute else b
    let small : Bool := match e with
      | .rational q => q < 1 && -1 < q
      | _ => false
    match base.knownSign? with
    | some 1 | some 0 => power base (multiply e r)
    | _ => if small then power base (multiply e r) else .power (.power b e) r

/-- A product to a fractional power, given a way to form powers. Factors of unknown sign stay
together. -/
def powerOfProduct (power : Quantity → Quantity → Quantity) (fs : List Quantity) (r : Quantity) :
    Quantity :=
  let positive := fs.filter isPositive
  let negative := fs.filter isNegative
  let unknown := fs.filter fun f => !f.isPositive && !f.isNegative
  if fs.length = 2 ∧ fs.head? = some (ofInt (-1)) ∧ negative.length = 2 then
    match fs with
    | [_, .sum a b] => power (negate (.sum a b)) r
    | fs => .power (ofFactors fs) r
  else
    let outside := (positive ++ negative.map negate).map fun f =>
      match f with
      | .product a b => Quantity.power (.product a b) r
      | f => power f r
    let minus : List Quantity := if negative.length % 2 = 1 then [ofInt (-1)] else []
    match minus ++ unknown with
    | [] => multiplyAll outside
    | inside => multiplyAll (outside ++ [.power (ofFactors inside) r])

/-- A power in closed form, in at most the given number of steps. -/
def powerSteps : Nat → Quantity → Quantity → Quantity
  | 0, b, e => powerForm b e
  | n + 1, b, e =>
    if e = 0 then 1
    else if e = 1 then b
    else
      match if b = .euler then none else naturalExponent? b e with
      | some k => exponential (powerSteps n) k
      | none =>
        match b, e with
        | .rational p, .rational q => rationalPower p q
        | .rational p, e => if p = 1 then 1 else .power (.rational p) e
        | .euler, e => exponential (powerSteps n) e
        | .apply .exp x, e => exponential (powerSteps n) (multiply x e)
        | .power b' e', e => powerOfPower (powerSteps n) b' e' e
        | .product a c, .rational q =>
          let fs := (Quantity.product a c).factors
          if q.den = 1 then multiplyAll (fs.map fun f => powerSteps n f (.rational q))
          else powerOfProduct (powerSteps n) fs (.rational q)
        | b, e => .power b e

/-- A power in closed form. -/
def raise (b e : Quantity) : Quantity :=
  powerSteps (b.size + e.size + 8) b e

/-- The exponential function in closed form. -/
def exp (x : Quantity) : Quantity :=
  raise .euler x

/-- The square root in closed form. -/
def root (x : Quantity) : Quantity :=
  raise x (ofRatio 1 2)

/-- The reciprocal in closed form. -/
def reciprocal (x : Quantity) : Quantity :=
  raise x (ofInt (-1))

/-- The quotient of two quantities, the second one not zero. -/
def quotient : Quantity → Quantity → Quantity
  | .rational p, .rational q => .rational (p / q)
  | a, b => multiply a b.reciprocal

end Reckoner.Quantity
