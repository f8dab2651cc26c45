import Reckoner.Quantity.Radical

/-!
# Products with like powers collected

A monomial is a rational coefficient, a product of radicals, powers of rationals to irrational
exponents, and powers of other bases. Exponents over one base are added up as far as they are
rational multiples of one form: `π ^ 2 * π ^ (-2)` is `1`, and `2 ^ π * 3 ^ π` is `6 ^ π`.

Sums inside a product stay as they are. Only a rational times one sum is multiplied out.
-/

namespace Reckoner.Quantity

/-- A power as it stands: only exponents zero and one are worked out. -/
def powerForm (b e : Quantity) : Quantity :=
  if e = 0 then 1
  else if e = 1 then b
  else if b = .euler then .apply .exp e
  else .power b e

/-- A product taken apart. An exponent is a coefficient times a form without one. -/
structure Monomial where
  radical : Radical
  numeric : List (Rat × Quantity × Rat)
  powers : List (Quantity × Quantity × Rat)
  deriving Repr, Inhabited

namespace Monomial

/-- The product of no factors. -/
def one : Monomial :=
  ⟨Radical.one, [], []⟩

/-- Add an exponent `c * t` to those of base `b`. -/
def addExponent {β : Type} [DecidableEq β] (b : β) (t : Quantity) (c : Rat) :
    List (β × Quantity × Rat) → List (β × Quantity × Rat)
  | [] => [(b, t, c)]
  | (b', t', c') :: rest =>
    if b = b' ∧ t = t' then (b', t', c' + c) :: rest
    else (b', t', c') :: addExponent b t c rest

/-- Multiply the coefficient. -/
def mulRat (m : Monomial) (q : Rat) : Monomial :=
  { m with radical := { m.radical with coefficient := m.radical.coefficient * q } }

/-- Multiply by a power of a base that is no rational. -/
def mulPower (m : Monomial) (b e : Quantity) : Monomial :=
  let (c, t) := e.splitCoefficient
  { m with powers := addExponent b t c m.powers }

/-- Multiply by a positive rational to an irrational power; bases below one are inverted. -/
def mulNumeric (m : Monomial) (b : Rat) (e : Quantity) : Monomial :=
  if b < 1 then
    let (c, t) := e.negate.splitCoefficient
    { m with numeric := addExponent b⁻¹ t c m.numeric }
  else
    let (c, t) := e.splitCoefficient
    { m with numeric := addExponent b t c m.numeric }

/-- Multiply by one factor. -/
def mulFactor (m : Monomial) : Quantity → Monomial
  | .rational q => m.mulRat q
  | .power (.rational b) (.rational e) =>
    if e.den = 1 then m.mulRat (ratPow b e.num)
    else if 0 < b then { m with radical := m.radical.mulRat b e }
    else m.mulPower (.rational b) (.rational e)
  | .power (.rational b) e => if 0 < b then m.mulNumeric b e else m.mulPower (.rational b) e
  | .apply .exp x => m.mulPower .euler x
  | .power b e => m.mulPower b e
  | x => m.mulPower x 1

/-- Put a factor into its place in the order of forms. -/
def insertFactor (x : Quantity) : List Quantity → List Quantity
  | [] => [x]
  | y :: rest => if order x y = .gt then y :: insertFactor x rest else x :: y :: rest

/-- Multiply bases that have one exponent. -/
def joinBases (b : Rat) (e : Quantity) : List (Rat × Quantity) → List (Rat × Quantity)
  | [] => [(b, e)]
  | (b', e') :: rest => if e = e' then (b' * b, e') :: rest else (b', e') :: joinBases b e rest

/-- The powers of rationals to irrational exponents, bases of one exponent multiplied. -/
def numericFactors (m : Monomial) : List Quantity :=
  let joined := m.numeric.foldl
    (fun acc (b, t, c) => if c = 0 then acc else joinBases b (t.scale c) acc) []
  joined.map fun (b, e) => .power (.rational b) e

/-- The powers of other bases. -/
def powerFactors (m : Monomial) : List Quantity :=
  (m.powers.filter (·.2.2 ≠ 0)).map fun (b, t, c) => powerForm b (t.scale c)

/-- The product that a monomial stands for. -/
def toQuantity (m : Monomial) : Quantity :=
  let r := m.radical.reduce
  if r.coefficient = 0 then 0
  else
    match (r.factors ++ m.numericFactors ++ m.powerFactors).foldr insertFactor [] with
    | [] => .rational r.coefficient
    | [.sum a b] => scale r.coefficient (.sum a b)
    | fs => if r.coefficient = 1 then ofFactors fs else ofFactors (.rational r.coefficient :: fs)

end Monomial

/-- Multiply quantities. -/
def multiplyAll (xs : List Quantity) : Quantity :=
  ((xs.flatMap factors).foldl Monomial.mulFactor Monomial.one).toQuantity

/-- The product of two quantities. Multiplying by one leaves a quantity as it is. -/
def multiply : Quantity → Quantity → Quantity
  | .rational p, .rational q => .rational (p * q)
  | a, b => if a = 1 then b else if b = 1 then a else multiplyAll [a, b]

end Reckoner.Quantity
