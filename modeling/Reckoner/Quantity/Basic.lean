/-!
# Quantities

A real number in closed form: a rational, one of the constants π and e, a sum, a product, a power,
or an elementary function of another quantity.

Equality of quantities is equality of forms. The operations of the library only build forms in
which like terms and like powers are collected, so equal forms are what the calculator knows to be
equal without computing anything.

- `terms` and `factors` read a form as a sum and as a product;
- `ofTerms` and `ofFactors` put them together again;
- `order` is a total order on forms, which fixes the order of terms and factors.
-/

namespace Reckoner

/-- The elementary functions that a quantity may apply. -/
inductive ElementaryFunction where
  | exp
  | log
  | sin
  | cos
  | asin
  | acos
  | atan
  deriving DecidableEq, Repr, Inhabited

/-- A real number in closed form. -/
inductive Quantity where
  | rational (q : Rat)
  | pi
  | euler
  | sum (a b : Quantity)
  | product (a b : Quantity)
  | power (base exponent : Quantity)
  | apply (f : ElementaryFunction) (x : Quantity)
  deriving DecidableEq, Repr, Inhabited

namespace Quantity

/-! ## §1 Numbers -/

/-- The quantity of a rational given by numerator and denominator. -/
def ofRatio (num : Int) (den : Nat) : Quantity :=
  .rational (mkRat num den)

def ofInt (n : Int) : Quantity :=
  .rational n

instance : OfNat Quantity n := ⟨.rational n⟩

/-- The rational value, if the form is a rational number. -/
def toRat? : Quantity → Option Rat
  | .rational q => some q
  | _ => none

/-- The integer value, if the form is an integer. -/
def toInt? : Quantity → Option Int
  | .rational q => if q.den = 1 then some q.num else none
  | _ => none

def size : Quantity → Nat
  | .rational _ | .pi | .euler => 1
  | .sum a b | .product a b | .power a b => a.size + b.size + 1
  | .apply _ x => x.size + 1

/-! ## §2 The order of forms -/

/-- Compare two rationals. -/
def orderRat (p q : Rat) : Ordering :=
  if p < q then .lt else if p = q then .eq else .gt

/-- Place of an elementary function in the order. -/
def functionRank : ElementaryFunction → Nat
  | .exp => 0
  | .log => 1
  | .sin => 2
  | .cos => 3
  | .asin => 4
  | .acos => 5
  | .atan => 6

def rank : Quantity → Nat
  | .rational _ => 0
  | .pi => 1
  | .euler => 2
  | .sum _ _ => 3
  | .product _ _ => 4
  | .power _ _ => 5
  | .apply _ _ => 6

/-- A total order on forms. -/
def order : Quantity → Quantity → Ordering
  -- Forms of one shape are compared part by part, others by their shapes.
  | .rational p, .rational q => orderRat p q
  | .sum a b, .sum c d => (order a c).then (order b d)
  | .product a b, .product c d => (order a c).then (order b d)
  | .power a b, .power c d => (order a c).then (order b d)
  | .apply f x, .apply g y => (compare (functionRank f) (functionRank g)).then (order x y)
  | x, y => compare x.rank y.rank

/-! ## §3 Sums and products as lists -/

/-- The terms of a form read as a sum. -/
def terms : Quantity → List Quantity
  | .sum a b => a.terms ++ b.terms
  | x => [x]

/-- The factors of a form read as a product. -/
def factors : Quantity → List Quantity
  | .product a b => a.factors ++ b.factors
  | x => [x]

/-- The sum of a list of terms, nested to the right. -/
def ofTerms : List Quantity → Quantity
  | [] => 0
  | [x] => x
  | x :: xs => .sum x (ofTerms xs)

/-- The product of a list of factors, nested to the right. -/
def ofFactors : List Quantity → Quantity
  | [] => 1
  | [x] => x
  | x :: xs => .product x (ofFactors xs)

/-- The rational coefficient in front of a form, and the form without it. -/
def splitCoefficient : Quantity → Rat × Quantity
  | .rational q => (q, 1)
  | .product (.rational q) x => (q, x)
  | x => (1, x)

/-- Put a rational coefficient in front of a form that has none. -/
def withCoefficient (c : Rat) (x : Quantity) : Quantity :=
  if c = 1 then x else if x = 1 then .rational c else .product (.rational c) x

end Quantity

end Reckoner
