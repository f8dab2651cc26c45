import Reckoner.Quantity.Basic

/-!
# Sums with like terms collected

A linear form is a rational constant and a list of terms with rational coefficients, in the order of
forms and without repetitions. Every sum that the library builds comes from a linear form: like
terms are added up and terms with coefficient zero vanish, so `π - π` is `0`.

A rational in front of a sum is multiplied into its terms (`scale`); no other product is expanded.
-/

namespace Reckoner.Quantity

/-! ## §1 Powers of rationals -/

/-- An integer power of a rational. -/
def ratPow (b : Rat) (n : Int) : Rat :=
  if 0 ≤ n then b ^ n.toNat else (b ^ (-n).toNat)⁻¹

/-- Work out a rational power that was left unexpanded because of its large exponent. -/
def expand : Quantity → Quantity
  | .power (.rational b) (.rational e) =>
    if e.den = 1 then .rational (ratPow b e.num) else .power (.rational b) (.rational e)
  | x => x

/-! ## §2 Linear forms -/

/-- A constant and terms with their coefficients, in the order of forms. -/
structure LinearForm where
  constant : Rat
  terms : List (Quantity × Rat)
  deriving Repr, Inhabited

namespace LinearForm

/-- Add a multiple of a term to an ordered list of terms. -/
def insert (x : Quantity) (c : Rat) : List (Quantity × Rat) → List (Quantity × Rat)
  | [] => [(x, c)]
  | (y, d) :: rest =>
    match order x y with
    | .lt => (x, c) :: (y, d) :: rest
    -- A coefficient of zero stays in the list, and is left out at the end.
    | .eq => (y, c + d) :: rest
    | .gt => (y, d) :: insert x c rest

/-- Add one term to a linear form. -/
def addTerm (s : LinearForm) (t : Quantity) : LinearForm :=
  match t.expand with
  | .rational q => { s with constant := s.constant + q }
  | t =>
    let (c, x) := t.splitCoefficient
    { s with terms := insert x c s.terms }

/-- Collect a list of terms. -/
def ofTerms (ts : List Quantity) : LinearForm :=
  ts.foldl addTerm ⟨0, []⟩

/-- The sum that a linear form stands for. -/
def toQuantity (s : LinearForm) : Quantity :=
  let kept := (s.terms.filter (·.2 ≠ 0)).map fun (x, c) => withCoefficient c x
  Quantity.ofTerms (if s.constant = 0 then kept else .rational s.constant :: kept)

end LinearForm

/-! ## §3 Adding and scaling -/

/-- Add up quantities. -/
def addAll (xs : List Quantity) : Quantity :=
  (LinearForm.ofTerms (xs.flatMap terms)).toQuantity

/-- The sum of two quantities. Adding zero leaves a quantity as it is. -/
def add : Quantity → Quantity → Quantity
  | .rational p, .rational q => .rational (p + q)
  | a, b => if a = 0 then b else if b = 0 then a else addAll [a, b]

/-- Multiply by a rational; a sum term by term. -/
def scale (c : Rat) (x : Quantity) : Quantity :=
  if c = 0 then 0
  else if c = 1 then x
  else
    ofTerms (x.terms.map fun t =>
      match t.expand with
      | .rational q => .rational (c * q)
      | t =>
        let (d, y) := t.splitCoefficient
        withCoefficient (c * d) y)

def negate (x : Quantity) : Quantity :=
  scale (-1) x

/-- The difference of two quantities. -/
def subtract : Quantity → Quantity → Quantity
  | .rational p, .rational q => .rational (p - q)
  | a, b => if b = 0 then a else add a b.negate

end Reckoner.Quantity
