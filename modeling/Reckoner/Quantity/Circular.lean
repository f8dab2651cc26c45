import Reckoner.Quantity.Power

/-!
# Sine and cosine

Sines and cosines of rational multiples of π are worked out where the angle's denominator divides
into the known ones: 1 to 6, 8, 10 and 12 by halving and by the regular pentagon, and 15, 20, 24,
30, 40, 60 and 120 as differences of two known angles. Other multiples are reduced to the first
quadrant. Half turns and quarter turns are split off a sum, and a sine or cosine undoes an inverse
function.
-/

namespace Reckoner.Quantity

/-! ## §1 Forms of an angle -/

/-- Whether a form is the negative one of itself and its opposite. -/
def isNegativeForm (x : Quantity) : Bool :=
  match x with
  | .rational q => q < 0
  | .product (.rational c) _ => c < 0
  | .sum a b =>
    let ts := (Quantity.sum a b).terms
    let minus := (ts.filter fun t => t.splitCoefficient.1 < 0).length
    let plus := ts.length - minus
    if minus < plus then false
    else if plus < minus then true
    else order x x.negate = .lt
  | _ => false

/-- The rational `c` with `x = c * π`, if there is one. -/
def turns? (x : Quantity) : Option Rat :=
  match x with
  | .rational q => if q = 0 then some 0 else none
  | .pi => some 1
  | .product (.rational c) .pi => some c
  | _ => none

/-- Reduce a rational modulo a positive rational. -/
def modRat (q m : Rat) : Rat :=
  q - m * (q / m).floor

/-- An angle of `c` half turns. -/
def angle (c : Rat) : Quantity :=
  multiply (.rational c) .pi

/-! ## §2 Known cosines -/

/-- The two denominators whose angles differ by one of denominator `q`. -/
def splitDenominator? : Nat → Option (Nat × Nat)
  | 12 => some (3, 4)
  | 20 => some (4, 5)
  | 30 => some (5, 6)
  | 15 => some (6, 10)
  | 24 => some (6, 8)
  | 40 => some (8, 10)
  | 60 => some (20, 30)
  | 120 => some (40, 60)
  | _ => none

/-- The cosines of one fifth and two fifths of a half turn. -/
def fifthCosine (p : Nat) : Quantity :=
  let part : Quantity := multiply (ofRatio 1 4) (root (ofInt 5))
  if p = 1 then add (ofRatio 1 4) part else add (ofRatio (-1) 4) part

/-- The cosine of `c` half turns, if it is known, in at most the given number of steps. -/
def cosineOf? : Nat → Rat → Option Quantity
  | 0, _ => none
  | n + 1, c =>
    let c := modRat c 2
    if 1 < c then (cosineOf? n (c - 1)).map negate
    else if c = 0 then some 1
    else if c = 1 then some (ofInt (-1))
    else if 2 * c = 1 then some 0
    else if 1 < 2 * c then (cosineOf? n (1 - c)).map negate
    else
      let p := c.num.natAbs
      match splitDenominator? c.den with
      | some (a, b) => do
        let x := mkRat p a
        let y := mkRat p b
        let plain := multiply (← cosineOf? n x) (← cosineOf? n y)
        let shifted := multiply (← cosineOf? n (1 / 2 - x)) (← cosineOf? n (1 / 2 - y))
        return add plain shifted
      | none =>
        if 12 < c.den then none
        else if c.den = 3 then some (ofRatio 1 2)
        else if c.den = 5 then some (fifthCosine p)
        else if c.den % 2 = 0 then do
          let double ← cosineOf? n (2 * c)
          return root (multiply (ofRatio 1 2) (add 1 double))
        else none

/-- The cosine of `c` half turns; unknown ones are reduced to the first quadrant. -/
def cosineOfTurns (c : Rat) : Quantity :=
  match cosineOf? 16 c with
  | some x => x
  | none =>
    let c := modRat c 2
    let c := if 1 < c then 2 - c else c
    if 1 < 2 * c then negate (.apply .cos (angle (1 - c))) else .apply .cos (angle c)

/-- The sine of `c` half turns; unknown ones are reduced to the first quadrant. -/
def sineOfTurns (c : Rat) : Quantity :=
  match cosineOf? 16 (c + 3 / 2) with
  | some x => x
  | none =>
    let c := modRat c 2
    let negative : Bool := 1 < c
    let c := if negative then c - 1 else c
    let c := if 1 < 2 * c then 1 - c else c
    let s : Quantity := .apply .sin (angle c)
    if negative then s.negate else s

/-! ## §3 Sums of angles -/

/-- Split the largest number of quarter turns off a sum: the rest and the number. -/
def splitQuarters (x : Quantity) : Quantity × Int :=
  let ts := x.terms
  let c := (ts.filterMap turns?).foldl (· + ·) 0
  let quarters := (2 * c).floor
  if quarters = 0 then (x, 0)
  else
    let rest := ts.filter fun t => t.turns?.isNone
    (addAll (angle (c - mkRat quarters 2) :: rest), quarters)

/-- `sqrt (1 - x ^ 2)`. -/
def cofunction (x : Quantity) : Quantity :=
  root (subtract 1 (raise x (ofInt 2)))

/-- `sqrt (1 + x ^ 2)`. -/
def hypotenuse (x : Quantity) : Quantity :=
  root (add 1 (raise x (ofInt 2)))

/-- The sine of an angle that is neither negative nor has a quarter turn to split off. -/
def sineReduced (x : Quantity) : Quantity :=
  match x with
  | .apply .asin y => y
  | .apply .atan y => quotient y (hypotenuse y)
  | .apply .acos y => cofunction y
  | .product .. =>
    match turns? x with
    | some c => sineOfTurns c
    | none => if x.isZero then 0 else .apply .sin x
  | .pi => 0
  | x => if x.isZero then 0 else .apply .sin x

/-- The cosine of an angle that is neither negative nor has a quarter turn to split off. -/
def cosineReduced (x : Quantity) : Quantity :=
  match x with
  | .apply .acos y => y
  | .apply .atan y => reciprocal (hypotenuse y)
  | .apply .asin y => cofunction y
  | .product .. =>
    match turns? x with
    | some c => cosineOfTurns c
    | none => if x.isZero then 1 else .apply .cos x
  | .pi => ofInt (-1)
  | x => if x.isZero then 1 else .apply .cos x

/-- The sine of an angle without quarter turns to split off. -/
def sineOdd (x : Quantity) : Quantity :=
  if x.isNegativeForm then negate (sineReduced x.negate) else sineReduced x

/-- The cosine of an angle without quarter turns to split off. -/
def cosineEven (x : Quantity) : Quantity :=
  cosineReduced (if x.isNegativeForm then x.negate else x)

/-- Sine and cosine after some quarter turns. -/
def afterQuarters (quarters : Int) (s c : Quantity) : Quantity × Quantity :=
  match (quarters % 4).toNat with
  | 0 => (s, c)
  | 1 => (c, s.negate)
  | 2 => (s.negate, c.negate)
  | _ => (c.negate, s)

/-- The sine and the cosine of an angle that is not negative in form. -/
def sineCosine (x : Quantity) : Quantity × Quantity :=
  match x with
  | .sum .. =>
    let (rest, quarters) := splitQuarters x
    afterQuarters quarters (sineOdd rest) (cosineEven rest)
  | x => (sineReduced x, cosineReduced x)

/-! ## §4 The functions -/

/-- The sine in closed form. -/
def sin (x : Quantity) : Quantity :=
  if x.isNegativeForm then (sineCosine x.negate).1.negate else (sineCosine x).1

/-- The cosine in closed form. -/
def cos (x : Quantity) : Quantity :=
  (sineCosine (if x.isNegativeForm then x.negate else x)).2

end Reckoner.Quantity
