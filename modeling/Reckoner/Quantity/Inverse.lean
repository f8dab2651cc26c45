import Reckoner.Quantity.Circular

/-!
# Inverse circular functions

Arc sine, arc cosine and arc tangent of the known sines, cosines and tangents are rational multiples
of π. An arc function of a sine or a cosine is the angle itself, brought into the function's range
by whole and half turns.
-/

namespace Reckoner.Quantity

/-! ## §1 Known values -/

/-- A rational multiple of a square root. -/
def surd (num : Int) (den n : Nat) : Quantity :=
  multiply (ofRatio num den) (root (ofInt n))

/-- Known sines with their angles in half turns. -/
def sineTable : List (Quantity × Rat) :=
  let fifth (s : Int) : Quantity := root (add (ofRatio 5 8) (surd s 8 5))
  let product (s : Int) : Quantity :=
    multiplyAll [surd 1 4 2, root (add (ofInt 5) (surd s 1 5))]
  let eighth (s : Int) : Quantity := multiply (ofRatio 1 2) (root (add (ofInt 2) (surd s 1 2)))
  let eighthInside (s : Int) : Quantity := root (add (ofRatio 1 2) (surd s 4 2))
  let overRoot (x : Quantity) : Quantity := quotient x (root (ofInt 8))
  [ (surd 1 2 3, 1 / 3),
    (surd 1 2 2, 1 / 4),
    (fifth (-1), 1 / 5), (product (-1), 1 / 5),
    (fifth 1, 2 / 5), (product 1, 2 / 5),
    (ofRatio 1 2, 1 / 6),
    (eighth (-1), 1 / 8), (eighthInside (-1), 1 / 8),
    (eighth 1, 3 / 8), (eighthInside 1, 3 / 8),
    (add (surd 1 4 5) (ofRatio (-1) 4), 1 / 10),
    (add (ofRatio 1 4) (surd (-1) 4 5), -1 / 10),
    (add (surd 1 4 5) (ofRatio 1 4), 3 / 10),
    (add (surd 1 4 6) (surd (-1) 4 2), 1 / 12),
    (add (surd (-1) 4 6) (surd 1 4 2), -1 / 12),
    (overRoot (add (surd 1 1 3) (ofInt (-1))), 1 / 12),
    (overRoot (add (ofInt 1) (surd (-1) 1 3)), -1 / 12),
    (add (surd 1 4 6) (surd 1 4 2), 5 / 12),
    (overRoot (add (ofInt 1) (surd 1 1 3)), 5 / 12) ]

/-- Known tangents with their angles in half turns. -/
def tangentTable : List (Quantity × Rat) :=
  [ (surd 1 3 3, 1 / 6),
    (surd 1 1 3, 1 / 3),
    (add (surd 1 1 2) (ofInt (-1)), 1 / 8),
    (add (ofInt 1) (surd (-1) 1 2), -1 / 8),
    (add (ofInt 1) (surd 1 1 2), 3 / 8),
    (root (add (ofInt 5) (surd (-2) 1 5)), 1 / 5),
    (root (add (ofInt 5) (surd 2 1 5)), 2 / 5),
    (root (add (ofInt 1) (surd (-2) 5 5)), 1 / 10),
    (root (add (ofInt 1) (surd 2 5 5)), 3 / 10),
    (add (ofInt 2) (surd (-1) 1 3), 1 / 12),
    (add (ofInt (-2)) (surd 1 1 3), -1 / 12),
    (add (ofInt 2) (surd 1 1 3), 5 / 12) ]

/-- Look up the angle of a known value. -/
def angleOf? (table : List (Quantity × Rat)) (x : Quantity) : Option Rat :=
  (table.find? fun p => p.1 = x).map (·.2)

/-! ## §2 Angles brought into a range -/

/-- Bits to which the number of whole turns in an angle is estimated. -/
def turnBits : Nat := 192

/-- Take whole turns off an angle, so that it lies between zero and one turn. -/
def modTurn (x : Quantity) : Quantity :=
  let turn := angle 2
  let count : Int := match (quotient x turn).nearestRat? turnBits with
    | some q => if q < 0 then -(-q).floor else q.floor
    | none => 0
  let rest := subtract x (multiply (ofInt count) turn)
  if rest.isNegative then add rest turn else rest

/-- Whether a quantity is above another one. -/
def isAbove (x y : Quantity) : Bool :=
  (subtract x y).isPositive

/-- An angle with the same sine between minus and plus a quarter turn. -/
def angleForSine (x : Quantity) : Quantity :=
  let a := modTurn x
  let a := if isAbove a .pi then subtract .pi a else a
  let a := if isAbove a (angle (1 / 2)) then subtract .pi a else a
  if isAbove (angle (-1 / 2)) a then subtract (angle (-1)) a else a

/-- An angle with the same cosine between zero and half a turn. -/
def angleForCosine (x : Quantity) : Quantity :=
  let a := modTurn x
  if isAbove a .pi then subtract (angle 2) a else a

/-! ## §3 The functions -/

/-- The arc cosine in closed form. -/
def acos (x : Quantity) : Quantity :=
  match angleOf? sineTable x, angleOf? sineTable x.negate with
  | some c, _ => angle (1 / 2 - c)
  | none, some c => angle (1 / 2 + c)
  | none, none =>
    if x = 0 then angle (1 / 2)
    else if x = 1 then 0
    else if x = ofInt (-1) then .pi
    else
      match x with
      | .apply .cos y => angleForCosine y
      | .apply .sin y => subtract (angle (1 / 2)) (angleForSine y)
      | .product (.rational c) (.apply .cos y) =>
        if c = -1 then angleForCosine (subtract .pi y) else .apply .acos x
      | .product (.rational c) (.apply .sin y) =>
        if c = -1 then add (angle (1 / 2)) (angleForSine y) else .apply .acos x
      | x => .apply .acos x

/-- The arc sine of a quantity that is not negative in form. -/
def asinUpper (x : Quantity) : Quantity :=
  if x = 0 then 0
  else if x = 1 then angle (1 / 2)
  else
    match angleOf? sineTable x with
    | some c => angle c
    | none =>
      match x with
      | .apply .sin y => angleForSine y
      | .apply .cos y => subtract (angle (1 / 2)) (acos (.apply .cos y))
      | x => if x.isZero then 0 else .apply .asin x

/-- The arc sine in closed form. -/
def asin (x : Quantity) : Quantity :=
  if x.isNegativeForm then (asinUpper x.negate).negate else asinUpper x

/-- The arc tangent of a quantity that is not negative in form. -/
def atanUpper (x : Quantity) : Quantity :=
  if x = 0 then 0
  else if x = 1 then angle (1 / 4)
  else
    match angleOf? tangentTable x with
    | some c => angle c
    | none => if x.isZero then 0 else .apply .atan x

/-- The arc tangent in closed form. -/
def atan (x : Quantity) : Quantity :=
  if x.isNegativeForm then (atanUpper x.negate).negate else atanUpper x

end Reckoner.Quantity
