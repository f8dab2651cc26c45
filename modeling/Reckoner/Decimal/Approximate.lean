import Reckoner.Decimal.Exact
import Reckoner.Decimal.Significant

/-!
# Approximate decimal text

The text of a number with a given count of significant digits: `0.333333333333333`, `1.0e+30`.

A number is first known to ten digits more than are shown (`guard`). These are held in binary, and
the shown digits are rounded from the digits that a binary floor gives, so a half that has no exact
binary form goes down and one that has goes away from zero. Positional text is used while the
exponent lies between about minus five and the number of digits; zeros at the end are dropped, but
one digit always follows the point.

The texts are laid out for numbers of any size. Whether a text can be written is a question of its
own, as the exponent is a whole number that is converted to its digits (`Known.isWritable`).
-/

namespace Reckoner.Decimal

/-- Digits known beyond those that are shown. -/
def guard : Nat := 10

/-- Digits taken into account, beyond those that are shown, when a binary floor is chosen. -/
def lookahead : Nat := 3

/-- Bits of the floor from which `n` digits are rounded. -/
def floorBits (n : Nat) : Nat :=
  (n + lookahead) * 33219280948873626 / 10 ^ 16 + 10

/-- Largest binary exponent whose numbers are rounded as they are; numbers beyond it, and beyond
its negative, are first divided by a power of ten. -/
def directExponent : Nat := 3500

/-- Decimal exponents whose numbers may lie within `directExponent`. -/
def nearExponent : Nat := 1060

/-- Hold `k` known digits in binary: the number, and the power of ten that is still to be multiplied
to it. -/
def Significant.held (s : Significant) (k : Nat) : Ratio × Int :=
  let p := bitsForDigits k
  let divided := (nearestBinary p (s.mantissa k), s.exponent)
  -- The power of ten itself is formed only where it cannot be large.
  if s.exponent.natAbs ≤ nearExponent then
    let near := nearestBinary p (s.toRatio k)
    if (binade near + 1).natAbs ≤ directExponent then (near, 0) else divided
  else divided

/-- Round `n + guard` known digits to the `n` that are shown. -/
def Significant.shown (s : Significant) (n : Nat) : Significant :=
  let (held, offset) := s.held (n + guard)
  let low := floorBinary (floorBits n) held
  let e := decade low
  let digits := (low.scale 10 ((n : Int) - e)).floor
  let rounded := if 5 ≤ digits % 10 then digits / 10 + 1 else digits / 10
  if rounded = 10 ^ n then ⟨10 ^ (n - 1), e + 1 + offset⟩ else ⟨rounded, e + offset⟩

/-! ## Layout -/

/-- Drop the zeros at the end. -/
def dropTrailingZeros (cs : List Char) : List Char :=
  (cs.reverse.dropWhile (· == '0')).reverse

/-- A whole part and a fraction: zeros at the end of the fraction are dropped, but one digit stays. -/
def withPoint (whole fraction : List Char) : String :=
  let kept := dropTrailingZeros fraction
  String.ofList (whole ++ '.' :: (if kept.isEmpty then ['0'] else kept))

/-- The exponent as it is written: a sign always, no padding. -/
def exponentText (e : Int) : String :=
  if 0 ≤ e then "e+" ++ toString e.toNat else "e-" ++ toString (-e).toNat

/-- Exponents below which positional text is given up. -/
def leastPositional (n : Nat) : Int :=
  min (-((n / 3 : Nat) : Int)) (-5)

/-- Lay out `n` digits, the first of them at `10 ^ exponent`. -/
def Significant.layout (s : Significant) (n : Nat) : String :=
  let cs := (toString s.digits).toList
  let e := s.exponent
  if leastPositional n < e ∧ e < n then
    if e < 0 then withPoint ['0'] (List.replicate ((-e).toNat - 1) '0' ++ cs)
    else withPoint (cs.take (e.toNat + 1)) (cs.drop (e.toNat + 1))
  else withPoint (cs.take 1) (cs.drop 1) ++ exponentText e

/-- What is known of a number that is to be written approximately: nothing but that it cannot be told
from zero, or its sign and its leading digits. -/
inductive Known where
  | zero
  | signed (negative : Bool) (leading : Significant)
  deriving DecidableEq, Repr, Inhabited

/-- Leading digits of a rational, as many as are needed to show `n`. -/
def Known.ofRat (q : Rat) (n : Nat) : Known :=
  if q = 0 then .zero else .signed (decide (q < 0)) (Significant.ofRatio (Ratio.ofRat q) (n + guard))

/-- Text with `n` significant digits. -/
def Known.text (x : Known) (n : Nat) : String :=
  match x with
  | .zero => "0.0"
  | .signed negative leading =>
    (if negative then "-" else "") ++ (leading.shown n).layout n

/-- Whether the text with `n` significant digits can be written. The digits that are known are written
down before they are rounded to those that are shown, and both texts have an exponent. -/
def Known.isWritable (x : Known) (n : Nat) : Bool :=
  match x with
  | .zero => true
  | .signed _ leading =>
    !beyondConversion leading.exponent && !beyondConversion (leading.shown n).exponent

end Reckoner.Decimal
