import Reckoner.Power

/-!
# Exact decimal text

The terminating decimals: a fraction whose denominator has no prime factor but two and five is
written exactly, with as many fraction digits as it needs and no more, if whole digits and fraction
digits together fit into a given count.

Conversions between numbers and text are refused beyond `conversionLimit` digits. The limit is
tested on all digits of the scaled numerator, before their count is compared with what fits.
-/

namespace Reckoner.Decimal

/-- Most digits in which a whole number is read or written. -/
def conversionLimit : Nat := 4300

/-- A conversion between a whole number and its text had more digits than `conversionLimit`. -/
inductive ConversionError where
  | tooManyDigits
  deriving DecidableEq, Repr, Inhabited

/-- Whether an integer has more digits than can be written. -/
def beyondConversion (n : Int) : Bool :=
  10 ^ conversionLimit ≤ n.natAbs

/-- Divide out a factor as often as it goes, at most `fuel` times: the count and what is left. -/
def divideOut (p : Nat) : Nat → Nat → Nat × Nat
  | 0, n => (0, n)
  | fuel + 1, n =>
    if n % p = 0 then
      let (count, rest) := divideOut p fuel (n / p)
      (count + 1, rest)
    else (0, n)

/-- How often two and five go into a denominator, and what is left of it. -/
def twosAndFives (den : Nat) : Nat × Nat × Nat :=
  let (twos, odd) := divideOut 2 den.log2 den
  let (fives, rest) := divideOut 5 odd.log2 odd
  (twos, fives, rest)

/-- The decimal digits of a natural. -/
def digitChars (n : Nat) : List Char :=
  (toString n).toList

/-- The decimal digits of a natural, unless there are too many. -/
def digitChars? (n : Nat) : Except ConversionError (List Char) :=
  let cs := digitChars n
  if conversionLimit < cs.length then .error .tooManyDigits else .ok cs

/-- Fill up with zeros on the left. -/
def padLeft (width : Nat) (cs : List Char) : List Char :=
  List.replicate (width - cs.length) '0' ++ cs

/-- The exact decimal text of a rational, or `none` if it does not terminate within
`maxDigits` digits. -/
def exactDecimal (q : Rat) (maxDigits : Nat) : Except ConversionError (Option String) := do
  let (twos, fives, rest) := twosAndFives q.den
  if rest ≠ 1 then
    return none
  let places := max twos fives
  let scaled := q.num.natAbs * 10 ^ places / q.den
  let digits := padLeft (places + 1) (← digitChars? scaled)
  if maxDigits < digits.length then
    return none
  let whole := digits.take (digits.length - places)
  let fraction := digits.drop (digits.length - places)
  let text := whole ++ (if fraction.isEmpty then [] else '.' :: fraction)
  return some (String.ofList (if q < 0 then '-' :: text else text))

end Reckoner.Decimal
