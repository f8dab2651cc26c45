import Reckoner.Decimal.Binary64
import Reckoner.Decimal.Exact
import Reckoner.Quantity.Arithmetic

/-!
# Texts of quantities

The approximate text of a quantity, and its short text: exact if the quantity is a terminating
decimal that fits, else approximate with an ellipsis. Texts are refused where a number in them has more
digits than can be converted: the digits of a terminating decimal, or the exponent of an approximate
text.
-/

namespace Reckoner.Quantity

open Reckoner.Decimal

/-- Digits of an approximate text. -/
def outputDigits : Nat := 15

/-- Digits of a short text. -/
def shortDigits : Nat := 8

/-- The mark of a text that does not show its value exactly. -/
def ellipsis : String := "…"

/-- Approximate text with `n` significant digits, however long its exponent is. -/
def approximateText (x : Quantity) (n : Nat) : String :=
  (x.known n).text n

/-- Approximate text with `n` significant digits. -/
def approximateText? (x : Quantity) (n : Nat) : Except ConversionError String :=
  if x.isOversized || !(x.known n).isWritable n then .error .tooManyDigits
  else .ok (x.approximateText n)

/-- Approximate text with `n` significant digits and the mark that it is not exact. -/
def markedText? (x : Quantity) (n : Nat) : Except ConversionError String := do
  return (← x.approximateText? n) ++ ellipsis

/-- Short text with at most `n` digits. -/
def shortText (x : Quantity) (n : Nat) : Except ConversionError String := do
  match x.toRat? with
  | none => x.markedText? n
  | some q =>
    match ← exactDecimal q n with
    | some text => return text
    | none => x.markedText? n

/-- Digits to which a quantity is approximated before it becomes a binary64 number. -/
def binaryDigits : Nat := 17

/-- The binary64 number of a quantity, by way of an approximation with `binaryDigits` digits. -/
def toBinary64 (x : Quantity) : Binary64 :=
  match x.nearestRat? (2 * bitsForDigits binaryDigits) with
  | none => .infinite (x.signum < 0)
  | some q =>
    if q = 0 then .ofRat 0
    else
      let near := nearestBinary (bitsForDigits binaryDigits) (Ratio.ofRat q)
      .ofRatio (q < 0) (nearestBinary Binary64.precision near)

end Reckoner.Quantity
