import Reckoner.Decimal.Binary64
import Reckoner.Decimal.Exact
import Reckoner.Text.Characters
import Reckoner.Text.Quoted

/-!
# Numerals

Numbers as they are read from text: blanks around them, one sign, decimal digits of any script,
and single underscores between digits.

- `readInt` reads an integer; more than `conversionLimit` digits are refused;
- `readReal?` reads a decimal numeral with a point and an exponent, an infinity, or the word for what
  is not a number, and rounds it to binary64.
-/

namespace Reckoner.Text

open Reckoner.Decimal (conversionLimit Binary64 Ratio)

/-! ## §1 Integers -/

/-- Why a text is no integer. -/
inductive NumeralError where
  | malformed
  | tooManyDigits
  deriving DecidableEq, Repr, Inhabited

/-- Drop blanks on both sides. -/
def trimBlanks (cs : List Char) : List Char :=
  ((cs.dropWhile isBlank).reverse.dropWhile isBlank).reverse

/-- Digit values, with single underscores between digits left out; `after` says whether the last
character was a digit. -/
def digitValues? : Bool → List Char → Option (List Nat)
  | after, [] => if after then some [] else none
  | after, '_' :: rest => if after then digitValues? false rest else none
  | _, c :: rest => do
    let d ← decimalValue? c
    return d :: (← digitValues? true rest)

/-- Split off a sign. -/
def splitSign : List Char → Bool × List Char
  | '-' :: rest => (true, rest)
  | '+' :: rest => (false, rest)
  | cs => (false, cs)

/-- The number with the given digits. -/
def ofDigits (ds : List Nat) : Nat :=
  ds.foldl (fun n d => 10 * n + d) 0

/-- Read an integer. -/
def readInt (s : String) : Except NumeralError Int :=
  let (negative, body) := splitSign (trimBlanks s.toList)
  match digitValues? false body with
  | none => .error .malformed
  | some ds =>
    if conversionLimit < ds.length then .error .tooManyDigits
    else .ok (if negative then -(ofDigits ds) else ofDigits ds)

/-- Most characters of a quoted text in a report on integer numerals. -/
def reportedLength : Nat := 200

/-- What is said of a text that is no integer. -/
def malformedInteger (s : String) : String :=
  "invalid literal for int() with base 10: "
    ++ String.ofList ((quoted s).toList.take reportedLength)

/-! ## §2 Real numbers -/

/-- Characters with the digits of all scripts as digits of ASCII. -/
def asciiDigits (cs : List Char) : List Char :=
  cs.map fun c => ((decimalValue? c).map fun d => Char.ofNat (48 + d)).getD c

/-- Leave out single underscores between digits; `after` says whether the last character was a
digit. -/
def withoutUnderscores? : Bool → List Char → Option (List Char)
  | _, [] => some []
  | after, '_' :: c :: rest => do
    if !after || !isAsciiDigit c then none
    return c :: (← withoutUnderscores? true rest)
  | _, ['_'] => none
  | _, c :: rest => do return c :: (← withoutUnderscores? (isAsciiDigit c) rest)

/-- Digits beyond which an exponent decides by its sign alone. -/
def exponentReach : Nat := 400

/-- The number `digits * 10 ^ exponent`, rounded. -/
def scaled (negative : Bool) (digits : List Char) (exponent : Int) : Binary64 :=
  let kept := digits.dropWhile (· == '0')
  let top := exponent + kept.length
  if kept.isEmpty || top < -(exponentReach : Int) then .ofRatio negative ⟨0, 1⟩
  else if exponentReach < top then .infinite negative
  else .ofRatio negative ((⟨ofDigits (kept.map (·.toNat - 48)), 1⟩ : Ratio).scale 10 exponent)

/-- Read the exponent after the digits of a numeral. -/
def exponentOf? : List Char → Option Int
  | [] => some 0
  | e :: rest =>
    if e.toLower ≠ 'e' then none
    else
      let (negative, ds) := splitSign rest
      if ds.isEmpty || !ds.all isAsciiDigit then none
      else
        let n := ofDigits (ds.map (·.toNat - 48))
        some (if negative then -n else n)

/-- Read a decimal numeral without a sign. -/
def readDecimal? (negative : Bool) (cs : List Char) : Option Binary64 := do
  let whole := cs.takeWhile isAsciiDigit
  let rest := cs.dropWhile isAsciiDigit
  let (fraction, rest) := match rest with
    | '.' :: rest => (rest.takeWhile isAsciiDigit, rest.dropWhile isAsciiDigit)
    | rest => ([], rest)
  if whole.isEmpty && fraction.isEmpty then none
  let exponent ← exponentOf? rest
  return scaled negative (whole ++ fraction) (exponent - fraction.length)

/-- Read a real number. -/
def readReal? (s : String) : Option Binary64 := do
  let cs ← withoutUnderscores? false (asciiDigits (trimBlanks s.toList))
  let (negative, body) := splitSign cs
  let word := String.ofList (body.map Char.toLower)
  if word = "inf" || word = "infinity" then return .infinite negative
  else if word = "nan" then return .notANumber
  else readDecimal? negative body

end Reckoner.Text
