import Reckoner.Key
import Reckoner.Quantity.Basic
import Reckoner.Text.Grouping
import Reckoner.Text.Numeral
import Reckoner.Text.Quoted

/-!
# Literals

A number while it is being typed: its whole digits, whether a decimal point was pressed, its fraction
digits, and a decimal exponent.

Digits go to the exponent once there is one, else to the fraction once there is a point. `delete` undoes
the last digit or point; an exponent that has come down to zero is gone.
-/

namespace Reckoner

open Reckoner.Text

/-- A number as typed. -/
structure Literal where
  whole : String
  fraction : String
  point : Bool
  exponent : Int
  deriving DecidableEq, Repr, Inhabited

/-- Why a literal has no value. -/
inductive LiteralError where
  | incomplete
  | malformed (text : String)
  | tooManyDigits
  deriving DecidableEq, Repr, Inhabited

namespace Literal

def empty : Literal :=
  ⟨"", "", false, 0⟩

/-- Whether nothing is left of a literal. -/
def isEmpty (l : Literal) : Bool :=
  !l.point && l.whole.isEmpty

/-! ## §1 Typing -/

/-- Exponents of larger magnitude take no more digits. -/
def largestExponent : Nat := 10000

/-- Append a digit. -/
def addDigit (l : Literal) (d : Fin 10) : Option Literal :=
  if l.exponent ≠ 0 then
    -- Digits of a negative exponent lead away from zero.
    if largestExponent < l.exponent.natAbs then none
    else
      some { l with
        exponent := if 0 < l.exponent then 10 * l.exponent + d else 10 * l.exponent - d }
  else if l.point then some { l with fraction := l.fraction ++ toString d.val }
  else some { l with whole := l.whole ++ toString d.val }

def addPoint (l : Literal) : Option Literal :=
  if l.point || l.exponent ≠ 0 then none else some { l with point := true }

def withExponent (l : Literal) (e : Int) : Literal :=
  { l with exponent := e }

def dropLastChar (s : String) : String :=
  String.ofList s.toList.dropLast

/-- Undo the last digit or point. -/
def delete (l : Literal) : Literal :=
  -- Division towards zero takes the last digit from exponents of both signs.
  if l.exponent ≠ 0 then { l with exponent := l.exponent.tdiv 10 }
  else if !l.fraction.isEmpty then { l with fraction := dropLastChar l.fraction }
  else if l.point then { l with point := false }
  else { l with whole := dropLastChar l.whole }

/-- Append the digit or the point with a key number: whether it was taken, and the literal after. -/
def press (l : Literal) (n : Int) : Except KeyError (Bool × Literal) :=
  let typed (r : Option Literal) : Except KeyError (Bool × Literal) :=
    .ok (r.isSome, r.getD l)
  match Key.ofCode? n with
  | some (.digit d) => typed (l.addDigit d)
  | some .point => typed l.addPoint
  | _ => .error (.notConstantKey n)

/-! ## §2 Value -/

/-- The value that the digits and the exponent denote. -/
def value (l : Literal) : Except LiteralError Quantity :=
  if l.whole.isEmpty && l.fraction.isEmpty then .error .incomplete
  else
    -- All digits are read as one integer, and scaled afterwards.
    let text := (if l.whole.isEmpty then "0" else l.whole) ++ l.fraction
    match readInt text with
    | .error .malformed => .error (.malformed text)
    | .error .tooManyDigits => .error .tooManyDigits
    | .ok n =>
      let num := if 0 < l.exponent then n * 10 ^ l.exponent.toNat else n
      let den := 10 ^ l.fraction.length * (if l.exponent < 0 then 10 ^ (-l.exponent).toNat else 1)
      .ok (Quantity.ofRatio num den)

/-! ## §3 Texts -/

/-- How a literal is displayed: whole digits are grouped unless there is an exponent. The exponent is written
out however long it is. Typing digits makes none of more than six digits; only setting one of more than 4300
digits would go beyond the limit of conversion, and that case is left out here. -/
def text (l : Literal) : String :=
  (if l.exponent ≠ 0 then l.whole else addCommas l.whole)
    ++ (if l.point then "." ++ l.fraction else "")
    ++ (if l.exponent ≠ 0 then "E" ++ toString l.exponent else "")

/-- A truth value as it is described. -/
def describeBool (b : Bool) : String :=
  if b then "True" else "False"

/-- A literal with its fields named. -/
def describe (l : Literal) : String :=
  "Literal(whole=" ++ quoted l.whole ++ ", fraction=" ++ quoted l.fraction
    ++ ", saw_decimal=" ++ describeBool l.point ++ ", exponent=" ++ toString l.exponent ++ ")"

end Literal

end Reckoner
