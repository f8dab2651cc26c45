import Reckoner.Key
import Reckoner.Text.Characters
import Reckoner.Text.Numeral
import Reckoner.Text.Quoted

/-!
# Typed text

The keys that a text stands for: one for every character, except that the names of functions and
constants are one key each. Blanks between keys are skipped.

Names are matched longest first, so that `asin` is not read as something in front of `sin`, nor
`exp` as `e`. A function key carries its parenthesis, so a parenthesis after the name, with or
without blanks before it, belongs to the key.
-/

namespace Reckoner.Typing

open Reckoner.Text

/-! ## §1 Characters and names -/

/-- The key of a single character. -/
def characterKey? : Char → Option Key
  | '.' => some .point
  | '+' => some (.symbol .plus)
  | '-' | '−' => some (.symbol .minus)
  | '*' | '×' => some (.symbol .times)
  | '/' | '÷' => some (.symbol .divide)
  | '^' => some (.symbol .power)
  | '√' => some (.symbol .sqrt)
  | '!' => some (.symbol .factorial)
  | '²' => some (.symbol .square)
  | '%' => some (.symbol .percent)
  | '(' => some (.symbol .leftParen)
  | ')' => some (.symbol .rightParen)
  | 'π' => some (.symbol .pi)
  | 'e' => some (.symbol .euler)
  | c =>
    if isAsciiDigit c then (Key.digit? (c.toNat - 48 : Nat)).map .digit else none

/-- The names of keys, longest first. -/
def names : List (String × Symbol) :=
  [ ("asin", .arcsin), ("acos", .arccos), ("atan", .arctan), ("sqrt", .sqrt), ("sin", .sin),
    ("cos", .cos), ("tan", .tan), ("log", .log), ("exp", .exp), ("ln", .ln), ("pi", .pi) ]

/-- The key with a name. -/
def nameKey? (name : String) : Option Symbol :=
  names.lookup name

/-- The key number of a text that should be one character. A text of digits counts as the number
they make. -/
def keyOfText (s : String) : Except KeyError (Option Int) :=
  let cs := s.toList
  -- A number of several digits is no key, which is an error and not a missing key.
  if !cs.isEmpty && cs.all isAsciiDigit then
    some <$> Key.codeForDigit (ofDigits (cs.map (·.toNat - 48)))
  else
    match cs with
    | [c] => .ok ((characterKey? c).map fun k => (k.code : Int))
    | _ => .ok none

/-! ## §2 Scanning -/

/-- Why a text cannot be typed. -/
inductive TypingError where
  | tooLong
  | unknownCharacter (c : Char) (position : Nat)
  deriving DecidableEq, Repr, Inhabited

/-- Most characters in a text. -/
def longestText : Nat := 10000

namespace TypingError

def message : TypingError → String
  | .tooLong => "Input too long (max " ++ toString longestText ++ " characters)"
  | .unknownCharacter c position =>
    "Unknown character " ++ quoted (String.singleton c) ++ " at position " ++ toString position

def code : TypingError → String
  | .tooLong => "TOO_LONG"
  | .unknownCharacter .. => "UNKNOWN_CHAR"

end TypingError

/-- The name that a text begins with. -/
def nameAt? (cs : List Char) : Option (String × Symbol) :=
  names.find? fun (name, _) => name.toList.isPrefixOf cs

/-- How many characters the parenthesis of a function takes, with the blanks before it. -/
def parenthesisLength (cs : List Char) : Nat :=
  match cs.dropWhile isBlank with
  | '(' :: _ => (cs.takeWhile isBlank).length + 1
  | _ => 0

/-- How many characters a key takes whose name a text begins with. -/
def nameLength (name : String) (s : Symbol) (cs : List Char) : Nat :=
  name.length + (if s.isFunction then parenthesisLength (cs.drop name.length) else 0)

/-- Scan characters, the first of them at `position`, after skipping the first `skip` of them. -/
def scanFrom (skip position : Nat) : List Char → Except TypingError (List Key)
  | [] => .ok []
  | c :: cs =>
    match skip with
    | skip + 1 => scanFrom skip (position + 1) cs
    | 0 =>
      if isBlank c then scanFrom 0 (position + 1) cs
      else
        -- Names come before single characters, so that a name may begin with one of these.
        match nameAt? (c :: cs) with
        | some (name, s) => do
          return .symbol s :: (← scanFrom (nameLength name s (c :: cs) - 1) (position + 1) cs)
        | none =>
          match characterKey? c with
          | some k => do return k :: (← scanFrom 0 (position + 1) cs)
          | none => .error (.unknownCharacter c position)

/-- The keys that a text stands for. -/
def scan (text : String) : Except TypingError (List Key) :=
  if longestText < text.length then .error .tooLong else scanFrom 0 0 text.toList

/-- The numbers of the keys that a text stands for. -/
def keysOf (text : String) : Except TypingError (List Int) := do
  return (← scan text).map fun k => (k.code : Int)

end Reckoner.Typing
