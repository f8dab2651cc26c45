import Reckoner.Decimal.Binary64
import Reckoner.Text.Quoted

/-!
# Message templates

A message with places for arguments: `%d` and `%s`, with flags, a width and a precision between the
percent sign and the letter.

```text
place := % { - | + | blank | 0 | # } [ width ] [ . precision ] [ h | l | L ] letter
```

- `s`, `r`, `a` take any argument; `r` and `a` write texts between quotes;
- `d`, `i`, `u`, `o`, `x`, `X` take whole numbers, `c` a character or its number;
- `e`, `f`, `g` and their capitals take numbers, which are rounded from their exact value;
- `%%` is a percent sign.

Width and precision may be stars, which take an argument each. There must be as many arguments as
places.
-/

namespace Reckoner.Journal

open Reckoner.Decimal
open Reckoner.Text (quoted isPrintable escapeCode)

/-! ## §1 Arguments -/

/-- What is put into a place. -/
inductive Argument where
  | text (s : String)
  | integer (n : Int)
  | real (x : Binary64)
  | truth (b : Bool)
  | nothing
  | items (xs : List Argument)
  deriving Repr, Inhabited

/-- Why a template cannot be filled. -/
inductive TemplateError where
  | tooFewArguments
  | tooManyArguments
  | wrongArgument
  | incomplete
  | unsupported (c : Char) (index : Nat)
  deriving DecidableEq, Repr, Inhabited

/-- A number in hexadecimal digits. -/
def hexText (n : Nat) : String :=
  String.ofList (Nat.toDigits 16 n)

/-- The wording of a template error, where it has one. -/
def TemplateError.message? : TemplateError → Option String
  | .incomplete => some "incomplete format"
  | .unsupported c index =>
    let shown := if 31 ≤ c.toNat ∧ c.toNat < 127 then c else '?'
    some ("unsupported format character '" ++ String.singleton shown ++ "' (0x" ++ hexText c.toNat
      ++ ") at index " ++ toString index)
  | .tooFewArguments | .tooManyArguments | .wrongArgument => none

namespace Argument

mutual

/-- An argument as it stands in a list. -/
def describe : Argument → String
  | .text s => quoted s
  | .integer n => toString n
  | .real x => x.text
  | .truth b => if b then "True" else "False"
  | .nothing => "None"
  | .items xs => "[" ++ ", ".intercalate (describeEach xs) ++ "]"

/-- Arguments as they stand in a list. -/
def describeEach : List Argument → List String
  | [] => []
  | x :: xs => describe x :: describeEach xs

end

/-- An argument as it stands by itself. -/
def plain : Argument → String
  | .text s => s
  | x => x.describe

/-- Text in which all characters beyond ASCII are escaped. -/
def escapeWide (s : String) : String :=
  String.ofList (s.toList.flatMap fun c => if c.toNat < 128 then [c] else escapeCode c)

/-- The whole number that an argument is. -/
def toInt? : Argument → Option Int
  | .integer n => some n
  | .truth b => some (if b then 1 else 0)
  | _ => none

/-- The whole number that is left when the fraction of an argument is dropped. -/
def truncate? : Argument → Option Int
  | .real (.finite negative m e) =>
    let whole := ((⟨m, 1⟩ : Ratio).scale 2 e).floor
    some (if negative then -whole else whole)
  | x => x.toInt?

/-- The binary64 number that an argument is. -/
def toBinary64? : Argument → Option Binary64
  | .real x => some x
  | x => x.toInt?.map fun n => .ofRatio (n < 0) ⟨n.natAbs, 1⟩

end Argument

/-! ## §2 Places -/

/-- What stands between the percent sign and the letter. -/
structure Place where
  left : Bool
  plus : Bool
  blank : Bool
  zero : Bool
  marked : Bool
  width : Nat
  precision : Option Nat
  deriving Repr, Inhabited

namespace Place

/-- A place with nothing between the percent sign and the letter. -/
def empty : Place :=
  ⟨false, false, false, false, false, 0, none⟩

/-- Set a flag; other characters set none. -/
def flag? (p : Place) : Char → Option Place
  | '-' => some { p with left := true }
  | '+' => some { p with plus := true }
  | ' ' => some { p with blank := true }
  | '0' => some { p with zero := true }
  | '#' => some { p with marked := true }
  | _ => none

/-- Fill up to the width. Zeros go between the sign and what follows it. -/
def fill (p : Place) (numeric : Bool) (sign body : String) : String :=
  let missing := p.width - (sign.length + body.length)
  let run (c : Char) : String := String.ofList (List.replicate missing c)
  if p.left then sign ++ body ++ run ' '
  else if numeric && p.zero then sign ++ run '0' ++ body
  else run ' ' ++ sign ++ body

/-- The sign that is written before a number. -/
def sign (p : Place) (negative : Bool) : String :=
  if negative then "-" else if p.plus then "+" else if p.blank then " " else ""

end Place

/-! ## §3 Writing arguments -/

/-- A whole number with at least as many digits as the precision asks for. -/
def wholeDigits (p : Place) (base n : Nat) : String :=
  let digits := Nat.toDigits base n
  String.ofList (List.replicate (p.precision.getD 1 - digits.length) '0' ++ digits)

/-- Write a whole number in a base, with a mark before it if one is asked for. -/
def writeWhole (p : Place) (base : Nat) (mark : String) (n : Int) : String :=
  let prefixed := p.sign (n < 0) ++ (if p.marked then mark else "")
  p.fill true prefixed (wholeDigits p base n.natAbs)

/-- Digits with a point before the last `places` of them. -/
def pointed (marked : Bool) (places n : Nat) : String :=
  let cs := (toString n).toList
  let cs := List.replicate (places + 1 - cs.length) '0' ++ cs
  let whole := cs.take (cs.length - places)
  let fraction := cs.drop (cs.length - places)
  String.ofList (whole ++ (if fraction.isEmpty && !marked then [] else '.' :: fraction))

/-- Positional text with a number of places. -/
def fixedText (marked : Bool) (places : Nat) (r : Ratio) : String :=
  pointed marked places (r.scale 10 places).roundHalfEven

/-- Leading digits with `places` of them after the first, and the exponent of the first. -/
def leading (places : Nat) (r : Ratio) : Nat × Int :=
  if r.num = 0 then (0, 0)
  else
    let e := decade r
    let n := (r.scale 10 (places - e)).roundHalfEven
    if n = 10 ^ (places + 1) then (10 ^ places, e + 1) else (n, e)

/-- Text with an exponent. -/
def scientificText (marked : Bool) (places : Nat) (r : Ratio) : String :=
  let (n, e) := leading places r
  pointed marked places n ++ Binary64.exponentText e

/-- Drop the zeros at the end of a fraction, and a point that nothing follows. -/
def dropFractionZeros (s : String) : String :=
  if s.toList.contains '.' then
    let kept := s.toList.reverse.dropWhile (· == '0')
    String.ofList ((if kept.head? = some '.' then kept.tail else kept).reverse)
  else s

/-- Text with a number of significant digits, with an exponent if it is small or large. -/
def generalText (marked : Bool) (digits : Nat) (r : Ratio) : String :=
  let digits := max digits 1
  let (n, e) := leading (digits - 1) r
  let trim (s : String) : String := if marked then s else dropFractionZeros s
  if -4 ≤ e ∧ e < digits then trim (fixedText marked (digits - 1 - e).toNat r)
  else trim (pointed marked (digits - 1) n) ++ Binary64.exponentText e

/-- Write a number as a letter says. -/
def writeReal (p : Place) (letter : Char) (x : Binary64) : String :=
  let places := p.precision.getD 6
  let (negative, body) := match x with
    | .notANumber => (false, "nan")
    | .infinite negative => (negative, "inf")
    | .finite negative m e =>
      let r := (⟨m, 1⟩ : Ratio).scale 2 e
      (negative, match letter.toLower with
        | 'e' => scientificText p.marked places r
        | 'f' => fixedText p.marked places r
        | _ => generalText p.marked places r)
  p.fill true (p.sign negative) (if letter.isUpper then body.map Char.toUpper else body)

/-- Write a text, cut to the precision. -/
def writeText (p : Place) (s : String) : String :=
  p.fill false "" (match p.precision with
    | some n => String.ofList (s.toList.take n)
    | none => s)

/-- The character that an argument is. -/
def characterOf? : Argument → Option Char
  | .text s => match s.toList with
    | [c] => some c
    | _ => none
  | x => match x.toInt? with
    | some n => if 0 ≤ n ∧ n < 0x110000 then some (Char.ofNat n.toNat) else none
    | none => none

/-- Write an argument as the letter of its place says; letters without a meaning have no text. -/
def write? (p : Place) (letter : Char) (x : Argument) : Option (Except TemplateError String) :=
  let needed {α : Type} (a : Option α) (f : α → String) : Option (Except TemplateError String) :=
    some (match a with
      | some a => .ok (f a)
      | none => .error .wrongArgument)
  match letter with
  | 's' => some (.ok (writeText p x.plain))
  | 'r' => some (.ok (writeText p x.describe))
  | 'a' => some (.ok (writeText p (Argument.escapeWide x.describe)))
  | 'd' | 'i' | 'u' => needed x.truncate? (writeWhole p 10 "")
  | 'o' => needed x.toInt? (writeWhole p 8 "0o")
  | 'x' => needed x.toInt? (writeWhole p 16 "0x")
  | 'X' => needed x.toInt? fun n => (writeWhole p 16 "0x" n).map Char.toUpper
  | 'c' => needed (characterOf? x) fun c => p.fill false "" (String.singleton c)
  | 'e' | 'E' | 'f' | 'F' | 'g' | 'G' => needed x.toBinary64? (writeReal p letter)
  | _ => none

/-! ## §4 Filling -/

/-- Take an argument. -/
def nextArgument : List Argument → Except TemplateError (Argument × List Argument)
  | [] => .error .tooFewArguments
  | x :: xs => .ok (x, xs)

/-- Read the flags of a place. -/
def readFlags (p : Place) : List Char → Place × List Char
  | [] => (p, [])
  | c :: cs =>
    match p.flag? c with
    | some p => readFlags p cs
    | none => (p, c :: cs)

/-- Read a width or a precision: digits, or a star that takes an argument. -/
def readCount (cs : List Char) (xs : List Argument) :
    Except TemplateError (Int × List Char × List Argument) :=
  match cs with
  | '*' :: cs => do
    let (x, xs) ← nextArgument xs
    match x.toInt? with
    | some n => return (n, cs, xs)
    | none => .error .wrongArgument
  | cs =>
    let digits := cs.takeWhile Char.isDigit
    .ok (digits.foldl (fun (n : Int) c => 10 * n + (c.toNat - 48 : Nat)) 0, cs.drop digits.length, xs)

/-- Read a place up to its letter. -/
def readPlace (cs : List Char) (xs : List Argument) :
    Except TemplateError (Place × List Char × List Argument) := do
  let (p, cs) := readFlags .empty cs
  let (width, cs, xs) ← readCount cs xs
  let p := { p with width := width.natAbs, left := p.left || width < 0 }
  let (p, cs, xs) ← match cs with
    | '.' :: cs => do
      let (n, cs, xs) ← readCount cs xs
      pure ({ p with precision := some n.toNat }, cs, xs)
    | cs => pure (p, cs, xs)
  let cs := match cs with
    | c :: rest => if c = 'h' ∨ c = 'l' ∨ c = 'L' then rest else cs
    | [] => []
  return (p, cs, xs)

/-- Fill the places of a template of `total` characters. Every step takes a character, so `fuel`
need not exceed their number. -/
def fillFrom (total : Nat) : Nat → List Char → List Argument → Except TemplateError String
  | 0, _, _ => .ok ""
  | _, [], xs => if xs.isEmpty then .ok "" else .error .tooManyArguments
  | fuel + 1, '%' :: cs, xs => do
    let (p, cs, xs) ← readPlace cs xs
    match cs with
    | [] => .error .incomplete
    | '%' :: cs => return "%" ++ (← fillFrom total fuel cs xs)
    | letter :: cs =>
      let (x, xs) ← nextArgument xs
      match write? p letter x with
      | some text => return (← text) ++ (← fillFrom total fuel cs xs)
      | none => .error (.unsupported letter (total - cs.length - 1))
  | fuel + 1, c :: cs, xs => do return String.singleton c ++ (← fillFrom total fuel cs xs)

/-- A message: the template itself if there are no arguments, else the template with its places
filled. -/
def message (template : String) (arguments : List Argument) : Except TemplateError String :=
  if arguments.isEmpty then .ok template
  else fillFrom template.length (template.length + 1) template.toList arguments

end Reckoner.Journal
