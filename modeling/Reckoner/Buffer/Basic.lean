import Reckoner.Token

/-!
# Buffers

The sequence of tokens that a user builds key by key, and what can be asked of it.

Binary operators at the end wait for an operand and do not count when a buffer is evaluated;
`binaryStart` says where they begin.
-/

namespace Reckoner.Buffer

open Reckoner.Text (quoted)

/-! ## §1 Shape -/

def isBinary (t : Token) : Bool :=
  t.has Symbol.isBinary

/-- Whether a buffer is exactly one literal. -/
def isConstant (b : Buffer) : Bool :=
  match b with
  | [.literal _] => true
  | _ => false

def endsInLiteral (b : Buffer) : Bool :=
  b.getLast?.any Token.isLiteral

def endsInBinary (b : Buffer) : Bool :=
  b.getLast?.any isBinary

/-- Length of the longest end of a list all of whose elements have a property. -/
def trailing (p : Token → Bool) (b : Buffer) : Nat :=
  (b.reverse.takeWhile p).length

/-- Where the binary operators at the end begin. -/
def binaryStart (b : Buffer) : Nat :=
  b.length - b.trailing isBinary

/-- A buffer without the binary operators at its end. -/
def withoutTrailingBinary (b : Buffer) : Buffer :=
  b.take b.binaryStart

/-- Whether some token is a trigonometric function, so that the angle mode matters. -/
def hasTrigonometric (b : Buffer) : Bool :=
  b.any (Token.has Symbol.isTrigonometric)

/-- Whether tokens have an operator among them, or a stored result whose text is not exact. -/
def hasInteresting : Buffer → Except DisplayError Bool
  | [] => .ok false
  | t :: rest =>
    if t.isOperator then .ok true
    else do
      match t.ellipsis? with
      | none => hasInteresting rest
      -- A missing text is an error only if the search gets as far as that token.
      | some inexact => if ← inexact then return true else hasInteresting rest

/-- Whether the value of a buffer would show more than the buffer itself does. A minus in front and
the binary operators at the end do not count. -/
def isInteresting (b : Buffer) : Except DisplayError Bool :=
  match b.withoutTrailingBinary with
  | [] => .ok false
  | t :: rest => if t.isSymbol .minus then hasInteresting rest else hasInteresting (t :: rest)

/-- For each stored result, whether its text is not exact. -/
def ellipses (b : Buffer) : Except DisplayError (List Bool) :=
  (b.filterMap Token.ellipsis?).mapM id

/-! ## §2 Texts -/

/-- The texts of the tokens, put together. -/
def display (b : Buffer) : Except DisplayError String := do
  return String.join (← b.mapM Token.text)

/-- The spoken texts of the tokens, with blanks between them. -/
def description (b : Buffer) : Except DisplayError String := do
  return " ".intercalate (← b.mapM Token.spoken)

/-- A buffer as it is named in reports. -/
def describe (b : Buffer) : Except DisplayError String := do
  return "ExpressionBuffer(" ++ quoted (← b.display) ++ ")"

end Reckoner.Buffer
