import Reckoner.Codec.Buffer

/-!
# Sessions

A session owns the expression being edited, the angle mode, the last result as long as it is
current, and a memory register.

- `evaluate` keeps the value and its short text until the expression or its angles change;
- `collapse` freezes the expression into one stored result that further keys build on;
- the memory register holds such a stored result too, so recalling it pastes a finished value.

Every operation returns the session after it, also when it fails. Stored results are numbered in the
order in which they are made.
-/

namespace Reckoner

open Reckoner.Codec

/-- An expression being edited, with its mode, its result and the memory register. `next` is the
number of the next stored result. -/
structure Session where
  degrees : Bool
  expr : Buffer
  memory : Option Buffer
  result : Option Quantity
  resultText : Option String
  next : Nat
  deriving Repr, Inhabited

namespace Session

/-- A session in which nothing has happened. -/
def fresh (degrees : Bool) : Session :=
  ⟨degrees, [], none, none, none, 0⟩

/-- Forget the result. -/
def invalidate (s : Session) : Session :=
  { s with result := none, resultText := none }

/-- Change the expression, which makes the result outdated. -/
def withExpr (s : Session) (b : Buffer) : Session :=
  { s with expr := b }.invalidate

/-! ## §1 Editing -/

/-- Press the key with a number: whether it was accepted, and the session after. -/
def press (s : Session) (n : Int) : Except KeyError (Bool × Session) := do
  match ← s.expr.press n with
  | (true, b) => return (true, s.withExpr b)
  | (false, _) => return (false, s)

/-- Set the exponent of the literal at the end: whether there was one, and the session after. -/
def setExponent (s : Session) (e : Int) : Bool × Session :=
  match s.expr.setExponent e with
  | (true, b) => (true, s.withExpr b)
  | (false, _) => (false, s)

def delete (s : Session) : Session :=
  s.withExpr s.expr.delete

def clear (s : Session) : Session :=
  s.withExpr []

/-- Put a copy of a buffer behind the expression. -/
def paste (s : Session) (b : Buffer) : Session :=
  s.withExpr (s.expr.append b)

/-- Choose the angle mode. A result that no angle enters stays current. -/
def setDegrees (s : Session) (degrees : Bool) : Session :=
  if degrees = s.degrees then s
  else
    let s := { s with degrees }
    -- Without trigonometric functions the value is the same in both modes.
    if s.expr.hasTrigonometric then s.invalidate else s

/-! ## §2 Evaluation -/

/-- The short text of a new result. -/
def shortTextOf (x : Quantity) : Evaluated String :=
  (x.shortText Quantity.shortDigits).mapError fun _ => .tooManyDigits

/-- Keep a new result and then its text. The report of it names the expression. -/
def keepResult (s : Session) (x : Quantity) : Evaluated Quantity × Session :=
  -- The result is kept even if its text or the report of it fails.
  let s := { s with result := some x }
  match shortTextOf x with
  | .error e => (.error e, s)
  | .ok text =>
    let s := { s with resultText := some text }
    match s.expr.describe with
    | .ok _ => (.ok x, s)
    | .error e => (.error (.undisplayable e), s)

/-- The value of the expression, computed only if there is no current result. -/
def evaluate (s : Session) : Evaluated Quantity × Session :=
  match s.result with
  | some x => (.ok x, s)
  | none =>
    match s.expr.evaluate s.degrees with
    | .ok x => s.keepResult x.quantity
    | .error e => (.error e, s)

/-- The stored result that stands for the expression, without binary operators at its end. It has
a value of its own. -/
def abbreviated (s : Session) : Evaluated Token × Session :=
  match s.evaluate with
  | (.error e, s) => (.error e, s)
  | (.ok x, s) =>
    let value : Value := ⟨x, .result s.next⟩
    (.ok (s.expr.withoutTrailingBinary.abbreviated s.next value s.degrees s.resultText),
      { s with next := s.next + 1 })

/-- Replace the expression by the stored result that stands for it. -/
def collapse (s : Session) : Evaluated Unit × Session :=
  match s.abbreviated with
  | (.error e, s) => (.error e, s)
  | (.ok t, s) => (.ok (), { s with expr := [t] })

/-! ## §3 Memory -/

/-- How the current value goes into memory. -/
inductive MemoryChange where
  | add
  | subtract
  deriving DecidableEq, Repr, Inhabited

/-- The symbol of a change of memory. -/
def MemoryChange.symbol : MemoryChange → Symbol
  | .add => .plus
  | .subtract => .minus

/-- The stored result of memory changed by the current value. Empty memory counts as zero. -/
def combined (s : Session) (change : MemoryChange) (current : Token) : Evaluated Token := do
  -- With empty memory the sign stands in front, which counts memory as zero.
  let b := s.memory.getD [] ++ [.symbol change.symbol, current]
  let x ← b.evaluate s.degrees
  let text ← shortTextOf x.quantity
  return b.abbreviated s.next (x.keep s.next) s.degrees (some text)

/-- Add the current value to memory or subtract it. -/
def updateMemory (s : Session) (change : MemoryChange) : Evaluated Unit × Session :=
  match s.abbreviated with
  | (.error e, s) => (.error e, s)
  | (.ok current, s) =>
    -- What is added to empty memory becomes the memory as it is.
    if s.memory.isNone && change = .add then (.ok (), { s with memory := some [current] })
    else
      match s.combined change current with
      | .error e => (.error e, s)
      | .ok t => (.ok (), { s with memory := some [t], next := s.next + 1 })

/-- Put the memory value behind the expression: whether there was one, and the session after. -/
def «recall» (s : Session) : Bool × Session :=
  match s.memory with
  | none => (false, s)
  | some b => (true, s.paste b)

def clearMemory (s : Session) : Session :=
  { s with memory := none }

/-! ## §4 Saving -/

/-- Write mode, expression and memory; the expression and the memory share their numbering. Stored
results must be written less deeply nested than `room`. -/
def saveWithin (room : Option Nat) (s : Session) : Except WriteError Bytes := do
  let (expr, table) ← writeTokens room .empty s.expr
  let memory ← match s.memory with
    | none => pure []
    | some b => Prod.fst <$> writeTokens room table b
  return writeBool s.degrees ++ expr ++ writeBool s.memory.isSome ++ memory

/-- Write mode, expression and memory, whatever room this takes. -/
def save (s : Session) : Except WriteError Bytes :=
  s.saveWithin none

/-- Whether a buffer may be held by memory. -/
def isMemory : Buffer → Bool
  | [.stored ..] => true
  | _ => false

/-- Read the memory of a saved session. -/
def readMemory (room : Nat) : Loading (Option Buffer) := fun p => do
  let (present, p) ← p.read readBool
  if present then
    let (b, p) ← readNested room p
    return (some b, p)
  else return (none, p)

/-- Read a saved session in which stored results are nested less deeply than `room`; they are
numbered from `next` on. -/
def restoreWithin (room : Nat) (bytes : Bytes) (next : Nat) : Except LoadError Session := do
  let p : Progress := ⟨bytes, .empty, next⟩
  let (degrees, p) ← p.read readBool
  let (expr, p) ← readNested room p
  let (memory, p) ← readMemory room p
  if !memory.all isMemory then malformed .memoryNotSingle
  else if !p.bytes.isEmpty then malformed .trailingSession
  else return ⟨degrees, expr, memory, none, none, p.next⟩

/-- Read a saved session; its stored results are numbered from `next` on. -/
def restore (bytes : Bytes) (next : Nat) : Except LoadError Session :=
  restoreWithin deepestStorage bytes next

end Session

end Reckoner
