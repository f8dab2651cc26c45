import Reckoner.Buffer.Basic

/-!
# Editing buffers

What keys do to a buffer. Each operation is first worked out as an `Edit`: new contents for the
literal at the end, how many tokens are kept, and what is pushed after them. `Edit.apply` carries it
out on the tokens themselves; where literals are shared between buffers the same edit is carried out
on the shared literal instead.

- `press` takes a key; binary operators with no operand on their left are rejected, and one that is
  accepted replaces the binary operators before it;
- `setExponent` sets the exponent of the literal at the end;
- `delete` undoes one key;
- `append` puts another buffer behind, with a multiplication sign between two operands.
-/

namespace Reckoner

/-! ## §1 Edits -/

/-- A change at the end of a buffer. -/
structure Edit where
  revised : Option Literal
  keep : Nat
  push : List Token
  deriving Repr, Inhabited

namespace Edit

def pushing (b : Buffer) (ts : List Token) : Edit :=
  ⟨none, b.length, ts⟩

def keeping (n : Nat) : Edit :=
  ⟨none, n, []⟩

/-- Give the literal at the end new contents. -/
def revising (b : Buffer) (l : Literal) : Edit :=
  ⟨some l, b.length, []⟩

/-- Tokens with new contents for the literal at the end. -/
def revise (b : Buffer) : Option Literal → Buffer
  | some l => b.dropLast ++ [.literal l]
  | none => b

/-- Carry out an edit. -/
def apply (e : Edit) (b : Buffer) : Buffer :=
  -- The literal at the end gets its new contents even if it is not kept.
  (revise b e.revised).take e.keep ++ e.push

end Edit

namespace Buffer

/-! ## §2 Keys -/

/-- Whether a binary operator has nothing on its left that it could apply to. -/
def lacksOperand (b : Buffer) : Bool :=
  match b.getLast? with
  | none => true
  | some t =>
    t.isSymbol .leftParen || t.has Symbol.isFunction
      || (t.has Symbol.isLeading && !t.isSymbol .minus)

/-- The edit of a digit or point, given what it does to a literal. -/
def typeEdit (b : Buffer) (type : Literal → Option Literal) : Option Edit :=
  match b.getLast? with
  | some (.literal l) => (type l).map (Edit.revising b)
  -- A number typed behind a stored result multiplies it.
  | some (.stored ..) =>
    (type .empty).map fun l => Edit.pushing b [.symbol .times, .literal l]
  | _ => (type .empty).map fun l => Edit.pushing b [.literal l]

/-- The edit of an operator key. -/
def symbolEdit (b : Buffer) (s : Symbol) : Option Edit :=
  if s.isBinary && !s.isLeading then
    if b.lacksOperand then none
    -- The operator replaces those that wait for an operand.
    else some { Edit.keeping b.binaryStart with push := [.symbol s] }
  else some (Edit.pushing b [.symbol s])

/-- The edit of a key, or `none` if the key makes no sense here. -/
def keyEdit (b : Buffer) : Key → Option Edit
  | .digit d => b.typeEdit (·.addDigit d)
  | .point => b.typeEdit Literal.addPoint
  | .symbol s => b.symbolEdit s

/-- The edit of the key with a number. -/
def pressEdit (b : Buffer) (n : Int) : Except KeyError (Option Edit) :=
  match Key.ofCode? n with
  | some k => .ok (b.keyEdit k)
  | none => .error (.unknownKey n)

/-- Press the key with a number: whether it was accepted, and the buffer after. -/
def press (b : Buffer) (n : Int) : Except KeyError (Bool × Buffer) := do
  match ← b.pressEdit n with
  | some e => return (true, e.apply b)
  | none => return (false, b)

/-- The edit of an exponent, or `none` if no literal is at the end. An exponent of zero changes
nothing. -/
def exponentEdit (b : Buffer) (e : Int) : Option Edit :=
  match b.getLast? with
  | some (.literal l) => some (Edit.revising b (if e = 0 then l else l.withExponent e))
  | _ => none

/-- Set the exponent of the literal at the end: whether there was one, and the buffer after. -/
def setExponent (b : Buffer) (e : Int) : Bool × Buffer :=
  match b.exponentEdit e with
  | some e => (true, e.apply b)
  | none => (false, b)

/-! ## §3 Deleting -/

/-- The edit that undoes one key. A literal goes once nothing is left of it. -/
def deleteEdit (b : Buffer) : Edit :=
  match b.getLast? with
  | some (.literal l) =>
    let left := if l.isEmpty then l else l.delete
    ⟨some left, if left.isEmpty then b.length - 1 else b.length, []⟩
  | _ => Edit.keeping (b.length - 1)

def delete (b : Buffer) : Buffer :=
  b.deleteEdit.apply b

def isAdditive (t : Token) : Bool :=
  t.isSymbol .plus || t.isSymbol .minus

/-- The edit that removes plus and minus signs at the end. -/
def stripEdit (b : Buffer) : Edit :=
  Edit.keeping (b.length - b.trailing isAdditive)

/-- Remove plus and minus signs at the end. -/
def stripAdditive (b : Buffer) : Buffer :=
  b.stripEdit.apply b

/-! ## §4 Joining -/

/-- Whether two buffers would meet in two operands, which would read as one number. -/
def needsTimes (b other : Buffer) : Bool :=
  match b.getLast?, other.head? with
  | some s, some t => !s.isOperator && !t.isOperator
  | _, _ => false

/-- What stands between two buffers that are joined. -/
def joint (b other : Buffer) : Buffer :=
  if b.needsTimes other then [.symbol .times] else []

/-- Put another buffer behind. -/
def append (b other : Buffer) : Buffer :=
  b ++ b.joint other ++ other

/-! ## §5 Building -/

/-- Press keys in turn; rejected keys are skipped. -/
def pressAll (b : Buffer) : List Int → Except KeyError Buffer
  | [] => .ok b
  | n :: ns => do
    let (_, b) ← b.press n
    pressAll b ns

/-- The buffer that keys build. -/
def ofKeys (ns : List Int) : Except KeyError Buffer :=
  pressAll [] ns

/-- The token that stands for a whole buffer. -/
def abbreviated (b : Buffer) (number : Nat) (value : Value) (degrees : Bool)
    (text : Option String) : Token :=
  .stored number value b ⟨degrees, b.length⟩ text

end Buffer

end Reckoner
