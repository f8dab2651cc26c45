import Reckoner.Codec.Bytes
import Reckoner.Codec.Numbering
import Reckoner.Buffer.Edit
import Reckoner.Evaluation.Basic

/-!
# Saved buffers

A buffer is the count of its tokens and the tokens. A token is a tag and a record:

```text
literal   := text whole, bool point, text fraction, int exponent
operator  := int number
stored    := int number [ buffer, bool degrees, text ]
```

The part in brackets is there the first time a number is met. Values themselves are not saved:
loading evaluates the expression of each stored result once.

- `save` writes a buffer, `load` reads one; in `saveWithin` and `loadWithin` there is only room for
  stored results that are nested less deeply than a limit;
- `writeTokens` and `readNested` do so in the middle of other data.
-/

namespace Reckoner.Codec

/-! ## §1 Writing -/

/-- Bytes and the numbers given out so far. -/
abbrev Written := Except WriteError (Bytes × Issued Identity)

def writeLiteral (l : Literal) : Except WriteError Bytes := do
  let whole ← writeText l.whole
  let fraction ← writeText l.fraction
  let exponent ← writeInt l.exponent
  return whole ++ writeBool l.point ++ fraction ++ exponent

/-- Write the display text of a stored result. -/
def writeStoredText : Option String → Except WriteError Bytes
  | some text => writeText text
  | none => .error .missingText

def writeTag (tag : Nat) : Bytes :=
  [UInt8.ofNat tag]

/-- Begin to write a buffer, if there is room for one. What is left is the room for the buffers in its
stored results; without a limit there always is room. -/
def enter : Option Nat → Except WriteError (Option Nat)
  | none => .ok none
  | some 0 => .error .nestedTooDeeply
  | some (room + 1) => .ok (some room)

mutual

def writeToken (room : Option Nat) (table : Issued Identity) : Token → Written
  | .literal l => do return (writeTag Token.literalTag ++ (← writeLiteral l), table)
  | .operator o => do return (writeTag Token.operatorTag ++ (← writeInt o.code), table)
  | .stored _ value expr scope text =>
    match table.lookup value.identity with
    | some n => do return (writeTag Token.storedTag ++ (← writeInt n), table)
    | none => do
      -- The number is bound only behind the expression, so nothing in there refers to it.
      let (n, table) := table.reserve
      let number ← writeInt n
      let room ← enter room
      let count ← writeInt expr.length
      let (inner, table) ← writeEach room table expr
      let text ← writeStoredText text
      -- How far the scope reaches is not written: it is the length of the expression.
      return (writeTag Token.storedTag ++ number ++ count ++ inner ++ writeBool scope.degrees ++ text,
        table.bind value.identity n)

def writeEach (room : Option Nat) (table : Issued Identity) : List Token → Written
  | [] => .ok ([], table)
  | t :: ts => do
    let (first, table) ← writeToken room table t
    let (rest, table) ← writeEach room table ts
    return (first ++ rest, table)

end

/-- Write a buffer in the middle of other data. Stored results in it must be written less deeply nested
than `room`. -/
def writeTokens (room : Option Nat) (table : Issued Identity) (b : Buffer) : Written := do
  let room ← enter room
  let count ← writeInt b.length
  let (tokens, table) ← writeEach room table b
  return (count ++ tokens, table)

/-- Stored results may be written this deeply nested. -/
def deepestWriting : Nat := 490

/-! ## §2 Reading -/

/-- What is kept while reading: the bytes that are left, the stored results rebuilt so far, and how
many tokens have been numbered. -/
structure Progress where
  bytes : Bytes
  table : Received Token
  next : Nat
  deriving Inhabited

/-- An action while reading. -/
abbrev Loading (α : Type) := Progress → Except LoadError (α × Progress)

/-- Stop with a format error. -/
def malformed {α : Type} (e : FormatError) : Except LoadError α :=
  .error (.format e)

/-- Read with a byte reader. -/
def Progress.read {α : Type} (p : Progress) (r : Reader α) : Except LoadError (α × Progress) :=
  match r p.bytes with
  | (.ok x, rest) => .ok (x, { p with bytes := rest })
  | (.error e, _) => malformed e

/-- Whether all characters of a text are digits. -/
def areDigits (s : String) : Bool :=
  s.toList.all Text.isAsciiDigit

/-- What is wrong with the fields of a literal, if anything is. -/
def literalFault? (whole fraction : String) (point : Bool) : Option FormatError :=
  if !areDigits whole || !areDigits fraction then some (.invalidDigits whole fraction)
  else if !fraction.isEmpty && !point then some .fractionWithoutPoint
  else if whole.isEmpty && !point then some .emptyLiteral
  else none

def readLiteral : Loading Token := fun p => do
  let (whole, p) ← p.read readText
  let (point, p) ← p.read readBool
  let (fraction, p) ← p.read readText
  let (exponent, p) ← p.read readInt
  match literalFault? whole fraction point with
  | some e => malformed e
  | none => return (.literal ⟨whole, fraction, point, exponent⟩, p)

def readOperator : Loading Token := fun p => do
  let (n, p) ← p.read readInt
  match Symbol.ofCode? n with
  | some s => return (.symbol s, p)
  | none => malformed (.unknownOperator n)

/-- The value of the expression of a stored result. -/
def evaluateStored (index : Int) (expr : Buffer) (degrees : Bool) : Except LoadError Operand :=
  match expr.evaluatePrefix ⟨degrees, expr.length⟩ with
  | .ok (position, x) =>
    if position = expr.length then .ok x else malformed (.incomplete index)
  -- What is wrong with the expression is wrong with the bytes; a number beyond conversion is not.
  | .error (.malformed e) => malformed (.unevaluable index (.malformed e))
  | .error (.arithmetic e) => malformed (.unevaluable index (.arithmetic e))
  | .error e => .error (.evaluation e)

/-- Read a stored result, given how to read its expression. -/
def readStored (readExpr : Loading Buffer) : Loading Token := fun p => do
  let (index, p) ← p.read readInt
  match p.table.get index with
  | some t => return (t, p)
  | none =>
    -- Claimed before the expression is read: numbers follow the order in which records begin.
    let table ← (p.table.claim index).mapError LoadError.format
    let (expr, p) ← readExpr { p with table }
    let (degrees, p) ← p.read readBool
    let x ← evaluateStored index expr degrees
    let (text, p) ← p.read readText
    -- A value that was there before is kept as it is, with its identity.
    let t := expr.abbreviated p.next (x.keep p.next) degrees (some text)
    return (t, { p with table := p.table.put index t, next := p.next + 1 })

/-- Read a token, given how to read the expression of a stored result. -/
def readToken (readExpr : Loading Buffer) : Loading Token := fun p => do
  let (tag, p) ← p.read readByte
  if tag = Token.literalTag then readLiteral p
  else if tag = Token.operatorTag then readOperator p
  else if tag = Token.storedTag then readStored readExpr p
  else malformed (.unknownTag tag)

/-- Read a number of things one after the other. -/
def readEach {α : Type} (readOne : Loading α) : Nat → Loading (List α)
  | 0, p => .ok ([], p)
  | n + 1, p => do
    let (x, p) ← readOne p
    let (xs, p) ← readEach readOne n p
    return (x :: xs, p)

/-- Read a count and that number of tokens. -/
def readCounted (readOne : Loading Token) : Loading Buffer := fun p => do
  let (count, p) ← p.read readInt
  if count < 0 then malformed (.negativeCount count) else readEach readOne count.toNat p

/-- Read a buffer in which stored results are nested less deeply than `room`. -/
def readNested : Nat → Loading Buffer
  | 0, _ => malformed .nestedTooDeeply
  | room + 1, p => readCounted (readToken (readNested room)) p

/-- Stored results may be nested this deeply. -/
def deepestStorage : Nat := 190

/-! ## §3 Whole buffers -/

/-- What saving returns: the bytes, and how many stored results were written in full. -/
structure Saved where
  bytes : Bytes
  shared : Nat
  deriving DecidableEq, Repr, Inhabited

/-- Save a buffer, whose stored results must be written less deeply nested than `room`. -/
def saveWithin (room : Option Nat) (b : Buffer) : Except WriteError Saved := do
  let (bytes, table) ← writeTokens room .empty b
  return ⟨bytes, table.count⟩

/-- Save a buffer, whatever room this takes. -/
def save (b : Buffer) : Except WriteError Saved :=
  saveWithin none b

/-- What loading returns: the buffer, how many stored results it shares, and how many tokens have
been numbered now. -/
structure Loaded where
  buffer : Buffer
  shared : Nat
  next : Nat
  deriving Inhabited

/-- Load a buffer in which stored results are nested less deeply than `room`; they are numbered from
`next` on. -/
def loadWithin (room : Nat) (bytes : Bytes) (next : Nat) : Except LoadError Loaded := do
  let (buffer, p) ← readNested room ⟨bytes, .empty, next⟩
  if p.bytes.isEmpty then return ⟨buffer, p.table.size, p.next⟩
  else malformed .trailingExpression

/-- Load a buffer; its stored results are numbered from `next` on. -/
def load (bytes : Bytes) (next : Nat) : Except LoadError Loaded :=
  loadWithin deepestStorage bytes next

end Reckoner.Codec
