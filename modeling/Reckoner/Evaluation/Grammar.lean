import Reckoner.Evaluation.Error

/-!
# The grammar of expressions

Tokens are read from left to right and evaluated as they are read. Tightest first:

```text
unary   := literal | stored result | π | e | √ [−] unary
         | ( expr [)] | function expr [)]
suffix  := unary { ! | ² | % }
factor  := suffix [ ^ signed ]
signed  := [−] factor
term    := signed { [× | ÷] signed }
expr    := term { (+ | −) (operand % | term) }
```

Functions open a parenthesis of their own, and parentheses may be left open at the end. A percentage
after plus or minus is taken of the running total when plus, minus, a closing parenthesis or the end
follows it.

A reader takes the tokens that are left and returns a value with the tokens after it. Readers are
built by levels: with room for `n + 1` nested operands they use those with room for `n`, so nesting
is bounded and reading always ends.
-/

namespace Reckoner.Evaluation

open EvaluationError (syntaxError ofArithmetic)

/-! ## §1 Readers -/

/-- How tokens are read: whether angles are in degrees, and whether more tokens are asked for than
there are, so that looking past the last one is an error. -/
structure Mode where
  degrees : Bool
  beyond : Bool
  deriving DecidableEq, Repr, Inhabited

/-- Read a value from the front of a token list. -/
abbrev Reader := List Token → Evaluated (Operand × List Token)

/-- Look at the next token. -/
def peek (m : Mode) : List Token → Evaluated (Option Token)
  | [] => if m.beyond then syntaxError .unexpectedEnd else .ok none
  | t :: _ => .ok (some t)

/-- Whether the next token is a symbol. -/
def nextIs (m : Mode) (s : Symbol) (ts : List Token) : Evaluated Bool := do
  return (← peek m ts).any (Token.isSymbol s)

/-- The readers that need room for one nested operand. -/
structure Readers where
  unary : Reader
  exponent : Reader

/-- The readers where there is no room left. -/
def Readers.exhausted : Readers :=
  ⟨fun _ => syntaxError .nestedTooDeeply, fun _ => syntaxError .nestedTooDeeply⟩

/-! ## §2 Operations on values -/

/-- An angle as it was given, in radians. -/
def toRadians (m : Mode) (x : Quantity) : Quantity :=
  if m.degrees then x.multiply Constant.radiansPerDegree.quantity else x

/-- An angle in radians, as it is to be returned. -/
def fromRadians (m : Mode) (x : Quantity) : Except ArithmeticError Quantity :=
  if m.degrees then x.divide Constant.radiansPerDegree.quantity else .ok x

/-- The function of a function key; keys that are no functions have none. -/
def applyFunction? (m : Mode) (x : Quantity) : Symbol → Option (Except ArithmeticError Quantity)
  | .sin => some (.ok (toRadians m x).sin)
  | .cos => some (.ok (toRadians m x).cos)
  | .tan => some (toRadians m x).tangent
  | .ln => some x.naturalLog
  | .exp => some (.ok x.exp)
  | .log => some x.decimalLog
  | .arcsin => some (x.arcSine >>= fromRadians m)
  | .arccos => some (x.arcCosine >>= fromRadians m)
  | .arctan => some (fromRadians m x.atan)
  | _ => none

/-- One percent of a quantity. -/
def percent (x : Quantity) : Quantity :=
  x.multiply Constant.hundredth.quantity

/-- What a suffix does to the value before it; other tokens do nothing. -/
def applySuffix? (x : Quantity) (t : Token) : Option (Evaluated Quantity) :=
  if t.isSymbol .factorial then some (x.factorial.mapError EvaluationError.ofFactorial)
  else if t.isSymbol .square then some (.ok (x.multiply x))
  else if t.isSymbol .percent then some (.ok (percent x))
  else none

/-! ## §3 Suffixes, powers and signs -/

/-- Apply the suffixes that follow a value. -/
def suffixes (m : Mode) : Operand → List Token → Evaluated (Operand × List Token)
  | x, [] => if m.beyond then syntaxError .unexpectedEnd else .ok (x, [])
  | x, t :: rest =>
    match applySuffix? x.quantity t with
    | none => .ok (x, t :: rest)
    | some y => do suffixes m (.computed (← y)) rest

/-- Read an operand with its suffixes and its exponent. -/
def factor (m : Mode) (r : Readers) : Reader := fun ts => do
  let (x, rest) ← r.unary ts
  let (x, rest) ← suffixes m x rest
  if ← nextIs m .power rest then
    -- An exponent takes powers and a sign of its own, so powers group to the right.
    let (e, rest) ← r.exponent rest.tail
    return (.computed (← ofArithmetic (x.quantity.pow e.quantity)), rest)
  else return (x, rest)

/-- Read a factor that may have a minus in front. -/
def signed (m : Mode) (r : Readers) : Reader := fun ts => do
  if ← nextIs m .minus ts then
    let (x, rest) ← factor m r ts.tail
    return (.computed x.quantity.negate, rest)
  else factor m r ts

/-! ## §4 Terms -/

/-- How a factor is joined to the product before it. -/
inductive Link where
  | times
  | over
  deriving DecidableEq, Repr, Inhabited

/-- Join a factor to the product before it. -/
def Link.apply (x y : Quantity) : Link → Except ArithmeticError Quantity
  | .times => .ok (x.multiply y)
  | .over => x.divide y

/-- Whether a token may follow a factor with no sign between them: any but the binary operators,
the factorial and the closing parenthesis. -/
def startsFactor : Token → Bool
  | .operator o => !o.has fun s => s.isBinary || s = .factorial || s = .rightParen
  | _ => true

/-- How the next factor is joined to the product before it, and the tokens it is read from. -/
def link? (m : Mode) (ts : List Token) : Evaluated (Option (Link × List Token)) := do
  match ← peek m ts with
  | none => return none
  | some t =>
    -- Factors with no sign between them are multiplied.
    if t.isSymbol .times then return some (.times, ts.tail)
    else if t.isSymbol .divide then return some (.over, ts.tail)
    else if startsFactor t then return some (.times, ts)
    else return none

/-- Multiply or divide by the factors that follow. Every factor takes a token, so `fuel` need not
exceed the number of tokens. -/
def products (m : Mode) (r : Readers) : Nat → Operand → List Token → Evaluated (Operand × List Token)
  | 0, x, ts => .ok (x, ts)
  | fuel + 1, x, ts => do
    match ← link? m ts with
    | none => return (x, ts)
    | some (link, ts) =>
      let (y, rest) ← signed m r ts
      products m r fuel (.computed (← ofArithmetic (link.apply x.quantity y.quantity))) rest

def term (m : Mode) (r : Readers) : Reader := fun ts => do
  let (x, rest) ← signed m r ts
  products m r (rest.length + 1) x rest

/-! ## §5 Sums -/

/-- Whether a token may follow a percentage that is taken of the running total. -/
def endsPercentage (t : Token) : Bool :=
  t.isSymbol .plus || t.isSymbol .minus || t.isSymbol .rightParen

/-- Whether the next tokens are a percentage that is taken of the running total. -/
def isPercentage (m : Mode) : List Token → Evaluated Bool
  | x :: sign :: rest =>
    -- The token behind the percent sign is looked at only if there is such a sign.
    if !sign.isSymbol .percent || x.isOperator then .ok false
    else do return (← peek m rest).all endsPercentage
  | _ => if m.beyond then syntaxError .unexpectedEnd else .ok false

/-- What the running total is multiplied by when a percentage is added or subtracted. -/
def percentageFactor (subtracted : Bool) (x : Quantity) : Quantity :=
  Constant.one.quantity.add (percent (if subtracted then x.negate else x))

/-- Add or subtract the terms that follow. Every term takes a token, so `fuel` need not exceed the
number of tokens. -/
def sums (m : Mode) (r : Readers) : Nat → Operand → List Token → Evaluated (Operand × List Token)
  | 0, x, ts => .ok (x, ts)
  | fuel + 1, x, ts => do
    let plus ← nextIs m .plus ts
    if plus || (← nextIs m .minus ts) then
      if ← isPercentage m ts.tail then
        let (y, rest) ← r.unary ts.tail
        -- The percent sign itself is skipped.
        sums m r fuel (.computed (x.quantity.multiply (percentageFactor (!plus) y.quantity))) rest.tail
      else
        let (y, rest) ← term m r ts.tail
        let total := if plus then x.quantity.add y.quantity else x.quantity.subtract y.quantity
        sums m r fuel (.computed total) rest
    else return (x, ts)

def expr (m : Mode) (r : Readers) : Reader := fun ts => do
  let (x, rest) ← term m r ts
  sums m r (rest.length + 1) x rest

/-! ## §6 Operands -/

/-- Read a sum and the closing parenthesis after it, if there is one. -/
def parenthesized (m : Mode) (r : Readers) : Reader := fun ts => do
  let (x, rest) ← expr m r ts
  if ← nextIs m .rightParen rest then return (x, rest.tail) else return (x, rest)

/-- Read what a square root is taken of, which may have a minus in front. -/
def radicand (m : Mode) (r : Readers) (ts : List Token) : Evaluated (Quantity × List Token) := do
  if ← nextIs m .minus ts then
    let (x, rest) ← r.unary ts.tail
    return (x.quantity.negate, rest)
  else
    let (x, rest) ← r.unary ts
    return (x.quantity, rest)

/-- Read what a symbol introduces. -/
def ofSymbol (m : Mode) (r : Readers) (s : Symbol) : Reader := fun ts =>
  match s with
  | .pi => .ok (.ofValue Constant.pi.value, ts)
  | .euler => .ok (.ofValue Constant.euler.value, ts)
  | .sqrt => do
    let (x, rest) ← radicand m r ts
    return (← ofArithmetic (Operand.sqrt x), rest)
  | .leftParen => parenthesized m r ts
  | s =>
    if s.isFunction then do
      -- The key of a function types its opening parenthesis, too.
      let (x, rest) ← parenthesized m r ts
      match applyFunction? m x.quantity s with
      | some y => return (.computed (← ofArithmetic y), rest)
      | none => syntaxError .unrecognizedToken
    else syntaxError .unrecognizedToken

/-- Read one operand. -/
def unary (m : Mode) (r : Readers) : Reader
  | [] => syntaxError .unexpectedEnd
  | .literal l :: rest => do
    return (.computed (← l.value.mapError EvaluationError.ofLiteral), rest)
  | .stored _ v _ _ _ :: rest => .ok (.ofValue v, rest)
  | .operator (.listed s) :: rest => ofSymbol m r s rest
  | .operator (.unlisted ..) :: _ => syntaxError .unrecognizedToken

/-- The readers with room for a number of nested operands. -/
def readers (m : Mode) : Nat → Readers
  | 0 => .exhausted
  | room + 1 => ⟨unary m (readers m room), signed m (readers m room)⟩

end Reckoner.Evaluation
