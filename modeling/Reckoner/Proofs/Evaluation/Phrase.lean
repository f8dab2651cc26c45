import Reckoner.Buffer.Edit
import Reckoner.Evaluation.Basic

/-!
# Phrases

The derivation trees of the grammar of expressions, independently of how they are found. There is one
type of trees for each production:

```text
unary   := number | π | e | √ [−] unary | ( expr [)] | function expr [)]
suffix  := unary { ! | ² | % }
factor  := suffix [ ^ signed ]
signed  := [−] factor
term    := signed { [× | ÷] signed }
expr    := term { (+ | −) (number % | term) }
```

What a production repeats is a tree of its own, from left to right: `Products` and `Sums`.

- `tokens` is the yield of a tree, and `height` its nesting;
- `value` is what the tree denotes, worked out from the leaves upwards;
- `Greedy` says that the tree takes every optional continuation that the tokens behind it allow.
-/

namespace Reckoner.Evaluation

open EvaluationError (syntaxError ofArithmetic ofFactorial ofLiteral)

/-! ## §1 Trees -/

/-- A suffix. -/
inductive Mark where
  | factorial
  | square
  | percent
  deriving DecidableEq, Repr

/-- What stands between two factors of a product. -/
inductive Joint where
  | times
  | over
  | nothing
  deriving DecidableEq, Repr

namespace Phrase

/-- An operand that is a single token other than an operator. -/
inductive Number where
  | literal (l : Literal)
  | stored (n : Nat) (v : Value) (e : Buffer) (s : Scope) (x : Option String)

mutual

/-- An operand. Groups and functions may lack their closing parenthesis. -/
inductive Unary where
  | number (x : Number)
  | pi
  | euler
  | root (negated : Bool) (x : Unary)
  | group (x : Expr) (closed : Bool)
  | call (f : Symbol) (h : f.isFunction = true) (x : Expr) (closed : Bool)

/-- An operand with its suffixes. -/
inductive Suffix where
  | mk (x : Unary) (marks : List Mark)

/-- An operand with its suffixes and its exponent. -/
inductive Factor where
  | plain (x : Suffix)
  | power (x : Suffix) (exponent : Signed)

/-- A factor that may have a minus in front. -/
inductive Signed where
  | mk (negated : Bool) (x : Factor)

/-- A product. -/
inductive Term where
  | mk (x : Signed) (more : Products)

/-- The factors behind the first one. -/
inductive Products where
  | nil
  | cons (joint : Joint) (x : Signed) (more : Products)

/-- A sum. -/
inductive Expr where
  | mk (x : Term) (more : Sums)

/-- The terms and percentages behind the first term. -/
inductive Sums where
  | nil
  | term (subtracted : Bool) (x : Term) (more : Sums)
  | percentage (subtracted : Bool) (x : Number) (more : Sums)

end

end Phrase

/-! ## §2 Yields -/

/-- The symbol of a suffix. -/
def Mark.symbol : Mark → Symbol
  | .factorial => .factorial
  | .square => .square
  | .percent => .percent

/-- The tokens of suffixes. -/
def Mark.tokens (marks : List Mark) : List Token :=
  marks.map fun k => Token.symbol k.symbol

/-- The tokens between two factors. -/
def Joint.tokens : Joint → List Token
  | .times => [.symbol .times]
  | .over => [.symbol .divide]
  | .nothing => []

/-- The symbol in front of a summand. -/
def additiveSymbol (subtracted : Bool) : Symbol :=
  if subtracted then .minus else .plus

/-- A minus in front, if there is one. -/
def signTokens (negated : Bool) : List Token :=
  if negated then [.symbol .minus] else []

/-- The closing parenthesis, if there is one. -/
def closingTokens (closed : Bool) : List Token :=
  if closed then [.symbol .rightParen] else []

namespace Phrase

/-- The token of a number. -/
def Number.token : Number → Token
  | .literal l => .literal l
  | .stored n v e s x => .stored n v e s x

mutual

def Unary.tokens : Unary → List Token
  | .number x => [x.token]
  | .pi => [.symbol .pi]
  | .euler => [.symbol .euler]
  | .root negated x => .symbol .sqrt :: (signTokens negated ++ x.tokens)
  | .group x closed => .symbol .leftParen :: (x.tokens ++ closingTokens closed)
  | .call f _ x closed => .symbol f :: (x.tokens ++ closingTokens closed)

def Suffix.tokens : Suffix → List Token
  | .mk x marks => x.tokens ++ Mark.tokens marks

def Factor.tokens : Factor → List Token
  | .plain x => x.tokens
  | .power x e => x.tokens ++ .symbol .power :: e.tokens

def Signed.tokens : Signed → List Token
  | .mk negated x => signTokens negated ++ x.tokens

def Term.tokens : Term → List Token
  | .mk x more => x.tokens ++ more.tokens

def Products.tokens : Products → List Token
  | .nil => []
  | .cons joint x more => joint.tokens ++ (x.tokens ++ more.tokens)

def Expr.tokens : Expr → List Token
  | .mk x more => x.tokens ++ more.tokens

def Sums.tokens : Sums → List Token
  | .nil => []
  | .term subtracted x more => .symbol (additiveSymbol subtracted) :: (x.tokens ++ more.tokens)
  | .percentage subtracted x more =>
    .symbol (additiveSymbol subtracted) :: x.token :: .symbol .percent :: more.tokens

end

/-! ## §3 Nesting -/

mutual

/-- How deeply operands are nested. Square roots, groups, functions and exponents each add a level to
what they hold. -/
def Unary.height : Unary → Nat
  | .number _ | .pi | .euler => 1
  | .root _ x => x.height + 1
  | .group x _ => x.height + 1
  | .call _ _ x _ => x.height + 1

def Suffix.height : Suffix → Nat
  | .mk x _ => x.height

def Factor.height : Factor → Nat
  | .plain x => x.height
  | .power x e => max x.height (e.height + 1)

def Signed.height : Signed → Nat
  | .mk _ x => x.height

def Term.height : Term → Nat
  | .mk x more => max x.height more.height

def Products.height : Products → Nat
  | .nil => 0
  | .cons _ x more => max x.height more.height

def Expr.height : Expr → Nat
  | .mk x more => max x.height more.height

def Sums.height : Sums → Nat
  | .nil => 0
  | .term _ x more => max x.height more.height
  | .percentage _ _ more => max 1 more.height

end

end Phrase

/-! ## §4 Values -/

/-- What a suffix does to the value before it. -/
def Mark.apply (x : Quantity) : Mark → Evaluated Quantity
  | .factorial => x.factorial.mapError ofFactorial
  | .square => .ok (x.multiply x)
  | .percent => .ok (Evaluation.percent x)

/-- What suffixes do to the value before them, from left to right. -/
def Mark.applyAll : Operand → List Mark → Evaluated Operand
  | x, [] => .ok x
  | x, k :: marks => do applyAll (.computed (← k.apply x.quantity)) marks

/-- How factors are joined; with nothing between them they are multiplied. -/
def Joint.link : Joint → Link
  | .times | .nothing => .times
  | .over => .over

/-- A quantity with its sign changed, if there is a minus in front. -/
def signedQuantity (negated : Bool) (x : Quantity) : Quantity :=
  if negated then x.negate else x

/-- A running total and a summand put together. -/
def addSummand (subtracted : Bool) (x y : Quantity) : Quantity :=
  if subtracted then x.subtract y else x.add y

namespace Phrase

/-- The value of a number. -/
def Number.value : Number → Evaluated Operand
  | .literal l => do return .computed (← l.value.mapError ofLiteral)
  | .stored _ v _ _ _ => .ok (.ofValue v)

mutual

def Unary.value (m : Mode) : Unary → Evaluated Operand
  | .number x => x.value
  | .pi => .ok (.ofValue Constant.pi.value)
  | .euler => .ok (.ofValue Constant.euler.value)
  | .root negated x => do
    let y ← x.value m
    ofArithmetic (Operand.sqrt (signedQuantity negated y.quantity))
  | .group x _ => x.value m
  | .call f _ x _ => do
    let y ← x.value m
    match applyFunction? m y.quantity f with
    | some z => return .computed (← ofArithmetic z)
    | none => syntaxError .unrecognizedToken

def Suffix.value (m : Mode) : Suffix → Evaluated Operand
  | .mk x marks => do Mark.applyAll (← x.value m) marks

def Factor.value (m : Mode) : Factor → Evaluated Operand
  | .plain x => x.value m
  | .power x e => do
    let y ← x.value m
    let z ← e.value m
    return .computed (← ofArithmetic (y.quantity.pow z.quantity))

def Signed.value (m : Mode) : Signed → Evaluated Operand
  | .mk false x => x.value m
  | .mk true x => do return .computed (← x.value m).quantity.negate

def Term.value (m : Mode) : Term → Evaluated Operand
  | .mk x more => do more.value m (← x.value m)

/-- The value of a product whose first factors have the value `y`. -/
def Products.value (m : Mode) : Products → Operand → Evaluated Operand
  | .nil, y => .ok y
  | .cons joint x more, y => do
    let z ← x.value m
    more.value m (.computed (← ofArithmetic (joint.link.apply y.quantity z.quantity)))

def Expr.value (m : Mode) : Expr → Evaluated Operand
  | .mk x more => do more.value m (← x.value m)

/-- The value of a sum whose first terms have the value `y`. A percentage is taken of these. -/
def Sums.value (m : Mode) : Sums → Operand → Evaluated Operand
  | .nil, y => .ok y
  | .term subtracted x more, y => do
    let z ← x.value m
    more.value m (.computed (addSummand subtracted y.quantity z.quantity))
  | .percentage subtracted x more, y => do
    let z ← x.value
    more.value m (.computed (y.quantity.multiply (percentageFactor subtracted z.quantity)))

end

end Phrase

/-! ## §5 Continuations -/

/-- Whether the first of some tokens has a property. -/
def leads (p : Token → Bool) (ts : List Token) : Bool :=
  ts.head?.any p

/-- Whether a token is a suffix. -/
def isMark (t : Token) : Bool :=
  t.isSymbol .factorial || t.isSymbol .square || t.isSymbol .percent

/-- Whether a token goes on with a product: it is a multiplication or a division, or starts another
factor. -/
def continuesProduct (t : Token) : Bool :=
  t.isSymbol .times || t.isSymbol .divide || startsFactor t

/-- Whether a percentage of the running total comes next: a number and a percent sign, and then plus,
minus, a closing parenthesis or the end. -/
def percentageNext : List Token → Bool
  | x :: sign :: rest => !x.isOperator && sign.isSymbol .percent && rest.head?.all endsPercentage
  | _ => false

namespace Phrase

mutual

/-- A tree takes every optional continuation that the tokens behind it allow. A closing parenthesis is
missing only where no tokens are left. -/
def Unary.Greedy (rest : List Token) : Unary → Prop
  | .number _ | .pi | .euler => True
  | .root _ x => x.Greedy rest
  | .group x closed | .call _ _ x closed =>
    x.Greedy (closingTokens closed ++ rest) ∧ (closed = false → rest = [])

def Suffix.Greedy (rest : List Token) : Suffix → Prop
  | .mk x marks => x.Greedy (Mark.tokens marks ++ rest) ∧ leads isMark rest = false

def Factor.Greedy (rest : List Token) : Factor → Prop
  | .plain x => x.Greedy rest ∧ leads (Token.isSymbol .power) rest = false
  | .power x e => x.Greedy (.symbol .power :: (e.tokens ++ rest)) ∧ e.Greedy rest

def Signed.Greedy (rest : List Token) : Signed → Prop
  | .mk _ x => x.Greedy rest

def Term.Greedy (rest : List Token) : Term → Prop
  | .mk x more => x.Greedy (more.tokens ++ rest) ∧ more.Greedy rest

/-- Factors stand side by side only if the second one starts with a token that may follow a factor. -/
def Products.Greedy (rest : List Token) : Products → Prop
  | .nil => leads continuesProduct rest = false
  | .cons joint x more =>
    (joint = .nothing → leads startsFactor x.tokens = true)
      ∧ x.Greedy (more.tokens ++ rest) ∧ more.Greedy rest

def Expr.Greedy (rest : List Token) : Expr → Prop
  | .mk x more => x.Greedy (more.tokens ++ rest) ∧ more.Greedy rest

/-- A number with a percent sign is a percentage of the running total exactly if the tokens behind it
say so. -/
def Sums.Greedy (rest : List Token) : Sums → Prop
  | .nil => leads Buffer.isAdditive rest = false
  | .term _ x more =>
    percentageNext (x.tokens ++ (more.tokens ++ rest)) = false
      ∧ x.Greedy (more.tokens ++ rest) ∧ more.Greedy rest
  | .percentage _ x more =>
    percentageNext (x.token :: .symbol .percent :: (more.tokens ++ rest)) = true ∧ more.Greedy rest

end

end Phrase

end Reckoner.Evaluation
