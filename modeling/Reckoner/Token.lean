import Reckoner.Literal
import Reckoner.Value

/-!
# Tokens

What an expression is made of: a literal being typed, an operator, or the stored result of another
expression, which is kept together with that expression.

Tokens have texts to be displayed and to be spoken. An operator that is no key has none, and neither
has a stored result that was kept before its text was known.
-/

namespace Reckoner

/-! ## §1 Tokens -/

/-- How an expression is evaluated: whether angles are in degrees, and how many of its tokens
count. -/
structure Scope where
  degrees : Bool
  reach : Int
  deriving DecidableEq, Repr, Inhabited

/-- An element of an expression. A stored result has a number of its own, its value, the
expression it was computed from, the scope of that computation, and its display text. -/
inductive Token where
  | literal (l : Literal)
  | operator (o : Operator)
  | stored (number : Nat) (value : Value) (expr : List Token) (scope : Scope)
      (text : Option String)
  deriving Repr, Inhabited

/-- A sequence of tokens. -/
abbrev Buffer := List Token

namespace Token

/-- The token of a symbol. -/
def symbol (s : Symbol) : Token :=
  .operator (.listed s)

def isOperator : Token → Bool
  | .operator _ => true
  | _ => false

def isLiteral : Token → Bool
  | .literal _ => true
  | _ => false

/-- Whether a token is a symbol of a given kind. -/
def has (kind : Symbol → Bool) : Token → Bool
  | .operator o => o.has kind
  | _ => false

/-- Whether a token is the given symbol. -/
def isSymbol (s : Symbol) (t : Token) : Bool :=
  t.has (· = s)

/-! ## §2 Kinds -/

-- By these numbers saved expressions tell the kinds apart.

def literalTag : Nat := 0

def operatorTag : Nat := 1

def storedTag : Nat := 2

/-- The tag of a token. -/
def tag : Token → Nat
  | .literal _ => literalTag
  | .operator _ => operatorTag
  | .stored .. => storedTag

end Token

/-! ## §3 Texts -/

/-- Why a token cannot be displayed. -/
inductive DisplayError where
  | unknownKey (n : Int)
  | missingText
  deriving DecidableEq, Repr, Inhabited

namespace Token

/-- How an operator is displayed. -/
def operatorText (o : Operator) : Except DisplayError String :=
  match Key.ofCode? o.code with
  | some k => .ok k.text
  | none => .error (.unknownKey o.code)

/-- How a token is displayed. -/
def text : Token → Except DisplayError String
  | .literal l => .ok l.text
  | .operator o => operatorText o
  | .stored _ _ _ _ (some text) => .ok text
  | .stored _ _ _ _ none => .error .missingText

/-- How a token is spoken. -/
def spoken : Token → Except DisplayError String
  | .operator o =>
    match (Key.ofCode? o.code).bind Key.spoken? with
    | some text => .ok text
    | none => operatorText o
  | t => t.text

/-- Whether the text of a stored result shows its value only approximately; `none` for other
tokens. -/
def ellipsis? : Token → Option (Except DisplayError Bool)
  | .stored _ _ _ _ (some text) =>
    some (.ok (text.toList.any fun c => Quantity.ellipsis.toList.contains c))
  | .stored _ _ _ _ none => some (.error .missingText)
  | _ => none

/-- An operator with its number named. -/
def describeOperator (o : Operator) : String :=
  "Operator(id=" ++ toString o.code ++ ")"

end Token

end Reckoner
