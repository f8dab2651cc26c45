/-!
# Keys

What can be pressed: digits, the decimal point, and the operator keys. Every key has a number, by
which it is named outside the library and in saved expressions; the numbers are fixed.

- `Symbol` is an operator key of the catalogue;
- `Operator` is a symbol, or a number that names no symbol;
- `Key` is anything that can be pressed.

Function keys carry their open parenthesis.
-/

namespace Reckoner

/-! ## §1 Symbols -/

/-- The operator keys. -/
inductive Symbol where
  | plus
  | minus
  | times
  | divide
  | power
  | sqrt
  | factorial
  | square
  | percent
  | leftParen
  | rightParen
  | sin
  | cos
  | tan
  | arcsin
  | arccos
  | arctan
  | ln
  | log
  | exp
  | pi
  | euler
  deriving DecidableEq, Repr, Inhabited

namespace Symbol

/-- All symbols, in the order of their numbers. -/
def all : List Symbol :=
  [.plus, .minus, .times, .divide, .power, .sqrt, .factorial, .square, .percent, .leftParen,
    .rightParen, .sin, .cos, .tan, .arcsin, .arccos, .arctan, .ln, .log, .exp, .pi, .euler]

/-- The number of a symbol. -/
def code : Symbol → Nat
  | .plus => 20
  | .minus => 21
  | .times => 22
  | .divide => 23
  | .power => 24
  | .sqrt => 30
  | .factorial => 31
  | .square => 32
  | .percent => 33
  | .leftParen => 40
  | .rightParen => 41
  | .sin => 50
  | .cos => 51
  | .tan => 52
  | .arcsin => 53
  | .arccos => 54
  | .arctan => 55
  | .ln => 56
  | .log => 57
  | .exp => 58
  | .pi => 60
  | .euler => 61

/-- The symbol with a number. -/
def ofCode? (n : Int) : Option Symbol :=
  all.find? fun s => (s.code : Int) = n

/-- How a symbol is displayed. -/
def text : Symbol → String
  | .plus => "+"
  | .minus => "−"
  | .times => "×"
  | .divide => "÷"
  | .power => "^"
  | .sqrt => "√"
  | .factorial => "!"
  | .square => "²"
  | .percent => "%"
  | .leftParen => "("
  | .rightParen => ")"
  | .sin => "sin("
  | .cos => "cos("
  | .tan => "tan("
  | .arcsin => "sin⁻¹("
  | .arccos => "cos⁻¹("
  | .arctan => "tan⁻¹("
  | .ln => "ln("
  | .log => "log("
  | .exp => "exp("
  | .pi => "π"
  | .euler => "e"

/-- How a symbol is spoken, where its display text would be read wrongly. -/
def spoken? : Symbol → Option String
  | .factorial => some "factorial"
  | .square => some "squared"
  | .percent => some "percent"
  | .power => some "to the power of"
  | .sqrt => some "square root"
  | .minus => some "minus"
  | .sin => some "sine of"
  | .cos => some "cosine of"
  | .tan => some "tangent of"
  | .arcsin => some "inverse sine of"
  | .arccos => some "inverse cosine of"
  | .arctan => some "inverse tangent of"
  | .ln => some "natural log of"
  | .log => some "log of"
  | .exp => some "exponential of"
  | .leftParen => some "left paren"
  | .rightParen => some "right paren"
  | .pi => some "pi"
  | .plus | .times | .divide | .euler => none

/-- Symbols between two operands. -/
def isBinary : Symbol → Bool
  | .plus | .minus | .times | .divide | .power => true
  | _ => false

/-- Symbols that may start an operand: the square root and the leading minus. -/
def isLeading : Symbol → Bool
  | .sqrt | .minus => true
  | _ => false

/-- Symbols after an operand. -/
def isTrailing : Symbol → Bool
  | .factorial | .percent | .square => true
  | _ => false

/-- Functions of angles and their inverses. -/
def isTrigonometric : Symbol → Bool
  | .sin | .cos | .tan | .arcsin | .arccos | .arctan => true
  | _ => false

/-- Functions, which open a parenthesis. -/
def isFunction : Symbol → Bool
  | .ln | .log | .exp => true
  | s => s.isTrigonometric

end Symbol

/-! ## §2 Operators -/

/-- A symbol, or a number that names none. -/
inductive Operator where
  | listed (s : Symbol)
  | unlisted (n : Int) (h : Symbol.ofCode? n = none)
  deriving DecidableEq, Repr

namespace Operator

instance : Inhabited Operator := ⟨.listed default⟩

/-- The operator with a number. -/
def ofCode (n : Int) : Operator :=
  match h : Symbol.ofCode? n with
  | some s => .listed s
  | none => .unlisted n h

/-- The number of an operator. -/
def code : Operator → Int
  | .listed s => s.code
  | .unlisted n _ => n

/-- The symbol of an operator, if it has one. -/
def symbol? : Operator → Option Symbol
  | .listed s => some s
  | .unlisted .. => none

/-- Whether an operator is a symbol of a given kind. -/
def has (kind : Symbol → Bool) (o : Operator) : Bool :=
  o.symbol?.any kind

end Operator

/-! ## §3 Keys -/

/-- A key that can be pressed. -/
inductive Key where
  | digit (d : Fin 10)
  | point
  | symbol (s : Symbol)
  deriving DecidableEq, Repr, Inhabited

/-- A number that names no key, or a number that is no digit. -/
inductive KeyError where
  | unknownKey (n : Int)
  | notConstantKey (n : Int)
  | notDigit (n : Int)
  deriving DecidableEq, Repr, Inhabited

/-- The wording of a key error. -/
def KeyError.message : KeyError → String
  | .unknownKey n => "Unknown key id: " ++ toString n
  | .notConstantKey n => "Not a constant key: " ++ toString n
  | .notDigit n => "Not a decimal digit: " ++ toString n

namespace Key

/-- The number of the decimal point. -/
def pointCode : Nat := 10

/-- The digit with a number. -/
def digit? (n : Int) : Option (Fin 10) :=
  if h : 0 ≤ n ∧ n < 10 then some ⟨n.toNat, by omega⟩ else none

/-- The key with a number. -/
def ofCode? (n : Int) : Option Key :=
  match digit? n with
  | some d => some (.digit d)
  | none => if n = pointCode then some .point else (Symbol.ofCode? n).map .symbol

/-- The number of a key. -/
def code : Key → Nat
  | .digit d => d
  | .point => pointCode
  | .symbol s => s.code

/-- The number of the key for a digit value. -/
def codeForDigit (n : Int) : Except KeyError Int :=
  match digit? n with
  | some d => .ok d
  | none => .error (.notDigit n)

/-- How a key is displayed. -/
def text : Key → String
  | .digit d => toString d.val
  | .point => "."
  | .symbol s => s.text

/-- How a key is spoken, where its display text would be read wrongly. -/
def spoken? : Key → Option String
  | .digit _ => none
  | .point => some "point"
  | .symbol s => s.spoken?

/-- How the key with a number is displayed. -/
def textOfCode (n : Int) : Except KeyError String :=
  match ofCode? n with
  | some k => .ok k.text
  | none => .error (.unknownKey n)

/-- Whether the key with a number is a symbol of a given kind. -/
def codeHas (kind : Symbol → Bool) (n : Int) : Bool :=
  (Symbol.ofCode? n).any kind

end Key

end Reckoner
