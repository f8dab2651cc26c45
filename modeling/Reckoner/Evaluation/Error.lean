import Reckoner.Token

/-!
# Evaluation errors

Why an expression has no value: it does not follow the grammar, an operation on its quantities has
no result, or one of its literals is no number. Numbers with more digits than can be converted are
a literal, or the integer of a factorial that is still to be worked out.
-/

namespace Reckoner

/-- How an expression fails to follow the grammar. -/
inductive SyntaxError where
  | unexpectedEnd
  | unrecognizedToken
  | nestedTooDeeply
  | incompleteNumber
  | unparsed (position reach : Int)
  deriving DecidableEq, Repr, Inhabited

namespace SyntaxError

/-- The wording of a syntax error. -/
def message : SyntaxError → String
  | .unexpectedEnd => "Unexpected expression end"
  | .unrecognizedToken => "Unrecognized token in expression"
  | .nestedTooDeeply => "Expression nested too deeply"
  | .incompleteNumber => "Incomplete number"
  | .unparsed _ _ => "Failed to parse full expression"

/-- The class of all syntax errors. -/
def code : String := "SYNTAX_ERROR"

end SyntaxError

/-- Why an expression has no value. -/
inductive EvaluationError where
  | malformed (e : SyntaxError)
  | arithmetic (e : ArithmeticError)
  | notNumeric (text : String)
  | tooManyDigits
  | overlongFactorial
  | undisplayable (e : DisplayError)
  deriving DecidableEq, Repr, Inhabited

/-- What an evaluation returns. -/
abbrev Evaluated (α : Type) := Except EvaluationError α

namespace EvaluationError

/-- Fail with a syntax error. -/
def syntaxError {α : Type} (e : SyntaxError) : Evaluated α :=
  .error (.malformed e)

/-- Take over the failure of an arithmetic operation. -/
def ofArithmetic {α : Type} (x : Except ArithmeticError α) : Evaluated α :=
  x.mapError .arithmetic

/-- The error of a quantity without a factorial. -/
def ofFactorial : FactorialError → EvaluationError
  | .arithmetic e => .arithmetic e
  | .tooManyDigits => .overlongFactorial

/-- The error of a literal without a value. -/
def ofLiteral : LiteralError → EvaluationError
  | .incomplete => .malformed .incompleteNumber
  | .malformed text => .notNumeric text
  | .tooManyDigits => .tooManyDigits

end EvaluationError

end Reckoner
