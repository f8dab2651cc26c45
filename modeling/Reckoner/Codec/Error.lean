import Reckoner.Evaluation.Error
import Reckoner.Text.Quoted

/-!
# Errors of saving and loading

Why something cannot be written to bytes, and how bytes fail to be a saved expression.
-/

namespace Reckoner.Codec

open Reckoner.Text (quoted)

/-! ## §1 Writing -/

/-- Why something cannot be written. -/
inductive WriteError where
  | byteRange
  | integerRange (n : Int)
  | textTooLong
  | missingText
  | nestedTooDeeply
  deriving DecidableEq, Repr, Inhabited

/-- The wording of a write error, where it has one. -/
def WriteError.message? : WriteError → Option String
  | .integerRange n => some ("Value does not fit in 32 bits: " ++ toString n)
  | .textTooLong => some "String too long to serialize"
  | .byteRange | .missingText | .nestedTooDeeply => none

/-! ## §2 Reading -/

/-- How bytes fail to be what they should be. -/
inductive FormatError where
  | unexpectedEnd
  | invalidText
  | negativeCount (n : Int)
  | unknownOperator (n : Int)
  | unknownTag (n : Int)
  | invalidDigits (whole fraction : String)
  | fractionWithoutPoint
  | emptyLiteral
  | unexpectedIndex (n : Int)
  | unevaluable (index : Int) (cause : EvaluationError)
  | incomplete (index : Int)
  | nestedTooDeeply
  | trailingExpression
  | trailingSession
  | memoryNotSingle
  deriving DecidableEq, Repr, Inhabited

namespace FormatError

/-- The wording of a format error. -/
def message : FormatError → String
  | .unexpectedEnd => "Unexpected end of stream"
  | .invalidText => "Invalid string encoding"
  | .negativeCount n => "Negative token count: " ++ toString n
  | .unknownOperator n => "Unknown operator id: " ++ toString n
  | .unknownTag n => "Bad save file format: token tag " ++ toString n
  | .invalidDigits whole fraction =>
    "Invalid literal digits: " ++ quoted whole ++ "." ++ quoted fraction
  | .fractionWithoutPoint => "Literal fraction without decimal point"
  | .emptyLiteral => "Empty literal"
  | .unexpectedIndex n => "Unexpected subexpression index " ++ toString n
  | .unevaluable index _ =>
    "Stored subexpression " ++ toString index ++ " does not evaluate"
  | .incomplete index => "Stored subexpression " ++ toString index ++ " is incomplete"
  | .nestedTooDeeply => "Stored subexpressions nested too deeply"
  | .trailingExpression => "Trailing bytes after expression"
  | .trailingSession => "Trailing bytes after session state"
  | .memoryNotSingle => "Memory must hold a single stored result"

/-- The class of all format errors. -/
def code : String := "BAD_FORMAT"

end FormatError

/-- Why nothing was loaded: the bytes are no saved expression, or a stored result has a literal that
is beyond conversion. -/
inductive LoadError where
  | format (e : FormatError)
  | evaluation (e : EvaluationError)
  deriving DecidableEq, Repr, Inhabited

end Reckoner.Codec
