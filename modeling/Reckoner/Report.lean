import Reckoner.Codec.Buffer
import Reckoner.Typing

/-!
# Reports

What is said about an expression that was evaluated: its short text, its approximate text and
whether the value is known to be rational, or what went wrong.

Syntax errors and arithmetic errors are reported. A number beyond conversion is no matter of the
expression and is not; only an isolated evaluation, which works on a saved copy, reports it as a
failure of its own. How such a failure is worded is left to the interpreter that runs the evaluation.
-/

namespace Reckoner

open Reckoner.Text (quoted)
open Reckoner.Codec

/-! ## §1 Reports -/

/-- The outcome of an evaluation. -/
structure Report where
  ok : Bool
  result : Option String
  approx : Option String
  exact : Option Bool
  error : Option String
  code : Option String
  deriving DecidableEq, Repr, Inhabited

namespace Report

/-- The report of a value. -/
def success (result approx : String) (exact : Bool) : Report :=
  ⟨true, some result, some approx, some exact, none, none⟩

/-- The report of an error. -/
def failure (error code : String) : Report :=
  ⟨false, none, none, none, some error, some code⟩

/-- A report with the fields that belong to its outcome, and with some wording of the error. -/
def normalized (r : Report) : Report :=
  if r.ok then ⟨true, r.result, r.approx, r.exact, none, none⟩
  else
    let error := match r.error with
      | none | some "" => "Unknown error"
      | some text => text
    ⟨false, none, none, none, some error, r.code⟩

/-- A text between quotes, or a word for there being none. -/
def describeText : Option String → String
  | some text => quoted text
  | none => "None"

/-- A report with its fields named. -/
def describe (r : Report) : String :=
  if r.ok then
    let field (name : String) (text : Option String) : List String :=
      (text.map fun t => name ++ "=" ++ t).toList
    "EvalResult(" ++ ", ".intercalate
      (field "ok" (some "True") ++ field "result" (r.result.map quoted)
        ++ field "approx" (r.approx.map quoted)
        ++ field "exact" (r.exact.map Literal.describeBool)) ++ ")"
  else
    "EvalResult(ok=False, error=" ++ describeText r.error
      ++ ", error_code=" ++ describeText r.code ++ ")"

/-! ## §2 Evaluating buffers -/

/-- The report of a quantity. -/
def ofQuantity (x : Quantity) : Evaluated Report := do
  let result ← (x.shortText Quantity.shortDigits).mapError fun _ => EvaluationError.tooManyDigits
  let approx ← (x.approximateText? Quantity.outputDigits).mapError fun _ => EvaluationError.tooManyDigits
  return success result approx x.isRational

/-- The report of a buffer. Errors name the buffer, which must have a display text for that. -/
def ofBuffer (b : Buffer) (degrees : Bool) : Evaluated Report :=
  let reported (message code : String) : Evaluated Report := do
    -- A buffer that cannot be displayed fails here, whatever was wrong with it before.
    let _ ← b.describe.mapError EvaluationError.undisplayable
    return failure message code
  match b.evaluate degrees with
  | .ok x => ofQuantity x.quantity
  | .error (.malformed e) => reported e.message SyntaxError.code
  | .error (.arithmetic e) => reported e.message e.code
  | .error e => .error e

/-- The report of a saved buffer in which stored results are nested less deeply than `room`. -/
def ofBytesWithin (room : Nat) (bytes : Bytes) (degrees : Bool) : Evaluated Report :=
  match loadWithin room bytes 0 with
  | .ok loaded => ofBuffer loaded.buffer degrees
  | .error (.format e) => .ok (failure e.message FormatError.code)
  | .error (.evaluation e) => .error e

/-- The report of a saved buffer. -/
def ofBytes (bytes : Bytes) (degrees : Bool) : Evaluated Report :=
  ofBytesWithin deepestStorage bytes degrees

/-! ## §3 Isolated evaluation -/

/-- The class of failures inside an isolated evaluation. -/
def isolatedCode : String := "WORKER_ERROR"

/-- The report of an isolated evaluation that met an error which is no matter of the expression. It says
nothing of the error, whose wording is the interpreter's. -/
def isolatedFailure : Report :=
  ⟨false, none, none, none, none, some isolatedCode⟩

/-- Why there is no report at all. -/
inductive Failure where
  | evaluation (e : EvaluationError)
  | writing (e : WriteError)
  deriving DecidableEq, Repr, Inhabited

/-- Evaluate a buffer here. -/
def evaluate (b : Buffer) (degrees : Bool) : Except Failure Report :=
  match ofBuffer b degrees with
  | .ok r => .ok r.normalized
  | .error e => .error (.evaluation e)

/-- Evaluate a saved copy of a buffer. A report of failure names the buffer. -/
def evaluateIsolated (b : Buffer) (degrees : Bool) : Except Failure Report := do
  let saved ← (saveWithin (some deepestWriting) b).mapError Failure.writing
  let report := match ofBytes saved.bytes degrees with
    | .ok r => r.normalized
    | .error _ => isolatedFailure
  if !report.ok then
    let _ ← b.describe.mapError fun e => Failure.evaluation (.undisplayable e)
  return report

/-! ## §4 Evaluating text -/

/-- The buffer that a text types. All keys of a text are known, so pressing them does not fail. -/
def bufferOfText (text : String) : Except Typing.TypingError Buffer := do
  match Buffer.ofKeys (← Typing.keysOf text) with
  | .ok b => return b
  | .error _ => return []

/-- The report of a text, evaluated here or isolated. -/
def ofText (text : String) (degrees isolated : Bool) : Except Failure Report :=
  match bufferOfText text with
  | .error e => .ok (failure e.message e.code)
  | .ok b => if isolated then evaluateIsolated b degrees else evaluate b degrees

/-! ## §5 Validity -/

/-- Whether a buffer is well formed, and what is wrong with it if not. Arithmetic errors do not
count. -/
def validity (b : Buffer) : Evaluated (Option String) :=
  match b.evaluate false with
  | .ok _ | .error (.arithmetic _) => .ok none
  | .error (.malformed e) => .ok (some e.message)
  | .error e => .error e

/-- Whether a text is a well formed expression, and what is wrong with it if not. -/
def validityOfText (text : String) : Evaluated (Option String) :=
  match bufferOfText text with
  | .error e => .ok (some e.message)
  | .ok b => validity b

end Report

end Reckoner
