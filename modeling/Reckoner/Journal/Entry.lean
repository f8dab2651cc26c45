import Reckoner.Journal.Level
import Reckoner.Report
import Reckoner.Session

/-!
# Journal entries

What the calculator notes down while it works: keys that were rejected, expressions that were
evaluated or could not be, bytes that were written and read.

Entries are told from what was done and how it came out, so the operations themselves know nothing
of the journal. A name that belongs in an entry but cannot be displayed makes the operation fail
before anything is noted.
-/

namespace Reckoner.Journal

open Reckoner.Codec

/-! ## §1 Entries -/

/-- The parts of the calculator that note things down. -/
inductive Part where
  | whole
  | api
  | expr
  | evaluator
  | serialization
  | session
  | worker
  deriving DecidableEq, Repr, Inhabited

/-- The name under which a part notes things down. -/
def Part.name : Part → String
  | .whole => "tokencalc"
  | .api => "tokencalc.api"
  | .expr => "tokencalc.expr"
  | .evaluator => "tokencalc.evaluator"
  | .serialization => "tokencalc.serialization"
  | .session => "tokencalc.session"
  | .worker => "tokencalc.worker"

/-- Something noted down. -/
structure Entry where
  level : Level
  part : Part
  message : String
  deriving DecidableEq, Repr, Inhabited

/-- A line of a journal, without the time. -/
def line (level : Level) (name message : String) : String :=
  "[" ++ level.text ++ "] " ++ name ++ ": " ++ message

/-- The line of an entry. -/
def Entry.line (e : Entry) : String :=
  Journal.line e.level e.part.name e.message

/-- Whether a journal of a level shows an entry. -/
def Entry.shownAt (e : Entry) (level : Level) : Bool :=
  level.threshold ≤ e.level

/-- The version that is noted when a journal is opened. -/
def version : String := "0.1.0"

/-- A journal was opened. -/
def opened : Entry :=
  ⟨Level.debug, .api, "tokencalc " ++ version ++ " logging configured"⟩

/-- A buffer as entries name it. -/
def nameOf (b : Buffer) : String :=
  match b.describe with
  | .ok name => name
  | .error _ => ""

/-! ## §2 Keys -/

/-- The last token of a buffer as entries name it. -/
def lastOf (b : Buffer) : String :=
  match b.getLast? with
  | none => "None"
  | some (.operator o) => Token.describeOperator o
  | some (.literal l) => l.describe
  | some (.stored ..) => ""

/-- A buffer rejected the key with a number. -/
def rejected (b : Buffer) (n : Int) : Entry :=
  let message :=
    match Key.ofCode? n, b.getLast? with
    | some (.symbol _), _ =>
      "Rejected binary operator " ++ toString n ++ " after " ++ lastOf b
    | _, some (.literal l) => "Rejected key " ++ toString n ++ " for literal " ++ l.text
    | _, _ => "Rejected key " ++ toString n ++ " for literal "
  ⟨Level.debug, .expr, message⟩

/-- The key with a number was pressed. -/
def ofPress (b : Buffer) (n : Int) : List Entry :=
  match b.pressEdit n with
  | .ok none => [rejected b n]
  | _ => []

/-- Keys were pressed in turn, and rejected ones skipped. -/
def ofKeys (b : Buffer) : List Int → List Entry
  | [] => []
  | n :: ns =>
    match b.press n with
    | .ok (true, b) => ofKeys b ns
    | .ok (false, b) =>
      let ignored := "Ignored key " ++ toString n ++ " after " ++ nameOf b
      rejected b n :: ⟨Level.debug, .api, ignored⟩ :: ofKeys b ns
    | .error _ => []

/-! ## §3 Evaluation -/

/-- A buffer was evaluated. -/
def ofEvaluation {α : Type} (b : Buffer) : Evaluated α → List Entry
  | .error (.malformed (.unparsed position reach)) =>
    [⟨Level.debug, .evaluator,
      "Parsed " ++ toString position ++ " of " ++ toString reach ++ " tokens in " ++ nameOf b⟩]
  | _ => []

/-- A buffer was evaluated for a report. -/
def ofReport {α : Type} (b : Buffer) (outcome : Evaluated α) : List Entry :=
  let problem (kind message : String) : List Entry :=
    match b.describe with
    | .ok name => [⟨Level.debug, .worker, kind ++ " error in " ++ name ++ ": " ++ message⟩]
    | .error _ => []
  ofEvaluation b outcome ++ match outcome with
    | .error (.malformed e) => problem "Syntax" e.message
    | .error (.arithmetic e) => problem "Arithmetic" e.message
    | _ => []

/-- A report was given on a buffer. -/
def ofReported (b : Buffer) (report : Report) : List Entry :=
  if report.ok then []
  else
    [⟨Level.warning, .api,
      "Evaluation of " ++ nameOf b ++ " failed: " ++ report.error.getD "None"⟩]

/-- A text could not be typed. -/
def ofTypingError (e : Typing.TypingError) : Entry :=
  ⟨Level.warning, .api, "Rejected input: " ++ e.message⟩

/-! ## §4 Saving and loading -/

/-- Tokens and shared results as entries count them. -/
def counts (tokens shared : Nat) : String :=
  toString tokens ++ " tokens, " ++ toString shared ++ " shared results"

/-- A buffer was saved. -/
def ofSave (b : Buffer) (saved : Saved) : Entry :=
  ⟨Level.debug, .serialization, "Wrote " ++ counts b.length saved.shared⟩

/-- What an error says that kept a stored result from being evaluated. -/
def causeOf : EvaluationError → String
  | .malformed e => e.message
  | .arithmetic e => e.message
  | .notNumeric _ | .tooManyDigits | .overlongFactorial | .undisplayable _ => ""

/-- Bytes could not be read. -/
def ofLoadError : LoadError → List Entry
  | .format (.unevaluable index cause) =>
    [⟨Level.error, .serialization,
      (FormatError.unevaluable index cause).message ++ ": " ++ causeOf cause⟩]
  | _ => []

/-- Bytes were loaded. -/
def ofLoad : Except LoadError Loaded → List Entry
  | .ok loaded =>
    [⟨Level.debug, .serialization, "Read " ++ counts loaded.buffer.length loaded.shared⟩]
  | .error e => ofLoadError e

/-- Saved bytes were refused. -/
def corrupt (e : FormatError) : Entry :=
  ⟨Level.warning, .worker, "Corrupt payload: " ++ e.message⟩

/-- A report was given on saved bytes. -/
def ofBytes (bytes : Bytes) (degrees : Bool) : List Entry :=
  let outcome := load bytes 0
  ofLoad outcome ++ match outcome with
    | .ok loaded => ofReport loaded.buffer (loaded.buffer.evaluate degrees)
    | .error (.format e) => [corrupt e]
    | .error (.evaluation _) => []

/-! ## §5 Sessions -/

/-- A text that may be missing. -/
def textOf : Option String → String
  | some text => text
  | none => "None"

/-- The expression of a session was evaluated, unless there was a current result. -/
def ofSessionEvaluation (s : Session) : List Entry :=
  if s.result.isSome then []
  else
    match s.evaluate with
    | (.ok _, after) =>
      [⟨Level.debug, .session,
        "Evaluated " ++ nameOf s.expr ++ " to " ++ textOf after.resultText⟩]
    | (.error e, _) => ofEvaluation s.expr (.error e : Evaluated Unit)

/-- The text of what memory holds. -/
def memoryText (s : Session) : String :=
  match s.memory with
  | some [.stored _ _ _ _ text] => textOf text
  | _ => ""

/-- The memory of a session was changed. -/
def ofMemoryChange (s : Session) (change : Session.MemoryChange) : List Entry :=
  ofSessionEvaluation s ++ match s.updateMemory change with
    | (.ok (), after) => [⟨Level.debug, .session, "Memory now " ++ memoryText after⟩]
    | (.error _, _) => []

end Reckoner.Journal
