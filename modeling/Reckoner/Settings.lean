import Reckoner.Text.Numeral
import Reckoner.Text.Quoted

/-!
# Settings

The limits and defaults of the calculator, and how variables of the environment change them. Each
setting has its own variable; the first variable that does not parse is an error.
-/

namespace Reckoner

open Reckoner.Text
open Reckoner.Decimal (Binary64)

/-- The settings, in the order in which their variables are read. -/
structure Settings where
  maxExponentMagnitude : Int
  maxEvalDepth : Int
  factorialMaxBits : Int
  maxExactExponent : Int
  numericPrecision : Int
  compareTolerance : Binary64
  shortTargetLength : Int
  outputPrecision : Int
  maxInputLength : Int
  workerTimeout : Binary64
  workerCpuSeconds : Int
  logLevel : String
  logFile : Option String
  deriving DecidableEq, Repr, Inhabited

/-- Why a variable does not parse. -/
inductive SettingError where
  | notAnInteger (text : String)
  | notAReal (text : String)
  | tooManyDigits
  deriving DecidableEq, Repr, Inhabited

namespace SettingError

/-- The wording of a setting error, where it has one. -/
def message? : SettingError → Option String
  | .notAnInteger text => some (malformedInteger text)
  | .notAReal text => some ("could not convert string to float: " ++ quoted text)
  | .tooManyDigits => none

end SettingError

namespace Settings

/-- Look a variable up. -/
abbrev Environment := List (String × String)

/-- Read a variable as an integer. -/
def integer (env : Environment) (name default : String) : Except SettingError Int :=
  let text := (env.lookup name).getD default
  match readInt text with
  | .ok n => .ok n
  | .error .malformed => .error (.notAnInteger text)
  | .error .tooManyDigits => .error .tooManyDigits

/-- Read a variable as a real number. -/
def real (env : Environment) (name default : String) : Except SettingError Binary64 :=
  let text := (env.lookup name).getD default
  match readReal? text with
  | some x => .ok x
  | none => .error (.notAReal text)

/-- The settings that an environment makes. -/
def ofEnvironment (env : Environment) : Except SettingError Settings := do
  -- In this order the variables are read, and the first that does not parse is reported.
  return {
    maxExponentMagnitude := ← integer env "MAX_EXPONENT_MAGNITUDE" "10000"
    maxEvalDepth := ← integer env "MAX_EVAL_DEPTH" "64"
    factorialMaxBits := ← integer env "FACTORIAL_MAX_BITS" "20"
    maxExactExponent := ← integer env "MAX_EXACT_EXPONENT" "100000"
    numericPrecision := ← integer env "NUMERIC_PRECISION" "50"
    compareTolerance := ← real env "COMPARE_TOLERANCE" "1e-40"
    shortTargetLength := ← integer env "SHORT_TARGET_LENGTH" "8"
    outputPrecision := ← integer env "OUTPUT_PRECISION" "15"
    maxInputLength := ← integer env "MAX_INPUT_LENGTH" "10000"
    workerTimeout := ← real env "WORKER_TIMEOUT" "15"
    workerCpuSeconds := ← integer env "WORKER_CPU_SECONDS" "30"
    logLevel := (env.lookup "LOG_LEVEL").getD "WARNING"
    logFile := (env.lookup "LOG_FILE").bind fun file => if file.isEmpty then none else some file
  }

end Settings

end Reckoner
