import Reckoner.Buffer.Basic
import Reckoner.Evaluation.Grammar

/-!
# Evaluation

The value of a buffer. `evaluatePrefix` reads the tokens in scope as far as the grammar goes and
says where it stopped; `evaluate` leaves out the binary operators at the end and wants all other
tokens to be read.
-/

namespace Reckoner.Buffer

open Reckoner.Evaluation

/-- Operands may be nested this deeply. -/
def deepestNesting : Nat := 64

/-- The tokens that a scope takes from a buffer. -/
def window (b : Buffer) (s : Scope) : List Token :=
  b.take s.reach.toNat

/-- How a scope reads a buffer. -/
def mode (b : Buffer) (s : Scope) : Mode :=
  ⟨s.degrees, b.length < s.reach⟩

/-- Evaluate the tokens in scope: where reading stopped, and the value. -/
def evaluatePrefix (b : Buffer) (s : Scope) : Evaluated (Nat × Operand) := do
  let m := b.mode s
  let (x, rest) ← expr m (readers m deepestNesting) (b.window s)
  return ((b.window s).length - rest.length, x)

/-- Evaluate a buffer without the binary operators at its end. The report that not all tokens were
read names the buffer, so a buffer that cannot be displayed fails for that reason instead. -/
def evaluate (b : Buffer) (degrees : Bool) : Evaluated Operand := do
  let (position, x) ← b.evaluatePrefix ⟨degrees, b.binaryStart⟩
  if position = b.binaryStart then return x
  else
    let _ ← b.describe.mapError EvaluationError.undisplayable
    .error (.malformed (.unparsed position b.binaryStart))

end Reckoner.Buffer
