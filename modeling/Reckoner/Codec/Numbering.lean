import Reckoner.Codec.Error

/-!
# Numbering of stored results

A saved expression holds every stored result in full once; from then on only its number is written.
Numbers are 1, 2, 3 and so on, in the order in which the full records begin.

- `Issued` is kept while writing: which values have been written, under which numbers. A number is
  reserved when a record begins, and bound to its value when the record is complete, so that no
  record refers to itself.
- `Received` is kept while reading: what was rebuilt for each number, and the highest number so far.
-/

namespace Reckoner.Codec

/-! ## §1 Writing -/

/-- Which values have been written, the latest first, and how many numbers have been given out. -/
structure Issued (κ : Type) where
  bound : List (κ × Int)
  count : Nat
  deriving Repr, Inhabited

namespace Issued

variable {κ : Type}

/-- Nothing has been written. -/
def empty : Issued κ :=
  ⟨[], 0⟩

/-- The number under which a value was written. -/
def lookup [BEq κ] (t : Issued κ) (k : κ) : Option Int :=
  t.bound.lookup k

/-- Give out the next number. -/
def reserve (t : Issued κ) : Int × Issued κ :=
  (t.count + 1, { t with count := t.count + 1 })

/-- Let later occurrences of a value refer to a number. -/
def bind (t : Issued κ) (k : κ) (n : Int) : Issued κ :=
  { t with bound := (k, n) :: t.bound }

end Issued

/-! ## §2 Reading -/

/-- What was rebuilt for each number, the latest first, and the highest number so far. -/
structure Received (τ : Type) where
  rebuilt : List (Int × τ)
  highest : Int
  deriving Repr, Inhabited

namespace Received

variable {τ : Type}

/-- Nothing has been read. -/
def empty : Received τ :=
  ⟨[], 0⟩

/-- What was rebuilt for a number. -/
def get (t : Received τ) (n : Int) : Option τ :=
  t.rebuilt.lookup n

/-- Accept the number of a new record, which must be the next one. -/
def claim (t : Received τ) (n : Int) : Except FormatError (Received τ) :=
  if n = t.highest + 1 then .ok { t with highest := n } else .error (.unexpectedIndex n)

/-- Remember what was rebuilt for a number. -/
def put (t : Received τ) (n : Int) (x : τ) : Received τ :=
  { t with rebuilt := (n, x) :: t.rebuilt.filter fun entry => entry.1 ≠ n }

/-- How many numbers something was rebuilt for. -/
def size (t : Received τ) : Nat :=
  t.rebuilt.length

end Received

end Reckoner.Codec
