import Reckoner.Quantity.Text

/-!
# Values

A value is a quantity with an identity. Two values of equal quantity may still be different values;
saving a buffer writes a stored result in full once for each value, so what counts there is the
identity and not the quantity.

- `Constant` lists the quantities that exist once and for all;
- `Identity` says which constant a value is, or under which number it was first stored;
- `Operand` is what evaluation returns: a quantity that is already somebody's value, or a new one.
-/

namespace Reckoner

/-! ## §1 Constants -/

/-- The quantities that exist once and for all. -/
inductive Constant where
  | zero
  | one
  | ten
  | pi
  | euler
  | hundredth
  | radiansPerDegree
  deriving DecidableEq, Repr, Inhabited

/-- The quantity of a constant. -/
def Constant.quantity : Constant → Quantity
  | .zero => 0
  | .one => 1
  | .ten => 10
  | .pi => .pi
  | .euler => .euler
  | .hundredth => .ofRatio 1 100
  | .radiansPerDegree => .withCoefficient (mkRat 1 180) .pi

/-! ## §2 Values -/

/-- Which value a value is. -/
inductive Identity where
  | constant (c : Constant)
  | result (n : Nat)
  deriving DecidableEq, Repr, Inhabited

/-- A quantity with an identity. -/
structure Value where
  quantity : Quantity
  identity : Identity
  deriving DecidableEq, Repr, Inhabited

/-- The value of a constant. -/
def Constant.value (c : Constant) : Value :=
  ⟨c.quantity, .constant c⟩

/-! ## §3 Operands -/

/-- A quantity, with its identity if it is a value that was there before. -/
structure Operand where
  quantity : Quantity
  identity? : Option Identity
  deriving DecidableEq, Repr, Inhabited

namespace Operand

/-- A newly computed quantity. -/
def computed (q : Quantity) : Operand :=
  ⟨q, none⟩

/-- A value that was there before. -/
def ofValue (v : Value) : Operand :=
  ⟨v.quantity, some v.identity⟩

/-- The value of an operand; a new quantity is numbered `n`. -/
def keep (x : Operand) (n : Nat) : Value :=
  ⟨x.quantity, x.identity?.getD (.result n)⟩

/-- The square root. The root of zero is the constant zero. -/
def sqrt (q : Quantity) : Except ArithmeticError Operand :=
  if q.signum = 0 then .ok (.ofValue Constant.zero.value) else computed <$> q.sqrt

end Operand

end Reckoner
