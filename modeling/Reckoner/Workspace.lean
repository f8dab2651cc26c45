import Reckoner.Buffer.Edit
import Reckoner.Evaluation.Basic

/-!
# Workspaces

Several named buffers that share their tokens. Putting one buffer behind another does not copy
anything, so a literal at the end of one may stand in others too, and editing it there edits it
everywhere. Copies and snapshots have literals of their own.

- A `Slot` names a token: a literal by its cell, a stored result by its number;
- a `Workspace` holds the contents of all cells, the stored results in the order in which they were
  made, and the slots of each buffer;
- `view` shows a buffer as tokens. Every operation is worked out on the view, and the resulting
  `Edit` is carried out on the cells.
-/

namespace Reckoner

/-! ## §1 Slots and cells -/

/-- A token of a workspace. -/
inductive Slot where
  | literal (cell : Nat)
  | operator (o : Operator)
  | stored (number : Nat)
  deriving DecidableEq, Repr, Inhabited

/-- A stored result of a workspace. -/
structure Snapshot where
  value : Value
  expr : List Slot
  scope : Scope
  text : Option String
  deriving Repr, Inhabited

/-- Named buffers, the contents of their literals, and the stored results, the latest first. -/
structure Workspace where
  cells : List Literal
  snapshots : List (Nat × Snapshot)
  buffers : List (String × List Slot)
  next : Nat
  deriving Repr, Inhabited

namespace Workspace

/-- A workspace without buffers. -/
def empty : Workspace :=
  ⟨[], [], [], 0⟩

/-! ## §2 Views -/

/-- The token in a slot, given the stored results. -/
def tokenOf (cells : List Literal) (results : List (Nat × Token)) : Slot → Token
  | .literal cell => .literal (cells.getD cell .empty)
  | .operator o => .operator o
  | .stored n => (results.lookup n).getD default

/-- The stored results as tokens. One that was made later may hold earlier ones. -/
def results (cells : List Literal) : List (Nat × Snapshot) → List (Nat × Token)
  | [] => []
  | (n, s) :: earlier =>
    let known := results cells earlier
    (n, .stored n s.value (s.expr.map (tokenOf cells known)) s.scope s.text) :: known

/-- Slots as tokens. -/
def viewSlots (w : Workspace) (slots : List Slot) : Buffer :=
  slots.map (tokenOf w.cells (results w.cells w.snapshots))

/-- The slots of a buffer; one that was never used is empty. -/
def slots (w : Workspace) (name : String) : List Slot :=
  (w.buffers.lookup name).getD []

/-- A buffer as tokens. -/
def view (w : Workspace) (name : String) : Buffer :=
  w.viewSlots (w.slots name)

/-- Give a buffer new slots. -/
def setSlots (w : Workspace) (name : String) (slots : List Slot) : Workspace :=
  let replace : String × List Slot → String × List Slot := fun (n, old) =>
    (n, if n = name then slots else old)
  if w.buffers.any fun entry => entry.1 = name then
    { w with buffers := w.buffers.map replace }
  else { w with buffers := w.buffers ++ [(name, slots)] }

/-- Make sure that there is a buffer with a name. -/
def touch (w : Workspace) (name : String) : Workspace :=
  w.setSlots name (w.slots name)

/-! ## §3 Taking tokens in -/

def newCell (w : Workspace) (l : Literal) : Workspace × Slot :=
  ({ w with cells := w.cells ++ [l] }, .literal w.cells.length)

mutual

/-- The slot of a token. Literals get cells of their own, and a stored result is taken in once. -/
def adoptToken (w : Workspace) : Token → Workspace × Slot
  | .literal l => w.newCell l
  | .operator o => (w, .operator o)
  | .stored n value expr scope text =>
    -- A stored result that is there already keeps its contents.
    if (w.snapshots.lookup n).isSome then (w, .stored n)
    else
      let (w, slots) := adopt w expr
      ({ w with snapshots := (n, ⟨value, slots, scope, text⟩) :: w.snapshots }, .stored n)

/-- The slots of tokens. -/
def adopt (w : Workspace) : List Token → Workspace × List Slot
  | [] => (w, [])
  | t :: ts =>
    let (w, slot) := adoptToken w t
    let (w, slots) := adopt w ts
    (w, slot :: slots)

end

/-- Give a buffer new tokens, whose stored results are numbered below `next`. -/
def put (w : Workspace) (name : String) (b : Buffer) (next : Nat) : Workspace :=
  let (w, slots) := w.adopt b
  { w.setSlots name slots with next }

/-! ## §4 Editing -/

/-- Give the literal in a slot new contents, wherever it stands. -/
def revise (w : Workspace) : Option Slot → Option Literal → Workspace
  | some (.literal cell), some l => { w with cells := w.cells.set cell l }
  | _, _ => w

/-- Carry out an edit on a buffer. -/
def edit (w : Workspace) (name : String) (e : Edit) : Workspace :=
  -- The cell at the end is revised first, and then possibly dropped.
  let slots := w.slots name
  let (w, pushed) := (w.revise slots.getLast? e.revised).adopt e.push
  w.setSlots name (slots.take e.keep ++ pushed)

/-- Press the key with a number: whether it was accepted, and the workspace after. -/
def press (w : Workspace) (name : String) (n : Int) : Except KeyError (Bool × Workspace) := do
  match ← (w.view name).pressEdit n with
  | some e => return (true, w.edit name e)
  | none => return (false, w)

/-- Set the exponent of the literal at the end: whether there was one, and the workspace after. -/
def setExponent (w : Workspace) (name : String) (e : Int) : Bool × Workspace :=
  match (w.view name).exponentEdit e with
  | some e => (true, w.edit name e)
  | none => (false, w)

def delete (w : Workspace) (name : String) : Workspace :=
  w.edit name (w.view name).deleteEdit

/-- Remove plus and minus signs at the end. -/
def stripAdditive (w : Workspace) (name : String) : Workspace :=
  w.edit name (w.view name).stripEdit

def clear (w : Workspace) (name : String) : Workspace :=
  w.setSlots name []

/-- Put the tokens of another buffer behind, without copying them. A multiplication sign goes
between two operands; it is in place when the other buffer is read, which may be the same one. -/
def append (w : Workspace) (name other : String) : Workspace :=
  let (w, joint) := w.adopt ((w.view name).joint (w.view other))
  -- The slots of the other buffer are read only now, as it may be the same one.
  let w := w.setSlots name (w.slots name ++ joint)
  w.setSlots name (w.slots name ++ w.slots other)

/-! ## §5 Copies -/

/-- Copy slots, with literals of their own. -/
def copySlots (w : Workspace) : List Slot → Workspace × List Slot
  | [] => (w, [])
  | slot :: rest =>
    let (w, copied) := match slot with
      | .literal cell => w.newCell (w.cells.getD cell .empty)
      | slot => (w, slot)
    let (w, slots) := copySlots w rest
    (w, copied :: slots)

/-- Make a buffer a copy of another one. -/
def clone (w : Workspace) (name other : String) : Workspace :=
  let (w, slots) := w.copySlots (w.slots other)
  w.setSlots name slots

/-- Make a buffer the stored result that stands for another one. -/
def abbreviate (w : Workspace) (name other : String) (x : Operand) (degrees : Bool)
    (text : String) : Workspace :=
  let (w, slots) := w.copySlots (w.slots other)
  let n := w.next
  let snapshot : Snapshot := ⟨x.keep n, slots, ⟨degrees, slots.length⟩, some text⟩
  { w with snapshots := (n, snapshot) :: w.snapshots, next := n + 1 }.setSlots name [.stored n]

end Workspace

end Reckoner
