import Reckoner.Proofs.Evaluation.Lockstep

/-!
# Stored results and groups

A stored result stands for an expression in parentheses of the same value, wherever the two stand. There
are two runs of the same readers, one on tokens with the stored result in them and one with the group in its
place. They go on alike until one of them meets the hole, and behind it they read the same tokens. Only the
group takes room for nesting, so the second run may find that there is too little of it.

- `Abbreviation` is a stored result with its group and what is behind, and `Abbreviation.Facing` relates the
  tokens of both runs, before the hole and behind it;
- `Matches` relates what the two runs return;
- `Abbreviation.lockstep`: tokens that face each other keep the two runs in lockstep, and `expr_facing` says
  what follows for sums.
-/

namespace Reckoner.Evaluation

open EvaluationError (syntaxError ofArithmetic ofLiteral)

/-! ## §1 Two runs -/

/-- A stored result and a group of the same value, with the tokens behind them. -/
structure Abbreviation (m : Mode) where
  number : Nat
  value : Value
  expr : Buffer
  scope : Scope
  text : Option String
  group : List Token
  rest : List Token
  result : Operand
  height : Nat
  reads : ∀ room, (readers m room).unary (.symbol .leftParen :: (group ++ rest))
    = within room height (result, rest)
  quantity_eq : value.quantity = result.quantity

/-- What two runs return: values in a relation, or the same error. The second run may find that there is
too little room for nesting. -/
inductive Matches {α β : Type} (R : α → β → Prop) : Evaluated α → Evaluated β → Prop where
  | ok {a : α} {b : β} (h : R a b) : Matches R (.ok a) (.ok b)
  | error (e : EvaluationError) : Matches R (.error e) (.error e)
  | deeper (x : Evaluated α) : Matches R x (syntaxError .nestedTooDeeply)

namespace Matches

variable {α β : Type} {R : α → β → Prop}

/-- A weaker relation. -/
theorem mono {R' : α → β → Prop} {x : Evaluated α} {y : Evaluated β} (h : Matches R x y)
    (hR : ∀ a b, R a b → R' a b) : Matches R' x y := by
  cases h with
  | ok hab => exact .ok (hR _ _ hab)
  | error e => exact .error e
  | deeper x => exact .deeper x

/-- Where the second run finds room, both return the same error, or values in the relation. -/
theorem corresponds {x : Evaluated α} {y : Evaluated β} (h : Matches R x y)
    (hroom : y ≠ syntaxError .nestedTooDeeply) : Corresponds R x y := by
  cases h with
  | ok hab => exact .ok hab
  | error e => exact .error e
  | deeper x => exact absurd rfl hroom

end Matches

/-- Runs in lockstep return what matches. -/
theorem Paired.matches {α β : Type} {deeper : Prop} {R : α → β → Prop} {x : Evaluated α} {y : Evaluated β}
    (h : Paired deeper R x y) : Matches R x y := by
  cases h with
  | ok hab => exact .ok hab
  | error e => exact .error e
  | deeper _ x => exact .deeper x

namespace Abbreviation

variable {m : Mode} (a : Abbreviation m)

/-- The stored result. -/
def token : Token :=
  .stored a.number a.value a.expr a.scope a.text

/-- Tokens of the two runs: up to the hole they are the same, and percentages of the running total are, too.
There the first run has the stored result, the second one the group, and both have the same tokens
behind. -/
inductive Facing : List Token → List Token → Prop where
  | nil : Facing [] []
  | cons (t : Token) {ts us : List Token} (h : Facing ts us)
      (hpercentage : Buffer.isAdditive t = true → percentageNext ts = percentageNext us) :
      Facing (t :: ts) (t :: us)
  | hole : Facing (a.token :: a.rest) (.symbol .leftParen :: (a.group ++ a.rest))

/-- Values that were read alike, with the tokens behind them. -/
def FacingRead : Operand × List Token → Operand × List Token → Prop
  | (x, ts), (y, us) => x.quantity = y.quantity ∧ a.Facing ts us

/-! ## §2 Lockstep -/

theorem Facing.refl (ts : List Token) : a.Facing ts ts := by
  induction ts with
  | nil => exact .nil
  | cons t ts ih => exact .cons t ih fun _ => rfl

/-- At the hole the first run reads the stored result, and the second one the group. -/
theorem unary_hole (room : Nat) : Paired True (Alike a.Facing)
    ((readers m room).unary (a.token :: a.rest))
    ((readers m room).unary (.symbol .leftParen :: (a.group ++ a.rest))) := by
  cases room with
  | zero => exact .error _
  -- The group takes its height of the room, where the stored result takes one level.
  | succ room =>
    -- If there is no room for the group, the second run stops here, and the first one goes on.
    rw [a.reads, within]
    split
    · exact .ok ⟨a.quantity_eq, .refl a _⟩
    · exact .deeper trivial _

/-- Tokens that face each other keep two runs in lockstep, up to the hole and behind it. -/
def lockstep : Lockstep m where
  deeper := True
  front := a.Facing
  behind := a.Facing
  front_cases := by
    intro ts us h
    cases h with
    -- Both runs are at their end, where no operand is read.
    | nil =>
      refine .inr ⟨⟨rfl, rfl, .none⟩, fun room => ?_⟩
      cases room <;> exact .error _
    | cons t h hpercentage => exact .inl (.intro t (fun _ => h) (fun _ => h) hpercentage)
    -- The hole begins a factor on both sides, which is read alike.
    | hole => exact .inr ⟨⟨rfl, rfl, .some ⟨rfl, .hole⟩⟩, a.unary_hole⟩
  behind_cases := .inl

end Abbreviation

/-- Sums are read alike, up to the room that the group takes. -/
theorem expr_facing {m : Mode} {a : Abbreviation m} (hm : m.beyond = false) (room : Nat)
    {ts us : List Token} (h : a.Facing ts us) :
    Matches a.FacingRead (expr m (readers m room) ts) (expr m (readers m room) us) :=
  (expr_alike (L := a.lockstep) hm (readers_alike hm room) h).matches

end Reckoner.Evaluation
