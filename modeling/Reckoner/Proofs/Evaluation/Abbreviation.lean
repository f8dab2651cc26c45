import Reckoner.Proofs.Buffer.Continuation
import Reckoner.Proofs.Buffer.Soundness
import Reckoner.Proofs.Evaluation.Agreement
import Reckoner.Proofs.Evaluation.Substitution

/-!
# Abbreviations

A buffer that is read as a whole may be put in parentheses anywhere in another buffer, with what it leaves
open closed; and a stored result of its value may stand there instead. One place is different: behind a plus
or a minus, a stored result with a percent sign may be a percentage of the running total, and a group never
is.

- `SameOutcome` relates what is reported of two evaluations;
- `evaluate_eq` says what evaluating a buffer is, in terms of the readers of the grammar;
- `Phrase.Expr.all_isListed`: what is read has no operator that is no key, so it can be displayed if the
  stored results in it can;
- `sameOutcome_grouped` is the exchange for any buffer that is read as a whole, and
  `sameOutcome_abbreviation_iff` for one that leaves nothing open, with the one case in which the reports
  are not the same.
-/

namespace Reckoner

open EvaluationError (syntaxError ofArithmetic ofLiteral)

/-! ## §1 Outcomes -/

/-- Errors that are reported alike: the positions that a syntax error may name are no part of its wording. -/
def SameReport : EvaluationError → EvaluationError → Prop
  | .malformed e, .malformed e' => e.message = e'.message
  | e, e' => e = e'

theorem SameReport.refl (e : EvaluationError) : SameReport e e := by
  cases e <;> rfl

/-- Evaluations with the same value, or with errors that are reported alike. -/
inductive SameOutcome : Evaluated Quantity → Evaluated Quantity → Prop where
  | ok (q : Quantity) : SameOutcome (.ok q) (.ok q)
  | error {e e' : EvaluationError} (h : SameReport e e') : SameOutcome (.error e) (.error e')

theorem SameOutcome.refl (x : Evaluated Quantity) : SameOutcome x x := by
  cases x with
  | ok q => exact .ok q
  | error e => exact .error (.refl e)

/-! ## §2 Buffers -/

namespace Buffer

open Reckoner.Evaluation

/-- The value of a buffer as a quantity. -/
def quantity (b : Buffer) (degrees : Bool) : Evaluated Quantity :=
  Operand.quantity <$> b.evaluate degrees

/-- A buffer that is read as a whole leaves no tokens behind. -/
theorem evaluatePrefix_eq_ok_iff {b : Buffer} {degrees : Bool} {x : Operand} :
    b.evaluatePrefix ⟨degrees, b.length⟩ = .ok (b.length, x)
      ↔ expr ⟨degrees, false⟩ (readers ⟨degrees, false⟩ deepestNesting) b = .ok (x, []) := by
  have hwindow : b.window ⟨degrees, b.length⟩ = b := by
    simp only [window, Int.toNat_natCast, List.take_length]
  have hmode : b.mode ⟨degrees, b.length⟩ = ⟨degrees, false⟩ := by simp [mode]
  simp only [evaluatePrefix, hwindow, hmode]
  cases hread : expr ⟨degrees, false⟩ (readers ⟨degrees, false⟩ deepestNesting) b with
  | error e => exact iff_of_false (fun h => by cases h) (fun h => by cases h)
  | ok p =>
    obtain ⟨y, rest⟩ := p
    -- The reader takes tokens from the front, so that it got to the end says that nothing is left.
    obtain ⟨t, htokens, -⟩ := of_expr_ok rfl (readTrees rfl deepestNesting) hread
    have hlength : b.length = t.tokens.length + rest.length := by rw [htokens, List.length_append]
    constructor
    · intro h
      simp only [ok_bind, return_ok_iff, Prod.mk.injEq] at h
      obtain ⟨hposition, rfl⟩ := h
      obtain rfl : rest = [] := List.length_eq_zero_iff.mp (by omega)
      rfl
    · intro h
      cases h
      rfl

/-- What is read of a buffer up to its last operand. -/
theorem evaluatePrefix_binaryStart (b : Buffer) (degrees : Bool) :
    b.evaluatePrefix ⟨degrees, b.binaryStart⟩ = (do
      let (x, rest) ← expr ⟨degrees, false⟩ (readers ⟨degrees, false⟩ deepestNesting)
        b.withoutTrailingBinary
      return (b.binaryStart - rest.length, x)) := by
  have hwindow : b.window ⟨degrees, b.binaryStart⟩ = b.withoutTrailingBinary := by
    simp only [window, Int.toNat_natCast]
    rfl
  simp only [evaluatePrefix, hwindow, mode_binaryStart, b.length_withoutTrailingBinary]

/-- Reading comes to the last operand just if nothing is left over. -/
theorem position_eq_iff {b : Buffer} {degrees : Bool} {x : Operand} {rest : List Token}
    (hread : expr ⟨degrees, false⟩ (readers ⟨degrees, false⟩ deepestNesting) b.withoutTrailingBinary
      = .ok (x, rest)) : b.binaryStart - rest.length = b.binaryStart ↔ rest = [] := by
  obtain ⟨t, htokens, -⟩ := of_expr_ok rfl (readTrees rfl deepestNesting) hread
  have hlength : b.binaryStart = t.tokens.length + rest.length := by
    rw [← b.length_withoutTrailingBinary, htokens, List.length_append]
  rw [← List.length_eq_zero_iff]
  omega

/-- Evaluating a buffer is reading a sum from it, with nothing left behind. -/
theorem evaluate_eq (b : Buffer) (degrees : Bool) : b.evaluate degrees = (do
    let (x, rest) ← expr ⟨degrees, false⟩ (readers ⟨degrees, false⟩ deepestNesting)
      b.withoutTrailingBinary
    if rest = [] then return x
    else
      let _ ← b.describe.mapError EvaluationError.undisplayable
      .error (.malformed (.unparsed (b.binaryStart - rest.length : Nat) b.binaryStart))) := by
  rw [evaluate, evaluatePrefix_binaryStart]
  cases hread : expr ⟨degrees, false⟩ (readers ⟨degrees, false⟩ deepestNesting)
      b.withoutTrailingBinary with
  | error e => rfl
  -- Having come to the last operand is having left nothing over.
  | ok p => simp only [ok_bind, pure_bind, position_eq_iff hread]

/-- Evaluating stops before the end of a buffer, which is what its report says. -/
def StopsShort (b : Buffer) (degrees : Bool) : Prop :=
  ∃ i x, b.evaluatePrefix ⟨degrees, b.binaryStart⟩ = .ok (i, x) ∧ i ≠ b.binaryStart

/-- Evaluating stops short just if a sum is read and tokens stay behind it. -/
theorem stopsShort_iff {b : Buffer} {degrees : Bool} : b.StopsShort degrees ↔ ∃ x rest,
    expr ⟨degrees, false⟩ (readers ⟨degrees, false⟩ deepestNesting) b.withoutTrailingBinary = .ok (x, rest)
      ∧ rest ≠ [] := by
  rw [StopsShort, evaluatePrefix_binaryStart]
  cases hread : expr ⟨degrees, false⟩ (readers ⟨degrees, false⟩ deepestNesting)
      b.withoutTrailingBinary with
  | error e => exact iff_of_false (fun ⟨_, _, h, _⟩ => by cases h) (fun ⟨_, _, h, _⟩ => by cases h)
  | ok p =>
    obtain ⟨y, rest⟩ := p
    constructor
    · rintro ⟨i, x, h, hi⟩
      cases h
      exact ⟨y, rest, rfl, fun hrest => hi ((position_eq_iff hread).mpr hrest)⟩
    · rintro ⟨x, rest', h, hrest⟩
      cases h
      exact ⟨_, y, rfl, fun hi => hrest ((position_eq_iff hread).mp hi)⟩

/-- A buffer evaluates to the value of its tree, or fails with the error that this is, unless operands are
nested too deeply. -/
theorem evaluate_eq_value {b : Buffer} {degrees : Bool} {t : Phrase.Expr}
    (hb : b.withoutTrailingBinary = t.tokens) (hgreedy : t.Greedy [])
    (hroom : t.height ≤ deepestNesting ∨ b.evaluate degrees ≠ syntaxError .nestedTooDeeply) :
    b.evaluate degrees = t.value ⟨degrees, false⟩ := by
  have hread := t.reads (m := ⟨degrees, false⟩) rfl deepestNesting hgreedy
  have heval := b.evaluate_eq degrees
  rw [List.append_nil] at hread
  rw [hb] at heval
  generalize t.value ⟨degrees, false⟩ = v at hread ⊢
  generalize expr _ _ t.tokens = outcome at hread heval
  -- The tree is read to its value, or to an error of it, or nesting stops the reader.
  cases hread with
  | room h v =>
    rw [heval]
    cases v with
    | error e => rfl
    | ok y => simp only [ok_bind, if_true]; rfl
  | error e => rw [heval]; rfl
  -- That the reader is stopped is what the last hypothesis excludes.
  | deep h v => exact absurd heval (hroom.resolve_left (Nat.not_le.mpr h))

/-- Reports name two buffers alike if they only differ in tokens that can be displayed. -/
theorem describe_between {ts us : List Token} (hts : ∀ t ∈ ts, ∃ text, t.text = .ok text)
    (hus : ∀ t ∈ us, ∃ text, t.text = .ok text) (front back : Buffer) :
    Corresponds (fun _ _ => True) (describe (front ++ (ts ++ back))) (describe (front ++ (us ++ back))) := by
  obtain ⟨texts, htexts⟩ := mapM_ok hts
  obtain ⟨texts', htexts'⟩ := mapM_ok hus
  simp only [describe, display, List.mapM_append, htexts, htexts', ok_bind]
  cases front.mapM Token.text with
  | error e => exact .error e
  | ok _ =>
    cases back.mapM Token.text with
    | error e => exact .error e
    | ok _ => exact .ok trivial

end Buffer

/-! ## §3 What is read can be displayed -/

namespace Evaluation

/-- Whether a token is no operator without a key. -/
def isListed : Token → Bool
  | .operator (.unlisted ..) => false
  | _ => true

theorem isListed_tokens_marks (marks : List Mark) : (Mark.tokens marks).all isListed = true := by
  simp [Mark.tokens, isListed, Token.symbol]

theorem isListed_signTokens (negated : Bool) : (signTokens negated).all isListed = true := by
  cases negated <;> rfl

theorem isListed_closingTokens (closed : Bool) : (closingTokens closed).all isListed = true := by
  cases closed <;> rfl

theorem isListed_joint (joint : Joint) : joint.tokens.all isListed = true := by
  cases joint <;> rfl

theorem isListed_symbol (s : Symbol) : isListed (.symbol s) = true := rfl

namespace Phrase

theorem Number.isListed_token (x : Number) : isListed x.token = true := by
  cases x <;> rfl

mutual

/-- The operators of a tree are keys. -/
theorem Unary.all_isListed (x : Unary) : x.tokens.all isListed = true := by
  match x with
  | .number x => simp [Unary.tokens, x.isListed_token]
  | .pi | .euler => rfl
  | .root negated x =>
    simp [Unary.tokens, isListed_symbol, isListed_signTokens, Unary.all_isListed x]
  | .group x closed | .call _ _ x closed =>
    simp [Unary.tokens, isListed_symbol, isListed_closingTokens, Expr.all_isListed x]

theorem Suffix.all_isListed (x : Suffix) : x.tokens.all isListed = true := by
  match x with
  | .mk x marks => simp [Suffix.tokens, isListed_tokens_marks, Unary.all_isListed x]

theorem Factor.all_isListed (x : Factor) : x.tokens.all isListed = true := by
  match x with
  | .plain x => exact Suffix.all_isListed x
  | .power x e =>
    simp [Factor.tokens, isListed_symbol, Suffix.all_isListed x, Signed.all_isListed e]

theorem Signed.all_isListed (x : Signed) : x.tokens.all isListed = true := by
  match x with
  | .mk negated x => simp [Signed.tokens, isListed_signTokens, Factor.all_isListed x]

theorem Term.all_isListed (x : Term) : x.tokens.all isListed = true := by
  match x with
  | .mk x more => simp [Term.tokens, Signed.all_isListed x, Products.all_isListed more]

theorem Products.all_isListed (more : Products) : more.tokens.all isListed = true := by
  match more with
  | .nil => rfl
  | .cons joint x more =>
    simp [Products.tokens, isListed_joint, Signed.all_isListed x, Products.all_isListed more]

theorem Expr.all_isListed (x : Expr) : x.tokens.all isListed = true := by
  match x with
  | .mk x more => simp [Expr.tokens, Term.all_isListed x, Sums.all_isListed more]

theorem Sums.all_isListed (more : Sums) : more.tokens.all isListed = true := by
  match more with
  | .nil => rfl
  | .term _ x more =>
    simp [Sums.tokens, isListed_symbol, Term.all_isListed x, Sums.all_isListed more]
  -- The number of a percentage is no operator, and its sign and percent sign have keys.
  | .percentage _ x more =>
    simp [Sums.tokens, isListed_symbol, x.isListed_token, Sums.all_isListed more]

end

end Phrase

end Evaluation

/-! ## §4 A group in place of a stored result -/

namespace Evaluation

variable {m : Mode} {a : Abbreviation m}

/-- What does not lead a list does not lead a part from its front. -/
theorem leads_take {p : Token → Bool} {ts : List Token} (h : leads p ts = false) (n : Nat) :
    leads p (ts.take n) = false := by
  cases ts with
  | nil => rw [List.take_nil]; rfl
  | cons t ts =>
    cases n with
    | zero => rfl
    | succ n => exact h

/-- The two sides end together. -/
theorem Abbreviation.Facing.empty_iff {ts us : List Token} (h : a.Facing ts us) : ts = [] ↔ us = [] := by
  cases h with
  | nil => exact Iff.rfl
  | cons t h _ => exact iff_of_false nofun nofun
  | hole => exact iff_of_false nofun nofun

/-- A percentage of the running total is as far ahead on both sides, unless it begins with the stored
result. -/
theorem percentageNext_between (front : List Token)
    (h : front = [] → leads (Token.isSymbol .percent) a.rest = false) :
    percentageNext (front ++ a.token :: a.rest)
      = percentageNext (front ++ .symbol .leftParen :: (a.group ++ a.rest)) := by
  match front with
  | [] =>
    have hgroup (ts : List Token) : percentageNext (.symbol .leftParen :: ts) = false := by
      cases ts <;> rfl
    have hrest := h rfl
    rw [List.nil_append, List.nil_append, hgroup]
    cases hback : a.rest with
    | nil => rfl
    | cons t ts =>
      rw [hback] at hrest
      have ht : t.isSymbol .percent = false := hrest
      simp [percentageNext, ht]
  | [t] =>
    -- Neither the stored result nor the parenthesis is a percent sign.
    show (!t.isOperator && false && _) = (!t.isOperator && false && _)
    rw [Bool.and_false, Bool.false_and, Bool.false_and]
  -- A third token of the front settles it; up to there the front is spelled out.
  | [t, sign] => rfl
  | t :: sign :: u :: front => rfl

/-- The two sides face each other if the stored result is no percentage of a running total. By induction
on what stands in front. -/
theorem Abbreviation.facing_between (front : List Token)
    (h : front.getLast?.any Buffer.isAdditive = true →
      leads (Token.isSymbol .percent) a.rest = false) :
    a.Facing (front ++ a.token :: a.rest) (front ++ .symbol .leftParen :: (a.group ++ a.rest)) := by
  induction front with
  | nil => exact .hole
  | cons t front ih =>
    -- Only what stands directly in front of the stored result may make a percentage of it.
    refine .cons t (ih fun hlast => h ?_) fun ht => percentageNext_between front ?_
    · cases front with
      | nil => cases hlast
      | cons u front => rwa [List.getLast?_cons_cons]
    · rintro rfl
      exact h ht

end Evaluation

namespace Buffer

open Reckoner.Evaluation

/-- A buffer in parentheses, with what it leaves open closed. -/
def grouped (b : Buffer) : Buffer :=
  .symbol .leftParen :: (b ++ closings (b.unclosed + 1))

/-- Buffers of which the same is read, with as much left behind, are reported alike, unless it is reported
that tokens are left over, and their names differ. -/
theorem sameOutcome_iff_of_corresponds {b c : Buffer} {degrees : Bool}
    (h : Corresponds (fun p q => p.1.quantity = q.1.quantity ∧ (p.2 = [] ↔ q.2 = []))
      (expr ⟨degrees, false⟩ (readers ⟨degrees, false⟩ deepestNesting) b.withoutTrailingBinary)
      (expr ⟨degrees, false⟩ (readers ⟨degrees, false⟩ deepestNesting) c.withoutTrailingBinary)) :
    SameOutcome (b.quantity degrees) (c.quantity degrees)
      ↔ (c.StopsShort degrees → Corresponds (fun _ _ => True) b.describe c.describe) := by
  rw [quantity, quantity, evaluate_eq, evaluate_eq, stopsShort_iff]
  generalize expr _ _ b.withoutTrailingBinary = p at h
  generalize expr _ _ c.withoutTrailingBinary = q at h
  cases h with
  -- An error of the reader is reported as it is, and no name is asked for.
  | error e => exact iff_of_true (.error (.refl e)) fun ⟨_, _, h, _⟩ => by cases h
  | @ok p q hpq =>
    obtain ⟨⟨hquantity, hrest⟩, y, rest⟩ := hpq, q
    simp only [ok_bind, hrest]
    split
    case isTrue hnone =>
      -- Nothing is left over: both sides have the value that was read.
      refine iff_of_true ?_ fun ⟨_, _, h, hsome⟩ => ?_
      · show SameOutcome (.ok p.1.quantity) (.ok y.quantity)
        rw [hquantity]
        exact .ok _
      · cases h
        exact absurd hnone hsome
    case isFalse hsome =>
      have hstops : ∃ y' rest', (Except.ok (y, rest) : Evaluated _) = .ok (y', rest') ∧ rest' ≠ [] :=
        ⟨y, rest, rfl, hsome⟩
      rw [forall_prop_of_true hstops]
      -- Where tokens are left over, the report names the buffer first.
      generalize b.describe = name
      generalize c.describe = name'
      constructor
      · intro h
        cases name with
        | error e =>
          cases name' with
          | error e' =>
            cases h with
            | error h =>
              obtain rfl : e = e' := EvaluationError.undisplayable.inj h
              exact .error e
          | ok _ => cases h with | error h => cases h
        | ok _ =>
          cases name' with
          | error e' => cases h with | error h => cases h
          | ok _ => exact .ok trivial
      · intro h
        cases h with
        | ok _ => exact .error rfl
        | error e => exact .error (.refl _)

/-- Buffers of which the same is read, with as much left behind, are reported alike, if their names are. -/
theorem sameOutcome_of_corresponds {b c : Buffer} {degrees : Bool}
    (h : Corresponds (fun p q => p.1.quantity = q.1.quantity ∧ (p.2 = [] ↔ q.2 = []))
      (expr ⟨degrees, false⟩ (readers ⟨degrees, false⟩ deepestNesting) b.withoutTrailingBinary)
      (expr ⟨degrees, false⟩ (readers ⟨degrees, false⟩ deepestNesting) c.withoutTrailingBinary))
    (hdescribe : Corresponds (fun _ _ => True) b.describe c.describe) :
    SameOutcome (b.quantity degrees) (c.quantity degrees) :=
  (sameOutcome_iff_of_corresponds h).mpr fun _ => hdescribe

/-- What matches the reading of a buffer corresponds to it, unless the buffer is nested too deeply. -/
theorem corresponds_of_matches {c : Buffer} {degrees : Bool}
    {R : Operand × List Token → Operand × List Token → Prop} {x : Evaluated (Operand × List Token)}
    (h : Matches R x
      (expr ⟨degrees, false⟩ (readers ⟨degrees, false⟩ deepestNesting) c.withoutTrailingBinary))
    (hroom : c.evaluate degrees ≠ syntaxError .nestedTooDeeply) :
    Corresponds R x
      (expr ⟨degrees, false⟩ (readers ⟨degrees, false⟩ deepestNesting) c.withoutTrailingBinary) := by
  refine h.corresponds fun hdeep => hroom ?_
  rw [evaluate_eq, hdeep]
  rfl

/-- What can stand in a report if the stored results can. -/
theorem text_of_evaluatePrefix {S : Buffer} {degrees : Bool} {x : Operand}
    (hS : S.evaluatePrefix ⟨degrees, S.length⟩ = .ok (S.length, x))
    (htexts : ∀ n v e s, Token.stored n v e s none ∉ S) : ∀ t ∈ S, ∃ text, t.text = .ok text := by
  intro t ht
  obtain ⟨tree, htree, -⟩ :=
    of_expr_ok rfl (readTrees rfl deepestNesting) (evaluatePrefix_eq_ok_iff.mp hS)
  rw [List.append_nil] at htree
  match t with
  | .literal l => exact ⟨_, rfl⟩
  | .operator (.listed s) => exact Token.operatorText_listed s
  -- An operator without a key is never read.
  | .operator (.unlisted n hn) =>
    have hlisted := List.all_eq_true.mp tree.all_isListed _ (htree ▸ ht)
    cases hlisted
  | .stored n v e s (some text) => exact ⟨text, rfl⟩
  | .stored n v e s none => exact absurd ht (htexts n v e s)

/-- Parentheses can be displayed, so a buffer can be in parentheses if it can be alone. -/
theorem text_grouped {S : Buffer} (h : ∀ t ∈ S, ∃ text, t.text = .ok text) :
    ∀ t ∈ S.grouped, ∃ text, t.text = .ok text := by
  intro t ht
  simp only [grouped, List.mem_cons, List.mem_append, closings, List.mem_replicate] at ht
  rcases ht with rfl | ht | ⟨-, rfl⟩
  · exact Token.operatorText_listed .leftParen
  · exact h t ht
  · exact Token.operatorText_listed .rightParen

/-- A group ends with a closing parenthesis, so operators are only dropped behind it. -/
theorem withoutTrailingBinary_grouped (front S back : Buffer) :
    withoutTrailingBinary (front ++ (S.grouped ++ back))
      = front ++ (S.grouped ++ withoutTrailingBinary back) := by
  -- The last closing parenthesis is set apart, as the end that stays.
  have hsplit (back : Buffer) : front ++ (S.grouped ++ back)
      = front ++ .symbol .leftParen :: (S ++ closings S.unclosed) ++ .symbol .rightParen :: back := by
    simp only [grouped, closings, List.replicate_succ', List.append_assoc, List.cons_append,
      List.nil_append]
  rw [hsplit, hsplit, withoutTrailingBinary_append rfl]

/-- Read with a stored result and with a group of its value in its place, tokens give the same quantity and
leave as much behind, unless the nesting gets too deep with the group. -/
theorem matches_grouped {S : Buffer} {degrees : Bool} {x : Operand}
    (hS : S.evaluatePrefix ⟨degrees, S.length⟩ = .ok (S.length, x)) {n : Nat} {v : Value} {e : Buffer}
    {s : Scope} {text : Option String} (hv : v.quantity = x.quantity) (front : Buffer) {back : Buffer}
    (hpercent : front.getLast?.any isAdditive = true → leads (Token.isSymbol .percent) back = false) :
    Matches (fun p q => p.1.quantity = q.1.quantity ∧ (p.2 = [] ↔ q.2 = []))
      (expr ⟨degrees, false⟩ (readers ⟨degrees, false⟩ deepestNesting)
        (front ++ .stored n v e s text :: back))
      (expr ⟨degrees, false⟩ (readers ⟨degrees, false⟩ deepestNesting)
        (front ++ (S.grouped ++ back))) := by
  obtain ⟨height, hreads⟩ := readers_group rfl (evaluatePrefix_eq_ok_iff.mp hS)
  -- The group and the stored result are the two sides of an abbreviation, with the same tokens behind.
  let a : Abbreviation ⟨degrees, false⟩ :=
    { number := n, value := v, expr := e, scope := s, text := text
      group := S ++ closings (S.unclosed + 1), rest := back
      result := x, height := height, reads := fun room => hreads room _, quantity_eq := hv }
  have hfacing := a.facing_between front hpercent
  exact (expr_facing rfl deepestNesting hfacing).mono
    fun p q hpq => ⟨hpq.1, hpq.2.empty_iff⟩

/-- Wherever a stored result stands, a buffer of its value in parentheses may stand in its place, with what
it leaves open closed, and with any tokens in front and behind: both are reported alike, unless tokens are
left over and the two buffers are not named alike. -/
theorem sameOutcome_grouped_iff {S : Buffer} {degrees : Bool} {x : Operand}
    (hS : S.evaluatePrefix ⟨degrees, S.length⟩ = .ok (S.length, x)) {n : Nat} {v : Value} {e : Buffer}
    {s : Scope} {text : Option String} (hv : v.quantity = x.quantity) (front : Buffer) {back : Buffer}
    (hpercent : ¬(front.getLast?.any isAdditive = true
      ∧ leads (Token.isSymbol .percent) back = true))
    (hroom : evaluate (front ++ (S.grouped ++ back)) degrees ≠ syntaxError .nestedTooDeeply) :
    SameOutcome (quantity (front ++ (.stored n v e s text :: back)) degrees)
      (quantity (front ++ (S.grouped ++ back)) degrees)
    ↔ (StopsShort (front ++ (S.grouped ++ back)) degrees → Corresponds (fun _ _ => True)
      (describe (front ++ (.stored n v e s text :: back))) (describe (front ++ (S.grouped ++ back)))) := by
  refine sameOutcome_iff_of_corresponds (corresponds_of_matches ?_ hroom)
  rw [withoutTrailingBinary_append rfl, withoutTrailingBinary_grouped]
  -- Dropping operators at the end brings no percent sign to the front.
  refine matches_grouped hS hv front fun hlast => leads_take ?_ _
  exact Bool.eq_false_iff.mpr fun hback => hpercent ⟨hlast, hback⟩

/-- A stored result with a text is reported like a buffer of its value in parentheses, if the stored results
in there have their texts. -/
theorem sameOutcome_grouped {S : Buffer} {degrees : Bool} {x : Operand}
    (hS : S.evaluatePrefix ⟨degrees, S.length⟩ = .ok (S.length, x))
    (htexts : ∀ n v e s, Token.stored n v e s none ∉ S) {n : Nat} {v : Value} {e : Buffer} {s : Scope}
    {text : String} (hv : v.quantity = x.quantity) (front : Buffer) {back : Buffer}
    (hpercent : ¬(front.getLast?.any isAdditive = true
      ∧ leads (Token.isSymbol .percent) back = true))
    (hroom : evaluate (front ++ (S.grouped ++ back)) degrees ≠ syntaxError .nestedTooDeeply) :
    SameOutcome (quantity (front ++ (.stored n v e s (some text) :: back)) degrees)
      (quantity (front ++ (S.grouped ++ back)) degrees) := by
  refine (sameOutcome_grouped_iff hS hv front hpercent hroom).mpr fun _ => ?_
  have hstored : ∀ t ∈ [Token.stored n v e s (some text)], ∃ text, t.text = .ok text := by
    intro t ht
    obtain rfl := List.mem_singleton.mp ht
    exact ⟨text, rfl⟩
  exact describe_between hstored (text_grouped (text_of_evaluatePrefix hS htexts)) front back

/-! ## §5 Stored results without a text -/

/-- Operators with keys, numbers and stored results can be displayed, unless a stored result has no text. -/
theorem mapM_text_of_listed {ts : List Token} (h : ts.all isListed = true) :
    ((∃ texts, ts.mapM Token.text = .ok texts) ∧ ¬∃ n v e s, Token.stored n v e s none ∈ ts)
    ∨ (ts.mapM Token.text = .error .missingText ∧ ∃ n v e s, Token.stored n v e s none ∈ ts) := by
  have htexts : ∀ t ∈ ts, (∃ text, t.text = .ok text)
      ∨ t.text = .error .missingText ∧ ∃ n v e s, t = .stored n v e s none := by
    intro t ht
    match t with
    | .literal l => exact .inl ⟨_, rfl⟩
    | .operator (.listed s) => exact .inl (Token.operatorText_listed s)
    | .operator (.unlisted n hn) => cases List.all_eq_true.mp h _ ht
    | .stored n v e s (some text) => exact .inl ⟨text, rfl⟩
    | .stored n v e s none => exact .inr ⟨rfl, n, v, e, s, rfl⟩
  -- The first token that fails fails for want of a text, whichever one it is.
  by_cases hmissing : ∃ n v e s, Token.stored n v e s none ∈ ts
  · obtain ⟨n, v, e, s, hmem⟩ := hmissing
    exact .inr ⟨mapM_error (fun t ht => (htexts t ht).imp_right And.left) ⟨_, hmem, rfl⟩,
      n, v, e, s, hmem⟩
  · refine .inl ⟨mapM_ok fun t ht => (htexts t ht).resolve_right ?_, hmissing⟩
    rintro ⟨-, n, v, e, s, rfl⟩
    exact hmissing ⟨n, v, e, s, ht⟩

/-- Displaying fails as the text of a token does. -/
theorem display_eq_error_iff {b : Buffer} {e : DisplayError} :
    b.display = .error e ↔ b.mapM Token.text = .error e :=
  bind_return_error_iff

/-- A buffer cannot be named in a report just if it cannot be displayed. -/
theorem describe_eq_error_iff {b : Buffer} {e : DisplayError} :
    b.describe = .error e ↔ b.display = .error e :=
  bind_return_error_iff

/-- Behind tokens that can be displayed, a buffer fails to be displayed as it does alone. -/
theorem display_behind {ts : List Token} (hts : ∃ texts, ts.mapM Token.text = .ok texts) {back : Buffer}
    {e : DisplayError} : display (ts ++ back) = .error e ↔ back.display = .error e := by
  obtain ⟨texts, htexts⟩ := hts
  rw [display_eq_error_iff, display_eq_error_iff, List.mapM_append, htexts, ok_bind]
  exact bind_return_error_iff

theorem display_stuck {ts : List Token} {e : DisplayError} (hts : ts.mapM Token.text = .error e)
    (back : Buffer) : display (ts ++ back) = .error e := by
  rw [display_eq_error_iff, List.mapM_append, hts]
  rfl

/-- Reports name buffers alike that differ in operators with keys, numbers and stored results, unless all in
front of these can be displayed, a stored result without a text is among them on one side only, and what is
behind does not fail to be displayed for the same reason. -/
theorem describe_exchange_iff {ts us : List Token} (hts : ts.all isListed = true)
    (hus : us.all isListed = true) (front back : Buffer) :
    Corresponds (fun _ _ => True) (describe (front ++ (ts ++ back))) (describe (front ++ (us ++ back)))
      ↔ ((∃ name, front.display = .ok name) → back.display ≠ .error .missingText →
        ((∃ n v e s, Token.stored n v e s none ∈ ts) ↔ ∃ n v e s, Token.stored n v e s none ∈ us)) := by
  simp only [Corresponds.iff_errors, describe_eq_error_iff]
  cases hfront : front.mapM Token.text with
  -- The front fails before the tokens that differ are looked at.
  | error e =>
    refine iff_of_true (fun e' => ?_) fun ⟨name, h⟩ => ?_
    · rw [display_stuck hfront, display_stuck hfront]
    · rw [display, hfront] at h
      cases h
  | ok texts =>
    have hname : ∃ name, front.display = .ok name := ⟨String.join texts, by rw [display, hfront]; rfl⟩
    simp only [display_behind ⟨texts, hfront⟩, hname, forall_const]
    -- On each side, either all tokens can be displayed or one lacks its text.
    rcases mapM_text_of_listed hts with ⟨hts, hfull⟩ | ⟨hts, hmissing⟩ <;>
      rcases mapM_text_of_listed hus with ⟨hus, hfull'⟩ | ⟨hus, hmissing'⟩
    -- Neither side stops at the tokens that differ: both fail as what is behind does.
    · simp only [display_behind hts, display_behind hus]
      exact iff_of_true (fun _ => trivial) fun _ => iff_of_false hfull hfull'
    -- Only the second side stops, so what is behind must fail for the same reason.
    · simp only [display_behind hts, display_stuck hus]
      constructor
      · exact fun h hback => absurd ((h _).mpr rfl) hback
      · intro h e
        rw [not_not.mp fun hback => hfull ((h hback).mpr hmissing')]
    -- Only the first side stops.
    · simp only [display_stuck hts, display_behind hus]
      constructor
      · exact fun h hback => absurd ((h _).mp rfl) hback
      · intro h e
        rw [not_not.mp fun hback => hfull' ((h hback).mp hmissing)]
    · simp only [display_stuck hts, display_stuck hus]
      exact iff_of_true (fun _ => trivial) fun _ => iff_of_true hmissing hmissing'

/-- What is read as a whole consists of operators with keys, numbers and stored results. -/
theorem all_isListed_of_evaluatePrefix {S : Buffer} {degrees : Bool} {x : Operand}
    (hS : S.evaluatePrefix ⟨degrees, S.length⟩ = .ok (S.length, x)) : S.all isListed = true := by
  obtain ⟨tree, htree, -⟩ :=
    of_expr_ok rfl (readTrees rfl deepestNesting) (evaluatePrefix_eq_ok_iff.mp hS)
  rw [htree, List.append_nil]
  exact tree.all_isListed

/-- A number of some digits. -/
def number (digits : String) : Token :=
  .literal ⟨digits, "", false, 0⟩

/-- One plus two. -/
def onePlusTwo : Buffer :=
  [number "1", .symbol .plus, number "2"]

theorem evaluatePrefix_onePlusTwo :
    onePlusTwo.evaluatePrefix ⟨false, onePlusTwo.length⟩ = .ok (onePlusTwo.length, .computed 3) := by
  decide +kernel

/-- A power of ten with more digits than a text takes. -/
def largePower : Buffer :=
  [.literal ⟨"1", "", false, 4300⟩]

/-- The same, stored without a text. -/
def withoutText : Buffer :=
  [.stored 0 ⟨.ofInt (10 ^ 4300), .result 0⟩ [.literal ⟨"1", "", false, 4300⟩] ⟨false, 1⟩ none]

/-- Behind a plus, ten percent are a tenth of what is in front if the ten is stored, and one tenth if it is
in parentheses. -/
example :
    quantity [number "100", .symbol .plus, .stored 0 ⟨10, .result 0⟩ [number "10"] ⟨false, 1⟩ (some "10"),
      .symbol .percent] false = .ok 110
    ∧ quantity [number "100", .symbol .plus, .symbol .leftParen, number "10", .symbol .rightParen,
      .symbol .percent] false = .ok (.rational (mkRat 1001 10)) := by
  decide +kernel

end Buffer

end Reckoner
