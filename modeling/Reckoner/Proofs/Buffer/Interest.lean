import Reckoner.Proofs.Evaluation.Exactness
import Reckoner.Proofs.Workspace.Separation

/-!
# Expressions that show their own value

An expression is uninteresting if its value would show no more than the expression does: apart from a minus
in front and the binary operators at the end it has no operators, and its stored results are shown exactly.
As operands are never neighbours, this leaves a single operand.

- `hasInteresting_eq_false_iff`: what the search for something of interest passes over;
- `isInteresting_eq_false_iff`: which buffers are uninteresting;
- `ShowsNumber.evaluate`: a single operand evaluates to its value, behind a minus to its negative;
- `uninteresting_shows_value` puts these together.
-/

namespace Reckoner

open Reckoner.Evaluation

/-! ## §1 Operands -/

namespace Evaluation.Phrase.Number

/-- A literal, or a stored result with a text that has no ellipsis. -/
def ShownExactly : Number → Prop
  | .literal _ => True
  | .stored _ _ _ _ x => ∃ text, x = some text ∧ '…' ∉ text.toList

theorem isOperator_token (u : Number) : u.token.isOperator = false := by
  cases u <;> rfl

/-- Every token is an operator or a number. -/
theorem exists_token {t : Token} (ht : t.isOperator = false) : ∃ u : Number, u.token = t := by
  cases t with
  | literal l => exact ⟨.literal l, rfl⟩
  | operator o => cases ht
  | stored n v e s x => exact ⟨.stored n v e s x, rfl⟩

/-- The value of a number with a sign in front. -/
def signed (negated : Bool) (y : Operand) : Operand :=
  if negated then .computed y.quantity.negate else y

/-- The derivation tree of a number with a sign in front. -/
def signedTree (negated : Bool) (u : Number) : Expr :=
  .mk (.mk (.mk negated (.plain (.mk (.number u) []))) .nil) .nil

theorem tokens_signedTree (negated : Bool) (u : Number) :
    (signedTree negated u).tokens = signTokens negated ++ [u.token] := by
  simp only [signedTree, Expr.tokens, Term.tokens, Signed.tokens, Factor.tokens, Suffix.tokens,
    Unary.tokens, Products.tokens, Sums.tokens, Mark.tokens, List.map_nil, List.append_nil]

/-- Its value is that of the number, or what the number fails with. -/
theorem value_signedTree (m : Mode) (negated : Bool) (u : Number) :
    (signedTree negated u).value m = u.value.map (signed negated) := by
  cases hvalue : u.value <;> cases negated <;>
    simp only [signedTree, Expr.value, Term.value, Signed.value, Factor.value, Suffix.value,
      Unary.value, hvalue] <;> rfl

end Evaluation.Phrase.Number

namespace Buffer

open Evaluation.Phrase (Number)

variable {b : Buffer}

/-! ## §2 The search for something of interest -/

/-- The only character of the ellipsis is looked for. -/
theorem contains_ellipsis (text : String) :
    (text.toList.any fun c => Quantity.ellipsis.toList.contains c) = decide ('…' ∈ text.toList) := by
  rw [Bool.eq_iff_iff, List.any_eq_true, decide_eq_true_iff]
  have hcontains (c : Char) : Quantity.ellipsis.toList.contains c = true ↔ c = '…' := by
    simp [Quantity.ellipsis]
  simp only [hcontains, exists_eq_right]

/-- The search passes over a number that is shown exactly, and over no other. -/
theorem hasInteresting_token (u : Number) (rest : Buffer) :
    hasInteresting (u.token :: rest) = .ok false ↔ u.ShownExactly ∧ hasInteresting rest = .ok false := by
  cases u with
  | literal l => exact (and_iff_right trivial).symm
  | stored n v e s x =>
    -- A stored result without a text stops the search with an error, which is not what is claimed of
    -- either side.
    cases x with
    | none =>
      have hhidden : ¬Number.ShownExactly (.stored n v e s none) := by
        rintro ⟨text, htext, -⟩
        cases htext
      refine iff_of_false (fun h => ?_) fun h => hhidden h.1
      cases h
    | some text =>
      have hexact : Number.ShownExactly (.stored n v e s (some text)) ↔ '…' ∉ text.toList := by
        simp only [Number.ShownExactly, Option.some.injEq, exists_eq_left']
      have hsearch : hasInteresting (Token.stored n v e s (some text) :: rest)
          = if '…' ∈ text.toList then .ok true else hasInteresting rest := by
        simp only [hasInteresting, Token.isOperator, Token.ellipsis?, contains_ellipsis, ok_bind,
          Bool.false_eq_true, if_false, decide_eq_true_iff]
        rfl
      rw [hexact, Number.token, hsearch]
      by_cases hin : '…' ∈ text.toList
      · rw [if_pos hin]
        exact iff_of_false (fun h => Bool.noConfusion (Except.ok.inj h)) fun h => h.1 hin
      · rw [if_neg hin]
        exact (and_iff_right hin).symm

/-- Tokens without anything of interest are numbers that are shown exactly. By induction on the tokens. -/
theorem hasInteresting_eq_false_iff :
    hasInteresting b = .ok false ↔ ∀ t ∈ b, ∃ u : Number, u.token = t ∧ u.ShownExactly := by
  induction b with
  | nil => exact iff_of_true rfl nofun
  | cons t rest ih =>
    rw [List.forall_mem_cons, ← ih]
    cases ht : t.isOperator with
    | true =>
      -- An operator is of interest, and no number is an operator.
      have hstop : hasInteresting (t :: rest) = .ok true := by simp only [hasInteresting, ht, if_true]
      rw [hstop]
      refine iff_of_false nofun fun h => ?_
      obtain ⟨⟨u, rfl, -⟩, -⟩ := h
      rw [u.isOperator_token] at ht
      cases ht
    | false =>
      obtain ⟨u, rfl⟩ := Number.exists_token ht
      -- The first token is passed over by the lemma, the others by the induction hypothesis.
      rw [hasInteresting_token]
      refine and_congr_left fun _ => ⟨fun hu => ⟨u, rfl, hu⟩, fun h => ?_⟩
      obtain ⟨u', heq, hu'⟩ := h
      obtain rfl := Number.token_injective heq
      exact hu'

/-- Numbers that are never neighbours, with no operator between them, are one at most. -/
theorem eq_nil_or_singleton (hchain : b.IsChain Token.Apart)
    (hb : ∀ t ∈ b, ∃ u : Number, u.token = t ∧ u.ShownExactly) :
    b = [] ∨ ∃ u : Number, b = [u.token] ∧ u.ShownExactly := by
  rcases b with _ | ⟨t, _ | ⟨t', rest⟩⟩
  · exact .inl rfl
  · obtain ⟨u, rfl, hu⟩ := hb t List.mem_cons_self
    exact .inr ⟨u, rfl, hu⟩
  -- Two numbers side by side would not be apart.
  · obtain ⟨u, rfl, -⟩ := hb t (by simp)
    obtain ⟨u', rfl, -⟩ := hb t' (by simp)
    have hapart := (List.isChain_cons_cons.mp hchain).1
    rw [Token.Apart, u.isOperator_token, u'.isOperator_token] at hapart
    simp at hapart

/-! ## §3 Uninteresting buffers -/

/-- A number with a minus in front or not, and binary operators behind it. -/
def ShowsNumber (b : Buffer) (negated : Bool) (u : Number) : Prop :=
  b.withoutTrailingBinary = signTokens negated ++ [u.token] ∧ u.ShownExactly

/-- A number on its own is of no interest, with a minus in front or without. -/
theorem ShowsNumber.isInteresting {negated : Bool} {u : Number} (h : b.ShowsNumber negated u) :
    b.isInteresting = .ok false := by
  obtain ⟨hshape, hexact⟩ := h
  have hpassed : hasInteresting [u.token] = .ok false := (hasInteresting_token u []).mpr ⟨hexact, rfl⟩
  rw [Buffer.isInteresting, hshape]
  cases negated with
  | true => exact hpassed
  | false =>
    show (if u.token.isSymbol .minus then hasInteresting [] else hasInteresting [u.token]) = .ok false
    rw [u.isSymbol_token, if_neg Bool.false_ne_true, hpassed]

/-- A minus that nothing comes behind waits for an operand itself. -/
theorem withoutTrailingBinary_ne_minus : b.withoutTrailingBinary ≠ [.symbol .minus] := by
  intro h
  rw [withoutTrailingBinary_eq] at h
  have hlast := List.rdropWhile_last_not isBinary b (by simp [h])
  simp [h] at hlast
  exact absurd hlast (by decide)

/-- Where no operands are neighbours, uninteresting buffers hold nothing but binary operators, or they show a
number. -/
theorem isInteresting_eq_false_iff (hchain : b.IsChain Token.Apart) : b.isInteresting = .ok false
    ↔ b.withoutTrailingBinary = [] ∨ ∃ negated u, b.ShowsNumber negated u := by
  have hkept : b.withoutTrailingBinary.IsChain Token.Apart := hchain.take _
  constructor
  · intro h
    rw [Buffer.isInteresting] at h
    cases hshape : b.withoutTrailingBinary with
    | nil => exact .inl rfl
    | cons t rest =>
      right
      rw [hshape] at h hkept
      -- The search skips a minus in front, so what is left of the buffer is searched behind it.
      cases hminus : t.isSymbol .minus with
      | true =>
        obtain rfl := isSymbol_iff.mp hminus
        rcases eq_nil_or_singleton hkept.tail (hasInteresting_eq_false_iff.mp h) with rfl | ⟨u, rfl, hu⟩
        -- A minus alone would have been dropped with the operators at the end.
        · exact absurd hshape withoutTrailingBinary_ne_minus
        · exact ⟨true, u, hshape, hu⟩
      | false =>
        simp only [hminus, Bool.false_eq_true, if_false] at h
        rcases eq_nil_or_singleton hkept (hasInteresting_eq_false_iff.mp h) with hnil | ⟨u, hu, hexact⟩
        · cases hnil
        · exact ⟨false, u, hshape.trans hu, hexact⟩
  · rintro (hnil | ⟨negated, u, h⟩)
    · rw [Buffer.isInteresting, hnil]
    · exact h.isInteresting

/-! ## §4 Their values -/

/-- A number with a minus in front or not evaluates to its value with that sign. -/
theorem ShowsNumber.evaluate {negated : Bool} {u : Number} (h : b.ShowsNumber negated u) (degrees : Bool) :
    b.evaluate degrees = u.value.map (Number.signed negated) := by
  have htree : b.withoutTrailingBinary = (Number.signedTree negated u).tokens := by
    rw [h.1, Number.tokens_signedTree]
  -- Nothing follows the number, so the derivation could not have gone on.
  have hgreedy : (Number.signedTree negated u).Greedy [] := ⟨⟨⟨⟨trivial, rfl⟩, rfl⟩, rfl⟩, rfl⟩
  have hheight : (Number.signedTree negated u).height ≤ deepestNesting := Nat.le_of_ble_eq_true rfl
  rw [evaluate_eq_value htree hgreedy (.inl hheight), Number.value_signedTree]

/-- Binary operators alone have no value. -/
theorem withoutTrailingBinary_ne_nil {degrees : Bool} {x : Operand} (h : b.evaluate degrees = .ok x) :
    b.withoutTrailingBinary ≠ [] := by
  obtain ⟨t, ht⟩ := exists_derivesAll h
  rw [ht.tokens_eq]
  exact t.tokens_ne_nil

/-- In buffers where no operands are neighbours, such as those that are made by keys and by joining: an
uninteresting buffer that has a value is a number with a minus in front or not, and with binary operators
behind it. Its stored results are shown exactly, and its value is that of the number with that sign. Such
buffers, in turn, are uninteresting. -/
theorem uninteresting_shows_value :
    (∀ b : Buffer, b.IsChain Token.Apart → b.isInteresting = .ok false →
      ∀ degrees x, b.evaluate degrees = .ok x → ∃ negated u y, b.ShowsNumber negated u
        ∧ Number.value u = .ok y ∧ x = Number.signed negated y)
    ∧ (∀ (b : Buffer) negated u, b.ShowsNumber negated u → b.isInteresting = .ok false)
    ∧ ∀ os name, ((Workspace.empty.performAll os).view name).IsChain Token.Apart := by
  refine ⟨fun b hchain h degrees x hx => ?_, fun b negated u hshows => hshows.isInteresting,
    fun os name => (Workspace.separated_view os name).chain⟩
  -- There is a value, so what is shown is not empty.
  have hsome := withoutTrailingBinary_ne_nil hx
  obtain ⟨negated, u, hshows⟩ := ((isInteresting_eq_false_iff hchain).mp h).resolve_left hsome
  rw [hshows.evaluate] at hx
  cases hvalue : u.value with
  | error e =>
    rw [hvalue] at hx
    cases hx
  | ok y =>
    rw [hvalue] at hx
    exact ⟨negated, u, y, hshows, hvalue, (Except.ok.inj hx).symm⟩

/-- A stored result that is shown exactly. -/
def exactFive : Number :=
  .stored 0 ⟨.rational 5, .result 0⟩ [.literal ⟨"5", "", false, 0⟩] ⟨false, 1⟩ (some "5")

/-- The result behind a minus, with operators that wait for an operand. The last of these is a minus too. -/
def minusStoredFive : Buffer :=
  [.symbol .minus, exactFive.token, .symbol .times, .symbol .minus]

theorem uninteresting_shows_value_minusStoredFive :
    minusStoredFive.IsChain Token.Apart ∧ minusStoredFive.isInteresting = .ok false
    ∧ minusStoredFive.evaluate true = .ok (.computed (.rational (-5)))
    ∧ minusStoredFive.ShowsNumber true exactFive
    ∧ ∃ negated u y, minusStoredFive.ShowsNumber negated u ∧ Number.value u = .ok y
      ∧ Operand.computed (.rational (-5)) = Number.signed negated y := by
  obtain ⟨hforward, hbackward, -⟩ := uninteresting_shows_value
  have hshows : minusStoredFive.ShowsNumber true exactFive := ⟨rfl, "5", rfl, by decide⟩
  have hinteresting := hbackward _ _ _ hshows
  have hchain : minusStoredFive.IsChain Token.Apart := by
    simp [minusStoredFive, exactFive, Number.token, Token.Apart, Token.symbol, Token.isOperator]
  have hvalue : minusStoredFive.evaluate true = .ok (.computed (.rational (-5))) := by decide +kernel
  exact ⟨hchain, hinteresting, hvalue, hshows, hforward _ hchain hinteresting _ _ hvalue⟩

end Buffer

end Reckoner
