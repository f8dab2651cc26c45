import Reckoner.Evaluation.Basic
import Reckoner.Proofs.Evaluation.Derivation

/-!
# The grammar of expressions

Evaluation implements the grammar of expressions, which is unambiguous.

- `Phrase.Expr.unique`: the tokens determine the tree, by recursion on the trees;
- `Derives` says that a tree derives the tokens of a buffer up to a position, as far as a scope goes;
- `evaluatePrefix_iff_derives`: evaluation finds the value of such a tree whenever there is one that has
  a value, nothing else, and there is one tree at most.
-/

namespace Reckoner.Evaluation

/-! ## §1 What the tokens say -/

section
variable {rest rest' ts ts' : List Token}

theorem Mark.isMark_symbol (k : Mark) : isMark (.symbol k.symbol) = true := by
  cases k <;> rfl

/-- All postfix operators that come are taken, so they are told by the tokens. By induction on them. -/
theorem Mark.tokens_unique {marks marks' : List Mark}
    (h : Mark.tokens marks ++ rest = Mark.tokens marks' ++ rest') (hrest : leads isMark rest = false)
    (hrest' : leads isMark rest' = false) : marks = marks' ∧ rest = rest' := by
  induction marks generalizing marks' with
  | nil =>
    cases marks' with
    | nil => exact ⟨rfl, h⟩
    | cons k' marks' =>
      obtain rfl : rest = .symbol k'.symbol :: (Mark.tokens marks' ++ rest') := h
      exact absurd (k'.isMark_symbol) (Bool.eq_false_iff.mp hrest)
  | cons k marks ih =>
    cases marks' with
    | nil =>
      obtain rfl : .symbol k.symbol :: (Mark.tokens marks ++ rest) = rest' := h
      exact absurd (k.isMark_symbol) (Bool.eq_false_iff.mp hrest')
    | cons k' marks' =>
      obtain ⟨hfirst, htail⟩ := List.cons.inj h
      obtain ⟨rfl, hrests⟩ := ih htail
      refine ⟨?_, hrests⟩
      cases k <;> cases k' <;> first | rfl | cases hfirst

/-- A sign is told by the tokens, where no minus follows. -/
theorem signTokens_unique {negated negated' : Bool} (h : signTokens negated ++ ts = signTokens negated' ++ ts')
    (hts : leads (Token.isSymbol .minus) ts = false) (hts' : leads (Token.isSymbol .minus) ts' = false) :
    negated = negated' ∧ ts = ts' := by
  cases negated <;> cases negated'
  · exact ⟨rfl, h⟩
  · obtain rfl : ts = .symbol .minus :: ts' := h
    cases hts
  · obtain rfl : .symbol .minus :: ts = ts' := h
    cases hts'
  · exact ⟨rfl, (List.cons.inj h).2⟩

/-- A closing parenthesis is missing only at the end. -/
theorem closingTokens_unique {closed closed' : Bool}
    (h : closingTokens closed ++ rest = closingTokens closed' ++ rest')
    (hopen : closed = false → rest = []) (hopen' : closed' = false → rest' = []) :
    closed = closed' ∧ rest = rest' := by
  cases closed <;> cases closed'
  · exact ⟨rfl, h⟩
  · rw [hopen rfl] at h
    cases h
  · rw [hopen' rfl] at h
    cases h
  · exact ⟨rfl, (List.cons.inj h).2⟩

/-- The tokens behind a factor say how the next one is joined, and where it begins. -/
theorem Joint.tokens_unique {joint joint' : Joint} (h : joint.tokens ++ ts = joint'.tokens ++ ts')
    (hstarts : joint = .nothing → leads startsFactor ts = true)
    (hstarts' : joint' = .nothing → leads startsFactor ts' = true) : joint = joint' ∧ ts = ts' := by
  -- Looking ahead finds the joint, and so the same one for both.
  have hlink := nextLink_joint hstarts
  rw [h, nextLink_joint hstarts'] at hlink
  obtain rfl : ts' = ts := congrArg Prod.snd (Option.some.inj hlink)
  refine ⟨?_, rfl⟩
  have htokens := List.append_cancel_right h
  cases joint <;> cases joint' <;> first | rfl | cases htokens

end

/-! ## §2 Trees -/

namespace Phrase

variable {rest rest' : List Token}

theorem additiveSymbol_injective {subtracted subtracted' : Bool}
    (h : Token.symbol (additiveSymbol subtracted) = .symbol (additiveSymbol subtracted')) :
    subtracted = subtracted' := by
  cases subtracted <;> cases subtracted' <;> first | rfl | cases h

/-- A sign continues a sum. -/
theorem not_leads_additiveSymbol {subtracted : Bool} {ts : List Token}
    (h : leads Buffer.isAdditive (.symbol (additiveSymbol subtracted) :: ts) = false) : False := by
  cases subtracted <;> cases h

/-- The symbol that introduces an operand; numbers have none. -/
def Unary.symbol? : Unary → Option Symbol
  | .number _ => none
  | .pi => some .pi
  | .euler => some .euler
  | .root .. => some .sqrt
  | .group .. => some .leftParen
  | .call f .. => some f

/-- Operands with the same tokens in front are of one kind. -/
theorem Unary.symbol?_unique {x x' : Unary} (h : x.tokens ++ rest = x'.tokens ++ rest') :
    x.symbol? = x'.symbol? := by
  cases x <;> cases x' <;> obtain ⟨hfirst, -⟩ := List.cons.inj h <;>
    first
      | rfl
      | exact absurd hfirst (Number.token_ne_symbol _ _)
      | exact absurd hfirst.symm (Number.token_ne_symbol _ _)
      | (cases hfirst; rfl)
      | cases hfirst

mutual

/-- Tokens begin with one operand at most that takes all continuations. -/
theorem Unary.unique {rest rest' : List Token} (x x' : Unary) (hx : x.Greedy rest) (hx' : x'.Greedy rest')
    (h : x.tokens ++ rest = x'.tokens ++ rest') : x = x' ∧ rest = rest' := by
  -- The first token tells the kind, so only operands of one kind are left to compare.
  have hsymbol := Unary.symbol?_unique h
  match x with
  | .number n =>
    cases x' with
    | number n' =>
      obtain ⟨hfirst, hrests⟩ := List.cons.inj h
      rw [Number.token_injective hfirst]
      exact ⟨rfl, hrests⟩
    | _ => cases hsymbol
  | .pi =>
    cases x' with
    | pi => exact ⟨rfl, (List.cons.inj h).2⟩
    | call f hf => cases hsymbol; cases hf
    | _ => cases hsymbol
  | .euler =>
    cases x' with
    | euler => exact ⟨rfl, (List.cons.inj h).2⟩
    | call f hf => cases hsymbol; cases hf
    | _ => cases hsymbol
  | .root negated y =>
    cases x' with
    | root negated' y' =>
      simp only [Unary.tokens, List.cons_append, List.append_assoc] at h
      obtain ⟨rfl, hy⟩ := signTokens_unique (List.cons.inj h).2 (y.leads_minus _) (y'.leads_minus _)
      obtain ⟨rfl, hrests⟩ := Unary.unique y y' hx hx' hy
      exact ⟨rfl, hrests⟩
    | call f hf => cases hsymbol; cases hf
    | _ => cases hsymbol
  | .group e closed =>
    cases x' with
    | group e' closed' =>
      simp only [Unary.tokens, List.cons_append, List.append_assoc] at h
      obtain ⟨rfl, hclosing⟩ := Expr.unique e e' hx.1 hx'.1 (List.cons.inj h).2
      obtain ⟨rfl, hrests⟩ := closingTokens_unique hclosing hx.2 hx'.2
      exact ⟨rfl, hrests⟩
    | call f hf => cases hsymbol; cases hf
    | _ => cases hsymbol
  | .call f hf e closed =>
    cases x' with
    | call f' hf' e' closed' =>
      cases hsymbol
      simp only [Unary.tokens, List.cons_append, List.append_assoc] at h
      obtain ⟨rfl, hclosing⟩ := Expr.unique e e' hx.1 hx'.1 (List.cons.inj h).2
      obtain ⟨rfl, hrests⟩ := closingTokens_unique hclosing hx.2 hx'.2
      exact ⟨rfl, hrests⟩
    | number n => cases hsymbol
    | _ => cases hsymbol; cases hf

theorem Suffix.unique {rest rest' : List Token} (x x' : Suffix) (hx : x.Greedy rest) (hx' : x'.Greedy rest')
    (h : x.tokens ++ rest = x'.tokens ++ rest') : x = x' ∧ rest = rest' := by
  match x, x' with
  | .mk y marks, .mk y' marks' =>
    simp only [Suffix.tokens, List.append_assoc] at h
    obtain ⟨rfl, hmarks⟩ := Unary.unique y y' hx.1 hx'.1 h
    obtain ⟨rfl, hrests⟩ := Mark.tokens_unique hmarks hx.2 hx'.2
    exact ⟨rfl, hrests⟩

theorem Factor.unique {rest rest' : List Token} (x x' : Factor) (hx : x.Greedy rest) (hx' : x'.Greedy rest')
    (h : x.tokens ++ rest = x'.tokens ++ rest') : x = x' ∧ rest = rest' := by
  match x, x' with
  | .plain y, .plain y' =>
    obtain ⟨rfl, hrests⟩ := Suffix.unique y y' hx.1 hx'.1 h
    exact ⟨rfl, hrests⟩
  | .plain y, .power y' e' =>
    simp only [Factor.tokens, List.append_assoc, List.cons_append] at h
    obtain ⟨-, rfl⟩ := Suffix.unique y y' hx.1 hx'.1 h
    -- A power sign behind the base would have been taken.
    cases hx.2
  | .power y e, .plain y' =>
    simp only [Factor.tokens, List.append_assoc, List.cons_append] at h
    obtain ⟨-, rfl⟩ := Suffix.unique y y' hx.1 hx'.1 h
    cases hx'.2
  | .power y e, .power y' e' =>
    simp only [Factor.tokens, List.append_assoc, List.cons_append] at h
    obtain ⟨rfl, hexponents⟩ := Suffix.unique y y' hx.1 hx'.1 h
    obtain ⟨rfl, hrests⟩ := Signed.unique e e' hx.2 hx'.2 (List.cons.inj hexponents).2
    exact ⟨rfl, hrests⟩

theorem Signed.unique {rest rest' : List Token} (x x' : Signed) (hx : x.Greedy rest) (hx' : x'.Greedy rest')
    (h : x.tokens ++ rest = x'.tokens ++ rest') : x = x' ∧ rest = rest' := by
  match x, x' with
  | .mk negated y, .mk negated' y' =>
    simp only [Signed.tokens, List.append_assoc] at h
    obtain ⟨rfl, hy⟩ := signTokens_unique h (y.leads_minus _) (y'.leads_minus _)
    obtain ⟨rfl, hrests⟩ := Factor.unique y y' hx hx' hy
    exact ⟨rfl, hrests⟩

theorem Term.unique {rest rest' : List Token} (x x' : Term) (hx : x.Greedy rest) (hx' : x'.Greedy rest')
    (h : x.tokens ++ rest = x'.tokens ++ rest') : x = x' ∧ rest = rest' := by
  match x, x' with
  | .mk y more, .mk y' more' =>
    simp only [Term.tokens, List.append_assoc] at h
    obtain ⟨rfl, hmore⟩ := Signed.unique y y' hx.1 hx'.1 h
    obtain ⟨rfl, hrests⟩ := Products.unique more more' hx.2 hx'.2 hmore
    exact ⟨rfl, hrests⟩

theorem Products.unique {rest rest' : List Token} (x x' : Products) (hx : x.Greedy rest)
    (hx' : x'.Greedy rest') (h : x.tokens ++ rest = x'.tokens ++ rest') : x = x' ∧ rest = rest' := by
  have hstarts {joint : Joint} {y : Signed} {more : Products} {ts : List Token}
      (hgreedy : (Products.cons joint y more).Greedy ts) :
      joint = .nothing → leads startsFactor (y.tokens ++ (more.tokens ++ ts)) = true := fun hjoint => by
    rw [leads_append y.tokens_ne_nil]
    exact hgreedy.1 hjoint
  match x, x' with
  | .nil, .nil => exact ⟨rfl, h⟩
  | .nil, .cons joint' y' more' =>
    simp only [Products.tokens, List.append_assoc, List.nil_append] at h
    -- The first product ends where the second one goes on, but the tokens there are the same.
    have hnone := nextLink_of_not_leads hx
    rw [h, nextLink_joint (hstarts hx')] at hnone
    cases hnone
  | .cons joint y more, .nil =>
    simp only [Products.tokens, List.append_assoc, List.nil_append] at h
    have hnone := nextLink_of_not_leads hx'
    rw [← h, nextLink_joint (hstarts hx)] at hnone
    cases hnone
  | .cons joint y more, .cons joint' y' more' =>
    simp only [Products.tokens, List.append_assoc] at h
    obtain ⟨rfl, hy⟩ := Joint.tokens_unique h (hstarts hx) (hstarts hx')
    obtain ⟨rfl, hmore⟩ := Signed.unique y y' hx.2.1 hx'.2.1 hy
    obtain ⟨rfl, hrests⟩ := Products.unique more more' hx.2.2 hx'.2.2 hmore
    exact ⟨rfl, hrests⟩

theorem Expr.unique {rest rest' : List Token} (x x' : Expr) (hx : x.Greedy rest) (hx' : x'.Greedy rest')
    (h : x.tokens ++ rest = x'.tokens ++ rest') : x = x' ∧ rest = rest' := by
  match x, x' with
  | .mk y more, .mk y' more' =>
    simp only [Expr.tokens, List.append_assoc] at h
    obtain ⟨rfl, hmore⟩ := Term.unique y y' hx.1 hx'.1 h
    obtain ⟨rfl, hrests⟩ := Sums.unique more more' hx.2 hx'.2 hmore
    exact ⟨rfl, hrests⟩

theorem Sums.unique {rest rest' : List Token} (x x' : Sums) (hx : x.Greedy rest)
    (hx' : x'.Greedy rest') (h : x.tokens ++ rest = x'.tokens ++ rest') : x = x' ∧ rest = rest' := by
  match x, x' with
  | .nil, .nil => exact ⟨rfl, h⟩
  | .nil, .term subtracted' y' more' =>
    obtain rfl : rest = _ := h
    exact (not_leads_additiveSymbol hx).elim
  | .nil, .percentage subtracted' y' more' =>
    obtain rfl : rest = _ := h
    exact (not_leads_additiveSymbol hx).elim
  | .term subtracted y more, .nil =>
    obtain rfl : _ = rest' := h
    exact (not_leads_additiveSymbol hx').elim
  | .percentage subtracted y more, .nil =>
    obtain rfl : _ = rest' := h
    exact (not_leads_additiveSymbol hx').elim
  | .term subtracted y more, .term subtracted' y' more' =>
    simp only [Sums.tokens, List.cons_append, List.append_assoc] at h
    obtain ⟨hsign, hy⟩ := List.cons.inj h
    obtain rfl := additiveSymbol_injective hsign
    obtain ⟨rfl, hmore⟩ := Term.unique y y' hx.2.1 hx'.2.1 hy
    obtain ⟨rfl, hrests⟩ := Sums.unique more more' hx.2.2 hx'.2.2 hmore
    exact ⟨rfl, hrests⟩
  -- Both trees say what the look-ahead sees behind the sign, and it sees the same tokens.
  | .term subtracted y more, .percentage subtracted' y' more' =>
    simp only [Sums.tokens, List.cons_append, List.append_assoc] at h
    have hpercentage := hx'.1
    rw [← (List.cons.inj h).2, hx.1] at hpercentage
    cases hpercentage
  | .percentage subtracted y more, .term subtracted' y' more' =>
    simp only [Sums.tokens, List.cons_append, List.append_assoc] at h
    have hpercentage := hx.1
    rw [(List.cons.inj h).2, hx'.1] at hpercentage
    cases hpercentage
  -- The number of a percentage is one token, so it is told by that.
  | .percentage subtracted y more, .percentage subtracted' y' more' =>
    obtain ⟨hsign, hy⟩ := List.cons.inj h
    obtain rfl := additiveSymbol_injective hsign
    obtain ⟨hfirst, hmore⟩ := List.cons.inj hy
    obtain rfl := Number.token_injective hfirst
    obtain ⟨rfl, hrests⟩ := Sums.unique more more' hx.2 hx'.2 (List.cons.inj hmore).2
    exact ⟨rfl, hrests⟩

end

end Phrase

end Reckoner.Evaluation

/-! ## §3 Buffers -/

namespace Reckoner.Buffer

open Reckoner.Evaluation

/-- A tree derives the tokens in scope up to a position: they are its yield, it takes all continuations
that the tokens behind them allow, and it is not nested too deeply. -/
structure Derives (b : Buffer) (s : Scope) (t : Phrase.Expr) (position : Nat) : Prop where
  position_le : position ≤ (b.window s).length
  yield : t.tokens = (b.window s).take position
  greedy : t.Greedy ((b.window s).drop position)
  nested : t.height ≤ deepestNesting

namespace Derives

variable {b : Buffer} {s : Scope} {t t' : Phrase.Expr} {position position' : Nat}

theorem window_eq (h : b.Derives s t position) :
    b.window s = t.tokens ++ (b.window s).drop position := by
  rw [h.yield, List.take_append_drop]

theorem length_tokens (h : b.Derives s t position) : t.tokens.length = position := by
  rw [h.yield, List.length_take, Nat.min_eq_left h.position_le]

theorem unique (h : b.Derives s t position) (h' : b.Derives s t' position') :
    t = t' ∧ position = position' := by
  obtain ⟨rfl, -⟩ := t.unique t' h.greedy h'.greedy (h.window_eq.symm.trans h'.window_eq)
  exact ⟨rfl, h.length_tokens.symm.trans h'.length_tokens⟩

end Derives

/-- A tree that stands in front of the other tokens in scope derives the tokens up to its end. -/
theorem derives_of_window {b : Buffer} {s : Scope} {t : Phrase.Expr} {rest : List Token}
    (h : b.window s = t.tokens ++ rest) (hgreedy : t.Greedy rest) (hnested : t.height ≤ deepestNesting) :
    b.Derives s t t.tokens.length where
  position_le := by
    rw [h, List.length_append]
    exact Nat.le_add_right _ _
  yield := by rw [h, List.take_left]
  greedy := by
    rw [h, List.drop_left]
    exact hgreedy
  nested := hnested

/-- A scope that asks for no more tokens than there are never looks beyond them. -/
theorem mode_beyond {b : Buffer} {s : Scope} (hs : s.reach ≤ b.length) : (b.mode s).beyond = false :=
  decide_eq_false (Int.not_lt.mpr hs)

/-- Where evaluation has read tokens, a tree derives them and has the value. -/
theorem exists_derives {b : Buffer} {s : Scope} (hs : s.reach ≤ b.length) {position : Nat} {x : Operand}
    (h : b.evaluatePrefix s = .ok (position, x)) :
    ∃ t, b.Derives s t position ∧ t.value (b.mode s) = .ok x := by
  have hm := mode_beyond hs
  simp only [evaluatePrefix, bind_ok_iff] at h
  obtain ⟨⟨y, rest⟩, hread, h⟩ := h
  cases h
  obtain ⟨t, htokens, hgreedy, hheight, hvalue⟩ :=
    of_expr_ok hm (readTrees hm deepestNesting) hread
  -- The position is behind the tokens of the tree.
  have hposition : (b.window s).length - rest.length = t.tokens.length := by
    rw [htokens, List.length_append, Nat.add_sub_cancel]
  refine ⟨t, ?_, hvalue⟩
  dsimp only
  rw [hposition]
  exact derives_of_window htokens hgreedy hheight

/-- Where a tree with a value derives tokens, evaluation reads them. -/
theorem Derives.evaluatePrefix_eq {b : Buffer} {s : Scope} (hs : s.reach ≤ b.length) {t : Phrase.Expr}
    {position : Nat} {x : Operand} (hderives : b.Derives s t position)
    (hvalue : t.value (b.mode s) = .ok x) : b.evaluatePrefix s = .ok (position, x) := by
  have hread := t.read (mode_beyond hs) deepestNesting hderives.greedy hvalue
  -- The tokens in scope begin with those of the tree, and there is room for it.
  rw [← hderives.window_eq, within_of_le hderives.nested] at hread
  simp only [evaluatePrefix, hread, ok_bind, List.length_drop]
  rw [Nat.sub_sub_self hderives.position_le]
  rfl

/-- Evaluating the tokens in scope gives a position and a value exactly if some tree of the grammar derives
the tokens up to that position and has that value. There is one such tree at most, whatever its value. -/
theorem evaluatePrefix_iff_derives {b : Buffer} {s : Scope} (hs : s.reach ≤ b.length) :
    (∀ position x, b.evaluatePrefix s = .ok (position, x)
      ↔ ∃ t, b.Derives s t position ∧ t.value (b.mode s) = .ok x)
    ∧ ∀ t t' position position',
      b.Derives s t position → b.Derives s t' position' → t = t' ∧ position = position' := by
  refine ⟨fun position x => ⟨exists_derives hs, ?_⟩, fun t t' position position' h h' => h.unique h'⟩
  rintro ⟨t, hderives, hvalue⟩
  exact hderives.evaluatePrefix_eq hs hvalue

/-- Twice the sum of one and ten percent, with a plus that is not in scope. -/
def twiceOpen : Buffer :=
  [.literal ⟨"2", "", false, 0⟩, .symbol .times, .symbol .leftParen, .literal ⟨"1", "", false, 0⟩,
    .symbol .plus, .literal ⟨"10", "", false, 0⟩, .symbol .percent, .symbol .plus]

/-- An operand that stands alone. -/
def alone (x : Phrase.Unary) : Phrase.Signed :=
  .mk false (.plain (.mk x []))

/-- The tree of what is in the parenthesis. -/
def onePlusTenPercent : Phrase.Expr :=
  .mk (.mk (alone (.number (.literal ⟨"1", "", false, 0⟩))) .nil)
    (.percentage false (.literal ⟨"10", "", false, 0⟩) .nil)

/-- The tree of all tokens but the last one, with the parenthesis left open. -/
def twiceOpenTree : Phrase.Expr :=
  .mk (.mk (alone (.number (.literal ⟨"2", "", false, 0⟩)))
    (.cons .times (alone (.group onePlusTenPercent false)) .nil)) .nil

theorem greedy_twiceOpenTree : twiceOpenTree.Greedy [] := by
  have hinner : onePlusTenPercent.Greedy [] := ⟨⟨⟨⟨trivial, rfl⟩, rfl⟩, rfl⟩, rfl, rfl⟩
  exact ⟨⟨⟨⟨trivial, rfl⟩, rfl⟩, nofun, ⟨⟨⟨hinner, fun _ => rfl⟩, rfl⟩, rfl⟩, rfl⟩, rfl⟩

theorem value_twiceOpenTree :
    twiceOpenTree.value ⟨false, false⟩ = .ok (.computed (.rational (mkRat 11 5))) := by
  decide +kernel

theorem evaluatePrefix_iff_derives_twiceOpen :
    (7 : Int) ≤ twiceOpen.length
    ∧ twiceOpen.evaluatePrefix ⟨false, 7⟩ = .ok (7, .computed (.rational (mkRat 11 5)))
    ∧ ∀ t position, twiceOpen.Derives ⟨false, 7⟩ t position → t = twiceOpenTree ∧ position = 7 := by
  have hreach : (7 : Int) ≤ twiceOpen.length := by decide
  -- The plus at the end is not in scope.
  have hwindow : twiceOpen.window ⟨false, 7⟩ = twiceOpenTree.tokens ++ [] := rfl
  have hderives : twiceOpen.Derives ⟨false, 7⟩ twiceOpenTree 7 :=
    derives_of_window hwindow greedy_twiceOpenTree (by decide)
  obtain ⟨hiff, hunique⟩ := evaluatePrefix_iff_derives (s := ⟨false, 7⟩) hreach
  exact ⟨hreach, (hiff _ _).mpr ⟨twiceOpenTree, hderives, value_twiceOpenTree⟩,
    fun t position h => hunique _ _ _ _ h hderives⟩

end Reckoner.Buffer
