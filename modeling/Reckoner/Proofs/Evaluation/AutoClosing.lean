import Reckoner.Proofs.Buffer.Operation
import Reckoner.Proofs.Evaluation.Abbreviation

/-!
# Closing parentheses that may be left out

A buffer that evaluates may have parentheses and functions open at its end. As many closing parentheses may be
put behind it as are open, and each of them leaves its value as it is; with one more, reading stops in front
of that one.

- `Supplied` relates two trees: the second one has closing parentheses more at its end, and is otherwise as
  good as the first;
- `Phrase.Expr.supply`: closing parentheses may be supplied to a tree as long as it leaves something open.
  They close the innermost groups first;
- `evaluate_closings` puts all together.
-/

namespace Reckoner.Evaluation

/-! ## §1 Nesting of closed trees -/

namespace Phrase

mutual

/-- Closing parentheses nest nothing more deeply. -/
theorem Unary.close_height (x : Unary) : x.close.height = x.height := by
  match x with
  | .number _ | .pi | .euler => rfl
  | .root _ x => simp only [Unary.close, Unary.height, Unary.close_height x]
  | .group x _ | .call _ _ x _ => simp only [Unary.close, Unary.height, Expr.close_height x]

theorem Suffix.close_height (x : Suffix) : x.close.height = x.height := by
  match x with
  | .mk x _ => exact Unary.close_height x

theorem Factor.close_height (x : Factor) : x.close.height = x.height := by
  match x with
  | .plain x => exact Suffix.close_height x
  | .power x e =>
    simp only [Factor.close, Factor.height, Suffix.close_height x, Signed.close_height e]

theorem Signed.close_height (x : Signed) : x.close.height = x.height := by
  match x with
  | .mk _ x => exact Factor.close_height x

theorem Term.close_height (x : Term) : x.close.height = x.height := by
  match x with
  | .mk x more =>
    simp only [Term.close, Term.height, Signed.close_height x, Products.close_height more]

theorem Products.close_height (more : Products) : more.close.height = more.height := by
  match more with
  | .nil => rfl
  | .cons _ x more =>
    simp only [Products.close, Products.height, Signed.close_height x, Products.close_height more]

theorem Expr.close_height (x : Expr) : x.close.height = x.height := by
  match x with
  | .mk x more => simp only [Expr.close, Expr.height, Term.close_height x, Sums.close_height more]

theorem Sums.close_height (more : Sums) : more.close.height = more.height := by
  match more with
  | .nil => rfl
  | .term _ x more =>
    simp only [Sums.close, Sums.height, Term.close_height x, Sums.close_height more]
  | .percentage _ _ more => simp only [Sums.close, Sums.height, Sums.close_height more]

end

end Phrase

/-! ## §2 Supplying closing parentheses -/

/-- Where tokens follow, no closing parenthesis is missing. -/
theorem Closes.inFront {k : Nat} {rest ts ts' : List Token} (h : Closes k rest ts ts') (hrest : rest ≠ []) :
    k = 0 ∧ ts' = ts := by
  obtain rfl : k = 0 := Classical.byContradiction fun hk => hrest (h.atEnd hk)
  exact ⟨rfl, h.tokens.trans (List.append_nil ts)⟩

/-- The second tree has `k` closing parentheses more at its end, is nested as deeply and has the same
value. -/
structure Supplied {τ α : Type} (tokens : τ → List Token) (height : τ → Nat) (value : Mode → τ → α)
    (k : Nat) (x x' : τ) : Prop where
  tokens : tokens x' = tokens x ++ closings k
  height : height x' = height x
  value : ∀ m, value m x' = value m x

/-- At the end, what is supplied is a closing parenthesis with others behind it. -/
theorem Supplied.behind {τ α : Type} {tokens : τ → List Token} {height : τ → Nat} {value : Mode → τ → α}
    {j : Nat} {x x' : τ} (h : Supplied tokens height value (j + 1) x x') :
    tokens x' ++ [] = tokens x ++ [] ++ .symbol .rightParen :: closings j := by
  rw [List.append_nil, List.append_nil, h.tokens]
  rfl

namespace Phrase

theorem Products.eq_nil_of_tokens {more : Products} (h : more.tokens = []) : more = .nil := by
  cases more with
  | nil => rfl
  | cons joint x more => simp [Products.tokens, x.tokens_ne_nil] at h

/-- A sum goes on with tokens, so without tokens it does not go on. -/
theorem Sums.eq_nil_of_tokens {more : Sums} (h : more.tokens = []) : more = .nil := by
  cases more with
  | nil => rfl
  | term _ x more => cases h
  | percentage _ x more => cases h

/-- In a group, closing parentheses close what is inside first, and then the group. -/
theorem Expr.supply_group {j : Nat} {x : Expr} {closed : Bool} (h : x.Greedy (closingTokens closed ++ []))
    (hj : j < x.unclosed + leftOpen closed)
    (hinside : x.Greedy [] → j < x.unclosed →
      ∃ x', Supplied Expr.tokens Expr.height Expr.value (j + 1) x x' ∧ x'.Greedy []) :
    ∃ (x' : Expr) (closed' : Bool),
      x'.tokens ++ closingTokens closed' = x.tokens ++ closingTokens closed ++ closings (j + 1)
      ∧ x'.height = x.height ∧ (∀ m, x'.value m = x.value m) ∧ x'.Greedy (closingTokens closed' ++ []) := by
  obtain ⟨htokens, hgreedy⟩ := x.closes h
  cases closed with
  | true =>
    -- Nothing is open behind the parenthesis.
    obtain ⟨hclosed, -⟩ := htokens.inFront (List.cons_ne_nil _ _)
    rw [hclosed] at hj
    cases hj
  | false =>
    -- Either something is still open inside, or the group itself is what is closed next.
    rcases Nat.lt_or_ge j x.unclosed with hlt | hge
    · obtain ⟨x', hx', hgreedy'⟩ := hinside h hlt
      refine ⟨x', false, ?_, hx'.height, hx'.value, hgreedy'⟩
      rw [hx'.tokens, closingTokens, if_neg Bool.false_ne_true, List.append_nil, List.append_nil]
    -- All that is open inside is closed on the way, and the last parenthesis ends the group.
    · obtain rfl : j = x.unclosed := Nat.le_antisymm (Nat.le_of_lt_succ hj) hge
      refine ⟨x.close, true, ?_, x.close_height, fun m => x.close_value m, hgreedy []⟩
      rw [htokens.tokens]
      simp only [closings, closingTokens, List.replicate_succ', List.append_assoc, if_true,
        Bool.false_eq_true, if_false, List.nil_append]

mutual

/-- Closing parentheses may be supplied to a tree at the end, as long as it leaves something open. -/
theorem Unary.supply {j : Nat} (x : Unary) (h : x.Greedy []) (hj : j < x.unclosed) :
    ∃ x', Supplied Unary.tokens Unary.height Unary.value (j + 1) x x' ∧ x'.Greedy [] := by
  match x with
  | .number _ | .pi | .euler => cases hj
  | .root negated x =>
    obtain ⟨x', hx', hgreedy⟩ := Unary.supply x h hj
    refine ⟨.root negated x', ⟨?_, ?_, fun m => ?_⟩, hgreedy⟩
    · simp only [Unary.tokens, hx'.tokens, List.append_assoc, List.cons_append]
    · rw [Unary.height, hx'.height, Unary.height]
    · rw [Unary.value, hx'.value, Unary.value]
  | .group x closed =>
    obtain ⟨x', closed', htokens, hheight, hvalue, hgreedy⟩ :=
      Expr.supply_group h.1 hj fun h hj => Expr.supply x h hj
    refine ⟨.group x' closed', ⟨?_, ?_, fun m => ?_⟩, hgreedy, fun _ => rfl⟩
    · rw [Unary.tokens, htokens, Unary.tokens, List.cons_append]
    · rw [Unary.height, hheight, Unary.height]
    · rw [Unary.value, hvalue, Unary.value]
  | .call f hf x closed =>
    obtain ⟨x', closed', htokens, hheight, hvalue, hgreedy⟩ :=
      Expr.supply_group h.1 hj fun h hj => Expr.supply x h hj
    refine ⟨.call f hf x' closed', ⟨?_, ?_, fun m => ?_⟩, hgreedy, fun _ => rfl⟩
    · rw [Unary.tokens, htokens, Unary.tokens, List.cons_append]
    · rw [Unary.height, hheight, Unary.height]
    · rw [Unary.value, hvalue, Unary.value]

theorem Suffix.supply {j : Nat} (x : Suffix) (h : x.Greedy []) (hj : j < x.unclosed) :
    ∃ x', Supplied Suffix.tokens Suffix.height Suffix.value (j + 1) x x' ∧ x'.Greedy [] := by
  match x with
  -- Without suffixes, the operand is at the end.
  | .mk x [] =>
    obtain ⟨x', hx', hgreedy⟩ := Unary.supply x h.1 hj
    refine ⟨.mk x' [], ⟨?_, hx'.height, fun m => ?_⟩, hgreedy, rfl⟩
    · simp only [Suffix.tokens, Mark.tokens, List.map_nil, List.append_nil, hx'.tokens]
    · rw [Suffix.value, hx'.value, Suffix.value]
  | .mk x (k :: marks) =>
    -- Suffixes follow, so nothing is open.
    obtain ⟨hclosed, -⟩ := (Unary.closes x h.1).1.inFront (List.cons_ne_nil _ _)
    rw [Suffix.unclosed, hclosed] at hj
    cases hj

theorem Factor.supply {j : Nat} (x : Factor) (h : x.Greedy []) (hj : j < x.unclosed) :
    ∃ x', Supplied Factor.tokens Factor.height Factor.value (j + 1) x x' ∧ x'.Greedy [] := by
  match x with
  | .plain x =>
    obtain ⟨x', hx', hgreedy⟩ := Suffix.supply x h.1 hj
    exact ⟨.plain x', ⟨hx'.tokens, hx'.height, hx'.value⟩, hgreedy, rfl⟩
  | .power x e =>
    obtain ⟨htokens, hgreedy⟩ := Suffix.closes x h.1
    -- The base stands in front of the power sign, so only the exponent is open.
    obtain ⟨hclosed, hsame⟩ := htokens.inFront (List.cons_ne_nil _ _)
    rw [Factor.unclosed, hclosed, Nat.zero_add] at hj
    obtain ⟨e', he', hgreedy'⟩ := Signed.supply e h.2 hj
    refine ⟨.power x.close e', ⟨?_, ?_, fun m => ?_⟩, ?_, hgreedy'⟩
    · simp only [Factor.tokens, hsame, he'.tokens, List.append_assoc, List.cons_append]
    · rw [Factor.height, x.close_height, he'.height, Factor.height]
    · rw [Factor.value, x.close_value, he'.value, Factor.value]
    · rw [he'.behind]
      exact hgreedy (closings j)

theorem Signed.supply {j : Nat} (x : Signed) (h : x.Greedy []) (hj : j < x.unclosed) :
    ∃ x', Supplied Signed.tokens Signed.height Signed.value (j + 1) x x' ∧ x'.Greedy [] := by
  match x with
  | .mk negated x =>
    obtain ⟨x', hx', hgreedy⟩ := Factor.supply x h hj
    refine ⟨.mk negated x', ⟨?_, hx'.height, fun m => ?_⟩, hgreedy⟩
    · simp only [Signed.tokens, hx'.tokens, List.append_assoc]
    · cases negated <;> simp only [Signed.value, hx'.value]

theorem Term.supply {j : Nat} (x : Term) (h : x.Greedy []) (hj : j < x.unclosed) :
    ∃ x', Supplied Term.tokens Term.height Term.value (j + 1) x x' ∧ x'.Greedy [] := by
  match x with
  | .mk x more =>
    -- The last factor is what may be open: the first one, if no other follows.
    by_cases hmore : more.tokens = []
    · obtain rfl := Products.eq_nil_of_tokens hmore
      obtain ⟨x', hx', hgreedy⟩ := Signed.supply x h.1 hj
      refine ⟨.mk x' .nil, ⟨?_, ?_, fun m => ?_⟩, hgreedy, rfl⟩
      · simp only [Term.tokens, Products.tokens, List.append_nil, hx'.tokens]
      · rw [Term.height, hx'.height, Term.height]
      · rw [Term.value, hx'.value, Term.value]
    -- Nothing is open in front of further factors, so the closing parentheses go to these.
    · obtain ⟨htokens, hgreedy⟩ := Signed.closes x h.1
      obtain ⟨hclosed, hsame⟩ := htokens.inFront (by rwa [List.append_nil])
      rw [Term.unclosed, hclosed, Nat.zero_add] at hj
      obtain ⟨more', hmore', hgreedy'⟩ := Products.supply more h.2 hj
      refine ⟨.mk x.close more', ⟨?_, ?_, fun m => ?_⟩, ?_, hgreedy'⟩
      · rw [Term.tokens, hsame, hmore'.tokens, Term.tokens, List.append_assoc]
      · rw [Term.height, x.close_height, hmore'.height, Term.height]
      · simp only [Term.value, x.close_value, hmore'.value]
      · rw [hmore'.behind]
        exact hgreedy (closings j)

theorem Products.supply {j : Nat} (more : Products) (h : more.Greedy []) (hj : j < more.unclosed) :
    ∃ more', Supplied Products.tokens Products.height Products.value (j + 1) more more'
      ∧ more'.Greedy [] := by
  match more with
  | .nil => cases hj
  | .cons joint x more =>
    by_cases hmore : more.tokens = []
    · obtain rfl := Products.eq_nil_of_tokens hmore
      obtain ⟨x', hx', hgreedy⟩ := Signed.supply x h.2.1 hj
      refine ⟨.cons joint x' .nil, ⟨?_, ?_, fun m => ?_⟩, fun hjoint => ?_, hgreedy, rfl⟩
      · simp only [Products.tokens, List.append_nil, hx'.tokens, List.append_assoc]
      · rw [Products.height, hx'.height]
        rfl
      · simp only [Products.value, hx'.value]
      -- A factor that follows without a sign begins as it did before.
      · rw [hx'.tokens, leads_append x.tokens_ne_nil]
        exact h.1 hjoint
    · obtain ⟨htokens, hgreedy⟩ := Signed.closes x h.2.1
      obtain ⟨hclosed, hsame⟩ := htokens.inFront (by rwa [List.append_nil])
      rw [Products.unclosed, hclosed, Nat.zero_add] at hj
      obtain ⟨more', hmore', hgreedy'⟩ := Products.supply more h.2.2 hj
      refine ⟨.cons joint x.close more', ⟨?_, ?_, fun m => ?_⟩, ?_, ?_, hgreedy'⟩
      · simp only [Products.tokens, hsame, hmore'.tokens, List.append_assoc]
      · rw [Products.height, x.close_height, hmore'.height, Products.height]
      · simp only [Products.value, x.close_value, hmore'.value]
      · rw [hsame]
        exact h.1
      · rw [hmore'.behind]
        exact hgreedy (closings j)

theorem Expr.supply {j : Nat} (x : Expr) (h : x.Greedy []) (hj : j < x.unclosed) :
    ∃ x', Supplied Expr.tokens Expr.height Expr.value (j + 1) x x' ∧ x'.Greedy [] := by
  match x with
  | .mk x more =>
    by_cases hmore : more.tokens = []
    · obtain rfl := Sums.eq_nil_of_tokens hmore
      obtain ⟨x', hx', hgreedy⟩ := Term.supply x h.1 hj
      refine ⟨.mk x' .nil, ⟨?_, ?_, fun m => ?_⟩, hgreedy, rfl⟩
      · simp only [Expr.tokens, Sums.tokens, List.append_nil, hx'.tokens]
      · rw [Expr.height, hx'.height, Expr.height]
      · rw [Expr.value, hx'.value, Expr.value]
    · obtain ⟨htokens, hgreedy⟩ := Term.closes x h.1
      obtain ⟨hclosed, hsame⟩ := htokens.inFront (by rwa [List.append_nil])
      rw [Expr.unclosed, hclosed, Nat.zero_add] at hj
      obtain ⟨more', hmore', hgreedy'⟩ := Sums.supply more h.2 hj
      refine ⟨.mk x.close more', ⟨?_, ?_, fun m => ?_⟩, ?_, hgreedy'⟩
      · rw [Expr.tokens, hsame, hmore'.tokens, Expr.tokens, List.append_assoc]
      · rw [Expr.height, x.close_height, hmore'.height, Expr.height]
      · simp only [Expr.value, x.close_value, hmore'.value]
      · rw [hmore'.behind]
        exact hgreedy (closings j)

theorem Sums.supply {j : Nat} (more : Sums) (h : more.Greedy []) (hj : j < more.unclosed) :
    ∃ more', Supplied Sums.tokens Sums.height Sums.value (j + 1) more more' ∧ more'.Greedy [] := by
  match more with
  | .nil => cases hj
  | .term subtracted x more =>
    by_cases hmore : more.tokens = []
    · obtain rfl := Sums.eq_nil_of_tokens hmore
      obtain ⟨x', hx', hgreedy⟩ := Term.supply x h.2.1 hj
      refine ⟨.term subtracted x' .nil, ⟨?_, ?_, fun m => ?_⟩, ?_, hgreedy, rfl⟩
      · simp only [Sums.tokens, List.append_nil, hx'.tokens, List.cons_append]
      · rw [Sums.height, hx'.height]
        rfl
      · simp only [Sums.value, hx'.value]
      -- A closing parenthesis ends a percentage no more and no less than the end does.
      · show percentageNext (x'.tokens ++ []) = false
        rw [hx'.behind, percentageNext_rightParen]
        exact h.1
    · obtain ⟨htokens, hgreedy⟩ := Term.closes x h.2.1
      obtain ⟨hclosed, hsame⟩ := htokens.inFront (by rwa [List.append_nil])
      rw [Sums.unclosed, hclosed, Nat.zero_add] at hj
      obtain ⟨more', hmore', hgreedy'⟩ := Sums.supply more h.2.2 hj
      refine ⟨.term subtracted x.close more', ⟨?_, ?_, fun m => ?_⟩, ?_, ?_, hgreedy'⟩
      · simp only [Sums.tokens, hsame, hmore'.tokens, List.append_assoc, List.cons_append]
      · rw [Sums.height, x.close_height, hmore'.height, Sums.height]
      · simp only [Sums.value, x.close_value, hmore'.value]
      · rw [hsame, hmore'.behind, ← List.append_assoc, percentageNext_rightParen]
        exact h.1
      · rw [hmore'.behind]
        exact hgreedy (closings j)
  | .percentage subtracted x more =>
    obtain ⟨more', hmore', hgreedy⟩ := Sums.supply more h.2 hj
    refine ⟨.percentage subtracted x more', ⟨?_, ?_, fun m => ?_⟩, ?_, hgreedy⟩
    · simp only [Sums.tokens, hmore'.tokens, List.cons_append]
    · rw [Sums.height, hmore'.height, Sums.height]
    · simp only [Sums.value, hmore'.value]
    -- Nothing is open in the percentage itself: a number and a percent sign.
    · have hpercentage :=
        percentageNext_rightParen (x.token :: .symbol .percent :: (more.tokens ++ [])) (closings j)
      rw [hmore'.behind]
      exact hpercentage.trans h.1

end

end Phrase

end Reckoner.Evaluation

namespace Reckoner.Buffer

open Reckoner.Evaluation

/-! ## §3 Buffers -/

/-- A buffer that ends in no binary operator counts as a whole. -/
theorem withoutTrailingBinary_of_not_endsInBinary {b : Buffer} (h : b.endsInBinary = false) :
    b.withoutTrailingBinary = b := by
  rw [withoutTrailingBinary_eq, List.rdropWhile_eq_self_iff]
  intro hne
  rw [endsInBinary, List.getLast?_eq_some_getLast hne] at h
  exact Bool.eq_false_iff.mp h

/-- A closing parenthesis at the end is no binary operator. -/
theorem withoutTrailingBinary_closings (b : Buffer) (j : Nat) :
    withoutTrailingBinary (b ++ closings (j + 1)) = b ++ closings (j + 1) := by
  have hlast : b ++ closings (j + 1) = b ++ closings j ++ .symbol .rightParen :: [] := by
    rw [closings, List.replicate_succ', List.append_assoc]
    rfl
  rw [hlast, withoutTrailingBinary_append rfl]
  rfl

/-- What evaluating a buffer comes to if the grammar has a tree for the tokens it begins with. -/
theorem evaluate_of_tree {b : Buffer} {degrees : Bool} {t : Phrase.Expr} {rest : List Token} {x : Operand}
    (hb : b.withoutTrailingBinary = t.tokens ++ rest) (hgreedy : t.Greedy rest)
    (hnested : t.height ≤ deepestNesting) (hvalue : t.value ⟨degrees, false⟩ = .ok x) :
    b.evaluate degrees = if rest = [] then .ok x else
      b.describe.mapError EvaluationError.undisplayable >>= fun _ =>
        .error (.malformed (.unparsed t.tokens.length b.binaryStart)) := by
  have hread := t.read rfl deepestNesting hgreedy hvalue
  rw [within_of_le hnested] at hread
  -- What is not left over is what the tree has for tokens.
  have hlength : b.binaryStart - rest.length = t.tokens.length := by
    rw [← b.length_withoutTrailingBinary, hb, List.length_append, Nat.add_sub_cancel]
  rw [evaluate_eq, hb, hread]
  simp only [ok_bind, hlength]
  rfl

/-- Stored results without a text are what cannot be displayed of a buffer that evaluates. -/
theorem describe_without_text {b : Buffer} (hlisted : b.all isListed = true)
    (h : ∃ n v e s, Token.stored n v e s none ∈ b) : b.describe = .error .missingText := by
  rcases mapM_text_of_listed hlisted with ⟨-, hfull⟩ | ⟨hmissing, -⟩
  · exact absurd h hfull
  · exact describe_eq_error_iff.mpr (display_eq_error_iff.mpr hmissing)

/-- What is supplied to a tree leaves its value as it is. -/
theorem evaluate_supplied {t : Phrase.Expr} {degrees : Bool} {x : Operand} (hgreedy : t.Greedy [])
    (hnested : t.height ≤ deepestNesting) (hvalue : t.value ⟨degrees, false⟩ = .ok x) {j : Nat}
    (hj : j < t.unclosed) : evaluate (t.tokens ++ closings (j + 1)) degrees = .ok x := by
  obtain ⟨t', ht', hgreedy'⟩ := t.supply hgreedy hj
  have heq : withoutTrailingBinary (t.tokens ++ closings (j + 1)) = t'.tokens ++ [] := by
    rw [withoutTrailingBinary_closings, ht'.tokens, List.append_nil]
  rw [evaluate_of_tree heq hgreedy' (ht'.height ▸ hnested) ((ht'.value _).trans hvalue), if_pos rfl]

/-- Behind a tree that is closed, reading stops in front of the next closing parenthesis. -/
theorem evaluate_oversupplied {t : Phrase.Expr} {degrees : Bool} {x : Operand} (hgreedy : t.Greedy [])
    (hnested : t.height ≤ deepestNesting) (hvalue : t.value ⟨degrees, false⟩ = .ok x) (i : Nat) :
    evaluate (t.tokens ++ closings (t.unclosed + i + 1)) degrees
      = (describe (t.tokens ++ closings (t.unclosed + i + 1))).mapError EvaluationError.undisplayable
        >>= fun _ => .error (.malformed (.unparsed (t.tokens.length + t.unclosed : Nat)
          (t.tokens.length + (t.unclosed + i + 1) : Nat))) := by
  obtain ⟨hclosed, hgreedy'⟩ := t.closes hgreedy
  -- The first of the parentheses close the tree, and the next one is not its own.
  have hsplit : closings (t.unclosed + i + 1)
      = closings t.unclosed ++ .symbol .rightParen :: closings i := by
    rw [Nat.add_assoc, closings, ← List.replicate_append_replicate]
    rfl
  have heq : withoutTrailingBinary (t.tokens ++ closings (t.unclosed + i + 1))
      = t.close.tokens ++ .symbol .rightParen :: closings i := by
    rw [withoutTrailingBinary_closings, hsplit, hclosed.tokens, List.append_assoc]
  have hlength : t.close.tokens.length = t.tokens.length + t.unclosed := by
    rw [hclosed.tokens, List.length_append, closings, List.length_replicate]
  have hstart : binaryStart (t.tokens ++ closings (t.unclosed + i + 1))
      = t.tokens.length + (t.unclosed + i + 1) := by
    rw [← length_withoutTrailingBinary, withoutTrailingBinary_closings, List.length_append, closings,
      List.length_replicate]
  rw [evaluate_of_tree heq (hgreedy' _) (t.close_height.symm ▸ hnested) (t.close_value _ ▸ hvalue),
    if_neg (List.cons_ne_nil _ _), hlength, hstart]

/-- As many closing parentheses as a buffer leaves open may be put behind it, and none changes its value.
With more of them tokens are left, which is reported unless a stored result has no text to be named by. -/
theorem evaluate_closings {b : Buffer} {degrees : Bool} {x : Operand} (hend : b.endsInBinary = false)
    (h : b.evaluate degrees = .ok x) :
    (∀ j ≤ b.unclosed, evaluate (b ++ closings j) degrees = .ok x)
    ∧ ∀ j > b.unclosed,
      ((∀ n v e s, .stored n v e s none ∉ b) → evaluate (b ++ closings j) degrees
        = .error (.malformed (.unparsed (b.length + b.unclosed : Nat) (b.length + j : Nat))))
      ∧ ((∃ n v e s, .stored n v e s none ∈ b) → evaluate (b ++ closings j) degrees
        = .error (.undisplayable .missingText)) := by
  have hstart : b.binaryStart = b.length := by
    rw [← b.length_withoutTrailingBinary, withoutTrailingBinary_of_not_endsInBinary hend]
  have hwhole : b.evaluatePrefix ⟨degrees, b.length⟩ = .ok (b.length, x) := by
    rw [← hstart]
    exact evaluate_eq_ok_iff.mp h
  -- There is a tree for the buffer, and the parentheses are put behind that.
  obtain ⟨t, htokens, hgreedy, hnested, hvalue⟩ :=
    of_expr_ok rfl (readTrees rfl deepestNesting) (evaluatePrefix_eq_ok_iff.mp hwhole)
  obtain rfl : b = t.tokens := htokens.trans (List.append_nil _)
  have hopen : unclosed t.tokens = t.unclosed := (t.openAfter_tokens 0).trans (Nat.zero_add _)
  rw [hopen]
  refine ⟨fun j hj => ?_, fun j hj => ?_⟩
  · cases j with
    | zero => rwa [closings, List.replicate_zero, List.append_nil]
    | succ j => exact evaluate_supplied hgreedy hnested hvalue hj
  · obtain ⟨i, rfl⟩ := Nat.exists_eq_add_of_lt hj
    rw [evaluate_oversupplied hgreedy hnested hvalue]
    refine ⟨fun htexts => ?_, fun hmissing => ?_⟩
    -- All tokens that are read can be displayed, and so can closing parentheses.
    · obtain ⟨text, htext⟩ : ∃ text, describe (t.tokens ++ closings (t.unclosed + i + 1)) = .ok text := by
        refine describe_ok fun u hu => ?_
        rcases List.mem_append.mp hu with hu | hu
        · exact text_of_evaluatePrefix hwhole htexts u hu
        · rw [List.eq_of_mem_replicate hu]
          exact Token.operatorText_listed .rightParen
      rw [htext]
      rfl
    -- Operators all have keys, so it is a stored result that stops the report.
    · have hlisted : (t.tokens ++ closings (t.unclosed + i + 1)).all isListed = true := by
        rw [List.all_append, t.all_isListed, closings, List.all_replicate]
        rfl
      obtain ⟨n, v, e, s, hmem⟩ := hmissing
      rw [describe_without_text hlisted ⟨n, v, e, s, List.mem_append_left _ hmem⟩]
      rfl

/-- Two in the exponent of two, with a root and two parentheses open. -/
def openPower : Buffer :=
  [.symbol .leftParen, number "2", .symbol .power, .symbol .sqrt, .symbol .leftParen, number "4"]

/-- Two groups may be closed, and a third parenthesis is left over. -/
theorem evaluate_closings_openPower :
    openPower.endsInBinary = false
    ∧ openPower.evaluate false = .ok (.computed 4)
    ∧ (∀ j ≤ 2, evaluate (openPower ++ closings j) false = .ok (.computed 4))
    ∧ evaluate (openPower ++ closings 3) false = .error (.malformed (.unparsed 8 9)) := by
  have hvalue : openPower.evaluate false = .ok (.computed 4) := by decide +kernel
  obtain ⟨hsupplied, hleft⟩ := evaluate_closings (b := openPower) rfl hvalue
  have htexts : ∀ n v e s, Token.stored n v e s none ∉ openPower := by
    simp [openPower, number, Token.symbol]
  exact ⟨rfl, hvalue, hsupplied, (hleft 3 (by decide)).1 htexts⟩

/-- With a closing parenthesis too many behind a stored result that has no text, no syntax error is
reported. -/
theorem not_malformed_withoutText :
    withoutText.endsInBinary = false
    ∧ withoutText.evaluate false = .ok (.ofValue ⟨.ofInt (10 ^ 4300), .result 0⟩)
    ∧ withoutText.unclosed = 0
    ∧ ∀ e, evaluate (withoutText ++ closings 1) false ≠ .error (.malformed e) := by
  have hvalue : withoutText.evaluate false = .ok (.ofValue ⟨.ofInt (10 ^ 4300), .result 0⟩) := rfl
  have hreport : evaluate (withoutText ++ closings 1) false = .error (.undisplayable .missingText) := rfl
  exact ⟨rfl, hvalue, rfl, fun e he => by cases hreport.symm.trans he⟩

end Reckoner.Buffer
