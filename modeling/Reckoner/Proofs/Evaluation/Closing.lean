import Reckoner.Evaluation.Basic
import Reckoner.Proofs.Evaluation.Uniqueness

/-!
# Closing what is open

Parentheses and functions may be left open at the end of an expression. Putting the missing closing
parentheses there changes nothing about its value, and what is closed may stand in front of a further
closing parenthesis with any tokens behind it.

- `Buffer.unclosed` counts the parentheses and functions that a token list leaves open, and
  `Phrase.Expr.openAfter_tokens` finds the same count in its tree;
- `Phrase.Expr.close` closes them all, `Phrase.Expr.close_value` says that the value stays the same, and
  `Phrase.Expr.closes` what the tokens are then;
- `readers_group`: what is read of a whole token list is read of it in parentheses, too.
-/

namespace Reckoner.Buffer

/-! ## §1 Counting -/

/-- Whether a token opens a parenthesis. -/
def opens (t : Token) : Bool :=
  t.isSymbol .leftParen || t.has Symbol.isFunction

/-- How many parentheses are open behind some tokens, if `n` are in front of them. -/
def openAfter (n : Nat) (ts : List Token) : Nat :=
  ts.foldl (fun n t => if opens t then n + 1 else if t.isSymbol .rightParen then n - 1 else n) n

/-- The number of parentheses and functions that a buffer leaves open. -/
def unclosed (b : Buffer) : Nat :=
  openAfter 0 b

theorem openAfter_append (n : Nat) (ts us : List Token) :
    openAfter n (ts ++ us) = openAfter (openAfter n ts) us :=
  List.foldl_append

/-- A token that neither opens nor closes leaves the count as it is. -/
theorem openAfter_cons {t : Token} (hopens : opens t = false)
    (hcloses : t.isSymbol .rightParen = false) (n : Nat) (ts : List Token) :
    openAfter n (t :: ts) = openAfter n ts := by
  simp [openAfter, hopens, hcloses]

theorem openAfter_opens {t : Token} (h : opens t = true) (n : Nat) (ts : List Token) :
    openAfter n (t :: ts) = openAfter (n + 1) ts := by
  simp [openAfter, h]

end Reckoner.Buffer

namespace Reckoner.Evaluation

open Reckoner.Buffer (opens openAfter openAfter_append openAfter_cons openAfter_opens)

/-- A missing closing parenthesis leaves one open. -/
def leftOpen (closed : Bool) : Nat :=
  if closed then 0 else 1

theorem openAfter_closingTokens (n : Nat) (closed : Bool) :
    openAfter (n + 1) (closingTokens closed) = n + leftOpen closed := by
  cases closed <;> rfl

/-- Postfix operators neither open nor close. -/
theorem openAfter_marks (n : Nat) (marks : List Mark) : openAfter n (Mark.tokens marks) = n := by
  induction marks with
  | nil => rfl
  | cons k marks ih =>
    have hk : openAfter n (.symbol k.symbol :: Mark.tokens marks) = openAfter n (Mark.tokens marks) := by
      cases k <;> rfl
    exact hk.trans ih

theorem openAfter_signTokens (n : Nat) (negated : Bool) : openAfter n (signTokens negated) = n := by
  cases negated <;> rfl

theorem openAfter_joint (n : Nat) (joint : Joint) : openAfter n joint.tokens = n := by
  cases joint <;> rfl

theorem openAfter_additive (n : Nat) (subtracted : Bool) (ts : List Token) :
    openAfter n (.symbol (additiveSymbol subtracted) :: ts) = openAfter n ts := by
  cases subtracted <;> rfl

namespace Phrase

mutual

/-- How many groups and functions of a tree lack their closing parenthesis. -/
def Unary.unclosed : Unary → Nat
  | .number _ | .pi | .euler => 0
  | .root _ x => x.unclosed
  | .group x closed | .call _ _ x closed => x.unclosed + leftOpen closed

def Suffix.unclosed : Suffix → Nat
  | .mk x _ => x.unclosed

def Factor.unclosed : Factor → Nat
  | .plain x => x.unclosed
  | .power x e => x.unclosed + e.unclosed

def Signed.unclosed : Signed → Nat
  | .mk _ x => x.unclosed

def Term.unclosed : Term → Nat
  | .mk x more => x.unclosed + more.unclosed

def Products.unclosed : Products → Nat
  | .nil => 0
  | .cons _ x more => x.unclosed + more.unclosed

def Expr.unclosed : Expr → Nat
  | .mk x more => x.unclosed + more.unclosed

def Sums.unclosed : Sums → Nat
  | .nil => 0
  | .term _ x more => x.unclosed + more.unclosed
  | .percentage _ _ more => more.unclosed

end

theorem Number.openAfter_token (x : Number) (n : Nat) (ts : List Token) :
    openAfter n (x.token :: ts) = openAfter n ts := by
  cases x <;> rfl

mutual

/-- The tokens of a tree leave open what the tree does. -/
theorem Unary.openAfter_tokens (x : Unary) (n : Nat) : openAfter n x.tokens = n + x.unclosed := by
  match x with
  | .number x => exact x.openAfter_token n []
  | .pi | .euler => rfl
  | .root negated x =>
    have hroot := openAfter_cons (t := .symbol .sqrt) rfl rfl n (signTokens negated ++ x.tokens)
    rw [Unary.tokens, hroot, openAfter_append, openAfter_signTokens]
    exact Unary.openAfter_tokens x n
  | .group x closed =>
    rw [Unary.tokens, openAfter_opens rfl, openAfter_append, Expr.openAfter_tokens x,
      Nat.add_right_comm, openAfter_closingTokens, Nat.add_assoc]
    rfl
  -- A function opens a parenthesis of its own.
  | .call f hf x closed =>
    have hopens : opens (.symbol f) = true := Bool.or_eq_true_iff.mpr (.inr hf)
    rw [Unary.tokens, openAfter_opens hopens, openAfter_append, Expr.openAfter_tokens x,
      Nat.add_right_comm, openAfter_closingTokens, Nat.add_assoc]
    rfl

theorem Suffix.openAfter_tokens (x : Suffix) (n : Nat) : openAfter n x.tokens = n + x.unclosed := by
  match x with
  | .mk x marks =>
    rw [Suffix.tokens, openAfter_append, openAfter_marks]
    exact Unary.openAfter_tokens x n

theorem Factor.openAfter_tokens (x : Factor) (n : Nat) : openAfter n x.tokens = n + x.unclosed := by
  match x with
  | .plain x => exact Suffix.openAfter_tokens x n
  | .power x e =>
    rw [Factor.tokens, openAfter_append, openAfter_cons rfl rfl, Suffix.openAfter_tokens x,
      Signed.openAfter_tokens e, Nat.add_assoc]
    rfl

theorem Signed.openAfter_tokens (x : Signed) (n : Nat) : openAfter n x.tokens = n + x.unclosed := by
  match x with
  | .mk negated x =>
    rw [Signed.tokens, openAfter_append, openAfter_signTokens]
    exact Factor.openAfter_tokens x n

theorem Term.openAfter_tokens (x : Term) (n : Nat) : openAfter n x.tokens = n + x.unclosed := by
  match x with
  | .mk x more =>
    rw [Term.tokens, openAfter_append, Signed.openAfter_tokens x, Products.openAfter_tokens more,
      Nat.add_assoc]
    rfl

theorem Products.openAfter_tokens (more : Products) (n : Nat) :
    openAfter n more.tokens = n + more.unclosed := by
  match more with
  | .nil => rfl
  | .cons joint x more =>
    rw [Products.tokens, openAfter_append, openAfter_append, openAfter_joint,
      Signed.openAfter_tokens x, Products.openAfter_tokens more, Nat.add_assoc]
    rfl

theorem Expr.openAfter_tokens (x : Expr) (n : Nat) : openAfter n x.tokens = n + x.unclosed := by
  match x with
  | .mk x more =>
    rw [Expr.tokens, openAfter_append, Term.openAfter_tokens x, Sums.openAfter_tokens more,
      Nat.add_assoc]
    rfl

theorem Sums.openAfter_tokens (more : Sums) (n : Nat) :
    openAfter n more.tokens = n + more.unclosed := by
  match more with
  | .nil => rfl
  | .term subtracted x more =>
    rw [Sums.tokens, openAfter_additive, openAfter_append, Term.openAfter_tokens x,
      Sums.openAfter_tokens more, Nat.add_assoc]
    rfl
  | .percentage subtracted x more =>
    rw [Sums.tokens, openAfter_additive, x.openAfter_token, openAfter_cons rfl rfl]
    exact Sums.openAfter_tokens more n

end

/-! ## §2 Closing -/

mutual

/-- A tree with all its closing parentheses. -/
def Unary.close : Unary → Unary
  | .number x => .number x
  | .pi => .pi
  | .euler => .euler
  | .root negated x => .root negated x.close
  | .group x _ => .group x.close true
  | .call f h x _ => .call f h x.close true

def Suffix.close : Suffix → Suffix
  | .mk x marks => .mk x.close marks

def Factor.close : Factor → Factor
  | .plain x => .plain x.close
  | .power x e => .power x.close e.close

def Signed.close : Signed → Signed
  | .mk negated x => .mk negated x.close

def Term.close : Term → Term
  | .mk x more => .mk x.close more.close

def Products.close : Products → Products
  | .nil => .nil
  | .cons joint x more => .cons joint x.close more.close

def Expr.close : Expr → Expr
  | .mk x more => .mk x.close more.close

def Sums.close : Sums → Sums
  | .nil => .nil
  | .term subtracted x more => .term subtracted x.close more.close
  | .percentage subtracted x more => .percentage subtracted x more.close

end

mutual

/-- Closing parentheses have no value. -/
theorem Unary.close_value (m : Mode) (x : Unary) : x.close.value m = x.value m := by
  match x with
  | .number _ | .pi | .euler => rfl
  | .root _ x => simp only [Unary.close, Unary.value, Unary.close_value m x]
  | .group x _ | .call _ _ x _ => simp only [Unary.close, Unary.value, Expr.close_value m x]

theorem Suffix.close_value (m : Mode) (x : Suffix) : x.close.value m = x.value m := by
  match x with
  | .mk x marks => simp only [Suffix.close, Suffix.value, Unary.close_value m x]

theorem Factor.close_value (m : Mode) (x : Factor) : x.close.value m = x.value m := by
  match x with
  | .plain x => exact Suffix.close_value m x
  | .power x e =>
    simp only [Factor.close, Factor.value, Suffix.close_value m x, Signed.close_value m e]

theorem Signed.close_value (m : Mode) (x : Signed) : x.close.value m = x.value m := by
  match x with
  | .mk false x => exact Factor.close_value m x
  | .mk true x => simp only [Signed.close, Signed.value, Factor.close_value m x]

theorem Term.close_value (m : Mode) (x : Term) : x.close.value m = x.value m := by
  match x with
  | .mk x more =>
    simp only [Term.close, Term.value, Signed.close_value m x, Products.close_value m more]

theorem Products.close_value (m : Mode) (more : Products) (y : Operand) :
    more.close.value m y = more.value m y := by
  match more with
  | .nil => rfl
  | .cons _ x more =>
    simp only [Products.close, Products.value, Signed.close_value m x, Products.close_value m more]

theorem Expr.close_value (m : Mode) (x : Expr) : x.close.value m = x.value m := by
  match x with
  | .mk x more => simp only [Expr.close, Expr.value, Term.close_value m x, Sums.close_value m more]

theorem Sums.close_value (m : Mode) (more : Sums) (y : Operand) :
    more.close.value m y = more.value m y := by
  match more with
  | .nil => rfl
  | .term _ x more =>
    simp only [Sums.close, Sums.value, Term.close_value m x, Sums.close_value m more]
  | .percentage _ _ more => simp only [Sums.close, Sums.value, Sums.close_value m more]

end

end Phrase

/-! ## §3 The tokens of a closed tree -/

/-- Closing parentheses. -/
def closings (k : Nat) : List Token :=
  List.replicate k (.symbol .rightParen)

/-- One closing parenthesis more may as well stand in front of the others as behind them. -/
theorem closings_cons (k : Nat) (us : List Token) :
    closings k ++ .symbol .rightParen :: us = .symbol .rightParen :: (closings k ++ us) := by
  have hsucc : closings k ++ [.symbol .rightParen] = .symbol .rightParen :: closings k := by
    rw [closings, ← List.replicate_succ', List.replicate_succ]
  rw [List.append_cons, hsucc]
  rfl

/-- The second tokens are the first ones with `k` closing parentheses at the end. They are missing only
where nothing follows. -/
structure Closes (k : Nat) (rest ts ts' : List Token) : Prop where
  atEnd : k ≠ 0 → rest = []
  tokens : ts' = ts ++ closings k

namespace Closes

variable {k l : Nat} {rest ts ts' us us' : List Token}

theorem refl (rest ts : List Token) : Closes 0 rest ts ts :=
  ⟨fun h => absurd rfl h, (List.append_nil ts).symm⟩

/-- In front of a closing parenthesis, closing more leaves the tokens up to there as they are. -/
theorem behind (h : Closes k rest ts ts') (us : List Token) :
    ∃ vs, ts' ++ (rest ++ .symbol .rightParen :: us) = ts ++ rest ++ .symbol .rightParen :: vs := by
  -- Either nothing was missing, or nothing follows and what was missing comes first.
  by_cases hk : k = 0
  · subst hk
    exact ⟨us, by rw [h.tokens, List.append_assoc, List.append_assoc]; rfl⟩
  · obtain rfl := h.atEnd hk
    refine ⟨closings k ++ us, ?_⟩
    rw [h.tokens, List.append_nil, List.nil_append, List.append_assoc, closings_cons]

theorem prepend (h : Closes k rest ts ts') (us : List Token) :
    Closes k rest (us ++ ts) (us ++ ts') :=
  ⟨h.atEnd, by rw [h.tokens, List.append_assoc]⟩

/-- Two trees one after the other. If the first one lacks a parenthesis, the second one has no tokens. -/
theorem append (h : Closes k (us ++ rest) ts ts') (h' : Closes l rest us us') :
    Closes (k + l) rest (ts ++ us) (ts' ++ us') := by
  refine ⟨fun hkl => ?_, ?_⟩
  · by_cases hk : k = 0
    · exact h'.atEnd fun hl => hkl (by rw [hk, hl])
    · exact (List.append_eq_nil_iff.mp (h.atEnd hk)).2
  · rw [h.tokens, h'.tokens]
    -- Parentheses that the first one lacks come behind those of the second, which has none.
    by_cases hk : k = 0
    · subst hk
      simp only [closings, List.replicate_zero, List.append_nil, Nat.zero_add, List.append_assoc]
    · obtain rfl := (List.append_eq_nil_iff.mp (h.atEnd hk)).1
      simp only [closings, List.nil_append, List.append_nil, List.append_assoc,
        List.replicate_append_replicate]

/-- What a closing parenthesis ends is closed. -/
theorem closing {closed : Bool} (h : Closes k (closingTokens closed ++ rest) ts ts')
    (hopen : closed = false → rest = []) :
    Closes (k + leftOpen closed) rest (ts ++ closingTokens closed) (ts' ++ closingTokens true) := by
  cases closed with
  | true =>
    -- A parenthesis follows, so nothing inside is missing one.
    have hk : k = 0 := Classical.byContradiction fun hk => by cases h.atEnd hk
    subst hk
    exact ⟨fun hne => absurd rfl hne, by
      rw [h.tokens, leftOpen, if_pos rfl, closings, List.replicate_zero, List.append_nil,
        List.append_nil]⟩
  -- The parenthesis is missing at the end, so it comes behind those that are missing inside.
  | false =>
    refine ⟨fun _ => hopen rfl, ?_⟩
    rw [h.tokens, closingTokens, closingTokens, leftOpen]
    simp only [closings, List.replicate_succ', List.append_assoc, if_true, Bool.false_eq_true,
      if_false, List.nil_append]

end Closes

/-- Behind what a closing parenthesis ends there is one, whether it was missing or not. -/
theorem closing_behind {closed : Bool} {rest : List Token} (hopen : closed = false → rest = [])
    (us : List Token) : ∃ vs, closingTokens true ++ (rest ++ .symbol .rightParen :: us)
      = closingTokens closed ++ rest ++ .symbol .rightParen :: vs := by
  cases closed with
  | true => exact ⟨us, rfl⟩
  | false =>
    obtain rfl := hopen rfl
    exact ⟨.symbol .rightParen :: us, rfl⟩

/-- A closing parenthesis continues nothing but what it closes. -/
theorem leads_rightParen {p : Token → Bool} (hp : p (.symbol .rightParen) = false) {rest : List Token}
    (h : leads p rest = false) (us : List Token) :
    leads p (rest ++ .symbol .rightParen :: us) = false := by
  cases rest with
  | nil => exact hp
  | cons t rest => exact h

/-- Plus, minus, a closing parenthesis or the end comes next. -/
abbrev Delimits (us : List Token) : Prop :=
  us.head?.all endsPercentage = true

/-- What plus, minus and a closing parenthesis are not, does not come next. -/
theorem leads_delimits {us : List Token} (hus : Delimits us) {p : Token → Bool}
    (hp : ∀ s ∈ [Symbol.plus, .minus, .rightParen], p (.symbol s) = false) : leads p us = false := by
  cases us with
  | nil => rfl
  | cons t us =>
    have ht : endsPercentage t = true := hus
    simp only [endsPercentage, Bool.or_eq_true] at ht
    -- One of the three keys comes next.
    rcases ht with (ht | ht) | ht
    all_goals
      obtain rfl := isSymbol_iff.mp ht
      exact hp _ (by decide)

/-- A percentage ends in front of plus, minus and a closing parenthesis just as at the end. -/
theorem percentageNext_followed {us : List Token} (hus : Delimits us) (ts : List Token) :
    percentageNext (ts ++ us) = percentageNext ts := by
  have hpercent : leads (Token.isSymbol .percent) us = false := leads_delimits hus (by decide)
  have hoperand : leads (fun t => !t.isOperator) us = false := leads_delimits hus (by decide)
  -- It takes three tokens to tell; those that are missing are taken from what follows.
  match ts with
  | [] =>
    rcases us with _ | ⟨t, _ | ⟨sign, rest⟩⟩
    · rfl
    · rfl
    · have ht : (!t.isOperator) = false := hoperand
      rw [List.nil_append, percentageNext, ht]
      rfl
  | [x] =>
    rcases us with _ | ⟨sign, rest⟩
    · rfl
    · have hsign : sign.isSymbol .percent = false := hpercent
      rw [List.singleton_append, percentageNext, hsign, Bool.and_false, Bool.false_and]
      rfl
  | [x, sign] =>
    rw [List.cons_append, List.singleton_append, percentageNext, hus]
    rfl
  | x :: sign :: t :: rest => rfl

theorem percentageNext_rightParen (rest us : List Token) :
    percentageNext (rest ++ .symbol .rightParen :: us) = percentageNext rest :=
  percentageNext_followed rfl rest

namespace Phrase

variable {rest : List Token}

mutual

/-- With all its closing parentheses, a tree may stand in front of another closing parenthesis. -/
theorem Unary.closes {rest : List Token} (x : Unary) (h : x.Greedy rest) :
    Closes x.unclosed rest x.tokens x.close.tokens
      ∧ ∀ us, x.close.Greedy (rest ++ .symbol .rightParen :: us) := by
  match x with
  | .number _ | .pi | .euler => exact ⟨.refl _ _, fun _ => trivial⟩
  | .root negated x =>
    obtain ⟨htokens, hgreedy⟩ := Unary.closes x h
    exact ⟨htokens.prepend (.symbol .sqrt :: signTokens negated), hgreedy⟩
  | .group x closed =>
    obtain ⟨htokens, hgreedy⟩ := Expr.closes x h.1
    refine ⟨(htokens.closing h.2).prepend [.symbol .leftParen], fun us => ⟨?_, nofun⟩⟩
    -- The inside stands in front of the parenthesis that ends the group, be it new or not.
    obtain ⟨vs, hvs⟩ := closing_behind h.2 us
    rw [hvs]
    exact hgreedy vs
  | .call f hf x closed =>
    obtain ⟨htokens, hgreedy⟩ := Expr.closes x h.1
    refine ⟨(htokens.closing h.2).prepend [.symbol f], fun us => ⟨?_, nofun⟩⟩
    obtain ⟨vs, hvs⟩ := closing_behind h.2 us
    rw [hvs]
    exact hgreedy vs

theorem Suffix.closes {rest : List Token} (x : Suffix) (h : x.Greedy rest) :
    Closes x.unclosed rest x.tokens x.close.tokens
      ∧ ∀ us, x.close.Greedy (rest ++ .symbol .rightParen :: us) := by
  match x with
  | .mk x marks =>
    obtain ⟨htokens, hgreedy⟩ := Unary.closes x h.1
    refine ⟨htokens.append (.refl rest (Mark.tokens marks)),
      fun us => ⟨?_, leads_rightParen rfl h.2 us⟩⟩
    rw [← List.append_assoc]
    exact hgreedy us

theorem Factor.closes {rest : List Token} (x : Factor) (h : x.Greedy rest) :
    Closes x.unclosed rest x.tokens x.close.tokens
      ∧ ∀ us, x.close.Greedy (rest ++ .symbol .rightParen :: us) := by
  match x with
  | .plain x =>
    obtain ⟨htokens, hgreedy⟩ := Suffix.closes x h.1
    exact ⟨htokens, fun us => ⟨hgreedy us, leads_rightParen rfl h.2 us⟩⟩
  | .power x e =>
    obtain ⟨htokens, hgreedy⟩ := Suffix.closes x h.1
    obtain ⟨htokens', hgreedy'⟩ := Signed.closes e h.2
    -- Behind the base comes the power sign, so nothing is missing in the base.
    have hexponent := htokens'.prepend [.symbol .power]
    refine ⟨htokens.append hexponent, fun us => ⟨?_, hgreedy' us⟩⟩
    obtain ⟨vs, hvs⟩ := hexponent.behind us
    show x.close.Greedy ([.symbol .power] ++ e.close.tokens ++ (rest ++ .symbol .rightParen :: us))
    rw [hvs]
    exact hgreedy vs

theorem Signed.closes {rest : List Token} (x : Signed) (h : x.Greedy rest) :
    Closes x.unclosed rest x.tokens x.close.tokens
      ∧ ∀ us, x.close.Greedy (rest ++ .symbol .rightParen :: us) := by
  match x with
  | .mk negated x =>
    obtain ⟨htokens, hgreedy⟩ := Factor.closes x h
    exact ⟨htokens.prepend (signTokens negated), hgreedy⟩

theorem Term.closes {rest : List Token} (x : Term) (h : x.Greedy rest) :
    Closes x.unclosed rest x.tokens x.close.tokens
      ∧ ∀ us, x.close.Greedy (rest ++ .symbol .rightParen :: us) := by
  match x with
  | .mk x more =>
    obtain ⟨htokens, hgreedy⟩ := Signed.closes x h.1
    obtain ⟨htokens', hgreedy'⟩ := Products.closes more h.2
    refine ⟨htokens.append htokens', fun us => ⟨?_, hgreedy' us⟩⟩
    obtain ⟨vs, hvs⟩ := htokens'.behind us
    rw [hvs]
    exact hgreedy vs

theorem Products.closes {rest : List Token} (more : Products) (h : more.Greedy rest) :
    Closes more.unclosed rest more.tokens more.close.tokens
      ∧ ∀ us, more.close.Greedy (rest ++ .symbol .rightParen :: us) := by
  match more with
  | .nil => exact ⟨.refl _ _, fun us => leads_rightParen rfl h us⟩
  | .cons joint x more =>
    obtain ⟨htokens, hgreedy⟩ := Signed.closes x h.2.1
    obtain ⟨htokens', hgreedy'⟩ := Products.closes more h.2.2
    refine ⟨(htokens.append htokens').prepend joint.tokens,
      fun us => ⟨fun hjoint => ?_, ?_, hgreedy' us⟩⟩
    -- What the next factor begins with is not changed by closing it.
    · rw [htokens.tokens, leads_append x.tokens_ne_nil]
      exact h.1 hjoint
    · obtain ⟨vs, hvs⟩ := htokens'.behind us
      rw [hvs]
      exact hgreedy vs

theorem Expr.closes {rest : List Token} (x : Expr) (h : x.Greedy rest) :
    Closes x.unclosed rest x.tokens x.close.tokens
      ∧ ∀ us, x.close.Greedy (rest ++ .symbol .rightParen :: us) := by
  match x with
  | .mk x more =>
    obtain ⟨htokens, hgreedy⟩ := Term.closes x h.1
    obtain ⟨htokens', hgreedy'⟩ := Sums.closes more h.2
    refine ⟨htokens.append htokens', fun us => ⟨?_, hgreedy' us⟩⟩
    -- The first term stands in front of the others, or of the closing parenthesis.
    obtain ⟨vs, hvs⟩ := htokens'.behind us
    rw [hvs]
    exact hgreedy vs

theorem Sums.closes {rest : List Token} (more : Sums) (h : more.Greedy rest) :
    Closes more.unclosed rest more.tokens more.close.tokens
      ∧ ∀ us, more.close.Greedy (rest ++ .symbol .rightParen :: us) := by
  match more with
  | .nil => exact ⟨.refl _ _, fun us => leads_rightParen rfl h us⟩
  | .term subtracted x more =>
    obtain ⟨htokens, hgreedy⟩ := Term.closes x h.2.1
    obtain ⟨htokens', hgreedy'⟩ := Sums.closes more h.2.2
    refine ⟨(htokens.append htokens').prepend [.symbol (additiveSymbol subtracted)],
      fun us => ⟨?_, ?_, hgreedy' us⟩⟩
    -- Whether a percentage comes next is told by the tokens up to the closing parenthesis.
    · obtain ⟨vs, hvs⟩ := (htokens.append htokens').behind us
      rw [← List.append_assoc, hvs, percentageNext_rightParen, List.append_assoc]
      exact h.1
    · obtain ⟨vs, hvs⟩ := htokens'.behind us
      rw [hvs]
      exact hgreedy vs
  | .percentage subtracted x more =>
    obtain ⟨htokens, hgreedy⟩ := Sums.closes more h.2
    refine ⟨htokens.prepend [.symbol (additiveSymbol subtracted), x.token, .symbol .percent],
      fun us => ⟨?_, hgreedy us⟩⟩
    obtain ⟨vs, hvs⟩ := htokens.behind us
    rw [hvs]
    have hpercentage := percentageNext_rightParen (x.token :: .symbol .percent :: (more.tokens ++ rest)) vs
    exact hpercentage.trans h.1

end

end Phrase

/-! ## §4 Groups -/

/-- Tokens that are read as a whole are read in parentheses, too, with any tokens behind them and with the
parentheses that are open inside closed. -/
theorem readers_group {m : Mode} (hm : m.beyond = false) {room : Nat} {ts : List Token} {y : Operand}
    (h : expr m (readers m room) ts = .ok (y, [])) :
    ∃ height, ∀ room' us, (readers m room').unary
        (.symbol .leftParen :: (ts ++ closings (Buffer.unclosed ts + 1) ++ us))
      = within room' height (y, us) := by
  -- The group is the tree that was read, closed, with one parenthesis more around it.
  obtain ⟨x, hts, hgreedy, -, hvalue⟩ := of_expr_ok hm (readTrees hm room) h
  obtain rfl : ts = x.tokens := hts.trans (List.append_nil _)
  obtain ⟨htokens, hgreedy'⟩ := x.closes hgreedy
  have hopen : Buffer.unclosed x.tokens = x.unclosed := (x.openAfter_tokens 0).trans (Nat.zero_add _)
  refine ⟨(Phrase.Unary.group x.close true).height, fun room' us => ?_⟩
  have hread : (readers m room').unary ((Phrase.Unary.group x.close true).tokens ++ us)
      = within room' (Phrase.Unary.group x.close true).height (y, us) :=
    (Phrase.Unary.group x.close true).read hm room' ⟨hgreedy' us, nofun⟩
      (by rw [Phrase.Unary.value, x.close_value, hvalue])
  -- As tokens: the parentheses that were open inside, and the one that ends the group.
  rw [← hread, hopen, Phrase.Unary.tokens, htokens.tokens]
  simp only [closings, closingTokens, if_true, List.replicate_succ', List.cons_append, List.append_assoc]

end Reckoner.Evaluation
