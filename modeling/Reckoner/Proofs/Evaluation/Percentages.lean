import Reckoner.Proofs.Evaluation.AutoClosing
import Reckoner.Proofs.Evaluation.Exactness
import Reckoner.Proofs.Evaluation.Positions

/-!
# Percentages of the running total

Behind an expression whose parentheses are closed, percentages that are added or subtracted are taken of what
is there so far, one after the other. So they multiply, whatever the expression ends in, and whether the
whole stands alone or in parentheses.

- `Phrase.Expr.followed`: a tree whose parentheses are closed may stand in front of a plus, a minus or a
  closing parenthesis just as at the end;
- `Phrase.Expr.endsInBinary_tokens`: no tree ends in a binary operator;
- `Phrase.Expr.extend` puts terms and percentages behind a tree, and `Percentage.value_sums` is what
  percentages come to;
- `evaluate_followed`: a buffer with percentages behind it is such a tree, also in parentheses;
- `quantity_percentages` gives its value.
-/

namespace Reckoner.Evaluation

/-! ## §1 What may stand behind closed parentheses -/

variable {us : List Token}

/-- Plus, minus and a closing parenthesis go on with nothing but a sum and what they close. -/
theorem leads_followed (hus : Delimits us) {p : Token → Bool}
    (hp : ∀ s ∈ [Symbol.plus, .minus, .rightParen], p (.symbol s) = false) {rest : List Token}
    (h : leads p rest = false) : leads p (rest ++ us) = false := by
  cases rest with
  | nil => exact leads_delimits hus hp
  | cons t rest => exact h

namespace Phrase

mutual

/-- A tree whose parentheses are closed may be followed by plus, minus or a closing parenthesis. -/
theorem Unary.followed (hus : Delimits us) {rest : List Token} (x : Unary) (h : x.Greedy rest)
    (hclosed : x.unclosed = 0) : x.Greedy (rest ++ us) := by
  match x with
  | .number _ | .pi | .euler => trivial
  | .root negated x => exact Unary.followed hus x h hclosed
  | .group x closed | .call _ _ x closed =>
    obtain ⟨hinner, hleft⟩ := Nat.add_eq_zero_iff.mp hclosed
    -- A group that is closed has its parenthesis between itself and what follows.
    cases closed with
    | false => cases hleft
    | true => exact ⟨Expr.followed hus x h.1 hinner nofun, nofun⟩

theorem Suffix.followed (hus : Delimits us) {rest : List Token} (x : Suffix) (h : x.Greedy rest)
    (hclosed : x.unclosed = 0) : x.Greedy (rest ++ us) := by
  match x with
  | .mk x marks =>
    have hx := Unary.followed hus x h.1 hclosed
    rw [List.append_assoc] at hx
    exact ⟨hx, leads_followed hus (by decide) h.2⟩

theorem Factor.followed (hus : Delimits us) {rest : List Token} (x : Factor) (h : x.Greedy rest)
    (hclosed : x.unclosed = 0) : x.Greedy (rest ++ us) := by
  match x with
  | .plain x => exact ⟨Suffix.followed hus x h.1 hclosed, leads_followed hus (by decide) h.2⟩
  | .power x e =>
    obtain ⟨hbase, hexponent⟩ := Nat.add_eq_zero_iff.mp hclosed
    have hx := Suffix.followed hus x h.1 hbase
    rw [List.cons_append, List.append_assoc] at hx
    exact ⟨hx, Signed.followed hus e h.2 hexponent⟩

theorem Signed.followed (hus : Delimits us) {rest : List Token} (x : Signed) (h : x.Greedy rest)
    (hclosed : x.unclosed = 0) : x.Greedy (rest ++ us) := by
  match x with
  | .mk negated x => exact Factor.followed hus x h hclosed

theorem Term.followed (hus : Delimits us) {rest : List Token} (x : Term) (h : x.Greedy rest)
    (hclosed : x.unclosed = 0) : x.Greedy (rest ++ us) := by
  match x with
  | .mk x more =>
    obtain ⟨hfirst, hmore⟩ := Nat.add_eq_zero_iff.mp hclosed
    have hx := Signed.followed hus x h.1 hfirst
    rw [List.append_assoc] at hx
    exact ⟨hx, Products.followed hus more h.2 hmore⟩

theorem Products.followed (hus : Delimits us) {rest : List Token} (more : Products)
    (h : more.Greedy rest) (hclosed : more.unclosed = 0) : more.Greedy (rest ++ us) := by
  match more with
  | .nil => exact leads_followed hus (by decide) h
  | .cons joint x more =>
    obtain ⟨hfirst, hmore⟩ := Nat.add_eq_zero_iff.mp hclosed
    have hx := Signed.followed hus x h.2.1 hfirst
    rw [List.append_assoc] at hx
    exact ⟨h.1, hx, Products.followed hus more h.2.2 hmore⟩

/-- A sum that nothing followed may only be followed by what does not go on with it. -/
theorem Expr.followed (hus : Delimits us) {rest : List Token} (x : Expr) (h : x.Greedy rest)
    (hclosed : x.unclosed = 0) (hsum : rest = [] → leads Buffer.isAdditive us = false) :
    x.Greedy (rest ++ us) := by
  match x with
  | .mk x more =>
    obtain ⟨hfirst, hmore⟩ := Nat.add_eq_zero_iff.mp hclosed
    have hx := Term.followed hus x h.1 hfirst
    rw [List.append_assoc] at hx
    exact ⟨hx, Sums.followed hus more h.2 hmore hsum⟩

theorem Sums.followed (hus : Delimits us) {rest : List Token} (more : Sums) (h : more.Greedy rest)
    (hclosed : more.unclosed = 0) (hsum : rest = [] → leads Buffer.isAdditive us = false) :
    more.Greedy (rest ++ us) := by
  match more with
  | .nil =>
    -- At the end of the sum, what follows is what decides whether it goes on.
    cases rest with
    | nil => exact hsum rfl
    | cons t rest => exact h
  | .term subtracted x more =>
    obtain ⟨hfirst, hmore⟩ := Nat.add_eq_zero_iff.mp hclosed
    have hpercentage := (percentageNext_followed hus _).trans h.1
    have hx := Term.followed hus x h.2.1 hfirst
    simp only [List.append_assoc] at hpercentage hx
    exact ⟨hpercentage, hx, Sums.followed hus more h.2.2 hmore hsum⟩
  | .percentage subtracted x more =>
    have hpercentage := (percentageNext_followed hus _).trans h.1
    simp only [List.cons_append, List.append_assoc] at hpercentage
    exact ⟨hpercentage, Sums.followed hus more h.2 hclosed hsum⟩

end

end Phrase

/-! ## §2 What trees end in -/

open Buffer (endsInBinary isBinary)

theorem endsInBinary_behind (ts : List Token) {us : List Token} (hne : us ≠ []) :
    endsInBinary (ts ++ us) = endsInBinary us := by
  rw [endsInBinary, List.getLast?_append_of_ne_nil ts hne, endsInBinary]

/-- Two lists that end in no binary operator do so together. -/
theorem endsInBinary_append {ts us : List Token} (hts : endsInBinary ts = false)
    (hus : endsInBinary us = false) : endsInBinary (ts ++ us) = false := by
  by_cases hne : us = []
  · rwa [hne, List.append_nil]
  · rwa [endsInBinary_behind ts hne]

/-- Without binary operators, tokens end in none. -/
theorem endsInBinary_of_forall {ts : List Token} (h : ∀ t ∈ ts, isBinary t = false) :
    endsInBinary ts = false := by
  rw [endsInBinary]
  cases hlast : ts.getLast? with
  | none => rfl
  | some t => exact h t (List.mem_of_getLast? hlast)

theorem endsInBinary_marks (marks : List Mark) : endsInBinary (Mark.tokens marks) = false := by
  refine endsInBinary_of_forall fun t ht => ?_
  obtain ⟨k, -, rfl⟩ := List.mem_map.mp ht
  cases k <;> rfl

theorem endsInBinary_closingTokens (closed : Bool) : endsInBinary (closingTokens closed) = false := by
  cases closed <;> rfl

namespace Phrase

theorem Number.endsInBinary_token (x : Number) : endsInBinary [x.token] = false := by
  cases x <;> rfl

mutual

/-- No tree ends in a binary operator. -/
theorem Unary.endsInBinary_tokens (x : Unary) : endsInBinary x.tokens = false := by
  match x with
  | .number x => exact x.endsInBinary_token
  | .pi | .euler => rfl
  | .root negated x =>
    exact (endsInBinary_behind (.symbol .sqrt :: signTokens negated) x.tokens_ne_nil).trans
      (Unary.endsInBinary_tokens x)
  | .group x closed =>
    have hx := endsInBinary_append (Expr.endsInBinary_tokens x) (endsInBinary_closingTokens closed)
    exact (endsInBinary_behind [_] (List.append_ne_nil_of_left_ne_nil x.tokens_ne_nil _)).trans hx
  | .call f hf x closed =>
    have hx := endsInBinary_append (Expr.endsInBinary_tokens x) (endsInBinary_closingTokens closed)
    exact (endsInBinary_behind [_] (List.append_ne_nil_of_left_ne_nil x.tokens_ne_nil _)).trans hx

theorem Suffix.endsInBinary_tokens (x : Suffix) : endsInBinary x.tokens = false := by
  match x with
  | .mk x marks =>
    exact endsInBinary_append (Unary.endsInBinary_tokens x) (endsInBinary_marks marks)

theorem Factor.endsInBinary_tokens (x : Factor) : endsInBinary x.tokens = false := by
  match x with
  | .plain x => exact Suffix.endsInBinary_tokens x
  | .power x e =>
    have he := (endsInBinary_behind [.symbol .power] e.tokens_ne_nil).trans (Signed.endsInBinary_tokens e)
    exact endsInBinary_append (Suffix.endsInBinary_tokens x) he

theorem Signed.endsInBinary_tokens (x : Signed) : endsInBinary x.tokens = false := by
  match x with
  | .mk negated x =>
    exact (endsInBinary_behind _ x.tokens_ne_nil).trans (Factor.endsInBinary_tokens x)

theorem Term.endsInBinary_tokens (x : Term) : endsInBinary x.tokens = false := by
  match x with
  | .mk x more =>
    -- Without further factors, it is the first one that is at the end.
    exact endsInBinary_append (Signed.endsInBinary_tokens x) (Products.endsInBinary_tokens more)

theorem Products.endsInBinary_tokens (more : Products) : endsInBinary more.tokens = false := by
  match more with
  | .nil => rfl
  | .cons joint x more =>
    have hx := endsInBinary_append (Signed.endsInBinary_tokens x) (Products.endsInBinary_tokens more)
    exact (endsInBinary_behind _ (List.append_ne_nil_of_left_ne_nil x.tokens_ne_nil _)).trans hx

theorem Expr.endsInBinary_tokens (x : Expr) : endsInBinary x.tokens = false := by
  match x with
  | .mk x more =>
    exact endsInBinary_append (Term.endsInBinary_tokens x) (Sums.endsInBinary_tokens more)

theorem Sums.endsInBinary_tokens (more : Sums) : endsInBinary more.tokens = false := by
  match more with
  | .nil => rfl
  | .term subtracted x more =>
    have hx := endsInBinary_append (Term.endsInBinary_tokens x) (Sums.endsInBinary_tokens more)
    exact (endsInBinary_behind [_] (List.append_ne_nil_of_left_ne_nil x.tokens_ne_nil _)).trans hx
  | .percentage subtracted x more =>
    have hpercent : endsInBinary [.symbol (additiveSymbol subtracted), x.token, .symbol .percent] = false :=
      rfl
    exact endsInBinary_append hpercent (Sums.endsInBinary_tokens more)

end

/-! ## §3 Sums put together -/

/-- The terms and percentages of one sum behind those of another. -/
def Sums.append : Sums → Sums → Sums
  | .nil, more' => more'
  | .term subtracted x more, more' => .term subtracted x (more.append more')
  | .percentage subtracted x more, more' => .percentage subtracted x (more.append more')

namespace Sums

/-- The tokens of two sums stand one behind the other. -/
theorem tokens_append (more more' : Sums) : (more.append more').tokens = more.tokens ++ more'.tokens := by
  match more with
  | .nil => rfl
  | .term subtracted x more =>
    simp only [append, Sums.tokens, tokens_append more, List.cons_append, List.append_assoc]
  | .percentage subtracted x more =>
    simp only [append, Sums.tokens, tokens_append more, List.cons_append]

/-- Two sums are nested as deeply as the deeper one. -/
theorem height_append (more more' : Sums) :
    (more.append more').height = max more.height more'.height := by
  match more with
  | .nil => rw [append, Sums.height, Nat.zero_max]
  | .term subtracted x more => rw [append, Sums.height, height_append more, Sums.height, Nat.max_assoc]
  | .percentage subtracted x more => rw [append, Sums.height, height_append more, Sums.height, Nat.max_assoc]

/-- The second sum goes on from the value of the first one. -/
theorem value_append (m : Mode) (more more' : Sums) (y : Operand) :
    (more.append more').value m y = more.value m y >>= more'.value m := by
  match more with
  | .nil => rfl
  | .term subtracted x more =>
    simp only [append, Sums.value, value_append m more, bind_assoc]
  | .percentage subtracted x more =>
    simp only [append, Sums.value, value_append m more, bind_assoc]

/-- What is put behind closed parentheses must not go on with what is in front of it. -/
theorem greedy_append {rest : List Token} (more : Sums) {more' : Sums} (h : more.Greedy [])
    (hclosed : more.unclosed = 0) (hdelimits : Delimits (more'.tokens ++ rest)) (h' : more'.Greedy rest) :
    (more.append more').Greedy rest := by
  match more with
  | .nil => exact h'
  | .term subtracted x more =>
    obtain ⟨hfirst, hmore⟩ := Nat.add_eq_zero_iff.mp hclosed
    -- What stood at the end stands in front of the second sum now, which begins with a sign.
    have hpercentage := (percentageNext_followed hdelimits _).trans h.1
    have hx := Term.followed hdelimits x h.2.1 hfirst
    simp only [List.append_assoc, List.nil_append] at hpercentage hx
    refine ⟨?_, ?_, greedy_append more h.2.2 hmore hdelimits h'⟩
    · rwa [tokens_append, List.append_assoc]
    · rwa [tokens_append, List.append_assoc]
  | .percentage subtracted x more =>
    have hpercentage := (percentageNext_followed hdelimits _).trans h.1
    simp only [List.cons_append, List.append_assoc, List.nil_append] at hpercentage
    refine ⟨?_, greedy_append more h.2 hclosed hdelimits h'⟩
    rwa [tokens_append, List.append_assoc]

end Sums

/-- A sum with further terms and percentages behind it. -/
def Expr.extend : Expr → Sums → Expr
  | .mk x more, more' => .mk x (more.append more')

namespace Expr

theorem tokens_extend (x : Expr) (more : Sums) : (x.extend more).tokens = x.tokens ++ more.tokens := by
  cases x with
  | mk x more => rw [extend, Expr.tokens, Sums.tokens_append, Expr.tokens, List.append_assoc]

theorem height_extend (x : Expr) (more : Sums) : (x.extend more).height = max x.height more.height := by
  cases x with
  | mk x more => rw [extend, Expr.height, Sums.height_append, Expr.height, Nat.max_assoc]

theorem value_extend (m : Mode) (x : Expr) (more : Sums) :
    (x.extend more).value m = x.value m >>= more.value m := by
  cases x with
  | mk x more => simp only [extend, Expr.value, Sums.value_append, bind_assoc]

/-- A closed tree may be extended by what begins with a sign. -/
theorem greedy_extend {rest : List Token} {x : Expr} {more : Sums} (h : x.Greedy [])
    (hclosed : x.unclosed = 0) (hdelimits : Delimits (more.tokens ++ rest)) (hmore : more.Greedy rest) :
    (x.extend more).Greedy rest := by
  match x with
  | .mk x first =>
    obtain ⟨hx, hfirst⟩ := Nat.add_eq_zero_iff.mp hclosed
    have hgreedy := Term.followed hdelimits x h.1 hx
    rw [List.append_nil] at hgreedy
    refine ⟨?_, Sums.greedy_append first h.2 hfirst hdelimits hmore⟩
    rwa [Sums.tokens_append, List.append_assoc]

end Expr

end Phrase

/-! ## §4 Percentages of a running total -/

namespace Phrase.Number

/-- A literal with at least one digit, or a stored result that is a rational. -/
def IsRational : Number → Prop
  | .literal l => l.AllDigits ∧ l.isBare = false
  | .stored _ v _ _ _ => v.quantity.toRat?.isSome = true

instance : DecidablePred IsRational
  | .literal l => inferInstanceAs (Decidable (l.AllDigits ∧ l.isBare = false))
  | .stored _ v _ _ _ => inferInstanceAs (Decidable (v.quantity.toRat?.isSome = true))

theorem IsRational.token {x : Number} (h : x.IsRational) : x.token.IsRational := by
  cases x with
  | literal l => exact h.1
  | stored n v e s t => exact h

/-- Such a number only fails if it has more digits than conversion takes. -/
theorem IsRational.value_overlong {x : Number} (h : x.IsRational) (hlong : ¬x.token.IsLegible) :
    x.value = .error .tooManyDigits := by
  obtain ⟨l, rfl, hvalue⟩ := Number.value_of_not_isLegible h.token hlong
  have hbare : l.isBare = false := h.2
  rw [hvalue, hbare]
  rfl

end Phrase.Number

open Phrase (Number Sums)

/-- A percentage that is added to or subtracted from what is in front of it. -/
structure Percentage where
  subtracted : Bool
  number : Number

namespace Percentage

/-- A plus or a minus, the number and a percent sign. -/
def tokens (p : Percentage) : List Token :=
  [.symbol (additiveSymbol p.subtracted), p.number.token, .symbol .percent]

/-- What the percentage multiplies a running total by. -/
def factor (p : Percentage) : Rat :=
  1 + signedRational p.subtracted p.number.rational / 100

/-- Percentages one after the other. -/
def sums : List Percentage → Sums
  | [] => .nil
  | p :: ps => .percentage p.subtracted p.number (sums ps)

theorem tokens_sums (ps : List Percentage) : (sums ps).tokens = ps.flatMap tokens := by
  induction ps with
  | nil => rfl
  | cons p ps ih => rw [sums, Sums.tokens, ih, List.flatMap_cons, tokens]; rfl

theorem height_sums (ps : List Percentage) : (sums ps).height ≤ 1 := by
  induction ps with
  | nil => exact Nat.zero_le 1
  | cons p ps ih => exact Nat.max_le.mpr ⟨Nat.le_refl 1, ih⟩

/-- Percentages begin with a sign, which ends what is in front of them. -/
theorem delimits_sums (ps : List Percentage) {rest : List Token} (h : Delimits rest) :
    Delimits ((sums ps).tokens ++ rest) := by
  cases ps with
  | nil => exact h
  | cons p ps => cases hp : p.subtracted <;> simp only [sums, Sums.tokens, hp] <;> rfl

/-- Each percentage ends in front of the next one, or at the end of all. -/
theorem greedy_sums (ps : List Percentage) {rest : List Token} (h : Delimits rest)
    (hsum : leads Buffer.isAdditive rest = false) : (sums ps).Greedy rest := by
  induction ps with
  | nil => exact hsum
  | cons p ps ih =>
    refine ⟨?_, ih⟩
    have hnumber : p.number.token.isOperator = false := by cases p.number <;> rfl
    have hnext : Delimits ((sums ps).tokens ++ rest) := delimits_sums ps h
    rw [percentageNext, hnumber, hnext]
    rfl

/-- Percentages may be put behind a tree whose parentheses are closed. -/
theorem greedy_extend {x : Phrase.Expr} (h : x.Greedy []) (hclosed : x.unclosed = 0) (ps : List Percentage)
    {rest : List Token} (hrest : Delimits rest) (hsum : leads Buffer.isAdditive rest = false) :
    (x.extend (sums ps)).Greedy rest :=
  Phrase.Expr.greedy_extend h hclosed (delimits_sums ps hrest) (greedy_sums ps hrest hsum)

/-- Percentages whose numbers are within the limit of conversion multiply the running total by all their
factors. -/
theorem value_sums (m : Mode) {ps : List Percentage} (hps : ∀ p ∈ ps, p.number.IsRational)
    (hlegible : ∀ p ∈ ps, p.number.token.IsLegible) {y : Operand} {q : Rat} (hy : y.quantity = .rational q) :
    ∃ z, (sums ps).value m y = .ok z ∧ z.quantity = .rational (q * (ps.map factor).prod) := by
  induction ps generalizing y q with
  | nil => exact ⟨y, rfl, by rwa [List.map_nil, List.prod_nil, mul_one]⟩
  | cons p ps ih =>
    obtain ⟨hp, hps⟩ := List.forall_mem_cons.mp hps
    obtain ⟨hshort, hlegible⟩ := List.forall_mem_cons.mp hlegible
    obtain ⟨z, hz, hq⟩ := Number.value_eq hp.token hshort
    -- The running total is multiplied by the factor of the first percentage.
    have htotal : y.quantity.multiply (percentageFactor p.subtracted z.quantity)
        = .rational (q * p.factor) := by
      rw [hy, hq, percentageFactor_rational, Quantity.multiply_rational]
      rfl
    obtain ⟨w, hw, hprod⟩ := ih hps hlegible (y := .computed _) htotal
    refine ⟨w, ?_, ?_⟩
    · rw [sums, Sums.value, hz]
      exact hw
    · rw [hprod, List.map_cons, List.prod_cons, mul_assoc]

/-- The first number beyond the limit of conversion ends the evaluation. -/
theorem value_sums_overlong (m : Mode) {ps : List Percentage} (hps : ∀ p ∈ ps, p.number.IsRational)
    (hlong : ∃ p ∈ ps, ¬p.number.token.IsLegible) (y : Operand) :
    (sums ps).value m y = .error .tooManyDigits := by
  induction ps generalizing y with
  | nil =>
    obtain ⟨p, hp, -⟩ := hlong
    cases hp
  | cons p ps ih =>
    obtain ⟨hp, hps⟩ := List.forall_mem_cons.mp hps
    rw [sums, Sums.value]
    -- Either this number is too long, or the evaluation goes on to one that is.
    by_cases hshort : p.number.token.IsLegible
    · obtain ⟨z, hz, -⟩ := Number.value_eq hp.token hshort
      obtain ⟨p', hp', hlong⟩ := hlong
      have hrest : p' ∈ ps := (List.mem_cons.mp hp').resolve_left fun heq => hlong (heq ▸ hshort)
      rw [hz]
      exact ih hps ⟨p', hrest, hlong⟩ _
    · rw [hp.value_overlong hshort]
      rfl

end Percentage

/-! ## §5 In parentheses -/

namespace Phrase.Expr

/-- A tree as the only operand of another one, in parentheses of which the second one may be missing. -/
def wrap (x : Expr) (closed : Bool) : Expr :=
  .mk (.mk (.mk false (.plain (.mk (.group x closed) []))) .nil) .nil

/-- The tokens of a group, with its parenthesis or without. -/
theorem tokens_wrap (x : Expr) (closed : Bool) :
    (x.wrap closed).tokens = .symbol .leftParen :: (x.tokens ++ closingTokens closed) := by
  simp only [wrap, Expr.tokens, Term.tokens, Signed.tokens, Factor.tokens, Suffix.tokens, Unary.tokens,
    Products.tokens, Sums.tokens, Mark.tokens, signTokens, List.map_nil, List.append_nil, List.nil_append,
    Bool.false_eq_true, if_false]

theorem value_wrap (m : Mode) (x : Expr) (closed : Bool) : (x.wrap closed).value m = x.value m := by
  simp only [wrap, Expr.value, Term.value, Signed.value, Factor.value, Suffix.value, Unary.value]
  cases x.value m <;> rfl

theorem greedy_wrap {x : Expr} {closed : Bool} (h : x.Greedy (closingTokens closed)) :
    (x.wrap closed).Greedy [] := by
  rw [← List.append_nil (closingTokens closed)] at h
  exact ⟨⟨⟨⟨⟨h, fun _ => rfl⟩, rfl⟩, rfl⟩, rfl⟩, rfl⟩

end Phrase.Expr

end Reckoner.Evaluation

namespace Reckoner.Buffer

open Reckoner.Evaluation
open EvaluationError (syntaxError)

/-! ## §6 Buffers -/

/-- A buffer as it is, or in parentheses of which the second one may be missing. -/
def enclosed (b : Buffer) : Option Bool → Buffer
  | none => b
  | some closed => .symbol .leftParen :: (b ++ closingTokens closed)

/-- Binary operators behind a tree do not count. -/
theorem withoutTrailingBinary_tokens (t : Phrase.Expr) {ops : List Token}
    (hops : ∀ o ∈ ops, isBinary o = true) : withoutTrailingBinary (t.tokens ++ ops) = t.tokens := by
  rw [withoutTrailingBinary_append_of_isBinary _ hops,
    withoutTrailingBinary_of_not_endsInBinary t.endsInBinary_tokens]

variable {T : Buffer} {degrees : Bool} {x : Operand}

/-- Percentages put behind a buffer are taken of its value. -/
theorem evaluate_followed (hT : T.evaluatePrefix ⟨degrees, T.length⟩ = .ok (T.length, x))
    (hclosed : T.unclosed = 0) (ps : List Percentage) {ops : List Token}
    (hops : ∀ o ∈ ops, isBinary o = true) (parens : Option Bool)
    (hroom : parens = none ∨ evaluate (enclosed (T ++ ps.flatMap Percentage.tokens) parens ++ ops) degrees
      ≠ syntaxError .nestedTooDeeply) :
    evaluate (enclosed (T ++ ps.flatMap Percentage.tokens) parens ++ ops) degrees
      = (Percentage.sums ps).value ⟨degrees, false⟩ x := by
  -- The buffer is the yield of a tree, which the percentages extend.
  obtain ⟨tree, htokens, hgreedy, hheight, hvalue⟩ :=
    of_expr_ok rfl (readTrees rfl deepestNesting) (evaluatePrefix_eq_ok_iff.mp hT)
  obtain rfl : T = tree.tokens := htokens.trans (List.append_nil _)
  have hopen : tree.unclosed = 0 := by
    rw [← Nat.zero_add tree.unclosed, ← tree.openAfter_tokens]
    exact hclosed
  have htotal : (tree.extend (Percentage.sums ps)).value ⟨degrees, false⟩
      = (Percentage.sums ps).value ⟨degrees, false⟩ x := by
    rw [Phrase.Expr.value_extend, hvalue]
    rfl
  rw [← Percentage.tokens_sums, ← Phrase.Expr.tokens_extend] at hroom ⊢
  cases parens with
  | none =>
    -- Percentages nest nothing, so there is room for them where there was for the buffer.
    have hnested : (tree.extend (Percentage.sums ps)).height ≤ deepestNesting := by
      rw [Phrase.Expr.height_extend]
      exact Nat.max_le.mpr ⟨hheight, (Percentage.height_sums ps).trans (by decide)⟩
    have hend : (tree.extend (Percentage.sums ps)).Greedy [] :=
      Percentage.greedy_extend hgreedy hopen ps rfl rfl
    rw [enclosed, evaluate_eq_value (withoutTrailingBinary_tokens _ hops) hend (.inl hnested), htotal]
  | some closed =>
    -- The parentheses nest once more, so it takes the last hypothesis that there is room.
    have hdeep := hroom.resolve_left nofun
    rw [enclosed, ← Phrase.Expr.tokens_wrap] at hdeep ⊢
    have hinner : (tree.extend (Percentage.sums ps)).Greedy (closingTokens closed) := by
      cases closed <;> exact Percentage.greedy_extend hgreedy hopen ps rfl rfl
    rw [evaluate_eq_value (withoutTrailingBinary_tokens _ hops) (Phrase.Expr.greedy_wrap hinner) (.inr hdeep),
      Phrase.Expr.value_wrap, htotal]

/-- Percentages behind closed parentheses multiply what is in front by all their factors, also in one pair of
parentheses, and with binary operators at the end. Only numbers with more digits than conversion takes are
refused. -/
theorem quantity_percentages (hT : T.evaluatePrefix ⟨degrees, T.length⟩ = .ok (T.length, x))
    (hclosed : T.unclosed = 0) {t : Rat} (hx : x.quantity = .rational t) {ps : List Percentage}
    (hps : ∀ p ∈ ps, p.number.IsRational) {ops : List Token} (hops : ∀ o ∈ ops, isBinary o = true)
    (parens : Option Bool)
    (hroom : parens = none ∨ evaluate (enclosed (T ++ ps.flatMap Percentage.tokens) parens ++ ops) degrees
      ≠ syntaxError .nestedTooDeeply) :
    quantity (enclosed (T ++ ps.flatMap Percentage.tokens) parens ++ ops) degrees
      = if ∀ p ∈ ps, p.number.token.IsLegible then .ok (.rational (t * (ps.map Percentage.factor).prod))
        else .error .tooManyDigits := by
  rw [quantity, evaluate_followed hT hclosed ps hops parens hroom]
  split
  · next hlegible =>
    obtain ⟨z, hz, hq⟩ := Percentage.value_sums ⟨degrees, false⟩ hps hlegible hx
    rw [hz, ← hq]
    rfl
  · next hlong =>
    -- One of the numbers is too long; it does not matter which one, or what is in front of it.
    simp only [not_forall] at hlong
    obtain ⟨p, hp, hlong⟩ := hlong
    rw [Percentage.value_sums_overlong ⟨degrees, false⟩ hps ⟨p, hp, hlong⟩ x]
    rfl

/-- Two times fifty. -/
def twiceFifty : Buffer :=
  [number "2", .symbol .times, number "50"]

/-- Ten percent more, and then twenty percent less. -/
def upAndDown : List Percentage :=
  [⟨false, .literal ⟨"10", "", false, 0⟩⟩,
    ⟨true, .stored 0 ⟨20, .result 0⟩ [number "20"] ⟨false, 1⟩ (some "20")⟩]

/-- A tenth more and a fifth less, in a parenthesis left open and with a sign behind. -/
theorem quantity_percentages_twiceFifty :
    twiceFifty.evaluatePrefix ⟨false, twiceFifty.length⟩ = .ok (twiceFifty.length, .computed 100)
    ∧ twiceFifty.unclosed = 0
    ∧ (∀ p ∈ upAndDown, p.number.IsRational)
    ∧ quantity (enclosed (twiceFifty ++ upAndDown.flatMap Percentage.tokens) (some false) ++ [.symbol .times])
      false = .ok 88 := by
  have hvalue : twiceFifty.evaluatePrefix ⟨false, twiceFifty.length⟩
      = .ok (twiceFifty.length, .computed 100) := by decide +kernel
  have hnumbers : ∀ p ∈ upAndDown, p.number.IsRational := by decide +kernel
  have hroom : evaluate (enclosed (twiceFifty ++ upAndDown.flatMap Percentage.tokens) (some false)
      ++ [.symbol .times]) false ≠ syntaxError .nestedTooDeeply := by decide +kernel
  have hbinary : ∀ o ∈ [Token.symbol .times], isBinary o = true := by decide
  have hresult := quantity_percentages hvalue rfl (t := 100) rfl hnumbers hbinary (some false) (.inr hroom)
  have hproduct : (100 : Rat) * (upAndDown.map Percentage.factor).prod = 88 := by decide +kernel
  rw [if_pos (by decide +kernel), hproduct] at hresult
  exact ⟨hvalue, rfl, hnumbers, hresult⟩

/-- A percentage with one digit more than conversion takes. -/
def onesPercent : Percentage :=
  ⟨false, .literal (.ones 4301)⟩

/-- No such percentage can be added, not even to zero, of which every percentage is zero. -/
theorem tooManyDigits_onesPercent :
    evaluatePrefix [number "0"] ⟨false, 1⟩ = .ok (1, .computed 0)
    ∧ unclosed [number "0"] = 0
    ∧ onesPercent.number.IsRational
    ∧ 0 * onesPercent.factor = 0
    ∧ evaluate ([number "0"] ++ onesPercent.tokens) false = .error .tooManyDigits := by
  have hvalue : evaluatePrefix [number "0"] ⟨false, 1⟩ = .ok (1, .computed 0) := by decide +kernel
  have hnumber : onesPercent.number.IsRational :=
    ⟨(Literal.wellFormed_ones (by decide)).allDigits, Literal.isBare_ones (by decide)⟩
  -- The literal has one digit more than the limit.
  have hlong : ¬onesPercent.number.token.IsLegible := by
    intro hlegible
    have hshort : (Literal.ones 4301).digits.length ≤ Decimal.conversionLimit := hlegible.2
    rw [Literal.length_digits_ones (by decide)] at hshort
    exact absurd hshort (by decide)
  refine ⟨hvalue, rfl, hnumber, zero_mul _, ?_⟩
  have hfollowed := evaluate_followed (T := [number "0"]) hvalue rfl [onesPercent] (List.forall_mem_nil _)
    none (.inl rfl)
  rw [Percentage.value_sums_overlong _ (List.forall_mem_singleton.mpr hnumber)
    ⟨_, List.mem_singleton_self _, hlong⟩] at hfollowed
  exact hfollowed

end Reckoner.Buffer
