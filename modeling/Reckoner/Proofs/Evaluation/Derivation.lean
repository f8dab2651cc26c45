import Reckoner.Proofs.Evaluation.Completeness

/-!
# What is read is derived

What readers take from the front of some tokens is the yield of a tree of the grammar that takes all
continuations, and what they return is its value.

- `Phrase.Expr.behind`: what can stand behind a tree that takes all continuations;
- `ReadTrees` says of the readers of nested operands that they read trees, and there is one lemma for each
  reader that is built from them;
- `readTrees`: all readers do, by induction on the room for nesting.
-/

namespace Reckoner.Evaluation

open EvaluationError (syntaxError ofArithmetic ofLiteral)

/-! ## §1 Symbols -/

/-- A token is a key just if it is the token of the key. -/
theorem isSymbol_iff {t : Token} {s : Symbol} : t.isSymbol s = true ↔ t = .symbol s := by
  constructor
  · intro h
    match t with
    | .operator (.listed s') =>
      obtain rfl : s' = s := of_decide_eq_true h
      rfl
  · rintro rfl
    exact decide_eq_true rfl

/-- A key comes next just if it is the first token. -/
theorem leads_isSymbol_iff {ts : List Token} {s : Symbol} :
    leads (Token.isSymbol s) ts = true ↔ ∃ rest, ts = .symbol s :: rest := by
  cases ts with
  | nil => exact iff_of_false nofun nofun
  | cons t ts =>
    show t.isSymbol s = true ↔ _
    rw [isSymbol_iff]
    exact ⟨fun h => ⟨ts, by rw [h]⟩, fun ⟨_, h⟩ => (List.cons.inj h).1⟩

/-- A token is no suffix, or it is one and does to the value before it what that suffix does. -/
theorem applySuffix_cases (x : Quantity) (t : Token) :
    applySuffix? x t = none ∧ isMark t = false
      ∨ ∃ k : Mark, t = .symbol k.symbol ∧ applySuffix? x t = some (k.apply x) := by
  by_cases hmark : isMark t = true
  · refine .inr ?_
    simp only [isMark, Bool.or_eq_true, isSymbol_iff] at hmark
    obtain (rfl | rfl) | rfl := hmark
    · exact ⟨.factorial, rfl, rfl⟩
    · exact ⟨.square, rfl, rfl⟩
    · exact ⟨.percent, rfl, rfl⟩
  · have hmark := Bool.eq_false_iff.mpr hmark
    refine .inl ⟨?_, hmark⟩
    simp only [isMark, Bool.or_eq_false_iff] at hmark
    simp [applySuffix?, hmark]

/-- A factor that comes next is joined in one of the three ways. -/
theorem nextLink_cases (ts : List Token) :
    nextLink ts = none ∧ leads continuesProduct ts = false
      ∨ ∃ (joint : Joint) (us : List Token), ts = joint.tokens ++ us
        ∧ nextLink ts = some (joint.link, us)
        ∧ (joint = .nothing → leads startsFactor us = true) := by
  cases ts with
  | nil => exact .inl ⟨rfl, rfl⟩
  | cons t ts =>
    by_cases htimes : t.isSymbol .times = true
    · obtain rfl := isSymbol_iff.mp htimes
      exact .inr ⟨.times, ts, rfl, rfl, nofun⟩
    · by_cases hdivide : t.isSymbol .divide = true
      · obtain rfl := isSymbol_iff.mp hdivide
        exact .inr ⟨.over, ts, rfl, rfl, nofun⟩
      -- With nothing in between, the token that starts the factor stays.
      · by_cases hstarts : startsFactor t = true
        · refine .inr ⟨.nothing, t :: ts, rfl, ?_, fun _ => hstarts⟩
          simp only [nextLink, if_neg htimes, if_neg hdivide, if_pos hstarts, Joint.link]
        · refine .inl ⟨?_, ?_⟩
          · simp only [nextLink, if_neg htimes, if_neg hdivide, if_neg hstarts]
          · simp [leads, continuesProduct, htimes, hdivide, hstarts]

/-- A percentage of the running total begins with a number and a percent sign. -/
theorem of_percentageNext {ts : List Token} (h : percentageNext ts = true) :
    ∃ (x : Phrase.Number) (rest : List Token), ts = x.token :: .symbol .percent :: rest := by
  match ts with
  | x :: sign :: rest =>
    simp only [percentageNext, Bool.and_eq_true, Bool.not_eq_true'] at h
    obtain ⟨⟨hx, hsign⟩, -⟩ := h
    obtain rfl := isSymbol_iff.mp hsign
    cases x with
    | literal l => exact ⟨.literal l, rest, rfl⟩
    | stored n v e s t => exact ⟨.stored n v e s t, rest, rfl⟩
    | operator o => cases hx

/-- A sum goes on with a plus or a minus. -/
theorem of_leads_additive {ts : List Token} (h : leads Buffer.isAdditive ts = true) :
    ∃ (subtracted : Bool) (rest : List Token), ts = .symbol (additiveSymbol subtracted) :: rest := by
  match ts with
  | t :: rest =>
    have ht : t.isSymbol .plus = true ∨ t.isSymbol .minus = true := Bool.or_eq_true_iff.mp h
    rcases ht with ht | ht
    · exact ⟨false, rest, by rw [isSymbol_iff.mp ht]; rfl⟩
    · exact ⟨true, rest, by rw [isSymbol_iff.mp ht]; rfl⟩

/-- The only token that ends a sum is a closing parenthesis. -/
theorem isSymbol_rightParen {t : Token} (hmark : isMark t = false)
    (hpower : t.isSymbol .power = false) (hproduct : continuesProduct t = false)
    (hsum : Buffer.isAdditive t = false) : t.isSymbol .rightParen = true := by
  cases t with
  | literal l => cases hproduct
  | stored n v e r x => cases hproduct
  | operator o =>
    cases o with
    | unlisted n hn => cases hproduct
    | listed s =>
      -- Every other key is one of those that are excluded.
      cases s <;> first
        | rfl
        | exact absurd hmark (by decide)
        | exact absurd hpower (by decide)
        | exact absurd hproduct (by decide)
        | exact absurd hsum (by decide)

/-! ## §2 What stands behind a tree -/

namespace Phrase

mutual

/-- Behind a factor there is no suffix and no exponent. -/
theorem Factor.behind {rest : List Token} (x : Factor) (h : x.Greedy rest) :
    leads isMark rest = false ∧ leads (Token.isSymbol .power) rest = false := by
  match x with
  | .plain (.mk x marks) => exact ⟨h.1.2, h.2⟩
  | .power x e => exact Signed.behind e h.2

theorem Signed.behind {rest : List Token} (x : Signed) (h : x.Greedy rest) :
    leads isMark rest = false ∧ leads (Token.isSymbol .power) rest = false := by
  match x with
  | .mk negated x => exact Factor.behind x h

end

/-- Behind the factors of a product there is none that would continue it. -/
theorem Products.behind {rest : List Token} (more : Products) (h : more.Greedy rest)
    (hfirst : more = .nil → leads isMark rest = false ∧ leads (Token.isSymbol .power) rest = false) :
    leads isMark rest = false ∧ leads (Token.isSymbol .power) rest = false
      ∧ leads continuesProduct rest = false := by
  match more with
  -- No factors follow, so what is behind stands behind the first one.
  | .nil => exact ⟨(hfirst rfl).1, (hfirst rfl).2, h⟩
  | .cons joint x more =>
    refine Products.behind more h.2.2 ?_
    -- The last factor is what has the tokens behind it.
    rintro rfl
    exact x.behind h.2.1

/-- Behind a product there is nothing that would continue its last factor, nor the product. -/
theorem Term.behind {rest : List Token} (x : Term) (h : x.Greedy rest) :
    leads isMark rest = false ∧ leads (Token.isSymbol .power) rest = false
      ∧ leads continuesProduct rest = false := by
  cases x with
  | mk x more =>
    refine more.behind h.2 ?_
    rintro rfl
    exact x.behind h.1

/-- Behind the terms of a sum there is a closing parenthesis, or nothing. -/
theorem Sums.behind {rest : List Token} (more : Sums) (h : more.Greedy rest)
    (hfirst : more = .nil → leads isMark rest = false ∧ leads (Token.isSymbol .power) rest = false
      ∧ leads continuesProduct rest = false) :
    rest = [] ∨ leads (Token.isSymbol .rightParen) rest = true := by
  match more with
  | .nil =>
    obtain ⟨hmark, hpower, hproduct⟩ := hfirst rfl
    cases rest with
    | nil => exact .inl rfl
    | cons t rest => exact .inr (isSymbol_rightParen hmark hpower hproduct h)
  | .term subtracted x more =>
    refine Sums.behind more h.2.2 ?_
    rintro rfl
    exact x.behind h.2.1
  | .percentage subtracted x .nil =>
    cases rest with
    | nil => exact .inl rfl
    | cons t rest =>
      -- A percentage is followed by plus, minus or a closing parenthesis, and plus and minus continue.
      have hends : endsPercentage t = true := (Bool.and_eq_true_iff.mp h.1).2
      have hsum : Buffer.isAdditive t = false := h.2
      simp only [endsPercentage, Bool.or_eq_true] at hends
      simp only [Buffer.isAdditive, Bool.or_eq_false_iff] at hsum
      rcases hends with (hplus | hminus) | hparen
      · rw [hsum.1] at hplus
        cases hplus
      · rw [hsum.2] at hminus
        cases hminus
      · exact .inr hparen
  | .percentage subtracted x (.term s y more) => exact Sums.behind (.term s y more) h.2 nofun
  | .percentage subtracted x (.percentage s y more) =>
    exact Sums.behind (.percentage s y more) h.2 nofun

/-- Behind a sum there is a closing parenthesis, or nothing. -/
theorem Expr.behind {rest : List Token} (x : Expr) (h : x.Greedy rest) :
    rest = [] ∨ leads (Token.isSymbol .rightParen) rest = true := by
  cases x with
  | mk x more =>
    refine more.behind h.2 ?_
    -- Without further terms, the first one is the last.
    rintro rfl
    exact x.behind h.1

end Phrase

/-! ## §3 What is read -/

open Phrase

/-- Readers of nested operands that read trees, with room for some nesting: what they take are the tokens
of a tree that takes all continuations, and what they return is its value. -/
structure ReadTrees (m : Mode) (room : Nat) (r : Readers) : Prop where
  unary : ∀ {ts rest : List Token} {y : Operand}, r.unary ts = .ok (y, rest) →
    ∃ x : Unary, ts = x.tokens ++ rest ∧ x.Greedy rest ∧ x.height ≤ room ∧ x.value m = .ok y
  exponent : ∀ {ts rest : List Token} {y : Operand}, r.exponent ts = .ok (y, rest) →
    ∃ x : Signed, ts = x.tokens ++ rest ∧ x.Greedy rest ∧ x.height + 1 ≤ room ∧ x.value m = .ok y

section
variable {m : Mode} (hm : m.beyond = false) {room : Nat} {r : Readers} {ts rest : List Token}
  {x y : Operand}
include hm

/-- Suffixes that are read are the yield of suffixes of the grammar. By induction on the tokens. -/
theorem of_suffixes_ok (h : suffixes m x ts = .ok (y, rest)) :
    ∃ marks, ts = Mark.tokens marks ++ rest ∧ Mark.applyAll x marks = .ok y
      ∧ leads isMark rest = false := by
  induction ts generalizing x with
  | nil =>
    rw [suffixes_of_not_leads hm x rfl] at h
    cases h
    exact ⟨[], rfl, rfl, rfl⟩
  | cons t ts ih =>
    rcases applySuffix_cases x.quantity t with ⟨-, hmark⟩ | ⟨k, rfl, hk⟩
    -- The token is no suffix, so the suffixes end in front of it.
    · have hnone : leads isMark (t :: ts) = false := hmark
      rw [suffixes_of_not_leads hm x hnone] at h
      cases h
      exact ⟨[], rfl, rfl, hmark⟩
    · simp only [suffixes, hk, bind_ok_iff] at h
      obtain ⟨q, hq, h⟩ := h
      obtain ⟨marks, rfl, hmarks, hrest⟩ := ih h
      refine ⟨k :: marks, rfl, ?_, hrest⟩
      simp only [Mark.applyAll, hq, ok_bind, hmarks]

variable (hr : ReadTrees m room r)
include hr

/-- A factor that is read is a factor of the grammar. -/
theorem of_factor_ok (h : factor m r ts = .ok (y, rest)) : ∃ x : Factor,
    ts = x.tokens ++ rest ∧ x.Greedy rest ∧ x.height ≤ room ∧ x.value m = .ok y := by
  simp only [factor_eq hm, bind_ok_iff] at h
  obtain ⟨⟨w, us⟩, ⟨⟨z, vs⟩, hunary, hsuffixes⟩, h⟩ := h
  obtain ⟨u, rfl, hu, hheight, hz⟩ := hr.unary hunary
  obtain ⟨marks, rfl, hmarks, hbehind⟩ := of_suffixes_ok hm hsuffixes
  have hvalue : (Suffix.mk u marks).value m = .ok w := by
    simp only [Suffix.value, hz, ok_bind]
    exact hmarks
  -- The power sign is looked for behind all suffixes, so its base is the operand with them.
  cases hpower : leads (Token.isSymbol .power) us with
  | false =>
    simp only [hpower, Bool.false_eq_true, if_false] at h
    cases h
    refine ⟨.plain (.mk u marks), ?_, ⟨⟨hu, hbehind⟩, hpower⟩, hheight, hvalue⟩
    simp only [Factor.tokens, Suffix.tokens, List.append_assoc]
  | true =>
    obtain ⟨us, rfl⟩ := leads_isSymbol_iff.mp hpower
    simp only [hpower, if_true, bind_ok_iff] at h
    obtain ⟨⟨e, vs⟩, hexponent, q, hq, h⟩ := h
    obtain ⟨s, hs, hgreedy, hsheight, he⟩ := hr.exponent hexponent
    obtain rfl : us = s.tokens ++ vs := hs
    cases h
    refine ⟨.power (.mk u marks) s, ?_, ⟨⟨hu, rfl⟩, hgreedy⟩,
      Nat.max_le.mpr ⟨hheight, hsheight⟩, ?_⟩
    · simp only [Factor.tokens, Suffix.tokens, List.append_assoc, List.cons_append]
    · simp only [Factor.value, hvalue, he, ok_bind, hq]
      rfl

/-- A factor with its sign that is read is one of the grammar. -/
theorem of_signed_ok (h : signed m r ts = .ok (y, rest)) : ∃ x : Signed,
    ts = x.tokens ++ rest ∧ x.Greedy rest ∧ x.height ≤ room ∧ x.value m = .ok y := by
  rw [signed, nextIs_eq hm, ok_bind] at h
  cases hminus : leads (Token.isSymbol .minus) ts with
  | false =>
    simp only [hminus, Bool.false_eq_true, if_false] at h
    obtain ⟨x, rfl, hx, hheight, hy⟩ := of_factor_ok hm hr h
    exact ⟨.mk false x, rfl, hx, hheight, hy⟩
  -- The minus is taken first, and what is behind it is a factor.
  | true =>
    obtain ⟨us, rfl⟩ := leads_isSymbol_iff.mp hminus
    simp only [hminus, if_true, bind_ok_iff] at h
    obtain ⟨⟨z, vs⟩, hfactor, h⟩ := h
    obtain ⟨x, hus, hx, hheight, hz⟩ := of_factor_ok hm hr hfactor
    obtain rfl : us = x.tokens ++ vs := hus
    cases h
    refine ⟨.mk true x, rfl, hx, hheight, ?_⟩
    simp only [Signed.value, hz, ok_bind]
    rfl

/-- By induction on the fuel, of which there is enough for the tokens that are left. -/
theorem of_products_ok {fuel : Nat} (hfuel : ts.length ≤ fuel)
    (h : products m r fuel x ts = .ok (y, rest)) : ∃ more : Products,
    ts = more.tokens ++ rest ∧ more.Greedy rest ∧ more.height ≤ room ∧ more.value m x = .ok y := by
  induction fuel generalizing x ts with
  | zero =>
    obtain rfl := List.length_eq_zero_iff.mp (Nat.le_zero.mp hfuel)
    cases h
    exact ⟨.nil, rfl, rfl, Nat.zero_le _, rfl⟩
  | succ fuel ih =>
    rw [products, link_eq hm, ok_bind] at h
    rcases nextLink_cases ts with ⟨hnone, hbehind⟩ | ⟨joint, us, rfl, hsome, hstarts⟩
    · rw [hnone] at h
      cases h
      exact ⟨.nil, rfl, hbehind, Nat.zero_le _, rfl⟩
    · rw [hsome] at h
      simp only [bind_ok_iff] at h
      obtain ⟨⟨z, vs⟩, hsigned, q, hq, h⟩ := h
      obtain ⟨u, rfl, hu, hheight, hz⟩ := of_signed_ok hm hr hsigned
      -- The factor took a token at least, so the fuel is enough for what is left.
      have hpositive : 0 < u.tokens.length := List.length_pos_iff.mpr u.tokens_ne_nil
      simp only [List.length_append] at hfuel
      obtain ⟨more, rfl, hmore, hmoreHeight, hy⟩ := ih (show vs.length ≤ fuel by omega) h
      refine ⟨.cons joint u more, ?_, ⟨fun hjoint => ?_, hu, hmore⟩,
        Nat.max_le.mpr ⟨hheight, hmoreHeight⟩, ?_⟩
      · simp only [Products.tokens, List.append_assoc]
      · rw [← leads_append u.tokens_ne_nil]
        exact hstarts hjoint
      · simp only [Products.value, hz, ok_bind, hq, hy]

/-- A product that is read is a product of the grammar. -/
theorem of_term_ok (h : term m r ts = .ok (y, rest)) : ∃ x : Term,
    ts = x.tokens ++ rest ∧ x.Greedy rest ∧ x.height ≤ room ∧ x.value m = .ok y := by
  simp only [term, bind_ok_iff] at h
  obtain ⟨⟨z, us⟩, hsigned, h⟩ := h
  obtain ⟨x, rfl, hx, hheight, hz⟩ := of_signed_ok hm hr hsigned
  -- The loop starts with as much fuel as there are tokens, and one more.
  obtain ⟨more, rfl, hmore, hmoreHeight, hy⟩ := of_products_ok hm hr (Nat.le_succ _) h
  refine ⟨.mk x more, ?_, ⟨hx, hmore⟩, Nat.max_le.mpr ⟨hheight, hmoreHeight⟩, ?_⟩
  · simp only [Term.tokens, List.append_assoc]
  · simp only [Term.value, hz, ok_bind, hy]

omit hm in
/-- A number is read as itself, as far as its value goes. -/
theorem of_unary_number {x : Number} (h : r.unary (x.token :: ts) = .ok (y, rest)) :
    rest = ts ∧ x.value = .ok y ∧ 1 ≤ room := by
  obtain ⟨u, hu, -, hheight, hy⟩ := hr.unary h
  match u with
  | .number x' =>
    obtain ⟨htoken, hrest⟩ := List.cons.inj hu
    obtain rfl := Number.token_injective htoken
    exact ⟨hrest.symm, hy, hheight⟩
  -- All other operands begin with a symbol.
  | .pi | .euler | .root .. | .group .. | .call .. =>
    exact absurd (List.cons.inj hu).1 (x.token_ne_symbol _)

/-- By induction on the fuel, of which there is enough for the tokens that are left. -/
theorem of_sums_ok {fuel : Nat} (hfuel : ts.length ≤ fuel)
    (h : sums m r fuel x ts = .ok (y, rest)) : ∃ more : Sums,
    ts = more.tokens ++ rest ∧ more.Greedy rest ∧ more.height ≤ room ∧ more.value m x = .ok y := by
  induction fuel generalizing x ts with
  | zero =>
    obtain rfl := List.length_eq_zero_iff.mp (Nat.le_zero.mp hfuel)
    cases h
    exact ⟨.nil, rfl, rfl, Nat.zero_le _, rfl⟩
  | succ fuel ih =>
    cases hsum : leads Buffer.isAdditive ts with
    | false =>
      rw [sums_of_not_additive hm hsum] at h
      cases h
      exact ⟨.nil, rfl, hsum, Nat.zero_le _, rfl⟩
    | true =>
      obtain ⟨subtracted, us, rfl⟩ := of_leads_additive hsum
      rw [sums_additive hm] at h
      -- What comes next is decided by looking ahead, before any of it is read.
      cases hpercentage : percentageNext us with
      | true =>
        obtain ⟨u, vs, rfl⟩ := of_percentageNext hpercentage
        simp only [hpercentage, if_true, bind_ok_iff] at h
        obtain ⟨⟨z, ws⟩, hunary, h⟩ := h
        obtain ⟨rfl, hz, hroom⟩ := of_unary_number hr hunary
        simp only [List.length_cons] at hfuel
        obtain ⟨more, rfl, hmore, hmoreHeight, hy⟩ := ih (by simp only [List.tail_cons]; omega) h
        refine ⟨.percentage subtracted u more, rfl, ⟨hpercentage, hmore⟩,
          Nat.max_le.mpr ⟨hroom, hmoreHeight⟩, ?_⟩
        simp only [Sums.value, hz, ok_bind, hy]
      | false =>
        simp only [hpercentage, Bool.false_eq_true, if_false, bind_ok_iff] at h
        obtain ⟨⟨z, vs⟩, hterm, h⟩ := h
        obtain ⟨u, rfl, hu, hheight, hz⟩ := of_term_ok hm hr hterm
        simp only [List.length_cons, List.length_append] at hfuel
        obtain ⟨more, rfl, hmore, hmoreHeight, hy⟩ := ih (show vs.length ≤ fuel by omega) h
        refine ⟨.term subtracted u more, ?_, ⟨hpercentage, hu, hmore⟩,
          Nat.max_le.mpr ⟨hheight, hmoreHeight⟩, ?_⟩
        · simp only [Sums.tokens, List.append_assoc, List.cons_append]
        · simp only [Sums.value, hz, ok_bind, hy]

/-- A sum that is read is a sum of the grammar. -/
theorem of_expr_ok (h : expr m r ts = .ok (y, rest)) : ∃ x : Expr,
    ts = x.tokens ++ rest ∧ x.Greedy rest ∧ x.height ≤ room ∧ x.value m = .ok y := by
  simp only [expr, bind_ok_iff] at h
  obtain ⟨⟨z, us⟩, hterm, h⟩ := h
  obtain ⟨x, rfl, hx, hheight, hz⟩ := of_term_ok hm hr hterm
  obtain ⟨more, rfl, hmore, hmoreHeight, hy⟩ := of_sums_ok hm hr (Nat.le_succ _) h
  refine ⟨.mk x more, ?_, ⟨hx, hmore⟩, Nat.max_le.mpr ⟨hheight, hmoreHeight⟩, ?_⟩
  · simp only [Expr.tokens, List.append_assoc]
  · simp only [Expr.value, hz, ok_bind, hy]

/-- A group lacks its closing parenthesis only if no tokens are left, as a sum goes on until then. -/
theorem of_parenthesized_ok (h : parenthesized m r ts = .ok (y, rest)) :
    ∃ (x : Expr) (closed : Bool), ts = x.tokens ++ (closingTokens closed ++ rest)
      ∧ x.Greedy (closingTokens closed ++ rest) ∧ (closed = false → rest = []) ∧ x.height ≤ room
      ∧ x.value m = .ok y := by
  simp only [parenthesized, bind_ok_iff] at h
  obtain ⟨⟨z, us⟩, hexpr, closed, hclosed, h⟩ := h
  -- The group is the sum that is read, whether a parenthesis ends it or not.
  obtain ⟨x, rfl, hx, hheight, hz⟩ := of_expr_ok hm hr hexpr
  rw [nextIs_eq hm] at hclosed
  obtain rfl := Except.ok.inj hclosed
  cases hparen : leads (Token.isSymbol .rightParen) us with
  | true =>
    obtain ⟨vs, rfl⟩ := leads_isSymbol_iff.mp hparen
    simp only [hparen, if_true] at h
    cases h
    exact ⟨x, true, rfl, hx, nofun, hheight, hz⟩
  | false =>
    simp only [hparen, Bool.false_eq_true, if_false] at h
    cases h
    refine ⟨x, false, rfl, hx, fun _ => ?_, hheight, hz⟩
    -- A closing parenthesis would have been taken.
    rcases x.behind hx with hnil | hclosing
    · exact hnil
    · rw [hparen] at hclosing
      cases hclosing

/-- A minus under a root is taken. -/
theorem of_radicand_ok {q : Quantity} (h : radicand m r ts = .ok (q, rest)) :
    ∃ (negated : Bool) (x : Unary) (z : Operand), ts = signTokens negated ++ (x.tokens ++ rest)
      ∧ x.Greedy rest ∧ x.height ≤ room ∧ x.value m = .ok z
      ∧ signedQuantity negated z.quantity = q := by
  rw [radicand, nextIs_eq hm, ok_bind] at h
  cases hminus : leads (Token.isSymbol .minus) ts with
  | true =>
    obtain ⟨us, rfl⟩ := leads_isSymbol_iff.mp hminus
    simp only [hminus, if_true, bind_ok_iff] at h
    obtain ⟨⟨z, vs⟩, hunary, h⟩ := h
    obtain ⟨x, hus, hx, hheight, hz⟩ := hr.unary hunary
    obtain rfl : us = x.tokens ++ vs := hus
    cases h
    exact ⟨true, x, z, rfl, hx, hheight, hz, rfl⟩
  -- The operand may begin with anything but a minus.
  | false =>
    simp only [hminus, Bool.false_eq_true, if_false, bind_ok_iff] at h
    obtain ⟨⟨z, vs⟩, hunary, h⟩ := h
    cases h
    obtain ⟨x, rfl, hx, hheight, hz⟩ := hr.unary hunary
    exact ⟨false, x, z, rfl, hx, hheight, hz, rfl⟩

/-- A symbol that is read introduces an operand. -/
theorem of_ofSymbol_ok {s : Symbol} (h : ofSymbol m r s ts = .ok (y, rest)) : ∃ x : Unary,
    .symbol s :: ts = x.tokens ++ rest ∧ x.Greedy rest ∧ x.height ≤ room + 1 ∧ x.value m = .ok y := by
  by_cases hf : s.isFunction = true
  · rw [ofSymbol_call m r hf] at h
    simp only [bind_ok_iff] at h
    obtain ⟨⟨z, vs⟩, hparen, h⟩ := h
    obtain ⟨e, closed, rfl, he, hopen, hheight, hz⟩ := of_parenthesized_ok hm hr hparen
    -- A key that is a function is applied, or the reader would have failed.
    cases happly : applyFunction? m z.quantity s with
    | none =>
      simp only [happly] at h
      cases h
    | some w =>
      simp only [happly, bind_ok_iff] at h
      obtain ⟨q, hq, h⟩ := h
      cases h
      refine ⟨.call s hf e closed, ?_, ⟨he, hopen⟩, Nat.succ_le_succ hheight, ?_⟩
      · simp only [Unary.tokens, List.cons_append, List.append_assoc]
      · simp only [Unary.value, hz, ok_bind, happly, hq]
        rfl
  -- Of the symbols that are no functions, four introduce an operand; the others are refused.
  · cases s
    case pi =>
      cases h
      exact ⟨.pi, rfl, trivial, Nat.succ_le_succ (Nat.zero_le room), rfl⟩
    case euler =>
      cases h
      exact ⟨.euler, rfl, trivial, Nat.succ_le_succ (Nat.zero_le room), rfl⟩
    case sqrt =>
      simp only [ofSymbol, bind_ok_iff] at h
      obtain ⟨⟨q, vs⟩, hradicand, w, hw, h⟩ := h
      obtain ⟨negated, x, z, rfl, hx, hheight, hz, hq⟩ := of_radicand_ok hm hr hradicand
      cases h
      refine ⟨.root negated x, ?_, hx, Nat.succ_le_succ hheight, ?_⟩
      · simp only [Unary.tokens, List.cons_append, List.append_assoc]
      · simp only [Unary.value, hz, ok_bind, hq, hw]
    case leftParen =>
      obtain ⟨e, closed, rfl, he, hopen, hheight, hz⟩ := of_parenthesized_ok hm hr h
      refine ⟨.group e closed, ?_, ⟨he, hopen⟩, Nat.succ_le_succ hheight, hz⟩
      simp only [Unary.tokens, List.cons_append, List.append_assoc]
    all_goals first
      | exact absurd rfl hf
      | cases h

/-- With one more level of nesting, operands are read. -/
theorem of_unary_ok (h : unary m r ts = .ok (y, rest)) : ∃ x : Unary,
    ts = x.tokens ++ rest ∧ x.Greedy rest ∧ x.height ≤ room + 1 ∧ x.value m = .ok y := by
  match ts with
  -- Where the tokens end, no operand is read.
  | [] => cases h
  | .literal l :: ts =>
    simp only [unary, bind_ok_iff] at h
    obtain ⟨q, hq, h⟩ := h
    cases h
    refine ⟨.number (.literal l), rfl, trivial, Nat.succ_le_succ (Nat.zero_le room), ?_⟩
    simp only [Unary.value, Number.value, hq, ok_bind]
    rfl
  | .stored n v e s t :: ts =>
    cases h
    exact ⟨.number (.stored n v e s t), rfl, trivial, Nat.succ_le_succ (Nat.zero_le room), rfl⟩
  | .operator (.listed s) :: ts => exact of_ofSymbol_ok hm hr h
  | .operator (.unlisted n hn) :: ts => cases h

end

/-- Readers read trees of the grammar. By induction on the room for nesting. -/
theorem readTrees {m : Mode} (hm : m.beyond = false) (room : Nat) : ReadTrees m room (readers m room) := by
  induction room with
  | zero => exact ⟨nofun, nofun⟩
  | succ room ih =>
    -- Nested readers have one level less, and the exponent is one level in.
    refine ⟨of_unary_ok hm ih, fun h => ?_⟩
    obtain ⟨x, hts, hx, hheight, hy⟩ := of_signed_ok hm ih h
    exact ⟨x, hts, hx, Nat.succ_le_succ hheight, hy⟩

end Reckoner.Evaluation
