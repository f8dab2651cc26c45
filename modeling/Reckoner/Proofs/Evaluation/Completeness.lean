import Reckoner.Proofs.Evaluation.Phrase
import Reckoner.Proofs.Outcome

/-!
# Reading what the grammar derives

Readers find every tree of the grammar that takes all continuations: from its tokens, with the tokens that
are left behind it, they read its value, or fail with the error that its value is. If the tree is higher
than the room for nesting, they say so, unless they meet an error before.

- `nextIs_eq`, `link_eq` and `isPercentage_eq` say what readers see ahead when no more tokens are asked for
  than there are;
- `Reads` is what is read of a tree, given its height, the room and its value;
- there is one lemma for each kind of tree, by recursion on the trees, up to `Phrase.Expr.reads`;
- `within` is what is left of this for a tree that has a value.
-/

namespace Reckoner.Evaluation

open EvaluationError (syntaxError ofArithmetic ofLiteral)

/-! ## §1 Looking ahead -/

/-- How the factor that comes next is joined, and the tokens it is read from. -/
def nextLink : List Token → Option (Link × List Token)
  | [] => none
  | t :: ts =>
    if t.isSymbol .times then some (.times, ts)
    else if t.isSymbol .divide then some (.over, ts)
    else if startsFactor t then some (.times, t :: ts) else none

/-- A token that starts a factor is no binary operator. -/
theorem isSymbol_of_startsFactor {t : Token} (h : startsFactor t = true) {s : Symbol}
    (hs : s.isBinary = true) : t.isSymbol s = false := by
  cases t with
  | literal l => rfl
  | stored n v e r x => rfl
  | operator o =>
    cases o with
    | unlisted n hn => rfl
    | listed s' =>
      rw [Bool.eq_false_iff]
      intro heq
      obtain rfl : s' = s := of_decide_eq_true heq
      have hstarts : startsFactor (.operator (.listed s')) = false := by
        simp [startsFactor, Operator.has, Operator.symbol?, hs]
      rw [hstarts] at h
      cases h

/-- What does not continue a product joins no factor. -/
theorem nextLink_of_not_leads {ts : List Token} (h : leads continuesProduct ts = false) :
    nextLink ts = none := by
  cases ts with
  | nil => rfl
  | cons t ts =>
    simp only [leads, List.head?_cons, Option.any_some, continuesProduct, Bool.or_eq_false_iff] at h
    simp [nextLink, h]

/-- A joint is read as what it is; with nothing between them, two factors are joined if the second one
begins with a token that may follow a factor. -/
theorem nextLink_joint {joint : Joint} {ts : List Token}
    (h : joint = .nothing → leads startsFactor ts = true) :
    nextLink (joint.tokens ++ ts) = some (joint.link, ts) := by
  cases joint with
  | nothing =>
    -- The two binary signs are asked for first, and what starts a factor is neither.
    have hstarts := h rfl
    cases ts with
    | nil => cases hstarts
    | cons t ts =>
      have ht : startsFactor t = true := hstarts
      have htimes := isSymbol_of_startsFactor ht (s := .times) rfl
      have hdivide := isSymbol_of_startsFactor ht (s := .divide) rfl
      simp [Joint.tokens, nextLink, htimes, hdivide, ht, Joint.link]
  -- Between the factors stands the symbol itself.
  | _ => rfl

/-- What is neither plus nor minus is not plus and is not minus. -/
theorem not_leads_additive {ts : List Token} (h : leads Buffer.isAdditive ts = false) :
    leads (Token.isSymbol .plus) ts = false ∧ leads (Token.isSymbol .minus) ts = false := by
  cases ts with
  | nil => exact ⟨rfl, rfl⟩
  | cons t ts => exact Bool.or_eq_false_iff.mp h

/-- What leads a list is not changed by what is behind it, if the list is not empty. -/
theorem leads_append {p : Token → Bool} {ts us : List Token} (h : ts ≠ []) :
    leads p (ts ++ us) = leads p ts := by
  cases ts with
  | nil => exact absurd rfl h
  | cons t ts => rfl

section
variable {m : Mode} (hm : m.beyond = false)
include hm

theorem peek_eq (ts : List Token) : peek m ts = .ok ts.head? := by
  cases ts with
  | nil => simp [peek, hm]
  | cons t ts => rfl

theorem nextIs_eq (s : Symbol) (ts : List Token) :
    nextIs m s ts = .ok (leads (Token.isSymbol s) ts) := by
  rw [nextIs, peek_eq hm]
  rfl

/-- How the next factor is joined is told by the tokens. -/
theorem link_eq (ts : List Token) : link? m ts = .ok (nextLink ts) := by
  rw [link?, peek_eq hm, ok_bind]
  cases ts with
  | nil => rfl
  | cons t ts =>
    simp only [List.head?_cons, List.tail_cons, nextLink]
    by_cases htimes : t.isSymbol .times = true
    · simp only [if_pos htimes]
      rfl
    · by_cases hdivide : t.isSymbol .divide = true
      · simp only [if_neg htimes, if_pos hdivide]
        rfl
      · by_cases hstarts : startsFactor t = true
        · simp only [if_neg htimes, if_neg hdivide, if_pos hstarts]
          rfl
        · simp only [if_neg htimes, if_neg hdivide, if_neg hstarts]
          rfl

/-- Whether a percentage comes next is told by the tokens. -/
theorem isPercentage_eq (ts : List Token) : isPercentage m ts = .ok (percentageNext ts) := by
  match ts with
  | [] => simp [isPercentage, hm, percentageNext]
  | [x] => simp [isPercentage, hm, percentageNext]
  | x :: sign :: rest =>
    simp only [isPercentage, percentageNext, peek_eq hm, ok_bind]
    cases sign.isSymbol .percent <;> cases x.isOperator <;> rfl

/-- A token that is no suffix ends the suffixes. -/
theorem suffixes_of_not_leads (x : Operand) {ts : List Token} (h : leads isMark ts = false) :
    suffixes m x ts = .ok (x, ts) := by
  cases ts with
  | nil => simp [suffixes, hm]
  | cons t ts =>
    simp only [leads, List.head?_cons, Option.any_some, isMark, Bool.or_eq_false_iff] at h
    simp [suffixes, applySuffix?, h]

end

theorem applySuffix_mark (x : Quantity) (k : Mark) :
    applySuffix? x (.symbol k.symbol) = some (k.apply x) := by
  cases k <;> rfl

/-- Suffixes are applied one after the other. By induction on the suffixes. -/
theorem suffixes_marks {m : Mode} (hm : m.beyond = false) (marks : List Mark) (x : Operand)
    {rest : List Token} (hrest : leads isMark rest = false) :
    suffixes m x (Mark.tokens marks ++ rest) = Mark.applyAll x marks >>= fun y => .ok (y, rest) := by
  induction marks generalizing x with
  | nil => exact suffixes_of_not_leads hm _ hrest
  | cons k marks ih =>
    show suffixes m x (.symbol k.symbol :: (Mark.tokens marks ++ rest)) = _
    simp only [suffixes, applySuffix_mark, Mark.applyAll, bind_assoc]
    exact bind_congr_ok fun q _ => ih _

/-! ## §2 What is read of a tree -/

/-- What is read of a tree of some height with the tokens `rest` behind it: what its value `v` is, a value or
an error, if there is room for the tree. Otherwise there is too little room, unless the error is met
first. -/
inductive Reads (room height : Nat) (rest : List Token) :
    Evaluated Operand → Evaluated (Operand × List Token) → Prop where
  | room (h : height ≤ room) (v : Evaluated Operand) : Reads room height rest v (v >>= fun y => .ok (y, rest))
  | error (e : EvaluationError) : Reads room height rest (.error e) (.error e)
  | deep (h : room < height) (v : Evaluated Operand) :
      Reads room height rest v (syntaxError .nestedTooDeeply)

namespace Reads

variable {room height height' : Nat} {rest rest' : List Token} {v : Evaluated Operand}
  {read : Evaluated (Operand × List Token)} {f : Operand → Evaluated Operand}
  {g : Operand × List Token → Evaluated (Operand × List Token)}

theorem ok (h : height ≤ room) (y : Operand) : Reads room height rest (.ok y) (.ok (y, rest)) :=
  .room h (.ok y)

/-- Two trees read one after the other need as much room as the higher one. -/
theorem bind (h : Reads room height rest v read)
    (hfg : ∀ y, Reads room height' rest' (f y) (g (y, rest))) :
    Reads room (max height height') rest' (v >>= f) (read >>= g) := by
  cases h with
  -- The first tree is read to a value, so it is the second one that decides.
  | room hle v =>
    cases v with
    | error e => exact .error e
    | ok y =>
      have hy := hfg y
      simp only [ok_bind]
      generalize f y = w at hy ⊢
      generalize g (y, rest) = outcome at hy ⊢
      cases hy with
      | room hle' w => exact .room (Nat.max_le.mpr ⟨hle, hle'⟩) w
      | error e => exact .error e
      | deep hlt w => exact .deep (Nat.lt_of_lt_of_le hlt (Nat.le_max_right _ _)) w
  | error e => exact .error e
  -- The first tree is too high, and so is the higher of the two.
  | deep hlt v => exact .deep (Nat.lt_of_lt_of_le hlt (Nat.le_max_left _ _)) _

/-- What is done with the value of a tree needs no room. -/
theorem andThen (h : Reads room height rest v read)
    (hfg : ∀ y, g (y, rest) = f y >>= fun z => .ok (z, rest')) :
    Reads room height rest' (v >>= f) (read >>= g) := by
  cases h with
  | room hle v =>
    cases v with
    | error e => exact .error e
    | ok y =>
      simp only [ok_bind, hfg]
      exact .room hle _
  | error e => exact .error e
  | deep hlt v => exact .deep hlt _

/-- What is read may be passed on with some tokens more or less. -/
theorem passing (h : Reads room height rest v read) (hg : ∀ y, g (y, rest) = .ok (y, rest')) :
    Reads room height rest' v (read >>= g) := by
  have hpass := h.andThen (f := .ok) hg
  have hv : (v >>= .ok) = v := by cases v <;> rfl
  rwa [hv] at hpass

/-- A tree in one more group is read with room for one more. -/
theorem succ (h : Reads room height rest v read) : Reads (room + 1) (height + 1) rest v read := by
  cases h with
  | room hle v => exact .room (Nat.succ_le_succ hle) v
  | error e => exact .error e
  | deep hlt v => exact .deep (Nat.succ_lt_succ hlt) v

/-- If there is room for the tree, its value is read, or its error met. -/
theorem eq_of_le (h : Reads room height rest v read) (hle : height ≤ room) :
    read = v >>= fun y => .ok (y, rest) := by
  cases h with
  | room _ v => rfl
  | error e => rfl
  | deep hlt v => exact absurd hlt (Nat.not_lt.mpr hle)

end Reads

/-- What is read of a tree of some height that has a value, if there is room for it. -/
def within {α : Type} (room height : Nat) (a : α) : Evaluated α :=
  if height ≤ room then .ok a else syntaxError .nestedTooDeeply

theorem within_of_le {α : Type} {room height : Nat} (h : height ≤ room) (a : α) :
    within room height a = .ok a :=
  if_pos h

/-- Of a tree that has a value, it is only the room that may prevent the reading. -/
theorem Reads.eq_within {room height : Nat} {rest : List Token} {y : Operand}
    {read : Evaluated (Operand × List Token)} (h : Reads room height rest (.ok y) read) :
    read = within room height (y, rest) := by
  unfold within
  split
  · next hle => rw [h.eq_of_le hle, ok_bind]
  · next hdeep =>
    cases h with
    | room hle => exact absurd hle hdeep
    | deep => rfl

namespace Phrase

/-! ## §3 How trees begin -/

theorem Number.token_ne_symbol (x : Number) (s : Symbol) : x.token ≠ .symbol s := by
  cases x <;> nofun

theorem Number.token_injective {x x' : Number} (h : x.token = x'.token) : x = x' := by
  cases x <;> cases x' <;> cases h <;> rfl

theorem Number.isSymbol_token (x : Number) (s : Symbol) : x.token.isSymbol s = false := by
  cases x <;> rfl

/-- A function is applied to what is read in its parentheses. -/
theorem ofSymbol_call (m : Mode) (r : Readers) {f : Symbol} (h : f.isFunction = true)
    (ts : List Token) : ofSymbol m r f ts = (do
      let (x, rest) ← parenthesized m r ts
      match applyFunction? m x.quantity f with
      | some y => return (.computed (← ofArithmetic y), rest)
      | none => syntaxError .unrecognizedToken) := by
  cases f <;> first | rfl | cases h

/-- An operand begins with a token that is no minus. -/
theorem Unary.leads_minus (x : Unary) (rest : List Token) :
    leads (Token.isSymbol .minus) (x.tokens ++ rest) = false := by
  cases x with
  | number x => exact x.isSymbol_token .minus
  | pi => rfl
  | euler => rfl
  | root => rfl
  | group => rfl
  | call f h =>
    show decide (f = Symbol.minus) = false
    cases f <;> first | rfl | cases h

/-- A factor begins with no minus. -/
theorem Factor.leads_minus (x : Factor) (rest : List Token) :
    leads (Token.isSymbol .minus) (x.tokens ++ rest) = false := by
  cases x with
  | plain x =>
    cases x with
    | mk x marks =>
      simp only [Factor.tokens, Suffix.tokens, List.append_assoc]
      exact x.leads_minus _
  | power x e =>
    cases x with
    | mk x marks =>
      simp only [Factor.tokens, Suffix.tokens, List.append_assoc]
      exact x.leads_minus _

theorem Unary.tokens_ne_nil (x : Unary) : x.tokens ≠ [] := by
  cases x <;> simp [Unary.tokens]

theorem Factor.tokens_ne_nil (x : Factor) : x.tokens ≠ [] := by
  cases x with
  | plain x =>
    cases x with
    | mk x marks => simp [Factor.tokens, Suffix.tokens, x.tokens_ne_nil]
  | power x e => simp [Factor.tokens]

theorem Signed.tokens_ne_nil (x : Signed) : x.tokens ≠ [] := by
  cases x with
  | mk negated x => simp [Signed.tokens, x.tokens_ne_nil]

theorem Term.tokens_ne_nil (x : Term) : x.tokens ≠ [] := by
  cases x with
  | mk x more => simp [Term.tokens, x.tokens_ne_nil]

theorem Expr.tokens_ne_nil (x : Expr) : x.tokens ≠ [] := by
  cases x with
  | mk x more => simp [Expr.tokens, x.tokens_ne_nil]

/-! ## §4 Reading trees -/

section
variable {m : Mode} (hm : m.beyond = false)
include hm

/-- Where no factor follows, a product is at its end. -/
theorem products_of_not_continues {r : Readers} {fuel : Nat} {x : Operand} {ts : List Token}
    (h : leads continuesProduct ts = false) : products m r fuel x ts = .ok (x, ts) := by
  cases fuel with
  | zero => rfl
  | succ fuel =>
    rw [products, link_eq hm, nextLink_of_not_leads h]
    rfl

/-- Without a plus or a minus a sum is at its end. -/
theorem sums_of_not_additive {r : Readers} {fuel : Nat} {x : Operand} {ts : List Token}
    (h : leads Buffer.isAdditive ts = false) : sums m r fuel x ts = .ok (x, ts) := by
  obtain ⟨hplus, hminus⟩ := not_leads_additive h
  cases fuel with
  | zero => rfl
  | succ fuel =>
    rw [sums, nextIs_eq hm, nextIs_eq hm, hplus, hminus]
    rfl

/-- Behind a plus or a minus comes a percentage of the running total, or a term. -/
theorem sums_additive (r : Readers) (fuel : Nat) (x : Operand) (subtracted : Bool)
    (ts : List Token) :
    sums m r (fuel + 1) x (.symbol (additiveSymbol subtracted) :: ts)
      = if percentageNext ts then (do
          let (y, rest) ← r.unary ts
          sums m r fuel (.computed (x.quantity.multiply (percentageFactor subtracted y.quantity)))
            rest.tail)
        else (do
          let (y, rest) ← term m r ts
          sums m r fuel (.computed (addSummand subtracted x.quantity y.quantity)) rest) := by
  rw [sums, nextIs_eq hm, nextIs_eq hm]
  -- Minus is only asked for where there is no plus.
  cases subtracted with
  | true =>
    show (isPercentage m ts >>= _) = _
    rw [isPercentage_eq hm, ok_bind]
    rfl
  | false =>
    show (isPercentage m ts >>= _) = _
    rw [isPercentage_eq hm, ok_bind]
    rfl

/-- A minus in front of the number under a root is taken. -/
theorem radicand_signed (r : Readers) (negated : Bool) (x : Unary) (rest : List Token) :
    radicand m r (signTokens negated ++ (x.tokens ++ rest)) = (do
      let (y, rest) ← r.unary (x.tokens ++ rest)
      return (signedQuantity negated y.quantity, rest)) := by
  rw [radicand, nextIs_eq hm]
  cases negated with
  | true => rfl
  | false =>
    simp only [signTokens, Bool.false_eq_true, if_false, List.nil_append, x.leads_minus]
    rfl

/-- A minus in front of a factor is taken. -/
theorem signed_signed (r : Readers) (negated : Bool) (x : Factor) (rest : List Token) :
    signed m r (signTokens negated ++ (x.tokens ++ rest))
      = if negated then (do
          let (y, rest) ← factor m r (x.tokens ++ rest)
          return (.computed y.quantity.negate, rest))
        else factor m r (x.tokens ++ rest) := by
  rw [signed, nextIs_eq hm]
  cases negated with
  | true => rfl
  | false =>
    simp only [signTokens, Bool.false_eq_true, if_false, List.nil_append, x.leads_minus]
    rfl

/-- A factor is an operand with its suffixes, and then an exponent if there is one. -/
theorem factor_eq (r : Readers) (ts : List Token) :
    factor m r ts = (do
      let p ← r.unary ts >>= fun p => suffixes m p.1 p.2
      if leads (Token.isSymbol .power) p.2 then
        let (e, rest) ← r.exponent p.2.tail
        return (.computed (← ofArithmetic (p.1.quantity.pow e.quantity)), rest)
      else return p) := by
  unfold factor
  cases r.unary ts with
  | error e => rfl
  | ok p =>
    simp only [ok_bind]
    cases suffixes m p.1 p.2 with
    | error e => rfl
    | ok q =>
      simp only [ok_bind, nextIs_eq hm]

/-- The closing parenthesis of a group is taken if it is there. -/
theorem parenthesized_closing {r : Readers} {ts rest : List Token} {room height : Nat}
    {v : Evaluated Operand} {closed : Bool} (hopen : closed = false → rest = [])
    (h : Reads room height (closingTokens closed ++ rest) v (expr m r ts)) :
    Reads room height rest v (parenthesized m r ts) := by
  refine h.passing fun y => ?_
  simp only [nextIs_eq hm, ok_bind]
  cases closed with
  | true => rfl
  | false =>
    obtain rfl := hopen rfl
    rfl

end

variable {m : Mode}

/-- An exponent takes a level of nesting of its own. -/
theorem exponent_reads {ts rest : List Token} {height : Nat} {v : Evaluated Operand}
    (h : ∀ room, Reads room height rest v (signed m (readers m room) ts)) (room : Nat) :
    Reads room (height + 1) rest v ((readers m room).exponent ts) := by
  cases room with
  | zero => exact .deep (Nat.succ_pos _) v
  | succ room => exact (h room).succ

/-- A number is read from its token, if there is room for any operand. -/
theorem Number.reads (m : Mode) (room : Nat) (rest : List Token) (x : Number) :
    Reads room 1 rest x.value ((readers m room).unary (x.token :: rest)) := by
  cases room with
  | zero => exact .deep Nat.one_pos _
  | succ room =>
    cases x with
    | literal l =>
      have hread : unary m (readers m room) (.literal l :: rest)
          = (Number.literal l).value >>= fun y => .ok (y, rest) := by
        simp only [unary, Number.value, bind_assoc]
        rfl
      show Reads _ _ _ _ (unary m (readers m room) (.literal l :: rest))
      rw [hread]
      exact .room (Nat.succ_le_succ (Nat.zero_le room)) _
    | stored n v e s t => exact .ok (Nat.succ_le_succ (Nat.zero_le room)) _

mutual

/-- An operand is read from its tokens, if there is room for it. -/
theorem Unary.reads (hm : m.beyond = false) (room : Nat) {rest : List Token} (x : Unary)
    (hx : x.Greedy rest) :
    Reads room x.height rest (x.value m) ((readers m room).unary (x.tokens ++ rest)) := by
  cases room with
  -- Without room no operand is read, and no tree of one is flat enough.
  | zero => cases x <;> exact .deep (Nat.succ_pos _) _
  | succ room =>
    match x with
    | .number x => exact x.reads m (room + 1) rest
    | .pi | .euler => exact .ok (Nat.succ_le_succ (Nat.zero_le room)) _
    | .root negated x =>
      -- The minus under the root is taken by the root, so what is behind it is an operand.
      have hread := Unary.reads hm room x hx
      simp only [Unary.tokens, Unary.height, List.cons_append, List.append_assoc]
      show Reads _ _ _ _ (ofSymbol m (readers m room) .sqrt _)
      simp only [ofSymbol, radicand_signed hm, bind_assoc]
      exact (hread.andThen fun y => rfl).succ
    | .group x closed =>
      have hread := Expr.reads hm room x hx.1
      simp only [Unary.tokens, Unary.height, List.cons_append, List.append_assoc]
      exact (parenthesized_closing hm hx.2 hread).succ
    | .call f hf x closed =>
      have hread := parenthesized_closing hm hx.2 (Expr.reads hm room x hx.1)
      simp only [Unary.tokens, Unary.height, List.cons_append, List.append_assoc]
      show Reads _ _ _ _ (ofSymbol m (readers m room) f _)
      rw [ofSymbol_call _ _ hf]
      refine (hread.andThen fun y => ?_).succ
      dsimp only
      -- Every function is applied; that it may fail to be one is a branch of the reader only.
      cases applyFunction? m y.quantity f with
      | none => rfl
      | some z =>
        simp only [bind_assoc]
        rfl

/-- An operand and its suffixes are read one after the other. -/
theorem Suffix.reads (hm : m.beyond = false) (room : Nat) {rest : List Token} (x : Suffix)
    (hx : x.Greedy rest) : Reads room x.height rest (x.value m)
      ((readers m room).unary (x.tokens ++ rest) >>= fun p => suffixes m p.1 p.2) := by
  match x with
  | .mk x marks =>
    have hread := Unary.reads hm room x hx.1
    simp only [Suffix.tokens, Suffix.height, List.append_assoc]
    exact hread.andThen fun y => suffixes_marks hm marks y hx.2

theorem Factor.reads (hm : m.beyond = false) (room : Nat) {rest : List Token} (x : Factor)
    (hx : x.Greedy rest) :
    Reads room x.height rest (x.value m) (factor m (readers m room) (x.tokens ++ rest)) := by
  match x with
  | .plain x =>
    have hread := Suffix.reads hm room x hx.1
    simp only [Factor.tokens, Factor.height, factor_eq hm]
    refine hread.passing fun y => ?_
    simp only [hx.2, Bool.false_eq_true, if_false]
    rfl
  | .power x e =>
    have hbase := Suffix.reads hm room x hx.1
    have hexponent := exponent_reads (fun room => Signed.reads hm room e hx.2) room
    simp only [Factor.tokens, Factor.height, List.append_assoc, List.cons_append, factor_eq hm]
    -- The power sign is behind the base, and the exponent behind that.
    refine hbase.bind fun y => ?_
    simp only [leads, List.head?_cons, Option.any_some, List.tail_cons]
    show Reads _ _ _ _ ((readers m room).exponent (e.tokens ++ rest) >>= _)
    refine hexponent.andThen fun z => ?_
    simp only [bind_assoc]
    rfl

theorem Signed.reads (hm : m.beyond = false) (room : Nat) {rest : List Token} (x : Signed)
    (hx : x.Greedy rest) :
    Reads room x.height rest (x.value m) (signed m (readers m room) (x.tokens ++ rest)) := by
  match x with
  | .mk negated x =>
    have hread := Factor.reads hm room x hx
    simp only [Signed.tokens, Signed.height, List.append_assoc, signed_signed hm]
    cases negated with
    | false => exact hread
    | true => exact hread.andThen fun y => rfl

theorem Term.reads (hm : m.beyond = false) (room : Nat) {rest : List Token} (x : Term)
    (hx : x.Greedy rest) :
    Reads room x.height rest (x.value m) (term m (readers m room) (x.tokens ++ rest)) := by
  match x with
  | .mk x more =>
    have hread := Signed.reads hm room x hx.1
    simp only [Term.tokens, Term.height, List.append_assoc, term]
    refine hread.bind fun y => Products.reads hm room more hx.2 y ?_
    -- The fuel is the number of tokens in front, and the other factors are among them.
    simp only [List.length_append]
    omega

/-- Behind the first factors, the others are read one after the other. -/
theorem Products.reads (hm : m.beyond = false) (room : Nat) {rest : List Token} (more : Products)
    (hmore : more.Greedy rest) (y : Operand) {fuel : Nat} (hfuel : more.tokens.length ≤ fuel) :
    Reads room more.height rest (more.value m y)
      (products m (readers m room) fuel y (more.tokens ++ rest)) := by
  match more, fuel with
  | .nil, _ =>
    rw [Products.tokens, List.nil_append, products_of_not_continues hm hmore]
    exact .ok (Nat.zero_le room) y
  | .cons joint x more, fuel =>
    -- A factor has a token at least, so there is fuel for it.
    have hpositive : 0 < x.tokens.length := List.length_pos_iff.mpr x.tokens_ne_nil
    simp only [Products.tokens, List.length_append] at hfuel
    obtain ⟨fuel, rfl⟩ : ∃ n, fuel = n + 1 := ⟨fuel - 1, by omega⟩
    have hread := Signed.reads hm room x hmore.2.1
    have hlink : nextLink (joint.tokens ++ (x.tokens ++ (more.tokens ++ rest)))
        = some (joint.link, x.tokens ++ (more.tokens ++ rest)) :=
      nextLink_joint fun h => by rw [leads_append x.tokens_ne_nil]; exact hmore.1 h
    simp only [Products.tokens, Products.height, List.append_assoc, products, link_eq hm, ok_bind,
      hlink]
    refine hread.bind fun z => ?_
    simp only
    -- A division by zero ends the product; else the running product is what is joined next.
    cases joint.link.apply y.quantity z.quantity with
    | error e => exact .error _
    | ok q => exact Products.reads hm room more hmore.2.2 _ (by omega)

theorem Expr.reads (hm : m.beyond = false) (room : Nat) {rest : List Token} (x : Expr)
    (hx : x.Greedy rest) :
    Reads room x.height rest (x.value m) (expr m (readers m room) (x.tokens ++ rest)) := by
  match x with
  | .mk x more =>
    have hread := Term.reads hm room x hx.1
    simp only [Expr.tokens, Expr.height, List.append_assoc, expr]
    refine hread.bind fun y => Sums.reads hm room more hx.2 y ?_
    simp only [List.length_append]
    omega

/-- Behind the first terms, the others are read one after the other. -/
theorem Sums.reads (hm : m.beyond = false) (room : Nat) {rest : List Token} (more : Sums)
    (hmore : more.Greedy rest) (y : Operand) {fuel : Nat} (hfuel : more.tokens.length ≤ fuel) :
    Reads room more.height rest (more.value m y)
      (sums m (readers m room) fuel y (more.tokens ++ rest)) := by
  match more, fuel with
  | .nil, _ =>
    rw [Sums.tokens, List.nil_append, sums_of_not_additive hm hmore]
    exact .ok (Nat.zero_le room) y
  | .term subtracted x more, 0 => simp [Sums.tokens] at hfuel
  | .term subtracted x more, fuel + 1 =>
    simp only [Sums.tokens, List.length_cons, List.length_append] at hfuel
    have hread := Term.reads hm room x hmore.2.1
    simp only [Sums.tokens, Sums.height, List.cons_append, List.append_assoc, sums_additive hm,
      hmore.1, Bool.false_eq_true, if_false]
    exact hread.bind fun z => Sums.reads hm room more hmore.2.2 _ (by omega)
  | .percentage subtracted x more, 0 => simp [Sums.tokens] at hfuel
  | .percentage subtracted x more, fuel + 1 =>
    simp only [Sums.tokens, List.length_cons] at hfuel
    -- Behind the number of the percentage stands its percent sign.
    have hread := x.reads m room (.symbol .percent :: (more.tokens ++ rest))
    simp only [Sums.tokens, Sums.height, List.cons_append, sums_additive hm, hmore.1, if_true]
    exact hread.bind fun z => Sums.reads hm room more hmore.2 _ (by omega)

end

/-- An operand that has a value is read, if there is room for it. -/
theorem Unary.read (hm : m.beyond = false) (room : Nat) {rest : List Token} {y : Operand}
    (x : Unary) (hx : x.Greedy rest) (hy : x.value m = .ok y) :
    (readers m room).unary (x.tokens ++ rest) = within room x.height (y, rest) := by
  have hreads := x.reads hm room hx
  rw [hy] at hreads
  exact hreads.eq_within

/-- A sum that has a value is read, if there is room for it. -/
theorem Expr.read (hm : m.beyond = false) (room : Nat) {rest : List Token} {y : Operand}
    (x : Expr) (hx : x.Greedy rest) (hy : x.value m = .ok y) :
    expr m (readers m room) (x.tokens ++ rest) = within room x.height (y, rest) := by
  have hreads := x.reads hm room hx
  rw [hy] at hreads
  exact hreads.eq_within

end Phrase

end Reckoner.Evaluation
