import Reckoner.Proofs.Evaluation.Closing
import Reckoner.Proofs.Evaluation.Progress

/-!
# Two runs in lockstep

Two runs of the same readers on different tokens return the same, as long as they see the same: both begin
with the same token, or neither begins with one that goes on with what has been read. What is particular to
two token lists is said by two relations. One is between the tokens in front of an operand, the other one
between those behind it.

- `Paired` relates what the two runs return;
- `Lockstep` is such a pair of relations, with what the readers need of it;
- there is one lemma for each reader up to `Lockstep.readers_alike`, and `Lockstep.expr_alike` for sums.
-/

namespace Reckoner.Evaluation

open EvaluationError (syntaxError ofArithmetic ofLiteral)

/-! ## §1 What two runs return -/

/-- What two runs return: values in a relation, or the same error. On some condition the second run may
find that there is too little room for nesting. -/
inductive Paired {α β : Type} (deeper : Prop) (R : α → β → Prop) : Evaluated α → Evaluated β → Prop where
  | ok {a : α} {b : β} (h : R a b) : Paired deeper R (.ok a) (.ok b)
  | error (e : EvaluationError) : Paired deeper R (.error e) (.error e)
  | deeper (h : deeper) (x : Evaluated α) : Paired deeper R x (syntaxError .nestedTooDeeply)

namespace Paired

variable {α β γ δ : Type} {deeper : Prop} {R : α → β → Prop} {S : γ → δ → Prop}

/-- Runs go on in lockstep when what follows does. -/
theorem bind {x : Evaluated α} {y : Evaluated β} {f : α → Evaluated γ} {g : β → Evaluated δ}
    (h : Paired deeper R x y) (hfg : ∀ a b, x = .ok a → R a b → Paired deeper S (f a) (g b)) :
    Paired deeper S (x >>= f) (y >>= g) := by
  cases h with
  | ok hab => exact hfg _ _ rfl hab
  | error e => exact .error e
  | deeper h x => exact .deeper h _

/-- Runs that always find room return the same error, or values in the relation. -/
theorem corresponds {x : Evaluated α} {y : Evaluated β} (h : Paired False R x y) : Corresponds R x y := by
  cases h with
  | ok hab => exact .ok hab
  | error e => exact .error e
  | deeper h x => exact h.elim

end Paired

/-! ## §2 What two runs see -/

/-- Whether an operand is still to come behind a token. -/
def awaitsOperand (t : Token) : Bool :=
  Buffer.isBinary t || t.isSymbol .sqrt || Buffer.opens t

/-- Whether a token ends an operand. -/
def endsOperand (t : Token) : Bool :=
  !t.isOperator || t.isSymbol .pi || t.isSymbol .euler || isMark t || t.isSymbol .rightParen

/-- Whether a token goes on with what has been read, other than by a factor. -/
def goesOn (t : Token) : Bool :=
  isMark t || t.isSymbol .power || Buffer.isAdditive t || t.isSymbol .rightParen

section
variable (front behind : List Token → List Token → Prop)

/-- Both runs begin with the same token, and behind it they have tokens that are related as they should be
in front of an operand, or behind one. A percentage of the running total comes next in both, or in
neither. -/
inductive Shared : List Token → List Token → Prop where
  | intro (t : Token) {ts us : List Token} (operand : awaitsOperand t = true → front ts us)
      (rest : endsOperand t = true → behind ts us)
      (percentage : Buffer.isAdditive t = true → percentageNext ts = percentageNext us) :
      Shared (t :: ts) (t :: us)

/-- Neither run goes on with what has been read, unless both go on with a factor. -/
structure Apart (ts us : List Token) : Prop where
  left : leads goesOn ts = false
  right : leads goesOn us = false
  link : Option.Rel (fun p q => p.1 = q.1 ∧ front p.2 q.2) (nextLink ts) (nextLink us)

/-- Values that were read alike, with the tokens behind them. -/
def Alike : Operand × List Token → Operand × List Token → Prop
  | (x, ts), (y, us) => x.quantity = y.quantity ∧ behind ts us

end

/-- Relations between the tokens of two runs that keep them in lockstep: in front of an operand, and behind
one. Where the tokens in front of an operand are not the same, both runs are known to read an operand
alike. -/
structure Lockstep (m : Mode) where
  deeper : Prop
  front : List Token → List Token → Prop
  behind : List Token → List Token → Prop
  front_cases : ∀ {ts us : List Token}, front ts us → Shared front behind ts us
    ∨ Apart front ts us ∧ ∀ room,
      Paired deeper (Alike behind) ((readers m room).unary ts) ((readers m room).unary us)
  behind_cases : ∀ {ts us : List Token}, behind ts us → front ts us ∨ Apart front ts us

variable {m : Mode} {L : Lockstep m} {r : Readers} {ts us : List Token} {x y : Operand}

namespace Lockstep

/-- What both runs see. -/
abbrev Seen (L : Lockstep m) (ts us : List Token) : Prop :=
  Shared L.front L.behind ts us ∨ Apart L.front ts us

theorem seen_of_front (h : L.front ts us) : L.Seen ts us :=
  (L.front_cases h).imp_right And.left

theorem seen_of_behind (h : L.behind ts us) : L.Seen ts us :=
  (L.behind_cases h).elim seen_of_front .inr

/-- What goes on with what has been read comes next in both runs, or in neither. -/
theorem Seen.leads {p : Token → Bool} (h : L.Seen ts us) (hp : ∀ t, p t = true → goesOn t = true) :
    Evaluation.leads p ts = Evaluation.leads p us := by
  have hnot {vs : List Token} (hvs : Evaluation.leads goesOn vs = false) : Evaluation.leads p vs = false := by
    cases vs with
    | nil => rfl
    | cons v vs => exact Bool.eq_false_iff.mpr fun hv => Bool.eq_false_iff.mp hvs (hp v hv)
  rcases h with ⟨t, -, -, -⟩ | ⟨hts, hus, -⟩
  · rfl
  -- Neither run goes on with what has been read.
  · rw [hnot hts, hnot hus]

/-- A symbol that goes on with what has been read is the next one in both runs. -/
theorem Seen.of_symbol {s : Symbol} (h : L.Seen (.symbol s :: ts) us) (hs : goesOn (.symbol s) = true) :
    ∃ vs, us = .symbol s :: vs ∧ (awaitsOperand (.symbol s) = true → L.front ts vs)
      ∧ (endsOperand (.symbol s) = true → L.behind ts vs)
      ∧ (Buffer.isAdditive (.symbol s) = true → percentageNext ts = percentageNext vs) := by
  rcases h with h | ⟨hts, -, -⟩
  · obtain ⟨_, hoperand, hrest, hpercentage⟩ := h
    exact ⟨_, rfl, hoperand, hrest, hpercentage⟩
  · exact absurd hs (Bool.eq_false_iff.mp hts)

/-- The next factor is joined alike, and read from tokens that face each other. -/
theorem nextLink_alike (h : L.behind ts us) :
    Option.Rel (fun p q => p.1 = q.1 ∧ L.front p.2 q.2) (nextLink ts) (nextLink us) := by
  rcases L.behind_cases h with hfront | hapart
  · rcases L.front_cases hfront with hshared | ⟨hapart, -⟩
    · obtain ⟨t, hoperand, -, -⟩ := hshared
      -- Behind a binary sign an operand is to come.
      have hjoined {s : Symbol} (hs : s.isBinary = true) (ht : t.isSymbol s = true) :
          awaitsOperand t = true := by
        rw [isSymbol_iff.mp ht, awaitsOperand, Bool.or_assoc]
        exact Bool.or_eq_true_iff.mpr (.inl hs)
      simp only [nextLink]
      split
      · next ht => exact .some ⟨rfl, hoperand (hjoined rfl ht)⟩
      · split
        · next ht => exact .some ⟨rfl, hoperand (hjoined rfl ht)⟩
        · split
          · exact .some ⟨rfl, hfront⟩
          · exact .none
    · exact hapart.link
  · exact hapart.link

/-- Both readers of nested operands do alike. -/
structure ReadersAlike (L : Lockstep m) (r : Readers) : Prop where
  unary : ∀ {ts us : List Token}, L.front ts us →
    Paired L.deeper (Alike L.behind) (r.unary ts) (r.unary us)
  exponent : ∀ {ts us : List Token}, L.front ts us →
    Paired L.deeper (Alike L.behind) (r.exponent ts) (r.exponent us)

end Lockstep

open Lockstep Phrase

theorem goesOn_of_isMark {t : Token} (h : isMark t = true) : goesOn t = true := by
  simp [goesOn, h]

theorem goesOn_of_isAdditive {t : Token} (h : Buffer.isAdditive t = true) : goesOn t = true := by
  simp [goesOn, h]

theorem goesOn_of_isSymbol {s : Symbol} (hs : goesOn (.symbol s) = true) (t : Token)
    (h : t.isSymbol s = true) : goesOn t = true := by
  rwa [isSymbol_iff.mp h]

theorem endsOperand_mark (k : Mark) : endsOperand (.symbol k.symbol) = true := by
  cases k <;> rfl

theorem awaitsOperand_additive (subtracted : Bool) :
    awaitsOperand (.symbol (additiveSymbol subtracted)) = true := by
  cases subtracted <;> rfl

/-! ## §3 Readers -/

theorem paired_ok (hxy : x.quantity = y.quantity) (h : L.behind ts us) :
    Paired L.deeper (Alike L.behind) (.ok (x, ts)) (.ok (y, us)) :=
  .ok ⟨hxy, h⟩

/-- What is computed of the same quantities is read alike. -/
theorem paired_computed (q : Except ArithmeticError Quantity) (h : L.behind ts us) :
    Paired L.deeper (Alike L.behind) (do return (.computed (← ofArithmetic q), ts))
      (do return (.computed (← ofArithmetic q), us)) := by
  cases q with
  | ok q => exact paired_ok rfl h
  | error e => exact .error _

section
variable (hm : m.beyond = false)
include hm

/-- The same postfix operators are applied in both runs. By induction on the tokens of the first one. -/
theorem suffixes_alike (hxy : x.quantity = y.quantity) (h : L.behind ts us) :
    Paired L.deeper (Alike L.behind) (suffixes m x ts) (suffixes m y us) := by
  induction ts generalizing us x y with
  | nil =>
    have hmark := (seen_of_behind h).leads fun _ => goesOn_of_isMark
    rw [suffixes_of_not_leads hm x rfl, suffixes_of_not_leads hm y hmark.symm]
    exact paired_ok hxy h
  | cons t ts ih =>
    have hmark := (seen_of_behind h).leads fun _ => goesOn_of_isMark
    rcases applySuffix_cases x.quantity t with ⟨-, ht⟩ | ⟨k, rfl, -⟩
    · have hts : leads isMark (t :: ts) = false := ht
      rw [suffixes_of_not_leads hm x hts, suffixes_of_not_leads hm y (hmark.symm.trans hts)]
      exact paired_ok hxy h
    -- The same suffix comes next in the second run, and it ends an operand, too.
    · obtain ⟨vs, rfl, -, hrest, -⟩ :=
        (seen_of_behind h).of_symbol (goesOn_of_isMark (by cases k <;> rfl))
      simp only [suffixes, applySuffix_mark, hxy]
      cases k.apply y.quantity with
      | ok q => exact ih rfl (hrest (endsOperand_mark k))
      | error e => exact .error _

/-- Factors are read alike. -/
theorem factor_alike (hr : L.ReadersAlike r) (h : L.front ts us) :
    Paired L.deeper (Alike L.behind) (factor m r ts) (factor m r us) := by
  rw [factor_eq hm, factor_eq hm]
  have hbase : Paired L.deeper (Alike L.behind) (r.unary ts >>= fun p => suffixes m p.1 p.2)
      (r.unary us >>= fun p => suffixes m p.1 p.2) :=
    (hr.unary h).bind fun _ _ _ hread => suffixes_alike hm hread.1 hread.2
  refine hbase.bind ?_
  rintro ⟨x, ts⟩ ⟨y, us⟩ - ⟨hxy, h⟩
  have hseen := seen_of_behind h
  dsimp only at hxy ⊢
  rw [← hseen.leads (goesOn_of_isSymbol (s := .power) rfl)]
  cases hpower : leads (Token.isSymbol .power) ts with
  | false => exact paired_ok hxy h
  | true =>
    obtain ⟨ts, rfl⟩ := leads_isSymbol_iff.mp hpower
    -- Behind the power sign an operand is to come, so the tokens face each other.
    obtain ⟨us, rfl, hoperand, -⟩ := hseen.of_symbol rfl
    refine (hr.exponent (hoperand rfl)).bind ?_
    rintro ⟨z, ts⟩ ⟨w, us⟩ - ⟨hzw, h⟩
    dsimp only at hzw ⊢
    rw [hxy, hzw]
    exact paired_computed _ h

/-- Factors with their sign are read alike. -/
theorem signed_alike (hr : L.ReadersAlike r) (h : L.front ts us) :
    Paired L.deeper (Alike L.behind) (signed m r ts) (signed m r us) := by
  have hseen := seen_of_front h
  simp only [signed, nextIs_eq hm, ok_bind, ← hseen.leads (goesOn_of_isSymbol (s := .minus) rfl)]
  cases hminus : leads (Token.isSymbol .minus) ts with
  | false => exact factor_alike hm hr h
  | true =>
    obtain ⟨ts, rfl⟩ := leads_isSymbol_iff.mp hminus
    -- Both runs take the minus, and are then in front of an operand again.
    obtain ⟨us, rfl, hoperand, -⟩ := hseen.of_symbol rfl
    refine (factor_alike hm hr (hoperand rfl)).bind ?_
    rintro ⟨z, ts⟩ ⟨w, us⟩ - ⟨hzw, h⟩
    exact paired_ok (congrArg Quantity.negate hzw) h

/-- Products are read alike, by induction on the fuel. -/
theorem products_alike (hr : L.ReadersAlike r) (fuel : Nat) (hxy : x.quantity = y.quantity)
    (h : L.behind ts us) :
    Paired L.deeper (Alike L.behind) (products m r fuel x ts) (products m r fuel y us) := by
  induction fuel generalizing x y ts us with
  | zero => exact paired_ok hxy h
  | succ fuel ih =>
    have hlink := nextLink_alike h
    simp only [products, link_eq hm, ok_bind]
    generalize nextLink ts = p at hlink ⊢
    generalize nextLink us = q at hlink ⊢
    -- Both products end there, or both go on with a factor that is linked alike.
    cases hlink with
    | none => exact paired_ok hxy h
    | @some p q hpq =>
      obtain ⟨link, ts⟩ := p
      obtain ⟨_, us⟩ := q
      obtain ⟨rfl, h⟩ := hpq
      refine (signed_alike hm hr h).bind ?_
      rintro ⟨z, ts⟩ ⟨w, us⟩ - ⟨hzw, h⟩
      dsimp only at hzw ⊢
      rw [hxy, hzw]
      cases link.apply y.quantity w.quantity with
      | ok q => exact ih rfl h
      | error e => exact .error _

/-- The fuel of the two runs may differ, but that makes no difference. -/
theorem term_alike {room : Nat} (hr : L.ReadersAlike (readers m room)) (h : L.front ts us) :
    Paired L.deeper (Alike L.behind) (term m (readers m room) ts) (term m (readers m room) us) := by
  refine (signed_alike hm hr h).bind ?_
  rintro ⟨x, ts⟩ ⟨y, us⟩ - ⟨hxy, h⟩
  dsimp only
  rw [products_fuel hm (Nat.le_succ _) (Nat.le_max_left ts.length us.length),
    products_fuel hm (Nat.le_succ _) (Nat.le_max_right ts.length us.length)]
  exact products_alike hm hr _ hxy h

/-- Sums are read alike, by induction on the fuel. -/
theorem sums_alike {room : Nat} (hr : L.ReadersAlike (readers m room)) (fuel : Nat)
    (hxy : x.quantity = y.quantity) (h : L.behind ts us) :
    Paired L.deeper (Alike L.behind) (sums m (readers m room) fuel x ts)
      (sums m (readers m room) fuel y us) := by
  induction fuel generalizing x y ts us with
  | zero => exact paired_ok hxy h
  | succ fuel ih =>
    have hseen := seen_of_behind h
    cases hsum : leads Buffer.isAdditive ts with
    | false =>
      have hsum' := (hseen.leads fun _ => goesOn_of_isAdditive).symm.trans hsum
      rw [sums_of_not_additive hm hsum, sums_of_not_additive hm hsum']
      exact paired_ok hxy h
    | true =>
      obtain ⟨subtracted, ts, rfl⟩ := of_leads_additive hsum
      -- Both runs take a percentage, or neither does.
      obtain ⟨us, rfl, hoperand, -, hpercentage⟩ := hseen.of_symbol (goesOn_of_isAdditive hsum)
      have hfront := hoperand (awaitsOperand_additive subtracted)
      rw [sums_additive hm, sums_additive hm, ← hpercentage hsum]
      cases hnext : percentageNext ts with
      | true =>
        refine (hr.unary hfront).bind ?_
        rintro ⟨z, ts'⟩ ⟨w, us'⟩ hunary ⟨hzw, h⟩
        -- Behind the number stands its percent sign, which goes on with it in both runs.
        obtain ⟨u, vs, rfl⟩ := of_percentageNext hnext
        obtain ⟨rfl, -, -⟩ := of_unary_number (readTrees hm room) hunary
        obtain ⟨ws, rfl, -, hrest, -⟩ := (seen_of_behind h).of_symbol rfl
        dsimp only at hzw ⊢
        rw [hxy, hzw]
        exact ih rfl (hrest rfl)
      | false =>
        refine (term_alike hm hr hfront).bind ?_
        rintro ⟨z, ts'⟩ ⟨w, us'⟩ - ⟨hzw, h⟩
        dsimp only at hzw ⊢
        rw [hxy, hzw]
        exact ih rfl h

/-- Sums are read alike from their first term on. -/
theorem expr_alike {room : Nat} (hr : L.ReadersAlike (readers m room)) (h : L.front ts us) :
    Paired L.deeper (Alike L.behind) (expr m (readers m room) ts) (expr m (readers m room) us) := by
  refine (term_alike hm hr h).bind ?_
  rintro ⟨x, ts⟩ ⟨y, us⟩ - ⟨hxy, h⟩
  dsimp only
  -- Both loops are given the fuel of the longer one.
  rw [sums_fuel hm (Nat.le_succ _) (Nat.le_max_left ts.length us.length),
    sums_fuel hm (Nat.le_succ _) (Nat.le_max_right ts.length us.length)]
  exact sums_alike hm hr _ hxy h

/-- Groups are read alike, closed or not. -/
theorem parenthesized_alike {room : Nat} (hr : L.ReadersAlike (readers m room)) (h : L.front ts us) :
    Paired L.deeper (Alike L.behind) (parenthesized m (readers m room) ts)
      (parenthesized m (readers m room) us) := by
  refine (expr_alike hm hr h).bind ?_
  rintro ⟨x, ts⟩ ⟨y, us⟩ - ⟨hxy, h⟩
  have hseen := seen_of_behind h
  simp only [nextIs_eq hm, ok_bind, ← hseen.leads (goesOn_of_isSymbol (s := .rightParen) rfl)]
  cases hparen : leads (Token.isSymbol .rightParen) ts with
  | false => exact paired_ok hxy h
  | true =>
    obtain ⟨ts, rfl⟩ := leads_isSymbol_iff.mp hparen
    obtain ⟨us, rfl, -, hrest, -⟩ := hseen.of_symbol rfl
    exact paired_ok hxy (hrest rfl)

/-- Radicands are read alike. -/
theorem radicand_alike (hr : L.ReadersAlike r) (h : L.front ts us) :
    Paired L.deeper (fun p q => p.1 = q.1 ∧ L.behind p.2 q.2) (radicand m r ts) (radicand m r us) := by
  have hseen := seen_of_front h
  simp only [radicand, nextIs_eq hm, ok_bind, ← hseen.leads (goesOn_of_isSymbol (s := .minus) rfl)]
  cases hminus : leads (Token.isSymbol .minus) ts with
  | false =>
    refine (hr.unary h).bind ?_
    rintro ⟨x, ts⟩ ⟨y, us⟩ - ⟨hxy, h⟩
    exact .ok ⟨hxy, h⟩
  | true =>
    obtain ⟨ts, rfl⟩ := leads_isSymbol_iff.mp hminus
    obtain ⟨us, rfl, hoperand, -⟩ := hseen.of_symbol rfl
    refine (hr.unary (hoperand rfl)).bind ?_
    rintro ⟨x, ts⟩ ⟨y, us⟩ - ⟨hxy, h⟩
    exact .ok ⟨congrArg Quantity.negate hxy, h⟩

/-- What begins with the same key is read alike, if the tokens behind it face each other. -/
theorem ofSymbol_alike {room : Nat} (hr : L.ReadersAlike (readers m room)) (s : Symbol)
    (hoperand : awaitsOperand (.symbol s) = true → L.front ts us)
    (hrest : endsOperand (.symbol s) = true → L.behind ts us) :
    Paired L.deeper (Alike L.behind) (ofSymbol m (readers m room) s ts)
      (ofSymbol m (readers m room) s us) := by
  unfold ofSymbol
  split
  · exact paired_ok rfl (hrest rfl)
  · exact paired_ok rfl (hrest rfl)
  · refine (radicand_alike hm hr (hoperand rfl)).bind ?_
    rintro ⟨q, ts⟩ ⟨_, us⟩ - ⟨rfl, h⟩
    dsimp only
    cases Operand.sqrt q with
    | ok x => exact paired_ok rfl h
    | error e => exact .error _
  · exact parenthesized_alike hm hr (hoperand rfl)
  · split
    · next hfunction =>
      have hopens : Buffer.opens (.symbol s) = true := Bool.or_eq_true_iff.mpr (.inr hfunction)
      refine (parenthesized_alike hm hr (hoperand (Bool.or_eq_true_iff.mpr (.inr hopens)))).bind ?_
      rintro ⟨x, ts⟩ ⟨y, us⟩ - ⟨hxy, h⟩
      dsimp only at hxy ⊢
      rw [hxy]
      cases applyFunction? m y.quantity _ with
      | some q => exact paired_computed q h
      | none => exact .error _
    · exact .error _

/-- Operands are read alike: from the same token on, or as the relation says where there is no such token.
-/
theorem unary_alike {room : Nat} (hr : L.ReadersAlike (readers m room)) (h : L.front ts us) :
    Paired L.deeper (Alike L.behind) (unary m (readers m room) ts) (unary m (readers m room) us) := by
  rcases L.front_cases h with hshared | ⟨-, hreads⟩
  · obtain ⟨t, hoperand, hrest, -⟩ := hshared
    cases t with
    | literal l =>
      simp only [unary]
      cases l.value with
      | ok q => exact paired_ok rfl (hrest rfl)
      | error e => exact .error _
    | stored n v e s text => exact paired_ok rfl (hrest rfl)
    | operator o =>
      cases o with
      | listed s => exact ofSymbol_alike hm hr s hoperand hrest
      | unlisted n hn => exact .error _
  -- The tokens differ, but an operand is known to be read from them alike.
  · exact hreads (room + 1)

/-- By induction on the room: readers with one more nested operand use those with one less. -/
theorem readers_alike (room : Nat) : L.ReadersAlike (readers m room) := by
  induction room with
  | zero => exact ⟨fun _ => .error _, fun _ => .error _⟩
  | succ room ih => exact ⟨unary_alike hm ih, signed_alike hm ih⟩

end

end Reckoner.Evaluation
