import Reckoner.Proofs.Buffer.Operation
import Reckoner.Proofs.Evaluation.Abbreviation

/-!
# Multiplication signs between operands

Operands with nothing between them are multiplied, so a multiplication sign may be put between them, or left
out. Two runs, one with the sign and one without, see the same up to the end of the first operand. There the
sign and what stands behind it are no suffix, power, sum, percentage or closing parenthesis, and both runs
multiply by the factor that comes next.

- `startsOperand` and `endsOperand` say which tokens may be on the two sides;
- `Juxtaposed` relates the tokens of the two runs, and `Juxtaposed.lockstep` keeps them in lockstep;
- `sameOutcome_juxtaposed` says so for buffers, and for the signs that editing puts in.
-/

namespace Reckoner.Evaluation

/-! ## §1 Operands -/

/-- Whether a token may begin an operand, other than by its sign. -/
def startsOperand (t : Token) : Bool :=
  !t.isOperator || Buffer.opens t || t.isSymbol .sqrt || t.isSymbol .pi || t.isSymbol .euler

/-- What begins an operand goes on with nothing but a product, and is no binary operator. -/
theorem of_startsOperand {t : Token} (h : startsOperand t = true) :
    goesOn t = false ∧ startsFactor t = true ∧ Buffer.isBinary t = false := by
  cases t with
  | literal l => exact ⟨rfl, rfl, rfl⟩
  | stored n v e s x => exact ⟨rfl, rfl, rfl⟩
  | operator o =>
    cases o with
    | unlisted n hn => cases h
    | listed s => cases s <;> first | exact ⟨rfl, rfl, rfl⟩ | cases h

/-- Behind what ends an operand none is still to come. -/
theorem awaitsOperand_of_endsOperand {t : Token} (h : endsOperand t = true) : awaitsOperand t = false := by
  cases t with
  | literal l => rfl
  | stored n v e s x => rfl
  | operator o =>
    cases o with
    | unlisted n hn => rfl
    | listed s => cases s <;> first | rfl | cases h

/-- Behind a plus or a minus an operand is still to come. -/
theorem awaitsOperand_of_isAdditive {t : Token} (h : Buffer.isAdditive t = true) :
    awaitsOperand t = true := by
  rcases Bool.or_eq_true_iff.mp h with h | h
  · rw [isSymbol_iff.mp h]
    rfl
  · rw [isSymbol_iff.mp h]
    rfl

/-! ## §2 Lockstep -/

/-- Tokens with a multiplication sign in front of `us`, and without it. What is behind the sign is the same
in both. -/
inductive Juxtaposed (us : List Token) : List Token → List Token → Prop where
  | refl (ts : List Token) : Juxtaposed us ts ts
  | cons (t : Token) {ts vs : List Token} (h : Juxtaposed us ts vs) : Juxtaposed us (t :: ts) (t :: vs)
  | sign {t : Token} (ht : endsOperand t = true) : Juxtaposed us (t :: .symbol .times :: us) (t :: us)

namespace Juxtaposed

variable {us ts vs : List Token}

/-- A sign behind an operand that ends may stand there or not. By induction on what is in front. -/
theorem append {A : List Token} (hA : A.getLast?.any endsOperand = true) :
    Juxtaposed us (A ++ .symbol .times :: us) (A ++ us) := by
  induction A with
  | nil => cases hA
  | cons t A ih =>
    cases A with
    | nil => exact .sign hA
    | cons u A =>
      rw [List.getLast?_cons_cons] at hA
      exact .cons t (ih hA)

/-- The tokens of the two runs end together. -/
theorem eq_nil_iff (h : Juxtaposed us ts vs) : ts = [] ↔ vs = [] := by
  cases h with
  | refl => exact Iff.rfl
  | cons t h => exact iff_of_false nofun nofun
  | sign ht => exact iff_of_false nofun nofun

variable (hus : leads startsOperand us = true)
include hus

/-- The sign ends no percentage of the running total, and neither does what is behind it. -/
theorem percentageNext_eq (h : Juxtaposed us ts vs) : percentageNext ts = percentageNext vs := by
  obtain ⟨u, us, rfl⟩ : ∃ u us', us = u :: us' := by
    cases us with
    | nil => cases hus
    | cons u us => exact ⟨u, us, rfl⟩
  obtain ⟨hgoes, -, -⟩ := of_startsOperand hus
  have hpercent : u.isSymbol .percent = false := Bool.eq_false_iff.mpr fun hu =>
    Bool.eq_false_iff.mp hgoes (goesOn_of_isSymbol rfl u hu)
  have hends : endsPercentage u = false := by
    simp only [goesOn, Buffer.isAdditive, Bool.or_eq_false_iff] at hgoes
    simp only [endsPercentage, hgoes, Bool.or_false]
  -- The sign may be one of the first three tokens, which are those that tell.
  cases h with
  | refl => rfl
  | sign ht =>
    have hsign : (Token.symbol .times).isSymbol .percent = false := rfl
    simp only [percentageNext, hsign, hpercent, Bool.and_false, Bool.false_and]
  | cons t h =>
    cases h with
    | refl => rfl
    | sign ht =>
      have hsign : endsPercentage (.symbol .times) = false := rfl
      -- As the third token, the sign ends no percentage, and what is behind it does not, either.
      simp only [percentageNext, List.head?_cons, Option.all_some, hsign, hends]
    | cons v h => cases h <;> rfl

/-- Both runs multiply by the factor that comes next. -/
theorem apart_sign : Apart (Juxtaposed us) (.symbol .times :: us) us := by
  obtain ⟨u, us, rfl⟩ : ∃ u us', us = u :: us' := by
    cases us with
    | nil => cases hus
    | cons u us => exact ⟨u, us, rfl⟩
  obtain ⟨hgoes, hstarts, -⟩ := of_startsOperand hus
  refine ⟨rfl, hgoes, ?_⟩
  -- With the sign, the next factor is linked by it; without it, because an operand begins there.
  have hsign : nextLink (.symbol .times :: u :: us) = some (.times, u :: us) :=
    show nextLink (Joint.times.tokens ++ u :: us) = _ from nextLink_joint nofun
  have hnothing : nextLink (u :: us) = some (.times, u :: us) :=
    show nextLink (Joint.nothing.tokens ++ u :: us) = _ from nextLink_joint fun _ => hstarts
  rw [hsign, hnothing]
  exact .some ⟨rfl, .refl _⟩

/-- The sign keeps two runs in lockstep. Behind what has been read, they may be right at it. -/
def lockstep (m : Mode) : Lockstep m where
  deeper := False
  front := Juxtaposed us
  behind ts vs := Juxtaposed us ts vs ∨ ts = .symbol .times :: us ∧ vs = us
  front_cases := by
    intro ts vs h
    cases h with
    | refl =>
      cases ts with
      | nil =>
        refine .inr ⟨⟨rfl, rfl, .none⟩, fun room => ?_⟩
        cases room <;> exact .error _
      | cons t ts => exact .inl (.intro t (fun _ => .refl ts) (fun _ => .inl (.refl ts)) fun _ => rfl)
    | cons t h =>
      exact .inl (.intro t (fun _ => h) (fun _ => .inl h) fun _ => h.percentageNext_eq hus)
    | sign ht =>
      -- The operand has ended in front of the sign, so no run is in front of another one there.
      have hawaits := awaitsOperand_of_endsOperand ht
      refine .inl (.intro _ (fun h => ?_) (fun _ => .inr ⟨rfl, rfl⟩) fun h => ?_)
      · rw [hawaits] at h
        cases h
      · rw [awaitsOperand_of_isAdditive h] at hawaits
        cases hawaits
  behind_cases := by
    rintro ts vs (h | ⟨rfl, rfl⟩)
    · exact .inl h
    · exact .inr (apart_sign hus)

end Juxtaposed

end Reckoner.Evaluation

namespace Reckoner.Buffer

open Reckoner.Evaluation

/-! ## §3 Buffers -/

/-- The binary operators at the end are the same with a sign and without it. -/
theorem withoutTrailingBinary_startsOperand {B : Buffer} (hB : leads startsOperand B = true) :
    ∃ B', leads startsOperand B' = true
      ∧ ∀ A, withoutTrailingBinary (A ++ B) = A ++ B' := by
  cases B with
  | nil => cases hB
  | cons t B =>
    exact ⟨t :: withoutTrailingBinary B, hB,
      fun A => withoutTrailingBinary_append (of_startsOperand hB).2.2 A B⟩

/-- A multiplication sign between an operand that ends and one that begins makes no difference. -/
theorem sameOutcome_sign {A B : Buffer} (hA : A.getLast?.any endsOperand = true)
    (hB : leads startsOperand B = true) (degrees : Bool) :
    SameOutcome (quantity (A ++ [.symbol .times] ++ B) degrees) (quantity (A ++ B) degrees) := by
  obtain ⟨B', hB', htrailing⟩ := withoutTrailingBinary_startsOperand hB
  refine sameOutcome_of_corresponds ?_ ?_
  · rw [htrailing, htrailing, List.append_assoc]
    -- The same sum is read, and what is left over is nothing in both cases, or something in both.
    have hread := expr_alike (L := Juxtaposed.lockstep hB' ⟨degrees, false⟩) rfl
      (readers_alike rfl deepestNesting) (Juxtaposed.append hA)
    refine .mono (fun p q hpq => ⟨hpq.1, ?_⟩) hread.corresponds
    -- Where both stop right at the sign, something is left over in either case.
    rcases hpq.2 with h | ⟨hp, hq⟩
    · exact h.eq_nil_iff
    · have hne : B' ≠ [] := by
        rintro rfl
        cases hB'
      rw [hp, hq]
      exact iff_of_false (List.cons_ne_nil _ _) hne
  -- Both buffers can be named in a report, or neither can, as the sign has a key.
  · have hsign : ∀ t ∈ [Token.symbol .times], ∃ text, t.text = .ok text := by
      intro t ht
      obtain rfl := List.mem_singleton.mp ht
      exact Token.operatorText_listed .times
    have hnothing : ∀ t ∈ ([] : List Token), ∃ text, t.text = .ok text := List.forall_mem_nil _
    rw [List.append_assoc]
    exact describe_between hsign hnothing A B

theorem endsOperand_of_not_isOperator {t : Token} (h : t.isOperator = false) : endsOperand t = true := by
  simp [endsOperand, h]

theorem startsOperand_of_not_isOperator {t : Token} (h : t.isOperator = false) :
    startsOperand t = true := by
  simp [startsOperand, h]

/-- Joined buffers have the value of their tokens one after the other. -/
theorem sameOutcome_append (b c : Buffer) (degrees : Bool) :
    SameOutcome (quantity (b.append c) degrees) (quantity (b ++ c) degrees) := by
  unfold append joint
  split
  · next hneeds =>
    unfold needsTimes at hneeds
    split at hneeds
    · next s t hlast hhead =>
      simp only [Bool.and_eq_true, Bool.not_eq_true'] at hneeds
      refine sameOutcome_sign ?_ ?_ degrees
      · rw [hlast]
        exact endsOperand_of_not_isOperator hneeds.1
      · rw [leads, hhead]
        exact startsOperand_of_not_isOperator hneeds.2
    · cases hneeds
  · rw [List.append_nil]
    exact .refl _

/-- Keys put a sign in front of a literal only behind an operand. -/
theorem not_isOperator_of_perform {b : Buffer} {o : Operation} {l : Literal}
    (h : b.perform o = b ++ [.symbol .times, .literal l]) :
    ∃ t, b.getLast? = some t ∧ t.isOperator = false := by
  have hlength : (b.perform o).length = b.length + 2 := by rw [h, List.length_append]; rfl
  have hstep := step_perform b o
  generalize b.perform o = c at hstep hlength
  -- Only an operation that multiplies makes a buffer two tokens longer.
  cases hstep with
  | multiplied hlast h l => exact ⟨_, hlast, h⟩
  -- In all other cases the buffer has one token more at most.
  | same => omega
  | revised h l' =>
    rw [h] at hlength
    simp at hlength
  | shortened n =>
    rw [List.length_take] at hlength
    omega
  | typed h l => simp at hlength
  | applied h => simp at hlength
  | replaced hn h hb =>
    have hle := b.binaryStart_le
    rw [List.length_append, length_withoutTrailingBinary, List.length_singleton] at hlength
    omega

/-- A multiplication sign between two operands makes no difference, whatever stands around them, and so no
sign does that is put in where buffers are joined, or in front of a number that is typed. -/
theorem sameOutcome_juxtaposed (degrees : Bool) :
    (∀ A B : Buffer, A.getLast?.any endsOperand = true → B.head?.any startsOperand = true →
      SameOutcome (quantity (A ++ [.symbol .times] ++ B) degrees) (quantity (A ++ B) degrees))
    ∧ (∀ b c : Buffer, SameOutcome (quantity (b.append c) degrees) (quantity (b ++ c) degrees))
    ∧ ∀ (b : Buffer) (n : Int) (l : Literal),
      b.perform (.press n) = b ++ [.symbol .times, .literal l] →
      SameOutcome (quantity (b.perform (.press n)) degrees) (quantity (b ++ [.literal l]) degrees) := by
  refine ⟨fun A B hA hB => sameOutcome_sign hA hB degrees, fun b c => sameOutcome_append b c degrees,
    fun b n l h => ?_⟩
  obtain ⟨t, hlast, ht⟩ := not_isOperator_of_perform h
  have hb : b.getLast?.any endsOperand = true := by
    rw [hlast]
    exact endsOperand_of_not_isOperator ht
  have hsign := sameOutcome_sign (B := [.literal l]) hb rfl degrees
  rwa [List.append_assoc, List.singleton_append, ← h] at hsign

/-- Ten percent of one in addition to it. -/
def tenPercentMore : Buffer :=
  [number "1", .symbol .plus, number "10", .symbol .percent]

/-- A stored five. -/
def storedFive : Buffer :=
  [.stored 0 ⟨5, .result 0⟩ [number "5"] ⟨false, 1⟩ (some "5")]

/-- Behind the percentage an open parenthesis makes it a factor, with a sign or without it; and the sign in
front of a three that is typed behind a stored five may be left out. -/
theorem sameOutcome_juxtaposed_tenPercent :
    quantity (tenPercentMore ++ [.symbol .leftParen, number "2"]) false = .ok (.rational (mkRat 6 5))
    ∧ SameOutcome
      (quantity (tenPercentMore ++ [.symbol .times] ++ [.symbol .leftParen, number "2"]) false)
      (quantity (tenPercentMore ++ [.symbol .leftParen, number "2"]) false)
    ∧ storedFive.perform (.press 3) = storedFive ++ [.symbol .times, number "3"]
    ∧ SameOutcome (quantity (storedFive.perform (.press 3)) false)
      (quantity (storedFive ++ [number "3"]) false) := by
  obtain ⟨hsign, -, htyped⟩ := sameOutcome_juxtaposed false
  exact ⟨by decide +kernel, hsign _ _ rfl rfl, rfl, htyped storedFive 3 _ rfl⟩

end Reckoner.Buffer
