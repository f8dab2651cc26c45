import Mathlib.Logic.Relator
import Reckoner.Proofs.Buffer.Soundness

/-!
# Isomorphic buffers

The numbers of stored results do not matter in themselves; what matters is which places hold the same
stored result. Buffers are isomorphic if they have the same tokens up to a renaming of these numbers.

- `Alike` walks through two buffers side by side, and through the expressions of their stored results;
- `Isomorphic` wants the numbers that meet on that walk to belong together one to one.
-/

namespace Reckoner.Buffer

/-! ## §1 Buffers side by side -/

/-- Buffers with the same literals, operators, scopes and texts at every depth, in which the numbers
and values of the stored results that face each other are related. -/
inductive Alike (R : Nat → Value → Nat → Value → Prop) : List Token → List Token → Prop where
  | nil : Alike R [] []
  | literal {ts us : List Token} (l : Literal) :
      Alike R ts us → Alike R (.literal l :: ts) (.literal l :: us)
  | operator {ts us : List Token} (o : Operator) :
      Alike R ts us → Alike R (.operator o :: ts) (.operator o :: us)
  | stored {ts us e f : List Token} {n m : Nat} {v w : Value} (s : Scope) (x : Option String)
      (h : R n v m w) :
      Alike R e f → Alike R ts us → Alike R (.stored n v e s x :: ts) (.stored m w f s x :: us)

namespace Alike

variable {R R' : Nat → Value → Nat → Value → Prop} {b c : List Token}

/-- Walking side by side under a weaker relation. -/
theorem mono (hR : ∀ {n v m w}, R n v m w → R' n v m w) (h : Alike R b c) : Alike R' b c := by
  induction h with
  | nil => exact .nil
  | literal l _ ih => exact .literal l ih
  | operator o _ ih => exact .operator o ih
  | stored s x h _ _ ihe ih => exact .stored s x (hR h) ihe ih

/-- Heads and tails that are alike make buffers that are alike. -/
theorem cons {t u : Token} {ts us : List Token} (h : Alike R [t] [u]) (hs : Alike R ts us) :
    Alike R (t :: ts) (u :: us) := by
  cases h with
  | literal l _ => exact .literal l hs
  | operator o _ => exact .operator o hs
  | stored s x hR he _ => exact .stored s x hR he hs

/-- Buffers that are alike are equally long. -/
theorem length_eq (h : Alike R b c) : b.length = c.length := by
  induction h with
  | nil => rfl
  | literal l _ ih => simp only [List.length_cons, ih]
  | operator o _ ih => simp only [List.length_cons, ih]
  | stored s x _ _ _ _ ih => simp only [List.length_cons, ih]

/-- Buffers that are alike can be cut at the same place. -/
theorem of_append {b₁ b₂ : List Token} (h : Alike R (b₁ ++ b₂) c) :
    ∃ c₁ c₂, c = c₁ ++ c₂ ∧ Alike R b₁ c₁ ∧ Alike R b₂ c₂ := by
  induction b₁ generalizing c with
  | nil => exact ⟨[], c, rfl, .nil, h⟩
  -- The first cut is one token longer; which token it is, the walk tells.
  | cons t ts ih =>
    cases h with
    | literal l h =>
      obtain ⟨c₁, c₂, rfl, h₁, h₂⟩ := ih h
      exact ⟨_ :: c₁, c₂, rfl, .literal l h₁, h₂⟩
    | operator o h =>
      obtain ⟨c₁, c₂, rfl, h₁, h₂⟩ := ih h
      exact ⟨_ :: c₁, c₂, rfl, .operator o h₁, h₂⟩
    | stored s x hR he h =>
      obtain ⟨c₁, c₂, rfl, h₁, h₂⟩ := ih h
      exact ⟨_ :: c₁, c₂, rfl, .stored s x hR he h₁, h₂⟩

/-- A buffer is alike to itself if its own numbers and values are related. -/
theorem self (h : ∀ n v e s x, .stored n v e s x ∈ nested b → R n v n v) : Alike R b b := by
  induction b using Buffer.induction with
  | nil => exact .nil
  | literal l ts ih => exact .literal l (ih fun n v e s x ht => h n v e s x (List.mem_cons_of_mem _ ht))
  | operator o ts ih =>
    exact .operator o (ih fun n v e s x ht => h n v e s x (List.mem_cons_of_mem _ ht))
  | stored n v e s x ts ihe ihts =>
    -- What the stored result holds and what comes behind it are both nested in the buffer.
    refine .stored s x (h n v e s x List.mem_cons_self) (ihe ?_) (ihts ?_)
    · intro m w f r y ht
      exact h m w f r y (List.mem_cons_of_mem _ (List.mem_append_left _ ht))
    · intro m w f r y ht
      exact h m w f r y (List.mem_cons_of_mem _ (List.mem_append_right _ ht))

end Alike

/-! ## §2 Renaming -/

/-- Stored results whose numbers belong together and whose values have the same quantity. -/
def Renamed (M : Nat → Nat → Prop) (n : Nat) (v : Value) (m : Nat) (w : Value) : Prop :=
  M n m ∧ v.quantity = w.quantity

/-- Buffers with the same tokens up to the numbers of stored results: a number in one buffer belongs
to just one number in the other, so that two places hold the same stored result in the one exactly if
they do in the other. -/
def Isomorphic (b c : Buffer) : Prop :=
  ∃ M : Nat → Nat → Prop, Relator.BiUnique M ∧ Alike (Renamed M) b c

/-- Buffers that are alike evaluate alike. -/
theorem Alike.resembles {M : Nat → Nat → Prop} {b c : List Token} (h : Alike (Renamed M) b c) :
    List.Forall₂ Resembles b c := by
  induction h with
  | nil => exact .nil
  | literal l _ ih => exact .cons (.literal l) ih
  | operator o _ ih => exact .cons (.operator o) ih
  | stored s x h _ _ _ ih => exact .cons (.stored h.2) ih

/-- If the expressions of two sound stored results are alike and evaluated in the same angle mode,
their values have the same quantity, and their scopes are the same. -/
theorem Alike.eq_of_sound {M : Nat → Nat → Prop} {e f : List Token} (h : Alike (Renamed M) e f)
    {n m : Nat} {v w : Value} {s r : Scope} {x y : Option String}
    (ht : (Token.stored n v e s x).Sound) (hu : (Token.stored m w f r y).Sound)
    (hdegrees : s.degrees = r.degrees) : v.quantity = w.quantity ∧ s = r := by
  obtain ⟨hs, p, hp, hpv⟩ := ht
  obtain ⟨hr, q, hq, hqw⟩ := hu
  -- Both expressions are read as a whole, in the same mode, so one evaluates as the other.
  have hscope : s = ⟨s.degrees, e.length⟩ := by rw [← hs]
  have hscope' : r = ⟨s.degrees, f.length⟩ := by rw [hdegrees, ← hr]
  refine ⟨?_, by rw [hscope', hscope, h.length_eq]⟩
  -- Evaluating only looks at literals, operators and quantities, which the two have in common.
  rw [hscope] at hp
  obtain ⟨q', hq', hpq⟩ := evaluatePrefix_resembles h.resembles hp
  rw [hscope', hq'] at hq
  obtain rfl := (Prod.mk.inj (Except.ok.inj hq)).2
  rw [← hpv, hpq, hqw]

end Reckoner.Buffer
