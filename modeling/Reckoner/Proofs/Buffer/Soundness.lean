import Reckoner.Codec.Buffer
import Reckoner.Proofs.Buffer.Nested
import Reckoner.Proofs.Evaluation.Agreement

/-!
# Sound buffers

A buffer is sound if everything in it, at every depth, is what the calculator itself would have put
there: literals that can be typed, operators that are keys, and stored results whose value is what
their expression evaluates to.

- `Literal.WellFormed` says which literals can be typed; `literalFault_eq_none_iff` says that these are
  the ones that loading accepts;
- `Token.Sound` and `Buffer.Sound` say when tokens and buffers are sound;
- `Numbered` says that a number names one stored result.
-/

namespace Reckoner

open Reckoner.Codec

/-! ## §1 Literals -/

/-- A literal that can be typed: it is not empty, its digits are digits, and it has fraction digits
only after a point. -/
structure Literal.WellFormed (l : Literal) : Prop where
  nonempty : l.isEmpty = false
  whole : ∀ c ∈ l.whole.toList, Text.isAsciiDigit c = true
  fraction : ∀ c ∈ l.fraction.toList, Text.isAsciiDigit c = true
  point : l.fraction.isEmpty = false → l.point = true

/-- Loading finds nothing wrong with a literal exactly if it can be typed. -/
theorem literalFault_eq_none_iff (l : Literal) :
    literalFault? l.whole l.fraction l.point = none ↔ l.WellFormed := by
  have hdigits (s : String) : areDigits s = true ↔ ∀ c ∈ s.toList, Text.isAsciiDigit c = true :=
    List.all_eq_true
  constructor
  -- The three checks are those of digits, of the point, and of emptiness, in this order.
  · intro h
    unfold literalFault? at h
    split at h
    · cases h
    · next hall =>
      split at h
      · cases h
      · next hpoint =>
        split at h
        · cases h
        · next hempty =>
          simp only [Bool.or_eq_true, Bool.not_eq_true', not_or, Bool.not_eq_false] at hall
          refine ⟨?_, (hdigits _).mp hall.1, (hdigits _).mp hall.2, ?_⟩
          · simpa [Literal.isEmpty, and_comm] using hempty
          · simpa using hpoint
  · intro h
    have hwhole := (hdigits _).mpr h.whole
    have hfraction := (hdigits _).mpr h.fraction
    have hempty := h.nonempty
    have hpoint := h.point
    -- With or without a point, all three checks pass.
    cases hp : l.point <;> simp_all [literalFault?, Literal.isEmpty]

/-! ## §2 Operators -/

namespace Operator

theorem ofCode_code (s : Symbol) : Symbol.ofCode? (listed s).code = some s := by
  cases s <;> rfl

/-- A number that leads to a symbol is the number of that symbol. -/
theorem code_of_ofCode {n : Int} {s : Symbol} (h : Symbol.ofCode? n = some s) :
    (listed s).code = n := by
  have hfound := List.find?_some h
  exact of_decide_eq_true hfound

/-- An operator is known by its number. -/
theorem code_injective {o o' : Operator} (h : o.code = o'.code) : o = o' := by
  -- The number of a key leads back to the key, and no other operator has such a number.
  cases o with
  | listed s =>
    have hs := ofCode_code s
    rw [h] at hs
    cases o' with
    | listed s' => rw [ofCode_code s'] at hs; rw [Option.some.inj hs]
    | unlisted n hn => exact absurd (hn.symm.trans hs) nofun
  | unlisted n hn =>
    obtain rfl : n = o'.code := h
    cases o' with
    | listed s' => exact absurd (hn.symm.trans (ofCode_code s')) nofun
    | unlisted n' hn' => rfl

end Operator

/-! ## §3 Tokens -/

namespace Token

/-- A token that the calculator itself could have made. The scope of a stored result reaches over its
whole expression, and all of that is read when it is evaluated, with the quantity of the value. -/
def Sound : Token → Prop
  | .literal l => l.WellFormed
  | .operator o => ∃ s, o = .listed s
  | .stored _ v e s _ =>
    s.reach = e.length ∧ ∃ x, Buffer.evaluatePrefix e s = .ok (e.length, x) ∧ x.quantity = v.quantity

/-- The number of a stored result. -/
def number? : Token → Option Nat
  | .stored n _ _ _ _ => some n
  | _ => none

/-- The value of a stored result. -/
def value? : Token → Option Value
  | .stored _ v _ _ _ => some v
  | _ => none

end Token

/-- All keys can be displayed. -/
theorem Token.operatorText_listed (s : Symbol) : ∃ text, Token.operatorText (.listed s) = .ok text := by
  cases s <;> exact ⟨_, rfl⟩

namespace Buffer

/-- A buffer all of whose tokens can be displayed is named in reports. -/
theorem describe_ok {b : Buffer} (h : ∀ t ∈ b, ∃ text, t.text = .ok text) :
    ∃ text, b.describe = .ok text := by
  obtain ⟨texts, htexts⟩ := mapM_ok h
  refine ⟨"ExpressionBuffer(" ++ Text.quoted (String.join texts) ++ ")", ?_⟩
  simp only [describe, display, htexts, ok_bind]
  rfl

/-- A buffer whose tokens are sound at every depth. -/
def Sound (b : Buffer) : Prop :=
  ∀ t ∈ nested b, t.Sound

theorem Sound.head {t : Token} {ts : Buffer} (h : Sound (t :: ts)) : t.Sound :=
  h t (mem_nested_of_mem List.mem_cons_self)

theorem Sound.tail {t : Token} {ts : Buffer} (h : Sound (t :: ts)) : Sound ts :=
  fun u hu => h u (tail_subset (List.Subset.refl _) hu)

theorem Sound.expr {n : Nat} {v : Value} {e : Buffer} {s : Scope} {x : Option String} {ts : Buffer}
    (h : Sound (.stored n v e s x :: ts)) : Sound e :=
  fun u hu => h u (expr_subset (List.Subset.refl _) hu)

end Buffer

/-! ## §4 Names -/

/-- Among some tokens, a number names one stored result. -/
def Numbered (A : List Token) : Prop :=
  ∀ t ∈ A, ∀ u ∈ A, t.number?.isSome = true → t.number? = u.number? → t = u

theorem Numbered.eq {A : List Token} (h : Numbered A) {n : Nat} {v v' : Value} {e e' : Buffer}
    {s s' : Scope} {x x' : Option String} (ht : .stored n v e s x ∈ A)
    (hu : .stored n v' e' s' x' ∈ A) : Token.stored n v e s x = .stored n v' e' s' x' :=
  h _ ht _ hu rfl rfl

theorem Numbered.subset {A B : List Token} (h : Numbered B) (hAB : A ⊆ B) : Numbered A :=
  fun t ht u hu => h t (hAB ht) u (hAB hu)

end Reckoner
