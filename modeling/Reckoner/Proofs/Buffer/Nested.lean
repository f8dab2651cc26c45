import Reckoner.Buffer.Edit

/-!
# Tokens at every depth

A stored result holds the expression it was computed from, which may hold stored results again.
`nested` lists the tokens of a buffer at every depth, in the order in which the unfolded buffer
would be read, and `depth` says how deeply stored results are nested.

`Buffer.induction` is the induction that all facts about nested tokens use: a buffer is empty, or
starts with a literal, an operator, or a stored result that holds a buffer of its own.
-/

namespace Reckoner

/-! ## §1 Nested tokens -/

mutual

/-- A token and the tokens it holds. -/
def Token.nested : Token → List Token
  | .literal l => [.literal l]
  | .operator o => [.operator o]
  | .stored n v e s x => .stored n v e s x :: Buffer.nested e

/-- The tokens of a buffer at every depth. -/
def Buffer.nested : Buffer → List Token
  | [] => []
  | t :: ts => t.nested ++ Buffer.nested ts

end

mutual

/-- How deeply stored results are nested in a token. -/
def Token.depth : Token → Nat
  | .literal _ => 0
  | .operator _ => 0
  | .stored _ _ e _ _ => Buffer.depth e + 1

/-- How deeply stored results are nested in a buffer. -/
def Buffer.depth : Buffer → Nat
  | [] => 0
  | t :: ts => max t.depth (Buffer.depth ts)

end

namespace Buffer

/-- Induction over a buffer and the buffers it holds. -/
theorem induction {motive : Buffer → Prop} (nil : motive [])
    (literal : ∀ l ts, motive ts → motive (.literal l :: ts))
    (operator : ∀ o ts, motive ts → motive (.operator o :: ts))
    (stored : ∀ n v e s x ts, motive e → motive ts → motive (.stored n v e s x :: ts)) :
    ∀ b, motive b
  | [] => nil
  | .literal l :: ts => literal l ts (induction nil literal operator stored ts)
  | .operator o :: ts => operator o ts (induction nil literal operator stored ts)
  | .stored n v e s x :: ts =>
    stored n v e s x ts (induction nil literal operator stored e)
      (induction nil literal operator stored ts)

@[simp] theorem nested_nil : nested [] = [] := rfl

@[simp] theorem nested_literal (l : Literal) (ts : Buffer) :
    nested (.literal l :: ts) = .literal l :: nested ts := rfl

@[simp] theorem nested_operator (o : Operator) (ts : Buffer) :
    nested (.operator o :: ts) = .operator o :: nested ts := rfl

@[simp] theorem nested_stored (n : Nat) (v : Value) (e : Buffer) (s : Scope) (x : Option String)
    (ts : Buffer) :
    nested (.stored n v e s x :: ts) = .stored n v e s x :: (nested e ++ nested ts) := rfl

theorem nested_cons (t : Token) (ts : Buffer) : nested (t :: ts) = t.nested ++ nested ts := rfl

/-! ## §2 What is nested -/

@[simp] theorem nested_append (b c : Buffer) : nested (b ++ c) = nested b ++ nested c := by
  induction b with
  | nil => rfl
  | cons t ts ih =>
    show t.nested ++ nested (ts ++ c) = t.nested ++ nested ts ++ nested c
    rw [ih, List.append_assoc]

/-- The tokens of a buffer itself are nested in it. -/
theorem mem_nested_of_mem {b : Buffer} {t : Token} (h : t ∈ b) : t ∈ nested b := by
  induction b with
  | nil => cases h
  | cons u ts ih =>
    rcases List.mem_cons.mp h with rfl | h
    · cases t <;> simp
    · exact List.mem_append_right _ (ih h)

/-- What a nested stored result holds is nested as well. -/
theorem nested_subset_of_mem {b e : Buffer} {n : Nat} {v : Value} {s : Scope} {x : Option String}
    (h : .stored n v e s x ∈ nested b) : nested e ⊆ nested b := by
  induction b using induction with
  | nil => cases h
  | literal l ts ih => simp_all
  | operator o ts ih => simp_all
  | stored n' v' e' s' x' ts ihe ihts =>
    intro t ht
    simp only [nested_stored, List.mem_cons, Token.stored.injEq, List.mem_append] at h ⊢
    -- The token is the first stored result itself, or nested in it, or nested in what follows.
    rcases h with ⟨_, _, rfl, _, _⟩ | h | h
    · exact .inr (.inl ht)
    · exact .inr (.inl (ihe h ht))
    · exact .inr (.inr (ihts h ht))

section
variable {A : List Token} {t : Token} {ts : Buffer}

theorem head_mem (h : nested (t :: ts) ⊆ A) : t ∈ A :=
  h (mem_nested_of_mem List.mem_cons_self)

theorem tail_subset (h : nested (t :: ts) ⊆ A) : nested ts ⊆ A :=
  fun _ hu => h (List.mem_append_right _ hu)

theorem expr_subset {n : Nat} {v : Value} {e : Buffer} {s : Scope} {x : Option String}
    (h : nested (.stored n v e s x :: ts) ⊆ A) : nested e ⊆ A :=
  fun _ hu => h (List.mem_cons_of_mem _ (List.mem_append_left _ hu))

end

theorem mem_nested_iff {b : Buffer} {t : Token} : t ∈ nested b ↔ ∃ u ∈ b, t ∈ u.nested := by
  induction b with
  | nil => simp
  | cons u ts ih => simp [nested_cons, ih]

/-- What is in a nested token is nested as well. -/
theorem token_nested_subset {b : Buffer} {t : Token} (h : t ∈ nested b) : t.nested ⊆ nested b := by
  intro u hu
  -- Literals and operators hold nothing but themselves.
  cases t with
  | literal l => obtain rfl := List.mem_singleton.mp hu; exact h
  | operator o => obtain rfl := List.mem_singleton.mp hu; exact h
  | stored n v e s x =>
    rcases List.mem_cons.mp hu with rfl | hu
    · exact h
    · exact nested_subset_of_mem h hu

/-- Nested tokens are smaller than the buffer. By induction over the buffer and the buffers it holds. -/
theorem sizeOf_lt_of_mem_nested {b : Buffer} {t : Token} (h : t ∈ nested b) :
    sizeOf t < sizeOf b := by
  induction b using induction with
  | nil => cases h
  | literal l ts ih =>
    rcases List.mem_cons.mp h with rfl | h
    · simp only [List.cons.sizeOf_spec]; omega
    · have := ih h; simp only [List.cons.sizeOf_spec]; omega
  | operator o ts ih =>
    rcases List.mem_cons.mp h with rfl | h
    · simp only [List.cons.sizeOf_spec]; omega
    · have := ih h; simp only [List.cons.sizeOf_spec]; omega
  | stored n v e s x ts ihe ihts =>
    simp only [nested_stored, List.mem_cons, List.mem_append] at h
    simp only [List.cons.sizeOf_spec]
    -- h | h | The stored result itself, a token of its expression, or a token behind it.
    rcases h with rfl | h | h
    · omega
    · have := ihe h; simp only [Token.stored.sizeOf_spec]; omega
    · have := ihts h; omega

/-- No stored result is nested in the expression it holds. -/
theorem not_mem_nested_self (n : Nat) (v : Value) (e : Buffer) (s : Scope) (x : Option String) :
    .stored n v e s x ∉ nested e := by
  intro h
  have := sizeOf_lt_of_mem_nested h
  simp only [Token.stored.sizeOf_spec] at this
  omega

end Buffer

end Reckoner
