import Mathlib.Data.List.Forall2

/-!
# Outcomes

What most operations return is a value or an error. Here is what proofs need of that and of
operations one after the other.

- `bind_ok_iff` and `bind_error_iff` take a sequence of operations apart;
- `Corresponds` relates two outcomes: the same error, or values in a relation;
- `Ends` says of an outcome what its value or its error is like.
-/

namespace Reckoner

/-! ## §1 Successful outcomes -/

variable {ε α β : Type}

/-- Two operations one after the other succeed if both do. -/
theorem bind_ok_iff {x : Except ε α} {f : α → Except ε β} {b : β} :
    x >>= f = .ok b ↔ ∃ a, x = .ok a ∧ f a = .ok b := by
  cases x with
  | ok a => exact ⟨fun h => ⟨a, rfl, h⟩, fun ⟨_, ha, h⟩ => by cases ha; exact h⟩
  | error e => exact ⟨fun h => (by cases h), fun ⟨_, ha, _⟩ => (by cases ha)⟩

/-- An operation after a successful one. -/
theorem ok_bind (a : α) (f : α → Except ε β) : (Except.ok a >>= f) = f a := rfl

/-- Two operations one after the other fail if the first does, or the second after it. -/
theorem bind_error_iff {x : Except ε α} {f : α → Except ε β} {e : ε} :
    x >>= f = .error e ↔ x = .error e ∨ ∃ a, x = .ok a ∧ f a = .error e := by
  cases x with
  | ok a => simp only [ok_bind, reduceCtorEq, Except.ok.injEq, exists_eq_left', false_or]
  -- A sequence that fails at once never comes to the second operation.
  | error e' =>
    have hbind : (Except.error e' >>= f) = .error e' := rfl
    simp only [hbind, Except.error.injEq, reduceCtorEq, false_and, exists_false, or_false]

/-- Nothing is lost by returning something of an outcome: it fails just as before. -/
theorem bind_return_error_iff {x : Except ε α} {f : α → β} {e : ε} :
    (do return f (← x)) = .error e ↔ x = .error e := by
  rw [bind_error_iff]
  refine or_iff_left ?_
  rintro ⟨_, -, h⟩
  cases h

/-- Operations that go on alike after every value do so after an outcome. -/
theorem bind_congr_ok {x : Except ε α} {f g : α → Except ε β}
    (h : ∀ a, x = .ok a → f a = g a) : (x >>= f) = (x >>= g) := by
  cases x with
  | ok a => exact h a rfl
  | error e => rfl

theorem return_ok_iff {a b : α} : (return a : Except ε α) = .ok b ↔ a = b :=
  ⟨Except.ok.inj, congrArg Except.ok⟩

/-- An outcome is described in full by what is enough for each value and for each error, if always one of
these is so. -/
theorem eq_iff_of_total {x : Except ε α} {P : α → Prop} {E : ε → Prop}
    (hok : ∀ a, P a → x = .ok a) (herror : ∀ e, E e → x = .error e) (htotal : (∃ a, P a) ∨ ∃ e, E e) :
    (∀ a, x = .ok a ↔ P a) ∧ ∀ e, x = .error e ↔ E e := by
  rcases htotal with ⟨a, ha⟩ | ⟨e, he⟩
  -- It is this value, so every other description of it says the same.
  · have hx := hok a ha
    refine ⟨fun b => ⟨fun h => ?_, hok b⟩, fun e => ⟨fun h => ?_, herror e⟩⟩
    · cases hx.symm.trans h
      exact ha
    · cases hx.symm.trans h
  · have hx := herror e he
    refine ⟨fun b => ⟨fun h => ?_, hok b⟩, fun e => ⟨fun h => ?_, herror e⟩⟩
    · cases hx.symm.trans h
    · cases hx.symm.trans h
      exact he

/-- An operation on each element of a list succeeds if it does on every one. -/
theorem mapM_ok {f : α → Except ε β} {xs : List α} (h : ∀ x ∈ xs, ∃ y, f x = .ok y) :
    ∃ ys, xs.mapM f = .ok ys := by
  induction xs with
  | nil => exact ⟨[], rfl⟩
  | cons x xs ih =>
    obtain ⟨y, hy⟩ := h x List.mem_cons_self
    obtain ⟨ys, hys⟩ := ih fun x hx => h x (List.mem_cons_of_mem _ hx)
    exact ⟨y :: ys, by rw [List.mapM_cons, hy, ok_bind, hys]; rfl⟩

/-- Of operations that can only fail in one way, a sequence fails in this way if one of them does. -/
theorem mapM_error {f : α → Except ε β} {e : ε} {xs : List α}
    (h : ∀ x ∈ xs, (∃ y, f x = .ok y) ∨ f x = .error e) (herror : ∃ x ∈ xs, f x = .error e) :
    xs.mapM f = .error e := by
  induction xs with
  | nil =>
    obtain ⟨x, hx, -⟩ := herror
    cases hx
  | cons x xs ih =>
    rw [List.mapM_cons]
    rcases h x List.mem_cons_self with ⟨y, hy⟩ | hx
    · obtain ⟨z, hz, hzerror⟩ := herror
      -- What succeeds is not what fails, so the failing element comes later.
      have hmem : z ∈ xs := by
        refine (List.mem_cons.mp hz).resolve_left ?_
        rintro rfl
        cases hy.symm.trans hzerror
      rw [hy, ok_bind, ih (fun x hx => h x (List.mem_cons_of_mem _ hx)) ⟨z, hmem, hzerror⟩]
      rfl
    · rw [hx]
      rfl

/-! ## §2 Corresponding outcomes -/

/-- Two outcomes that are the same error, or values in a relation. -/
inductive Corresponds {ε α β : Type} (R : α → β → Prop) : Except ε α → Except ε β → Prop where
  | ok {a : α} {b : β} (h : R a b) : Corresponds R (.ok a) (.ok b)
  | error (e : ε) : Corresponds R (.error e) (.error e)

namespace Corresponds

variable {ε α β γ δ : Type} {R : α → β → Prop} {S : γ → δ → Prop}

/-- Every outcome corresponds to itself under a reflexive relation. -/
theorem refl {R : α → α → Prop} (hR : ∀ a, R a a) (x : Except ε α) : Corresponds R x x := by
  cases x with
  | ok a => exact .ok (hR a)
  | error e => exact .error e

/-- Outcomes go on corresponding when what follows them does. -/
theorem bind {x : Except ε α} {y : Except ε β} {f : α → Except ε γ} {g : β → Except ε δ}
    (h : Corresponds R x y) (hfg : ∀ a b, R a b → Corresponds S (f a) (g b)) :
    Corresponds S (x >>= f) (y >>= g) := by
  cases h with
  | ok hab => exact hfg _ _ hab
  | error e => exact .error e

/-- After one and the same operation, outcomes correspond when what follows its value does. -/
theorem bind_same {x : Except ε α} {f : α → Except ε γ} {g : α → Except ε δ}
    (h : ∀ a, Corresponds S (f a) (g a)) : Corresponds S (x >>= f) (x >>= g) := by
  cases x with
  | ok a => exact h a
  | error e => exact .error e

/-- A weaker relation. -/
theorem mono {R' : α → β → Prop} {x : Except ε α} {y : Except ε β}
    (hR : ∀ a b, R a b → R' a b) (h : Corresponds R x y) : Corresponds R' x y := by
  cases h with
  | ok hab => exact .ok (hR _ _ hab)
  | error e => exact .error e

/-- Operations on each element of two lists correspond if those on the elements facing each other do. -/
theorem mapM {R : α → β → Prop} {xs : List α} {ys : List β} (h : List.Forall₂ R xs ys)
    {f : α → Except ε γ} {g : β → Except ε δ} (hfg : ∀ x y, R x y → Corresponds S (f x) (g y)) :
    Corresponds (List.Forall₂ S) (xs.mapM f) (ys.mapM g) := by
  induction h with
  | nil => exact .ok .nil
  | cons hxy _ ih =>
    rw [List.mapM_cons, List.mapM_cons]
    refine (hfg _ _ hxy).bind fun a b hab => ?_
    exact ih.bind fun as bs habs => .ok (.cons hab habs)

/-- Outcomes with the same value, or the same error, are the same. -/
theorem eq {x y : Except ε α} (h : Corresponds Eq x y) : x = y := by
  cases h with
  | ok hab => rw [hab]
  | error e => rfl

/-- If one of two corresponding outcomes is a value, so is the other. -/
theorem of_ok_left {a : α} {y : Except ε β} (h : Corresponds R (.ok a) y) :
    ∃ b, y = .ok b ∧ R a b := by
  cases h with
  | ok hab => exact ⟨_, rfl, hab⟩

/-- Outcomes of which no values are compared correspond if they fail alike. -/
theorem iff_errors {x : Except ε α} {y : Except ε β} :
    Corresponds (fun _ _ => True) x y ↔ ∀ e, x = .error e ↔ y = .error e := by
  constructor
  · rintro (⟨-⟩ | e) e'
    · exact iff_of_false nofun nofun
    · rw [Except.error.injEq, Except.error.injEq]
  · intro h
    cases x with
    | error e => exact ((h e).mp rfl) ▸ .error e
    | ok a =>
      cases y with
      | error e => cases (h e).mpr rfl
      | ok b => exact .ok trivial

end Corresponds

/-! ## §3 Values and errors -/

/-- An outcome that is a value of one kind or an error of another. -/
inductive Ends {ε α : Type} (P : α → Prop) (E : ε → Prop) : Except ε α → Prop where
  | ok {a : α} (h : P a) : Ends P E (.ok a)
  | error {e : ε} (h : E e) : Ends P E (.error e)

namespace Ends

variable {ε α β : Type} {P : α → Prop} {Q : β → Prop} {E : ε → Prop}

/-- Two operations one after the other end well if the second does after a good value of the first. -/
theorem bind {x : Except ε α} {f : α → Except ε β} (h : Ends P E x)
    (hf : ∀ a, P a → Ends Q E (f a)) : Ends Q E (x >>= f) := by
  cases h with
  | ok ha => exact hf _ ha
  | error he => exact .error he

theorem of_error {x : Except ε α} (h : Ends P E x) {e : ε} (he : x = .error e) : E e := by
  subst he
  cases h with
  | error he => exact he

end Ends

end Reckoner
