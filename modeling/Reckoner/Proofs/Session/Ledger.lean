import Reckoner.Proofs.Session.Provenance

/-!
# The stored results of a session

Every stored result that a session makes has a number and a value of its own, and is sound. `ledger`
lists all tokens that the sessions of a run have held, and `Ledger` says what is true of them: no
operation puts a stored result into a session that does not continue the list.

- `Pasteable` says which buffers may be pasted: what keys build, and what the session held itself;
- `Ledger.adds`: what an operation adds continues the list;
- `Kept` is the invariant of a run, and `kept_after` says that every operation preserves it;
- `kept_of_run` draws the conclusion for whole runs.
-/

namespace Reckoner

open Buffer (nested)

namespace Session

/-! ## §1 Pasting -/

theorem expr_subset_ledger (s : Session) (past : List Session) :
    nested s.expr ⊆ ledger (s :: past) :=
  List.Subset.trans (expr_subset_held s) (held_subset_ledger s past)

theorem memory_subset_ledger (s : Session) (past : List Session) :
    nested (s.memory.getD []) ⊆ ledger (s :: past) :=
  List.Subset.trans (memory_subset_held s) (held_subset_ledger s past)

/-- A buffer that may be pasted: its tokens are plain, or were held by the session before. -/
def Pasteable (past : List Session) (b : Buffer) : Prop :=
  Drawn (ledger past) b

/-- If the tokens of a buffer were held before, so were those in it. -/
theorem Pasteable.nested {past : List Session} {b : Buffer} (h : Pasteable past b) :
    Drawn (ledger past) (nested b) :=
  Drawn.nested (fun _ ht => nested_subset_ledger ht) h

/-- Buffers built by keys may be pasted. -/
theorem pasteable_of_ofKeys {ns : List Int} {b : Buffer} (h : Buffer.ofKeys ns = .ok b)
    (past : List Session) : Pasteable past b :=
  fun t ht => .inr (Buffer.plain_of_ofKeys h t ht)

/-- Expressions that the session had may be pasted, and all that is nested in them. -/
theorem pasteable_of_held {s : Session} {past : List Session} (hs : s ∈ past) {b : Buffer}
    (hb : nested b ⊆ s.held) : Pasteable past b :=
  fun _ ht => .inl (List.mem_flatMap.mpr ⟨s, hs, hb (Buffer.mem_nested_of_mem ht)⟩)

/-! ## §2 The ledger -/

/-- Tokens as one session makes them: sound, one stored result to a number, each with the value of its
own that has its number, and only numbers that were given out. -/
structure Ledger (A : List Token) (next : Nat) : Prop where
  sound : ∀ t ∈ A, t.Sound
  numbered : Numbered A
  own : ∀ {n v e s x}, .stored n v e s x ∈ A → v.identity = .result n ∧ n < next

namespace Ledger

variable {A B : List Token} {next : Nat}

/-- Plain tokens and tokens that are there already make no difference. -/
theorem of_drawn (h : Ledger A next) (hB : Drawn A B) : Ledger B next where
  sound t ht := by
    rcases hB t ht with hA | hplain
    · exact h.sound t hA
    · exact hplain.2
  numbered := by
    intro t ht u hu hstored heq
    -- Plain tokens have no numbers, so those with a number were there before.
    have hheld {w : Token} (hw : w ∈ B) (hnumber : w.number?.isSome = true) : w ∈ A := by
      rcases hB w hw with hA | hplain
      · exact hA
      · rw [hplain.1] at hnumber
        cases hnumber
    exact h.numbered t (hheld ht hstored) u (hheld hu (heq ▸ hstored)) hstored heq
  own := by
    intro n v e s x ht
    rcases hB _ ht with hA | hplain
    · exact h.own hA
    -- A plain token is no stored result.
    · exact absurd hplain.1 nofun

theorem mono (h : Ledger A next) {next' : Nat} (hle : next ≤ next') : Ledger A next' where
  sound := h.sound
  numbered := h.numbered
  own ht := ⟨(h.own ht).1, Nat.lt_of_lt_of_le (h.own ht).2 hle⟩

/-- A new stored result takes the next number. -/
theorem cons (h : Ledger A next) {v : Value} {e : Buffer} {s : Scope} {x : Option String}
    (hsound : (Token.stored next v e s x).Sound) (hv : v.identity = .result next) :
    Ledger (.stored next v e s x :: A) (next + 1) where
  sound t ht := by
    -- ht <;> | Two tokens with one number are both new, or both old.
    rcases List.mem_cons.mp ht with rfl | ht
    · exact hsound
    · exact h.sound t ht
  numbered := by
    -- The number was not given out before, so no token has it.
    have hnew {t : Token} (ht : t ∈ A) : t.number? ≠ some next := by
      cases t with
      | literal l => exact nofun
      | operator o => exact nofun
      | stored n w f r y =>
        have hlt := (h.own ht).2
        intro heq
        obtain rfl : n = next := Option.some.inj heq
        exact Nat.lt_irrefl _ hlt
    intro t ht u hu hstored heq
    rcases List.mem_cons.mp ht with rfl | ht <;> rcases List.mem_cons.mp hu with rfl | hu
    · rfl
    · exact absurd heq.symm (hnew hu)
    · exact absurd heq (hnew ht)
    · exact h.numbered t ht u hu hstored heq
  own := by
    intro n w f r y ht
    rcases List.mem_cons.mp ht with heq | ht
    · cases heq
      exact ⟨hv, Nat.lt_succ_self _⟩
    · exact ⟨(h.own ht).1, Nat.lt_succ_of_lt (h.own ht).2⟩

/-- What an operation adds continues the list, unless another session is restored. A pasted buffer must
hold nothing new. -/
theorem adds {s s' : Session} {c : Command} {new : List Token} (h : Ledger A s.next)
    (hcurrent : s.Current) (hmemory : ∀ b, s.memory = some b → isMemory b = true)
    (hnew : Adds s s' c new) (hpaste : ∀ b, c = .paste b → Drawn A (nested b))
    (hrestore : ∀ room bytes, c ≠ .restore room bytes) : Ledger (new ++ A) s'.next := by
  cases hnew with
  | nothing hnext => exact h.mono hnext
  | pasted b hnext => exact (h.of_drawn ((hpaste b rfl).append (.refl A))).mono hnext
  | value ht hnext =>
    have hsound := sound_abbreviated hcurrent ht
    obtain ⟨q, -, rfl⟩ := abbreviated_eq ht
    exact (h.cons hsound rfl).mono hnext
  -- First the stored result of the expression is made, and then the one of the combination.
  | combination ht hchange hu hnext =>
    have hsound := sound_abbreviated hcurrent ht
    obtain ⟨hsoundNew, v, e, r, x, rfl, hv⟩ := sound_combined hmemory ht hchange hu
    obtain ⟨q, -, rfl⟩ := abbreviated_eq ht
    exact ((h.cons hsound rfl).cons hsoundNew hv).mono hnext
  | restored => exact absurd rfl (hrestore _ _)

end Ledger

/-! ## §3 Runs -/

/-- What is true of a session and of those before it. -/
structure Kept (s : Session) (past : List Session) : Prop where
  ledger : Ledger (ledger (s :: past)) s.next
  current : s.Current
  memory : ∀ b, s.memory = some b → isMemory b = true

/-- A session to begin with. -/
def IsFresh (s : Session) : Prop :=
  ∃ degrees, s = fresh degrees

/-- What is done within one session: everything but restoring another one. Only buffers that may be
pasted are. -/
def Within (past : List Session) : Command → Prop
  | .paste b => Pasteable past b
  | .restore _ _ => False
  | _ => True

/-- A fresh session holds nothing. -/
theorem kept_fresh (degrees : Bool) : Kept (fresh degrees) [] where
  ledger := ⟨by simp [ledger, held, fresh], by simp [ledger, held, fresh, Numbered],
    by simp [ledger, held, fresh]⟩
  current := current_of_result_eq_none rfl
  memory _ h := nomatch h

theorem Kept.sound_expr {s : Session} {past : List Session} (h : Kept s past) :
    ∀ t ∈ s.expr, t.Sound :=
  fun t ht => h.ledger.sound t (expr_subset_ledger s past (Buffer.mem_nested_of_mem ht))

/-- Every operation within a session preserves the invariant. -/
theorem kept_after {s : Session} {past : List Session} (h : Kept s past) {c : Command}
    (hc : Within (s :: past) c) : Kept (s.after c) (s :: past) := by
  have heffect := effect_after h.sound_expr c
  obtain ⟨new, hnew, hdrawn⟩ := heffect.adds
  have hpaste : ∀ b, c = .paste b → Drawn (ledger (s :: past)) (nested b) := by
    rintro b rfl
    exact Pasteable.nested hc
  have hrestore : ∀ room bytes, c ≠ .restore room bytes := by
    rintro room bytes rfl
    exact hc
  -- What is added continues the ledger, and everything the session holds then is drawn from both.
  have hledger := h.ledger.adds h.current h.memory hnew hpaste hrestore
  refine ⟨hledger.of_drawn (Drawn.append ?_ ?_), current_after h.current c,
    heffect.isMemory h.memory⟩
  · refine hdrawn.mono (List.append_subset.mpr ⟨List.subset_append_left _ _, ?_⟩)
    exact List.Subset.trans (held_subset_ledger s past) (List.subset_append_right _ _)
  · exact drawn_of_subset (List.subset_append_right _ _)

/-- The invariant holds all along a run within a session. By induction on the run. -/
theorem kept_of_run {s : Session} {past : List Session} (h : Run IsFresh Within (s :: past)) :
    Kept s past := by
  generalize hrun : s :: past = run at h
  induction h generalizing s past with
  | start h =>
    cases hrun
    obtain ⟨degrees, rfl⟩ := h
    exact kept_fresh degrees
  | step _ hc ih =>
    cases hrun
    exact kept_after (ih rfl) hc

end Session

end Reckoner
