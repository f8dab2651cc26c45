import Reckoner.Proofs.Session.Ledger
import Reckoner.Proofs.Workspace.Separation

/-!
# Operands are never neighbours in a session

A session edits its expression, pastes buffers behind it, and puts stored results in its place and into
memory. Operands stay apart in all of this, if they are apart in the buffers that are pasted.

- `separated_of_mem` and its companions: what may be put together from separated buffers is separated;
- `Supplied` says which buffers are pasted: those that are built from empty named buffers, and what the
  session held itself;
- `Apart` is the invariant of a run, and `apart_after` says that every operation preserves it;
- `operands_separated` draws the conclusion, for named buffers and for sessions.
-/

namespace Reckoner

namespace Buffer

/-! ## §1 Separated buffers -/

variable {b c : Buffer}

/-- Tokens that come from separated buffers, or hold nothing, make a separated buffer if they are apart. -/
theorem separated_of_mem (hchain : c.IsChain Token.Apart)
    (h : ∀ t ∈ c, t.number? = none ∨ ∃ b : Buffer, b.Separated ∧ t ∈ b) : c.Separated where
  chain := hchain
  nested hstored := by
    obtain ⟨t, ht, hnested⟩ := mem_nested_iff.mp hstored
    rcases h t ht with hnumber | ⟨b, hb, htb⟩
    -- A token that holds nothing has no stored result in it.
    · cases t with
      | literal l => exact nomatch List.mem_singleton.mp hnested
      | operator o => exact nomatch List.mem_singleton.mp hnested
      | stored n v e s x => cases hnumber
    · exact hb.nested (mem_nested_iff.mpr ⟨t, htb, hnested⟩)

theorem separated_nil : Separated [] :=
  ⟨List.isChain_nil, nofun⟩

/-- Tokens that hold nothing are put behind tokens that were there. -/
theorem number?_or_mem {front back : Buffer} (hfront : front ⊆ b) (hback : ∀ t ∈ back, t.number? = none)
    {t : Token} (ht : t ∈ front ++ back) : t.number? = none ∨ t ∈ b := by
  rcases List.mem_append.mp ht with ht | ht
  · exact .inr (hfront ht)
  · exact .inl (hback t ht)

/-- The tokens after an operation were there before, or hold nothing. -/
theorem Step.mem {o : Operation} (h : Step b o c) {t : Token} (ht : t ∈ c) :
    t.number? = none ∨ t ∈ b := by
  have hliteral (l : Literal) : ∀ u ∈ ([.literal l] : Buffer), u.number? = none := by
    simp [Token.number?]
  have hsymbol (s : Symbol) : ∀ u ∈ ([.symbol s] : Buffer), u.number? = none := by
    simp [Token.symbol, Token.number?]
  cases h with
  | same => exact .inr ht
  -- All that an operation puts there are literals and operators.
  | revised h l' => exact number?_or_mem (h ▸ List.subset_append_left _ _) (hliteral l') ht
  | shortened n => exact .inr (List.mem_of_mem_take ht)
  | typed h l => exact number?_or_mem (List.Subset.refl b) (hliteral l) ht
  | multiplied hlast h l =>
    refine number?_or_mem (List.Subset.refl b) ?_ ht
    exact List.forall_mem_cons.mpr ⟨rfl, hliteral l⟩
  | @applied _ s h => exact number?_or_mem (List.Subset.refl b) (hsymbol s) ht
  | @replaced _ s hn hneeds hlacks =>
    exact number?_or_mem (fun u hu => List.mem_of_mem_take hu) (hsymbol s) ht

namespace Separated

theorem perform (h : b.Separated) (o : Operation) : (b.perform o).Separated :=
  separated_of_mem (isChain_perform h.chain o) fun _ ht =>
    ((step_perform b o).mem ht).imp_right fun hold => ⟨b, h, hold⟩

/-- Joining keeps buffers separated. -/
theorem append (hb : b.Separated) (hc : c.Separated) : (b.append c).Separated := by
  refine separated_of_mem (isChain_append hb.chain hc.chain) fun t ht => ?_
  rw [Buffer.append, List.mem_append, List.mem_append] at ht
  rcases ht with (ht | ht) | ht
  · exact .inr ⟨b, hb, ht⟩
  -- The sign between the buffers holds nothing.
  · unfold joint at ht
    split at ht
    · exact .inl (List.mem_singleton.mp ht ▸ rfl)
    · cases ht
  · exact .inr ⟨c, hc, ht⟩

theorem withoutTrailingBinary (h : b.Separated) : b.withoutTrailingBinary.Separated :=
  separated_of_mem (h.chain.take _) fun _ ht => .inr ⟨b, h, List.mem_of_mem_take ht⟩

/-- A stored result stands alone, and its expression is separated. -/
theorem abbreviated (h : b.Separated) (n : Nat) (v : Value) (degrees : Bool) (x : Option String) :
    Separated [b.abbreviated n v degrees x] where
  chain := List.isChain_singleton _
  nested hstored := by
    rw [Buffer.abbreviated, nested_stored, nested_nil, List.append_nil] at hstored
    -- Its expression is the buffer, and further down the buffer is separated already.
    rcases List.mem_cons.mp hstored with heq | hstored
    · cases heq
      exact h.chain
    · exact h.nested hstored

/-- An operator stands between what it combines. -/
theorem combine (hb : b.Separated) (s : Symbol) {t : Token} (ht : Separated [t]) :
    (b ++ [.symbol s, t]).Separated := by
  refine separated_of_mem ?_ fun u hu => ?_
  · rw [List.isChain_append]
    refine ⟨hb.chain, (isChain_symbol_cons s).mpr ht.chain, fun u _ w hw => ?_⟩
    rw [List.head?_cons, Option.mem_some_iff] at hw
    exact hw ▸ .inr rfl
  · rcases List.mem_append.mp hu with hu | hu
    · exact .inr ⟨b, hb, hu⟩
    · rcases List.mem_cons.mp hu with rfl | hu
      · exact .inl rfl
      · exact .inr ⟨[t], ht, hu⟩

end Separated

end Buffer

namespace Session

/-! ## §2 One operation -/

/-- No operands are neighbours in the expression and in memory. -/
structure Apart (s : Session) : Prop where
  expr : s.expr.Separated
  memory : ∀ b, s.memory = some b → b.Separated

variable {s s₁ : Session} {t : Token}

theorem expr_evaluate (s : Session) : s.evaluate.2.expr = s.expr := by
  obtain ⟨q, text, heq⟩ := s.evaluate_frame
  rw [heq]

/-- Collapsing leaves the expression alone, or puts the stored result in its place. -/
theorem expr_collapse (s : Session) :
    s.collapse.2.expr = s.expr ∨ ∃ t s₁, s.abbreviated = (.ok t, s₁) ∧ s.collapse.2.expr = [t] := by
  unfold Session.collapse
  cases hp : s.abbreviated with
  | mk outcome s₁ =>
    cases outcome with
    | error e =>
      obtain rfl := snd_abbreviated_of_error hp
      exact .inl s.expr_evaluate
    | ok t => exact .inr ⟨t, s₁, rfl, rfl⟩

/-- Changes of memory leave the expression alone. -/
theorem expr_updateMemory (s : Session) (change : MemoryChange) :
    (s.updateMemory change).2.expr = s.expr := by
  unfold Session.updateMemory
  cases hp : s.abbreviated with
  | mk outcome s₁ =>
    cases outcome with
    | error e =>
      obtain rfl := snd_abbreviated_of_error hp
      exact s.expr_evaluate
    | ok t =>
      obtain ⟨hexpr, -⟩ := abbreviated_frame hp
      dsimp only
      split
      · exact hexpr
      · split <;> exact hexpr

namespace Apart

/-- The stored result that stands for the expression. -/
theorem abbreviated (h : s.Apart) (ht : s.abbreviated = (.ok t, s₁)) : Buffer.Separated [t] := by
  obtain ⟨q, -, rfl⟩ := abbreviated_eq ht
  exact h.expr.withoutTrailingBinary.abbreviated _ _ _ _

/-- The stored result of a combination with memory. -/
theorem combined (h : s.Apart) (ht : s.abbreviated = (.ok t, s₁)) {change : MemoryChange} {u : Token}
    (hu : s₁.combined change t = .ok u) : Buffer.Separated [u] := by
  obtain ⟨-, hmemory, -⟩ := abbreviated_frame ht
  obtain ⟨x, text, -, -, rfl⟩ := combined_eq hu
  rw [hmemory]
  -- The expression of the combination is what memory held, an operator, and the value.
  have hold : (s.memory.getD []).Separated := by
    cases hm : s.memory with
    | none => exact Buffer.separated_nil
    | some b => exact h.memory b hm
  exact (hold.combine change.symbol (h.abbreviated ht)).abbreviated _ _ _ _

/-- What a change of memory leaves there was there before, or is a stored result. -/
theorem updateMemory (h : s.Apart) (change : MemoryChange) {b : Buffer}
    (hb : (s.updateMemory change).2.memory = some b) : b.Separated := by
  have heffect := Effect.updateMemory s change
  -- Of all that operations do, a change of memory does three things.
  generalize (s.updateMemory change).2 = s' at heffect hb
  cases heffect with
  | same hexpr hmemory hnext => exact h.memory b (hmemory ▸ hb)
  | edited hgrown => exact h.memory b hb
  | remembered ht => exact Option.some.inj hb ▸ h.abbreviated ht
  | combined ht hchange hu => exact Option.some.inj hb ▸ h.combined ht hu

end Apart

/-- What is done with a session: everything but restoring another one. Only buffers that are built from empty
named buffers are pasted, and what the session held before. -/
def Supplied (past : List Session) : Command → Prop
  | .paste b => (∃ os name, b = (Workspace.empty.performAll os).view name)
    ∨ ∃ s ∈ past, b = s.expr ∨ s.memory = some b
  | .restore _ _ => False
  | _ => True

/-- What is pasted is separated. -/
theorem Supplied.separated {past : List Session} {b : Buffer} (hc : Supplied past (.paste b))
    (hpast : ∀ s ∈ past, s.Apart) : b.Separated := by
  rcases hc with ⟨os, name, rfl⟩ | ⟨s, hs, rfl | hb⟩
  · exact Workspace.separated_view os name
  · exact (hpast s hs).expr
  · exact (hpast s hs).memory b hb

/-- Every operation keeps operands apart. -/
theorem apart_after {past : List Session} (hpast : ∀ s' ∈ s :: past, s'.Apart) {c : Command}
    (hc : Supplied (s :: past) c) : (s.after c).Apart := by
  have h := hpast s List.mem_cons_self
  constructor
  -- Editing, joining and collapsing keep the expression separated; the rest leaves it alone.
  · cases c with
    | press n => exact (s.after_press n).1 ▸ h.expr.perform (.press n)
    | setExponent e => exact (s.after_setExponent e).1 ▸ h.expr.perform (.setExponent e)
    | delete => exact h.expr.perform .delete
    | clear => exact Buffer.separated_nil
    | paste b => exact h.expr.append (hc.separated hpast)
    | setDegrees degrees => exact (s.after_setDegrees degrees).1.symm ▸ h.expr
    | evaluate => exact s.expr_evaluate.symm ▸ h.expr
    | collapse =>
      rcases s.expr_collapse with heq | ⟨t, s₁, ht, heq⟩
      · exact heq.symm ▸ h.expr
      · exact heq.symm ▸ h.abbreviated ht
    | updateMemory change => exact (s.expr_updateMemory change).symm ▸ h.expr
    | recallMemory =>
      simp only [after, Session.recall]
      split
      · exact h.expr
      · next b hb => exact h.expr.append (h.memory b hb)
    | clearMemory => exact h.expr
    | restore room bytes => exact hc.elim
  -- Memory is what it was, unless it was changed or cleared.
  · intro b hb
    by_cases hupdate : ∃ change, c = .updateMemory change
    · obtain ⟨change, rfl⟩ := hupdate
      exact h.updateMemory change hb
    by_cases hclear : c = .clearMemory
    · subst hclear
      cases hb
    have hrestore : ∀ room bytes, c ≠ .restore room bytes := by
      rintro room bytes rfl
      exact hc.elim
    rw [memory_after s (fun change hchange => hupdate ⟨change, hchange⟩) hclear hrestore] at hb
    exact h.memory b hb

/-! ## §3 Runs -/

/-- Operands are apart all along a run. By induction on the run. -/
theorem apart_of_run {run : List Session} (h : Run IsFresh Supplied run) : ∀ s ∈ run, s.Apart := by
  induction h with
  | start h =>
    intro s hs
    obtain ⟨degrees, hfresh⟩ := h
    obtain rfl := List.mem_singleton.mp hs
    rw [hfresh]
    exact ⟨Buffer.separated_nil, nofun⟩
  | step _ hc ih =>
    intro s hs
    -- The new session is apart, as all before it are; what is pasted may come from any of these.
    rcases List.mem_cons.mp hs with rfl | hs
    · exact apart_after ih hc
    · exact ih s hs

/-- Whatever is done with named buffers that begin empty, and with a fresh session that pastes such buffers,
no operands are neighbours in the buffers, in the expression and in memory, at any depth. -/
theorem operands_separated :
    (∀ os name, ((Workspace.empty.performAll os).view name).Separated)
    ∧ ∀ {s past}, Run IsFresh Supplied (s :: past) →
      s.expr.Separated ∧ ∀ b, s.memory = some b → b.Separated := by
  refine ⟨Workspace.separated_view, fun {s past} h => ?_⟩
  have hapart := apart_of_run h s List.mem_cons_self
  exact ⟨hapart.expr, hapart.memory⟩

/-- A one that was joined with itself. -/
def ones : Buffer :=
  (Workspace.empty.performAll [.edit "a" (.press 1), .append "a" "a"]).view "a"

/-- The joined ones are pasted behind a three, the product is stored and added to memory, and memory is
recalled behind a four. -/
def recalledProduct : Session :=
  ((((((fresh false).after (.press 3)).after (.paste ones)).after .collapse).after
    (.updateMemory .add)).after (.press 4)).after .recallMemory

theorem operands_separated_recalledProduct : ∃ past,
    Run IsFresh Supplied (recalledProduct :: past)
    ∧ ones.display = .ok "1×1×"
    ∧ recalledProduct.expr.display = .ok "3×4×3"
    ∧ recalledProduct.expr.Separated ∧ ∀ b, recalledProduct.memory = some b → b.Separated := by
  have hrun : Run IsFresh Supplied (recalledProduct :: _) :=
    .step (.step (.step (.step (.step (.step (.start ⟨false, rfl⟩) trivial) (.inl ⟨_, _, rfl⟩))
      trivial) trivial) trivial) trivial
  exact ⟨_, hrun, by decide +kernel, by decide +kernel, operands_separated.2 hrun⟩

end Session

end Reckoner
