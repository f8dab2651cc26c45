import Reckoner.Proofs.Buffer.Editing
import Reckoner.Proofs.Session.Coherence

/-!
# Where the stored results of a session come from

What an operation does to a session, and which tokens it puts there.

- `Effect` sums up what operations do to the expression and the memory, and `effect_after` says that
  they do nothing else;
- `Adds` says which tokens are new after an operation: those of a pasted buffer or of restored bytes, or
  one or two stored results that the session makes;
- `Effect.adds`: all that a session holds after an operation is new in this sense, or plain, or was held
  before;
- `sound_abbreviated` and `sound_combined`: the stored results that a session makes are sound.

Invariants of what sessions hold are case analyses of `Adds`.
-/

namespace Reckoner

open Buffer (nested Grown)

namespace Session

/-! ## §1 What sessions hold -/

/-- The tokens of the expression and of the memory, at every depth. -/
def held (s : Session) : List Token :=
  nested s.expr ++ nested (s.memory.getD [])

/-- The tokens that sessions hold. -/
def ledger (past : List Session) : List Token :=
  past.flatMap held

theorem held_subset_ledger (s : Session) (past : List Session) : s.held ⊆ ledger (s :: past) :=
  fun _ ht => List.mem_append_left _ ht

/-- What is in a token that a session holds is held, too. -/
theorem nested_subset_held {s : Session} {t : Token} (h : t ∈ s.held) : t.nested ⊆ s.held := by
  intro u hu
  rcases List.mem_append.mp h with ht | ht
  · exact List.mem_append_left _ (Buffer.token_nested_subset ht hu)
  · exact List.mem_append_right _ (Buffer.token_nested_subset ht hu)

theorem expr_subset_held (s : Session) : nested s.expr ⊆ s.held :=
  fun _ ht => List.mem_append_left _ ht

theorem memory_subset_held (s : Session) : nested (s.memory.getD []) ⊆ s.held :=
  fun _ ht => List.mem_append_right _ ht

/-- What is in a token of the ledger is in the ledger. -/
theorem nested_subset_ledger {past : List Session} {t : Token} (h : t ∈ ledger past) :
    t.nested ⊆ ledger past := by
  intro u hu
  obtain ⟨s, hs, ht⟩ := List.mem_flatMap.mp h
  exact List.mem_flatMap.mpr ⟨s, hs, nested_subset_held ht hu⟩

/-- Tokens that are plain, or were held before. -/
def Drawn (A : List Token) (b : List Token) : Prop :=
  ∀ t ∈ b, t ∈ A ∨ t.Plain

section

variable {A B b c : List Token}

theorem Drawn.mono (h : Drawn A b) (hB : A ⊆ B) : Drawn B b :=
  fun t ht => (h t ht).imp_left fun hA => hB hA

theorem Drawn.append (hb : Drawn A b) (hc : Drawn A c) : Drawn A (b ++ c) :=
  List.forall_mem_append.mpr ⟨hb, hc⟩

theorem drawn_of_subset (h : b ⊆ A) : Drawn A b :=
  fun _ ht => .inl (h ht)

theorem Drawn.refl (A : List Token) : Drawn A A :=
  drawn_of_subset (List.Subset.refl A)

theorem drawn_of_plain (h : ∀ t ∈ b, t.Plain) : Drawn A b :=
  fun t ht => .inr (h t ht)

/-- What is true of plain tokens and of others is true of what is drawn from these. -/
theorem Drawn.forall {P : Token → Prop} (h : Drawn A b) (hA : ∀ t ∈ A, P t)
    (hplain : ∀ t : Token, t.Plain → P t) : ∀ t ∈ b, P t := by
  intro t ht
  rcases h t ht with hold | hnew
  · exact hA t hold
  · exact hplain t hnew

/-- If the tokens of a buffer are plain or among others, then so is all that is in them. -/
theorem Drawn.nested {b : Buffer} (hA : ∀ t ∈ A, t.nested ⊆ A) (h : Drawn A b) :
    Drawn A (nested b) := by
  intro t ht
  obtain ⟨u, hu, htu⟩ := Buffer.mem_nested_iff.mp ht
  rcases h u hu with hheld | hplain
  · exact .inl (hA u hheld htu)
  -- A plain token holds nothing but itself.
  · cases u with
    | literal l => exact .inr (List.mem_singleton.mp htu ▸ hplain)
    | operator o => exact .inr (List.mem_singleton.mp htu ▸ hplain)
    | stored n v e s x => exact absurd hplain.1 nofun

/-- What a new stored result holds besides itself is in its expression. -/
theorem Drawn.stored {e : Buffer} (h : Drawn A (Buffer.nested e)) (n : Nat) (v : Value) (r : Scope)
    (x : Option String) : Drawn (.stored n v e r x :: A) (Buffer.nested [.stored n v e r x]) := by
  rw [Buffer.nested_stored, Buffer.nested_nil, List.append_nil]
  intro t ht
  rcases List.mem_cons.mp ht with rfl | ht
  · exact .inl List.mem_cons_self
  · exact h.mono (List.subset_cons_self _ _) t ht

end

/-! ## §2 What operations do -/

/-- The session after an operation, as far as its expression, its memory and its numbers go. -/
inductive Effect (s : Session) : Command → Session → Prop where
  | same {c : Command} {s' : Session} (hexpr : s'.expr = s.expr) (hmemory : s'.memory = s.memory)
      (hnext : s.next ≤ s'.next) : Effect s c s'
  | edited {c : Command} {b : Buffer} (h : Grown s.expr b) : Effect s c (s.withExpr b)
  | pasted (b : Buffer) : Effect s (.paste b) (s.paste b)
  | recalled {b : Buffer} (h : s.memory = some b) : Effect s .recallMemory (s.paste b)
  | collapsed {t : Token} {s₁ : Session} (h : s.abbreviated = (.ok t, s₁)) :
      Effect s .collapse { s₁ with expr := [t] }
  | remembered {t : Token} {s₁ : Session} (h : s.abbreviated = (.ok t, s₁)) :
      Effect s (.updateMemory .add) { s₁ with memory := some [t] }
  | combined {change : MemoryChange} {t u : Token} {s₁ : Session} (h : s.abbreviated = (.ok t, s₁))
      (hchange : s₁.memory = none → change = .subtract) (hu : s₁.combined change t = .ok u) :
      Effect s (.updateMemory change) { s₁ with memory := some [u], next := s₁.next + 1 }
  | forgotten : Effect s .clearMemory s.clearMemory
  | restored {room : Nat} {bytes : Codec.Bytes} {s' : Session}
      (h : restoreWithin room bytes s.next = .ok s') : Effect s (.restore room bytes) s'

variable {s s' s₁ : Session} {c : Command} {t : Token}

/-- Abbreviating the expression leaves it and the memory as they are, and takes a number. -/
theorem abbreviated_frame (h : s.abbreviated = (.ok t, s₁)) :
    s₁.expr = s.expr ∧ s₁.memory = s.memory ∧ s₁.degrees = s.degrees ∧ s₁.next = s.next + 1 := by
  obtain ⟨q, -, -, rfl⟩ := of_abbreviated_ok h
  obtain ⟨r, text, heq⟩ := s.evaluate_frame
  rw [heq]
  exact ⟨rfl, rfl, rfl, rfl⟩

/-- The stored result that stands for the expression has the next number, a value of its own, and the
text of the result. -/
theorem abbreviated_eq (h : s.abbreviated = (.ok t, s₁)) : ∃ q, s.evaluate.1 = .ok q
    ∧ t = s.expr.withoutTrailingBinary.abbreviated s.next ⟨q, .result s.next⟩ s.degrees
      s.evaluate.2.resultText := by
  obtain ⟨q, hq, rfl, -⟩ := of_abbreviated_ok h
  obtain ⟨r, text, heq⟩ := s.evaluate_frame
  rw [heq]
  exact ⟨q, hq, rfl⟩

/-- The stored result of a combination has the next number, a value of its own, and the text of that
value. -/
theorem combined_eq {change : MemoryChange} {u : Token} (hu : s.combined change t = .ok u) :
    ∃ x text, Buffer.evaluate (s.memory.getD [] ++ [.symbol change.symbol, t]) s.degrees = .ok x
      ∧ shortTextOf x.quantity = .ok text
      ∧ u = Buffer.abbreviated (s.memory.getD [] ++ [.symbol change.symbol, t]) s.next
        (x.keep s.next) s.degrees (some text) := by
  simp only [Session.combined, bind_ok_iff, return_ok_iff] at hu
  obtain ⟨x, hx, text, htext, rfl⟩ := hu
  exact ⟨x, text, hx, htext, rfl⟩

/-- If the expression cannot be abbreviated, it has been evaluated, and nothing else is done. -/
theorem snd_abbreviated_of_error {e : EvaluationError} (h : s.abbreviated = (.error e, s₁)) :
    s₁ = s.evaluate.2 := by
  unfold Session.abbreviated at h
  generalize s.evaluate = p at h ⊢
  obtain ⟨_ | q, s₂⟩ := p
  · cases h
    rfl
  · cases h

/-- Only a change of memory, clearing it, and restoring another session affect memory. -/
theorem memory_after (s : Session) {c : Command} (hupdate : ∀ change, c ≠ .updateMemory change)
    (hclear : c ≠ .clearMemory) (hrestore : ∀ room bytes, c ≠ .restore room bytes) :
    (s.after c).memory = s.memory := by
  cases c with
  | press n =>
    simp only [after, Session.press]
    cases s.expr.press n with
    | error e => rfl
    | ok p =>
      obtain ⟨_ | _, b⟩ := p <;> rfl
  | setExponent e =>
    simp only [after, Session.setExponent]
    split <;> rfl
  | delete => rfl
  | clear => rfl
  | paste b => rfl
  | setDegrees degrees =>
    simp only [after, Session.setDegrees]
    split
    · rfl
    · split <;> rfl
  | evaluate =>
    obtain ⟨result, text, hframe⟩ := s.evaluate_frame
    simp only [after, hframe]
  | collapse =>
    simp only [after, Session.collapse]
    -- Whether it is collapsed or not, the expression has been evaluated.
    cases hp : s.abbreviated with
    | mk outcome s₁ =>
      cases outcome with
      | error e =>
        obtain rfl := snd_abbreviated_of_error hp
        obtain ⟨result, text, hframe⟩ := s.evaluate_frame
        have hmemory : s.evaluate.2.memory = s.memory := by rw [hframe]
        exact hmemory
      | ok t => exact (abbreviated_frame hp).2.1
  | updateMemory change => exact absurd rfl (hupdate change)
  | recallMemory =>
    simp only [after, Session.recall]
    split <;> rfl
  | clearMemory => exact absurd rfl hclear
  | restore room bytes => exact absurd rfl (hrestore room bytes)

namespace Effect

/-- Nothing happens to the expression, to the memory and to the numbers. -/
theorem refl (s : Session) (c : Command) : Effect s c s :=
  .same rfl rfl (Nat.le_refl _)

theorem evaluate (s : Session) (c : Command) : Effect s c s.evaluate.2 := by
  obtain ⟨q, text, heq⟩ := s.evaluate_frame
  rw [heq]
  exact .same rfl rfl (Nat.le_refl _)

theorem press (hsound : ∀ t ∈ s.expr, t.Sound) (n : Int) :
    Effect s (.press n) (s.after (.press n)) := by
  simp only [after]
  split
  · next s' hpress =>
    simp only [Session.press, bind_ok_iff] at hpress
    obtain ⟨⟨accepted, b⟩, hkey, hpress⟩ := hpress
    cases accepted with
    | false =>
      cases hpress
      exact refl s _
    | true =>
      cases hpress
      exact .edited (Buffer.grown_press (Buffer.typable_of_sound hsound) hkey)
  · exact refl s _

theorem setExponent (hsound : ∀ t ∈ s.expr, t.Sound) (e : Int) :
    Effect s (.setExponent e) (s.setExponent e).2 := by
  have hgrown := Buffer.grown_setExponent (Buffer.typable_of_sound hsound) e
  unfold Session.setExponent
  generalize s.expr.setExponent e = p at hgrown ⊢
  obtain ⟨_ | _, b⟩ := p
  · exact refl s _
  · exact .edited hgrown

theorem setDegrees (s : Session) (degrees : Bool) :
    Effect s (.setDegrees degrees) (s.setDegrees degrees) := by
  unfold Session.setDegrees
  split
  · exact refl s _
  · dsimp only
    split
    · exact .same rfl rfl (Nat.le_refl _)
    · exact .same rfl rfl (Nat.le_refl _)

theorem collapse (s : Session) : Effect s .collapse s.collapse.2 := by
  unfold Session.collapse
  cases hp : s.abbreviated with
  | mk outcome s₁ =>
    cases outcome with
    | error e =>
      obtain rfl := snd_abbreviated_of_error hp
      exact evaluate s _
    | ok t => exact .collapsed hp

/-- A change of memory evaluates the expression, and makes a stored result of it and perhaps another one. -/
theorem updateMemory (s : Session) (change : MemoryChange) :
    Effect s (.updateMemory change) (s.updateMemory change).2 := by
  unfold Session.updateMemory
  cases hp : s.abbreviated with
  | mk outcome s₁ =>
    -- A change that fails evaluates the expression, and that is all.
    cases outcome with
    | error e =>
      obtain rfl := snd_abbreviated_of_error hp
      exact evaluate s _
    | ok t =>
      obtain ⟨hexpr, hmemory, -, hnext⟩ := abbreviated_frame hp
      dsimp only
      split
      -- Without a memory, the first value that is added becomes the memory.
      · next hadd =>
        obtain rfl : change = .add := by simpa using (Bool.and_eq_true_iff.mp hadd).2
        exact .remembered hp
      · next hother =>
        -- Any other change combines the memory with the value.
        have hchange : s₁.memory = none → change = .subtract := by
          intro hnone
          cases change with
          | subtract => rfl
          | add => exact absurd (by simp [hnone]) hother
        cases hcombined : s₁.combined change t with
        -- The number of the current value is used up, though nothing holds the value.
        | error e => exact .same hexpr hmemory (by simp only [hnext]; omega)
        | ok u => exact .combined hp hchange hcombined

theorem recallMemory (s : Session) : Effect s .recallMemory s.recall.2 := by
  unfold Session.recall
  split
  · exact refl s _
  · next b hb => exact .recalled hb

end Effect

/-- Operations do nothing else, if the tokens that are edited are sound. -/
theorem effect_after (hsound : ∀ t ∈ s.expr, t.Sound) (c : Command) : Effect s c (s.after c) := by
  cases c with
  | press n => exact .press hsound n
  | setExponent e => exact .setExponent hsound e
  | delete => exact .edited (Buffer.grown_delete (Buffer.typable_of_sound hsound))
  | clear => exact .edited fun _ ht => nomatch ht
  | paste b => exact .pasted b
  | setDegrees degrees => exact .setDegrees s degrees
  | evaluate => exact .evaluate s _
  | collapse => exact .collapse s
  | updateMemory change => exact .updateMemory s change
  | recallMemory => exact .recallMemory s
  | clearMemory => exact .forgotten
  | restore room bytes =>
    simp only [after]
    split
    · next s' hrestore => exact .restored hrestore
    · exact .refl s _

/-- What memory holds is one stored result, after every operation. -/
theorem Effect.isMemory (h : Effect s c s') (hs : ∀ b, s.memory = some b → isMemory b = true) :
    ∀ b, s'.memory = some b → isMemory b = true := by
  cases h with
  | same hexpr hmemory hnext =>
    rw [hmemory]
    exact hs
  | edited hb => exact hs
  | pasted b => exact hs
  | recalled hb => exact hs
  | collapsed ht =>
    obtain ⟨-, hmemory, -⟩ := abbreviated_frame ht
    simp only [hmemory]
    exact hs
  | remembered ht =>
    obtain ⟨q, -, rfl⟩ := abbreviated_eq ht
    intro b hb
    obtain rfl := Option.some.inj hb
    rfl
  -- A combination is one stored result again.
  | combined ht hchange hu =>
    obtain ⟨x, text, -, -, rfl⟩ := combined_eq hu
    intro b hb
    obtain rfl := Option.some.inj hb
    rfl
  | forgotten => exact fun _ hb => nomatch hb
  | restored hrestore =>
    obtain ⟨-, -, -, -, -, -, hall, -⟩ := of_restoreWithin_ok hrestore
    intro b hb
    simpa [hb] using hall

/-! ## §3 What is new -/

/-- The tokens that are new after an operation. The stored results that a session makes take the next
numbers. -/
inductive Adds (s s' : Session) : Command → List Token → Prop where
  | nothing {c : Command} (hnext : s.next ≤ s'.next) : Adds s s' c []
  | pasted (b : Buffer) (hnext : s.next ≤ s'.next) : Adds s s' (.paste b) (nested b)
  | value {c : Command} {t : Token} {s₁ : Session} (h : s.abbreviated = (.ok t, s₁))
      (hnext : s.next + 1 ≤ s'.next) : Adds s s' c [t]
  | combination {change : MemoryChange} {t u : Token} {s₁ : Session}
      (h : s.abbreviated = (.ok t, s₁)) (hchange : s₁.memory = none → change = .subtract)
      (hu : s₁.combined change t = .ok u) (hnext : s.next + 2 ≤ s'.next) :
      Adds s s' (.updateMemory change) [u, t]
  | restored {room : Nat} {bytes : Codec.Bytes} (h : restoreWithin room bytes s.next = .ok s') :
      Adds s s' (.restore room bytes) s'.held

theorem drawn_symbol (A : List Token) (o : Symbol) : Drawn A (nested [.symbol o]) := by
  refine drawn_of_plain fun t ht => ?_
  obtain rfl := List.mem_singleton.mp ht
  exact Token.plain_symbol o

/-- In the stored result that stands for the expression there is nothing new. -/
theorem drawn_abbreviated (h : s.abbreviated = (.ok t, s₁)) : Drawn (t :: s.held) (nested [t]) := by
  obtain ⟨q, -, rfl⟩ := abbreviated_eq h
  refine Drawn.stored (drawn_of_subset fun u hu => expr_subset_held s ?_) _ _ _ _
  obtain ⟨w, hw, huw⟩ := Buffer.mem_nested_iff.mp hu
  exact Buffer.mem_nested_iff.mpr ⟨w, List.mem_of_mem_take hw, huw⟩

/-- In a combination with memory there is nothing new but what memory is combined with. -/
theorem drawn_combined (h : s.abbreviated = (.ok t, s₁)) {change : MemoryChange} {u : Token}
    (hu : s₁.combined change t = .ok u) : Drawn (u :: t :: s.held) (nested [u]) := by
  obtain ⟨-, hmemory, -⟩ := abbreviated_frame h
  obtain ⟨x, text, -, -, rfl⟩ := combined_eq hu
  refine Drawn.stored ?_ _ _ _ _
  rw [hmemory, Buffer.nested_append]
  -- Its expression is the memory, an operator, and the current value.
  refine Drawn.append (drawn_of_subset fun w hw => ?_) ?_
  · exact List.mem_cons_of_mem _ (memory_subset_held s hw)
  · exact (drawn_symbol _ change.symbol).append (drawn_abbreviated h)

/-- What keys make of an expression holds nothing new. -/
theorem drawn_grown {b : Buffer} (h : Grown s.expr b) : Drawn s.held (nested b) :=
  Drawn.nested (fun _ ht => nested_subset_held ht) fun t ht => (h t ht).imp_left fun hold =>
    expr_subset_held s (Buffer.mem_nested_of_mem hold)

theorem drawn_expr {A : List Token} (hA : s.held ⊆ A) : Drawn A (nested s.expr) :=
  drawn_of_subset (List.Subset.trans (expr_subset_held s) hA)

theorem drawn_memory {A : List Token} (hA : s.held ⊆ A) : Drawn A (nested (s.memory.getD [])) :=
  drawn_of_subset (List.Subset.trans (memory_subset_held s) hA)

/-- A buffer that is put behind the expression brings its own tokens along, and a plain one between. -/
theorem drawn_append {A : List Token} (hA : s.held ⊆ A) {b : Buffer} (hb : Drawn A (nested b)) :
    Drawn A (nested (s.expr.append b)) := by
  rw [Buffer.append, Buffer.nested_append, Buffer.nested_append]
  refine Drawn.append (Drawn.append ?_ ?_) hb
  · exact drawn_expr hA
  · unfold Buffer.joint
    split
    · exact drawn_symbol A .times
    · exact drawn_of_plain nofun

/-- What a session holds after an operation is new, or plain, or was held before. -/
theorem Effect.adds (h : Effect s c s') :
    ∃ new, Adds s s' c new ∧ Drawn (new ++ s.held) s'.held := by
  cases h with
  | same hexpr hmemory hnext =>
    have hheld : s'.held = s.held := by simp only [held, hexpr, hmemory]
    rw [hheld]
    exact ⟨[], .nothing hnext, .refl _⟩
  | edited hb =>
    refine ⟨[], .nothing (Nat.le_refl _), ?_⟩
    exact (drawn_grown hb).append (drawn_memory (s := s) (List.Subset.refl _))
  | pasted b =>
    refine ⟨nested b, .pasted b (Nat.le_refl _), ?_⟩
    have hold : s.held ⊆ nested b ++ s.held := List.subset_append_right _ _
    have hnew : Drawn (nested b ++ s.held) (nested b) :=
      drawn_of_subset (List.subset_append_left _ _)
    exact (drawn_append hold hnew).append (drawn_memory (s := s) hold)
  | @recalled b hb =>
    refine ⟨[], .nothing (Nat.le_refl _), ?_⟩
    have hold : Drawn s.held (nested b) := by
      have := drawn_memory (List.Subset.refl s.held)
      rwa [hb] at this
    exact (drawn_append (List.Subset.refl _) hold).append
      (drawn_memory (s := s) (List.Subset.refl _))
  | @collapsed t s₁ ht =>
    obtain ⟨-, hmemory, -, hnext⟩ := abbreviated_frame ht
    refine ⟨[t], .value ht (by simp only [hnext]; omega), ?_⟩
    simp only [held, hmemory]
    exact (drawn_abbreviated ht).append (drawn_memory (List.subset_cons_self _ _))
  | @remembered t s₁ ht =>
    obtain ⟨hexpr, -, -, hnext⟩ := abbreviated_frame ht
    refine ⟨[t], .value ht (by simp only [hnext]; omega), ?_⟩
    simp only [held, hexpr]
    exact (drawn_expr (List.subset_cons_self _ _)).append (drawn_abbreviated ht)
  -- Two stored results are made here: the value, and the combination that holds it.
  | @combined change t u s₁ ht hchange hu =>
    obtain ⟨hexpr, -, -, hnext⟩ := abbreviated_frame ht
    refine ⟨[u, t], .combination ht hchange hu (by simp only [hnext]; omega), ?_⟩
    have hold : s.held ⊆ u :: t :: s.held := fun _ hw => by simp [hw]
    simp only [held, hexpr]
    exact (drawn_expr hold).append (drawn_combined ht hu)
  | forgotten =>
    refine ⟨[], .nothing (Nat.le_refl _), (drawn_expr (List.Subset.refl _)).append ?_⟩
    exact drawn_of_plain (by simp [clearMemory])
  | restored hrestore =>
    exact ⟨s'.held, .restored hrestore, drawn_of_subset (List.subset_append_left _ _)⟩

/-! ## §4 The stored results that a session makes -/

/-- The stored result that stands for the expression is sound. -/
theorem sound_abbreviated (hs : s.Current) (h : s.abbreviated = (.ok t, s₁)) : t.Sound := by
  obtain ⟨q, hq, rfl⟩ := abbreviated_eq h
  have hresult := result_of_evaluate_ok hq
  have hcurrent := hs.evaluate
  obtain ⟨r, text, heq⟩ := s.evaluate_frame
  rw [heq] at hresult hcurrent
  obtain ⟨x, hx, hxq⟩ := hcurrent q hresult
  have hpre := Buffer.evaluate_eq_ok_iff.mp hx
  -- Evaluation leaves out the binary operators at the end, and so does the stored result.
  rw [← Buffer.evaluatePrefix_withoutTrailingBinary, ← Buffer.length_withoutTrailingBinary] at hpre
  exact ⟨rfl, x, hpre, hxq⟩

/-- What memory is combined with is not the end of the combination: a plus or a minus before it makes
the value a new one. -/
theorem evaluate_combination {m : Option Buffer} (hm : ∀ b, m = some b → isMemory b = true)
    (change : MemoryChange) (hchange : m = none → change = .subtract) (n : Nat) (v : Value)
    (e : Buffer) (r : Scope) (x : Option String) :
    let b : Buffer := m.getD [] ++ [.symbol change.symbol, .stored n v e r x]
    b.binaryStart = b.length ∧ ∀ degrees, ∃ q, b.evaluate degrees = .ok (.computed q) := by
  -- Without a memory, the change is a subtraction, and the minus stands alone before the value.
  cases m with
  | none =>
    obtain rfl := hchange rfl
    exact ⟨rfl, fun degrees => ⟨_, rfl⟩⟩
  | some b =>
    have hb := hm b rfl
    unfold isMemory at hb
    split at hb
    · cases change with
      | add => exact ⟨rfl, fun degrees => ⟨_, rfl⟩⟩
      | subtract => exact ⟨rfl, fun degrees => ⟨_, rfl⟩⟩
    · cases hb

/-- The stored result of a combination is sound, and has a value of its own. -/
theorem sound_combined (hs : ∀ b, s.memory = some b → isMemory b = true)
    (h : s.abbreviated = (.ok t, s₁)) {change : MemoryChange}
    (hchange : s₁.memory = none → change = .subtract) {u : Token}
    (hu : s₁.combined change t = .ok u) :
    u.Sound ∧ ∃ v e r x, u = .stored (s.next + 1) v e r x ∧ v.identity = .result (s.next + 1) := by
  obtain ⟨-, hmemory, -, hnext⟩ := abbreviated_frame h
  obtain ⟨p, -, rfl⟩ := abbreviated_eq h
  obtain ⟨x, text, hx, -, rfl⟩ := combined_eq hu
  obtain ⟨hstart, hvalue⟩ := evaluate_combination (hmemory ▸ hs) change hchange s.next
    ⟨p, .result s.next⟩ s.expr.withoutTrailingBinary ⟨s.degrees, _⟩ s.evaluate.2.resultText
  obtain ⟨q, hq⟩ := hvalue s₁.degrees
  -- The value is a computed one, so it is kept under the number of the combination.
  obtain rfl := Except.ok.inj (hx.symm.trans hq)
  have hpre := Buffer.evaluate_eq_ok_iff.mp hq
  rw [hstart] at hpre
  rw [hnext]
  exact ⟨⟨rfl, _, hpre, rfl⟩, _, _, _, _, rfl, rfl⟩

end Session

end Reckoner
