import Reckoner.Proofs.Session.Command
import Reckoner.Proofs.Workspace.Upkeep

/-!
# Sessions in a workspace

A session whose literals are cells. The expression and the memory are buffers of a workspace, next to
buffers that are built outside the session; what is pasted or stored is copied first, as an edit of a literal
would show at every place where the literal stands.

- `Desk` is a session of this kind, and `Desk.session` is what it shows;
- `Action` lists what can be done, `Desk.storeAfter` does it on the cells, and `Desk.counterpart` is what it
  is for the session that is shown;
- `leads_pasteFrom`, `leads_keepExpression` and `leads_combine` say what the steps that copy do to the
  buffers.
-/

namespace Reckoner

/-! ## §1 Names -/

namespace Desk

/-- The buffer of the expression. -/
def expressionName : String := "expression"

/-- The buffer of the memory register. -/
def memoryName : String := "memory"

/-- The buffer that holds a copy for as long as an operation takes. -/
def scratchName : String := "scratch"

/-- The buffer that holds the stored result of the expression until it is combined with memory. -/
def currentName : String := "current"

/-- A buffer outside the session. -/
def outsideName (name : String) : String := "outside " ++ name

theorem outsideName_ne (name : String) {other : String} (h : other.toList.head? ≠ some 'o') :
    outsideName name ≠ other := by
  rintro rfl
  exact h (by simp [outsideName])

end Desk

/-! ## §2 Steps that copy -/

namespace Workspace

open Desk

/-- Put a copy of a buffer behind the expression. -/
def pasteFrom (w : Workspace) (source : String) : Workspace :=
  ((w.clone scratchName source).append expressionName scratchName).clear scratchName

/-- Make a buffer the stored result that stands for the expression, without binary operators at its end. -/
def keepExpression (w : Workspace) (name : String) (x : Quantity) (degrees : Bool)
    (text : Option String) : Workspace :=
  let w := w.clone scratchName expressionName
  let w := w.edit scratchName (Edit.keeping (w.view scratchName).binaryStart)
  (w.freeze name scratchName ⟨x, .result w.next⟩ degrees text).clear scratchName

/-- The slots of memory, if there is any. -/
def memorySlots (w : Workspace) (remembers : Bool) : List Slot :=
  if remembers then w.slots memoryName else []

/-- Combine memory with the stored result of the expression, and make memory the stored result of that if it
has a value with a text. -/
def combine (w : Workspace) (remembers : Bool) (change : Session.MemoryChange) (degrees : Bool) :
    Workspace :=
  let w := w.setSlots scratchName
    (w.memorySlots remembers ++ [.operator (.listed change.symbol)] ++ w.slots currentName)
  let stored : Evaluated Workspace := do
    let x ← (w.view scratchName).evaluate degrees
    let text ← Session.shortTextOf x.quantity
    return w.abbreviate memoryName scratchName x degrees text
  ((stored.toOption.getD w).clear scratchName).clear currentName

/-- Replace expression and memory by those of a session. -/
def putSession (w : Workspace) (s : Session) : Workspace :=
  (w.put expressionName s.expr s.next).put memoryName (s.memory.getD []) s.next

variable {w : Workspace}

theorem viewSlots_memorySlots (w : Workspace) (remembers : Bool) :
    w.viewSlots (w.memorySlots remembers) = if remembers then w.view memoryName else [] := by
  unfold memorySlots
  split <;> rfl

/-- What happened to a buffer that was empty is forgotten when it is emptied. -/
theorem update_emptied {views : String → Buffer} {used name : String} (hused : views used = [])
    (hname : name ≠ used) (b c : Buffer) :
    Function.update (Function.update (Function.update views used b) name c) used []
      = Function.update views name c := by
  rw [Function.update_comm hname.symm, Function.update_idem, Function.update_comm hname, ← hused,
    Function.update_eq_self]

theorem update_empty {views : String → Buffer} {name : String} (hname : views name = []) :
    Function.update views name [] = views :=
  Function.update_eq_self_iff.mpr hname.symm

/-- Pasting puts what a buffer shows behind the expression, and leaves the buffer as it is. -/
theorem leads_pasteFrom (h : Neat w) (hscratch : w.view scratchName = []) {source : String}
    (hsource : source ≠ scratchName) :
    Leads w (Function.update w.view expressionName ((w.view expressionName).append (w.view source))) w.next
      (w.pasteFrom source) := by
  have hcopied := h.leads_clone hsource
  -- The copy is moved behind the expression, so that its literals stand there only.
  have hmoved := hcopied.neat.leads_move (show scratchName ≠ expressionName by decide)
  rw [hcopied.view, hcopied.next, update_emptied hscratch (by decide), Function.update_self,
    Function.update_of_ne (by decide)] at hmoved
  exact hcopied.trans hmoved

/-- A buffer gets the stored result that stands for the expression, which stays as it is. -/
theorem leads_keepExpression (h : Neat w) (hscratch : w.view scratchName = []) {name : String}
    (hname : name ≠ scratchName) (x : Quantity) (degrees : Bool) (text : Option String) :
    Leads w (Function.update w.view name [(w.view expressionName).withoutTrailingBinary.abbreviated w.next
      ⟨x, .result w.next⟩ degrees text]) (w.next + 1) (w.keepExpression name x degrees text) := by
  -- The copy is cut, stored as a result and emptied; every step starts from what the last one led to.
  have hcopied := h.leads_clone (show expressionName ≠ scratchName by decide)
  have hself : (w.clone scratchName expressionName).view scratchName = w.view expressionName := by
    rw [hcopied.view, Function.update_self]
  have hviews : Function.update (w.clone scratchName expressionName).view scratchName
      (((w.clone scratchName expressionName).view scratchName).take
        ((w.clone scratchName expressionName).view scratchName).binaryStart)
      = Function.update w.view scratchName (w.view expressionName).withoutTrailingBinary := by
    rw [hself, hcopied.view, Function.update_idem]
    rfl
  have hcut := hcopied.neat.leads_take scratchName
    ((w.clone scratchName expressionName).view scratchName).binaryStart
  rw [hviews, hcopied.next] at hcut
  -- What is stored is the copy, which shows the expression without the operators at its end.
  have hfrozen := hcut.neat.leads_freeze hname.symm ⟨x, .result w.next⟩ degrees text
  have hcleared := hfrozen.neat.leads_clear scratchName
  rw [hfrozen.view, hfrozen.next, hcut.view, hcut.next, update_emptied hscratch hname,
    Function.update_self] at hcleared
  have hkeep : w.keepExpression name x degrees text
      = (((w.clone scratchName expressionName).edit scratchName
          (Edit.keeping ((w.clone scratchName expressionName).view scratchName).binaryStart)).freeze name
        scratchName ⟨x, .result w.next⟩ degrees text).clear scratchName := by
    rw [← hcut.next]
    rfl
  -- The steps one after the other are what keeping the expression is.
  rw [hkeep]
  exact ((hcopied.trans hcut).trans hfrozen).trans hcleared

/-- Both buffers that operations use may be emptied. -/
theorem Neat.leads_emptied (h : Neat w) :
    Leads w (Function.update (Function.update w.view scratchName []) currentName []) w.next
      ((w.clear scratchName).clear currentName) := by
  have hscratch := h.leads_clear scratchName
  have hcurrent := hscratch.neat.leads_clear currentName
  rw [hscratch.view, hscratch.next] at hcurrent
  exact hscratch.trans hcurrent

/-- Slots that show stored results only have no literals. -/
theorem not_literal_of_stored {slots : List Slot} (hview : ∀ t ∈ w.viewSlots slots, t.number?.isSome) :
    ∀ c, .literal c ∉ slots := by
  intro c hc
  cases hview _ (List.mem_map_of_mem hc)

/-- A stored result becomes memory as it is. -/
theorem leads_remember (h : Neat w) {t : Token} (hcurrent : w.view currentName = [t])
    (ht : t.number?.isSome) :
    Leads w (Function.update (Function.update w.view memoryName [t]) currentName []) w.next
      ((w.setSlots memoryName (w.slots currentName)).clear currentName) := by
  have hstored : ∀ u ∈ w.viewSlots (w.slots currentName), u.number?.isSome := by
    rw [show w.viewSlots (w.slots currentName) = [t] from hcurrent]
    exact List.forall_mem_singleton.mpr ht
  -- The stored result may stand in two buffers for a moment, as only literals must not.
  have hset : Leads w (Function.update w.view memoryName [t]) w.next
      (w.setSlots memoryName (w.slots currentName)) := by
    rw [← hcurrent]
    exact h.leads_setSlots (not_literal_of_stored hstored) fun n hn =>
      h.tidy.stored n (h.slots_subset currentName hn)
  have hcleared := hset.neat.leads_clear currentName
  rw [hset.view, hset.next] at hcleared
  exact hset.trans hcleared

section

variable (h : Neat w) {remembers : Bool}
  (hmemory : ∀ u ∈ w.viewSlots (w.memorySlots remembers), u.number?.isSome) {t : Token}
  (hcurrent : w.view currentName = [t]) (ht : t.number?.isSome) (change : Session.MemoryChange)

include h hmemory hcurrent ht

/-- The buffer that is evaluated shows memory, the sign and the stored result of the expression. None of this
is a literal. -/
theorem leads_combination : Leads w
    (Function.update w.view scratchName
      (w.viewSlots (w.memorySlots remembers) ++ [.symbol change.symbol, t])) w.next
    (w.setSlots scratchName
      (w.memorySlots remembers ++ [.operator (.listed change.symbol)] ++ w.slots currentName)) := by
  have hviewCurrent : w.viewSlots (w.slots currentName) = [t] := hcurrent
  have hview : w.viewSlots (w.memorySlots remembers ++ [.operator (.listed change.symbol)]
      ++ w.slots currentName) = w.viewSlots (w.memorySlots remembers) ++ [.symbol change.symbol, t] := by
    rw [viewSlots_append, viewSlots_append, hviewCurrent, List.append_assoc]
    rfl
  have hslots : w.memorySlots remembers ⊆ w.filed ++ w.placed := by
    unfold memorySlots
    split
    · exact h.slots_subset memoryName
    · exact List.nil_subset _
  have hstored : ∀ u ∈ w.viewSlots (w.slots currentName), u.number?.isSome := by
    rw [hviewCurrent]
    exact List.forall_mem_singleton.mpr ht
  rw [← hview]
  refine h.leads_setSlots (fun c hc => ?_) fun n hn => ?_
  · simp only [List.mem_append, List.mem_singleton, reduceCtorEq, or_false] at hc
    exact hc.elim (not_literal_of_stored hmemory c) (not_literal_of_stored hstored c)
  -- Stored results in either part are there, as both buffers only refer to such.
  · simp only [List.mem_append, List.mem_singleton, reduceCtorEq, or_false] at hn
    exact h.tidy.stored n (hn.elim (fun hn => hslots hn) fun hn => h.slots_subset currentName hn)

/-- Memory gets the stored result of the combination, if it has a value with a text. -/
theorem leads_combine (hscratch : w.view scratchName = []) {s : Session}
    (hs : s.memory.getD [] = w.viewSlots (w.memorySlots remembers)) (hnext : s.next = w.next) :
    match s.combined change t with
    | .ok u => Leads w (Function.update (Function.update w.view memoryName [u]) currentName [])
        (w.next + 1) (w.combine remembers change s.degrees)
    | .error _ => Leads w (Function.update w.view currentName []) w.next
        (w.combine remembers change s.degrees) := by
  have hset := leads_combination h hmemory hcurrent ht change
  have hleft := hset.neat.leads_emptied
  rw [hset.view, hset.next, Function.update_idem, update_empty hscratch] at hleft
  unfold Session.combined combine
  dsimp only
  rw [hs, hset.view, Function.update_self]
  cases Buffer.evaluate (w.viewSlots (w.memorySlots remembers) ++ [.symbol change.symbol, t]) s.degrees with
  | error e => exact hset.trans hleft
  | ok x =>
    -- A value without a text is not stored, so memory stays as it is.
    cases htext : Session.shortTextOf x.quantity with
    | error e =>
      simp only [ok_bind, htext]
      exact hset.trans hleft
    | ok text =>
      simp only [ok_bind, htext]
      have hstoredNew := hset.neat.leads_abbreviate (show scratchName ≠ memoryName by decide) x
        s.degrees text
      -- The combination is stored in memory, and then both buffers are emptied.
      have hrest := hstoredNew.neat.leads_emptied
      rw [hstoredNew.view, hstoredNew.next, hset.view, hset.next, update_emptied hscratch (by decide),
        Function.update_self] at hrest
      rw [hnext]
      exact (hset.trans hstoredNew).trans hrest

end

end Workspace

/-! ## §3 Desks -/

/-- A session in a workspace. -/
structure Desk where
  store : Workspace
  degrees : Bool
  remembers : Bool
  result : Option Quantity
  resultText : Option String

/-- Where a buffer that is pasted comes from. -/
inductive Source where
  | outside (name : String)
  | expression
  | memory

/-- What can be done with a session and the buffers around it. -/
inductive Action where
  | press (n : Int)
  | setExponent (e : Int)
  | delete
  | clear
  | build (name : String) (o : Buffer.Operation)
  | paste (source : Source)
  | setDegrees (degrees : Bool)
  | evaluate
  | collapse
  | updateMemory (change : Session.MemoryChange)
  | recallMemory
  | clearMemory
  | reload (room : Nat)

namespace Desk

/-- A desk on which nothing has happened. -/
def fresh (degrees : Bool) : Desk :=
  ⟨.empty, degrees, false, none, none⟩

/-- The session as it shows. -/
def session (d : Desk) : Session where
  degrees := d.degrees
  expr := d.store.view expressionName
  memory := if d.remembers then some (d.store.view memoryName) else none
  result := d.result
  resultText := d.resultText
  next := d.store.next

/-- Memory as it shows, empty if there is none. -/
theorem getD_memory (d : Desk) :
    d.session.memory.getD [] = d.store.viewSlots (d.store.memorySlots d.remembers) := by
  rw [Workspace.viewSlots_memorySlots]
  unfold session
  dsimp only
  split <;> rfl

/-- The buffer that a source names. There may be no memory. -/
def source? (d : Desk) : Source → Option String
  | .outside name => some (outsideName name)
  | .expression => some expressionName
  | .memory => if d.remembers then some memoryName else none

/-- Put a copy of a buffer behind the expression, if there is one. -/
def paste (d : Desk) (source : Source) : Workspace :=
  ((d.source? source).map d.store.pasteFrom).getD d.store

/-- Make the expression the stored result that stands for it, if it has a value. -/
def collapse (d : Desk) : Workspace :=
  match d.session.evaluate with
  | (.error _, _) => d.store
  | (.ok x, s) => d.store.keepExpression expressionName x s.degrees s.resultText

/-- Add the value of the expression to memory or subtract it, if there is one. -/
def updateMemory (d : Desk) (change : Session.MemoryChange) : Workspace :=
  match d.session.evaluate with
  | (.error _, _) => d.store
  | (.ok x, s) =>
    let w := d.store.keepExpression currentName x s.degrees s.resultText
    -- What is added to empty memory becomes the memory as it is.
    if !d.remembers && change = .add then
      (w.setSlots memoryName (w.slots currentName)).clear currentName
    else w.combine d.remembers change s.degrees

/-- The session that is restored from what the session saves, if both succeed. -/
def restored? (d : Desk) (room : Nat) : Option Session :=
  d.session.save.toOption.bind fun bytes =>
    (Session.restoreWithin room bytes d.store.next).toOption

/-- Replace expression and memory by those that are restored from what the session saves. -/
def reload (d : Desk) (room : Nat) : Workspace :=
  ((d.restored? room).map d.store.putSession).getD d.store

/-- The workspace after an action. Whether there is a result, and which one, is for the session to say. -/
def storeAfter (d : Desk) : Action → Workspace
  | .press n => d.store.performEdit expressionName (.press n)
  | .setExponent e => d.store.performEdit expressionName (.setExponent e)
  | .delete => d.store.performEdit expressionName .delete
  | .clear => d.store.performEdit expressionName .clear
  | .build name o => d.store.performEdit (outsideName name) o
  | .paste source => d.paste source
  | .setDegrees _ => d.store
  | .evaluate => d.store
  | .collapse => d.collapse
  | .updateMemory change => d.updateMemory change
  | .recallMemory => d.paste .memory
  | .clearMemory => d.store.clear memoryName
  | .reload room => d.reload room

/-- What an action is for the session that shows, if it is anything. -/
def counterpart (d : Desk) : Action → Option Command
  | .press n => some (.press n)
  | .setExponent e => some (.setExponent e)
  | .delete => some .delete
  | .clear => some .clear
  | .build _ _ => none
  | .paste source => (d.source? source).map fun name => .paste (d.store.view name)
  | .setDegrees degrees => some (.setDegrees degrees)
  | .evaluate => some .evaluate
  | .collapse => some .collapse
  | .updateMemory change => some (.updateMemory change)
  | .recallMemory => some .recallMemory
  | .clearMemory => some .clearMemory
  | .reload room => d.session.save.toOption.map (.restore room)

/-- The session that is shown after an action. -/
def sessionAfter (d : Desk) (a : Action) : Session :=
  ((d.counterpart a).map d.session.after).getD d.session

/-- The desk after an action. The mode, the result and its text do not depend on where literals are. -/
def after (d : Desk) (a : Action) : Desk where
  store := d.storeAfter a
  degrees := (d.sessionAfter a).degrees
  remembers := (d.sessionAfter a).memory.isSome
  result := (d.sessionAfter a).result
  resultText := (d.sessionAfter a).resultText

/-- The desk after actions in turn. -/
def afterAll (d : Desk) (as : List Action) : Desk :=
  as.foldl after d

/-- What actions in turn are for the session that shows. -/
def counterparts (d : Desk) : List Action → List Command
  | [] => []
  | a :: as => (d.counterpart a).toList ++ counterparts (d.after a) as

end Desk

end Reckoner
