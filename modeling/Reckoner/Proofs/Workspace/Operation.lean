import Reckoner.Proofs.Buffer.Operation
import Reckoner.Workspace

/-!
# Operations on a workspace

What can be done with named buffers, as data: `Operation` has one constructor for the operations on one
buffer, and one for each that takes tokens from another. `perform` is the workspace after it.

- `slots_setSlots` says which buffer gets new slots;
- `isOperator_tokenOf`: a slot shows an operator exactly if there is one in it, whatever the cells hold;
- `adopt_eq` and `copySlots_eq`: new literals get new cells, behind those that are there;
- `edit_eq` and `append_eq` are the workspace after an edit and after joining buffers;
- `performEdit_eq`: an operation on one buffer carries out the edit that it is on the view, and
  `performEdit_frame` says what it leaves alone.
-/

namespace Reckoner

namespace Workspace

/-! ## §1 Operations -/

/-- An operation on named buffers. -/
inductive Operation where
  | edit (name : String) (o : Buffer.Operation)
  | append (name other : String)
  | clone (name other : String)
  | abbreviate (name other : String) (x : Operand) (degrees : Bool) (text : String)

/-- The workspace after an operation on one buffer. One that fails or is rejected leaves it alone. -/
def performEdit (w : Workspace) (name : String) : Buffer.Operation → Workspace
  | .press n =>
    match w.press name n with
    | .ok (_, w') => w'
    | .error _ => w
  | .setExponent e => (w.setExponent name e).2
  | .delete => w.delete name
  | .stripAdditive => w.stripAdditive name
  | .clear => w.clear name

/-- The workspace after an operation. -/
def perform (w : Workspace) : Operation → Workspace
  | .edit name o => w.performEdit name o
  | .append name other => w.append name other
  | .clone name other => w.clone name other
  | .abbreviate name other x degrees text => w.abbreviate name other x degrees text

/-- The workspace after operations in turn. -/
def performAll (w : Workspace) (os : List Operation) : Workspace :=
  os.foldl perform w

/-- The workspace after operations on one buffer in turn. -/
def performEdits (w : Workspace) (name : String) (os : List Buffer.Operation) : Workspace :=
  os.foldl (performEdit · name) w

theorem performAll_concat (w : Workspace) (os : List Operation) (o : Operation) :
    w.performAll (os ++ [o]) = (w.performAll os).perform o := by
  rw [performAll, List.foldl_append]
  rfl

theorem performEdits_concat (w : Workspace) (name : String) (os : List Buffer.Operation)
    (o : Buffer.Operation) :
    w.performEdits name (os ++ [o]) = (w.performEdits name os).performEdit name o := by
  rw [performEdits, List.foldl_append]
  rfl

/-! ## §2 Slots of buffers -/

section

variable (w : Workspace) (name other : String) (slots : List Slot)

@[simp] theorem cells_setSlots : (w.setSlots name slots).cells = w.cells := by
  unfold setSlots
  dsimp only
  split <;> rfl

@[simp] theorem snapshots_setSlots : (w.setSlots name slots).snapshots = w.snapshots := by
  unfold setSlots
  dsimp only
  split <;> rfl

/-- Giving the buffer of a name new slots, as the list of buffers has it. By induction on the list. -/
theorem lookup_replace (buffers : List (String × List Slot)) :
    (buffers.map fun p => (p.1, if p.1 = name then slots else p.2)).lookup other
      = (buffers.lookup other).map fun old => if other = name then slots else old := by
  induction buffers with
  | nil => rfl
  | cons p buffers ih =>
    obtain ⟨n, old⟩ := p
    rw [List.map_cons, List.lookup_cons, List.lookup_cons, ih]
    -- The first buffer with the name is the one that counts.
    by_cases hn : other = n
    · subst hn
      simp only [beq_self_eq_true, Option.map_some]
    · simp only [beq_false_of_ne hn]

/-- A name with a buffer is one that the list of buffers has. -/
theorem lookup_isSome (buffers : List (String × List Slot)) :
    (buffers.lookup name).isSome = buffers.any fun entry => entry.1 = name := by
  induction buffers with
  | nil => rfl
  | cons p buffers ih =>
    rw [List.lookup_cons, List.any_cons, ← ih]
    by_cases hn : name = p.1
    · simp [hn]
    · simp [beq_false_of_ne hn, Ne.symm hn]

/-- Only the buffer that is named gets new slots. -/
@[simp] theorem slots_setSlots :
    (w.setSlots name slots).slots other = if other = name then slots else w.slots other := by
  have hsome := lookup_isSome name w.buffers
  unfold setSlots Workspace.slots
  dsimp only
  split
  · next hany =>
    rw [lookup_replace]
    cases hlookup : w.buffers.lookup other with
    | some old => rfl
    | none =>
      -- The buffer that is named is there, so another one is looked for.
      have hne : other ≠ name := by
        rintro rfl
        rw [hlookup, hany] at hsome
        cases hsome
      rw [if_neg hne]
      rfl
  · next hany =>
    rw [List.lookup_append, List.lookup_cons, List.lookup_nil]
    by_cases hname : other = name
    · subst hname
      rw [Bool.eq_false_iff.mpr hany, Option.isSome_eq_false_iff, Option.isNone_iff_eq_none] at hsome
      simp only [hsome, beq_self_eq_true, Option.none_or, Option.getD_some, if_true]
    · simp only [beq_false_of_ne hname, Option.or_none, if_neg hname]

end

/-! ## §3 Kinds of slots -/

end Workspace

/-- Whether an operator is in a slot. -/
def Slot.isOperator : Slot → Bool
  | .operator _ => true
  | _ => false

namespace Workspace

/-- A result that is found under a number has that number. -/
theorem number?_of_lookup_results {cells : List Literal} {snapshots : List (Nat × Snapshot)} {n : Nat}
    {t : Token} (h : (results cells snapshots).lookup n = some t) : t.number? = some n := by
  induction snapshots with
  | nil => cases h
  | cons p snapshots ih =>
    obtain ⟨m, s⟩ := p
    rw [results, List.lookup_cons] at h
    split at h
    · next heq =>
      cases h
      exact congrArg some (eq_of_beq heq).symm
    · exact ih h

/-- A slot shows an operator exactly if there is one in it, whatever the cells hold. -/
theorem isOperator_tokenOf (cells : List Literal) (snapshots : List (Nat × Snapshot)) (slot : Slot) :
    (tokenOf cells (results cells snapshots) slot).isOperator = slot.isOperator := by
  cases slot with
  | literal c => rfl
  | operator o => rfl
  | stored n =>
    rw [tokenOf]
    -- A slot without a stored result shows a literal, which is no operator either.
    cases hlookup : (results cells snapshots).lookup n with
    | none => rfl
    | some t =>
      have hnumber := number?_of_lookup_results hlookup
      cases t with
      | operator o => cases hnumber
      | _ => rfl

theorem map_isOperator_viewSlots (w : Workspace) (slots : List Slot) :
    (w.viewSlots slots).map Token.isOperator = slots.map Slot.isOperator := by
  rw [viewSlots, List.map_map]
  exact List.map_congr_left fun slot _ => isOperator_tokenOf w.cells w.snapshots slot

theorem map_isOperator_view (w : Workspace) (name : String) :
    (w.view name).map Token.isOperator = (w.slots name).map Slot.isOperator :=
  w.map_isOperator_viewSlots (w.slots name)

/-! ## §4 New cells -/

/-- Taking in literals and operators, and nothing else, takes new cells behind those that are there. -/
theorem adopt_eq (w : Workspace) {ts : List Token} (hts : ∀ t ∈ ts, t.number? = none) :
    ∃ new slots, w.adopt ts = ({ w with cells := w.cells ++ new }, slots)
      ∧ slots.map Slot.isOperator = ts.map Token.isOperator
      ∧ ∀ c, .literal c ∈ slots → c < (w.cells ++ new).length := by
  induction ts generalizing w with
  | nil => exact ⟨[], [], by simp only [adopt, List.append_nil], rfl, nofun⟩
  | cons t ts ih =>
    have hrest : ∀ u ∈ ts, u.number? = none := fun u hu => hts u (List.mem_cons_of_mem _ hu)
    cases t with
    | literal l =>
      -- The first literal gets the next cell, and the others get theirs behind it.
      obtain ⟨new, slots, hadopt, hkinds, hcells⟩ := ih { w with cells := w.cells ++ [l] } hrest
      refine ⟨l :: new, .literal w.cells.length :: slots, ?_, congrArg (List.cons false) hkinds,
        fun c hc => ?_⟩
      · simp only [adopt, adoptToken, newCell, hadopt, List.append_assoc, List.singleton_append]
      · rcases List.mem_cons.mp hc with heq | hc
        · cases heq
          simp
        · rw [List.append_cons]
          exact hcells c hc
    | operator o =>
      obtain ⟨new, slots, hadopt, hkinds, hcells⟩ := ih w hrest
      refine ⟨new, .operator o :: slots, ?_, congrArg (List.cons true) hkinds, fun c hc => ?_⟩
      · simp only [adopt, adoptToken, hadopt]
      · exact hcells c ((List.mem_cons.mp hc).resolve_left nofun)
    | stored n v e s x => exact absurd (hts _ List.mem_cons_self) nofun

/-- Copying slots takes new cells, too, and changes no kind. -/
theorem copySlots_eq (w : Workspace) (slots : List Slot) :
    ∃ new copied, w.copySlots slots = ({ w with cells := w.cells ++ new }, copied)
      ∧ copied.map Slot.isOperator = slots.map Slot.isOperator
      ∧ ∀ c, .literal c ∈ copied → c < (w.cells ++ new).length := by
  induction slots generalizing w with
  | nil => exact ⟨[], [], by simp only [copySlots, List.append_nil], rfl, nofun⟩
  | cons slot slots ih =>
    cases slot with
    | literal c =>
      obtain ⟨new, copied, hcopy, hkinds, hcells⟩ :=
        ih { w with cells := w.cells ++ [w.cells.getD c .empty] }
      refine ⟨w.cells.getD c .empty :: new, .literal w.cells.length :: copied, ?_,
        congrArg (List.cons false) hkinds, fun d hd => ?_⟩
      · simp only [copySlots, newCell, hcopy, List.append_assoc, List.singleton_append]
      · rcases List.mem_cons.mp hd with heq | hd
        · cases heq
          simp
        · rw [List.append_cons]
          exact hcells d hd
    | operator o =>
      obtain ⟨new, copied, hcopy, hkinds, hcells⟩ := ih w
      refine ⟨new, .operator o :: copied, ?_, congrArg (List.cons true) hkinds, fun c hc => ?_⟩
      · simp only [copySlots, hcopy]
      · exact hcells c ((List.mem_cons.mp hc).resolve_left nofun)
    | stored n =>
      obtain ⟨new, copied, hcopy, hkinds, hcells⟩ := ih w
      refine ⟨new, .stored n :: copied, ?_, congrArg (List.cons false) hkinds, fun c hc => ?_⟩
      · simp only [copySlots, hcopy]
      · exact hcells c ((List.mem_cons.mp hc).resolve_left nofun)

/-- What the cells hold after the literal in a slot got new contents. -/
def revised (cells : List Literal) : Option Slot → Option Literal → List Literal
  | some (.literal cell), some l => cells.set cell l
  | _, _ => cells

/-- Without new contents, the cells stay as they are. -/
theorem revised_none (cells : List Literal) (slot : Option Slot) : revised cells slot none = cells := by
  unfold revised
  split
  · next h => cases h
  · rfl

/-- Revising a slot changes its cell, if it holds a literal, and nothing else. -/
theorem revise_eq (w : Workspace) (slot : Option Slot) (l : Option Literal) :
    w.revise slot l = { w with cells := revised w.cells slot l } := by
  cases l with
  | none =>
    rw [revised_none]
    cases slot with
    | none => rfl
    | some slot => cases slot <;> rfl
  | some l =>
    cases slot with
    | none => rfl
    | some slot => cases slot <;> rfl

/-- No cell is added in revising. -/
theorem length_revised (cells : List Literal) (slot : Option Slot) (l : Option Literal) :
    (revised cells slot l).length = cells.length := by
  unfold revised
  split
  · exact List.length_set
  · rfl

/-- Carrying out an edit that brings no stored results along. -/
theorem edit_eq (w : Workspace) (name : String) {e : Edit} (he : ∀ t ∈ e.push, t.number? = none) :
    ∃ new pushed, w.edit name e
        = { w with cells := revised w.cells (w.slots name).getLast? e.revised ++ new }.setSlots name
          ((w.slots name).take e.keep ++ pushed)
      ∧ pushed.map Slot.isOperator = e.push.map Token.isOperator
      ∧ ∀ c, .literal c ∈ pushed → c < (w.cells ++ new).length := by
  obtain ⟨new, pushed, hadopt, hkinds, hcells⟩ :=
    adopt_eq (w.revise (w.slots name).getLast? e.revised) he
  -- The cell at the end is revised first, which keeps the number of cells.
  rw [revise_eq] at hadopt hcells
  simp only [List.length_append, length_revised] at hcells
  refine ⟨new, pushed, ?_, hkinds, by simpa only [List.length_append] using hcells⟩
  simp only [edit, revise_eq, hadopt]

/-- What stands between two buffers needs no cell, so taking it in leaves the workspace as it is. -/
theorem adopt_joint (w : Workspace) (b c : Buffer) : w.adopt (b.joint c)
    = (w, if b.needsTimes c then [.operator (.listed .times)] else []) := by
  unfold Buffer.joint
  split <;> rfl

/-- Putting a buffer behind another one, or behind itself. -/
theorem append_eq (w : Workspace) (name other : String) :
    ∃ joint, joint.map Slot.isOperator
        = ((w.view name).joint (w.view other)).map Token.isOperator
      ∧ (∀ c, .literal c ∉ joint)
      ∧ (w.append name other).cells = w.cells ∧ (w.append name other).snapshots = w.snapshots
      ∧ ∀ n, (w.append name other).slots n
        = if n = name then w.slots name ++ joint
            ++ (if other = name then w.slots name ++ joint else w.slots other)
          else w.slots n := by
  refine ⟨if (w.view name).needsTimes (w.view other) then [.operator (.listed .times)] else [],
    ?_, fun c hc => ?_, ?_, ?_, fun n => ?_⟩
  · unfold Buffer.joint
    split <;> rfl
  · split at hc
    · exact nomatch List.mem_singleton.mp hc
    · cases hc
  · simp only [append, adopt_joint, cells_setSlots]
  · simp only [append, adopt_joint, snapshots_setSlots]
  · simp only [append, adopt_joint, slots_setSlots, if_true]
    -- A buffer that is joined with itself is read with the sign in place.
    by_cases hn : n = name
    · simp only [hn, if_true]
    · simp only [hn, if_false]

/-! ## §5 Operations on one buffer -/

/-- An operation on one buffer carries out the edit that it is on the view. -/
theorem performEdit_eq (w : Workspace) (name : String) (o : Buffer.Operation) :
    w.performEdit name o = (((w.view name).edit? o).map (w.edit name)).getD w := by
  cases o with
  | press n =>
    simp only [performEdit, Workspace.press, Buffer.edit?]
    cases (w.view name).pressEdit n with
    | error e => rfl
    | ok e => cases e <;> rfl
  | setExponent e =>
    simp only [performEdit, Workspace.setExponent, Buffer.edit?]
    cases (w.view name).exponentEdit e <;> rfl
  | delete => rfl
  | stripAdditive => rfl
  | clear =>
    -- Clearing is an edit that keeps nothing.
    have hedit : w.edit name (Edit.keeping 0) = w.setSlots name [] := by
      simp only [edit, Edit.keeping, revise_eq, revised_none, adopt, List.take_zero, List.append_nil]
    exact hedit.symm

/-- An operation on one buffer leaves the others and the stored results alone. -/
theorem performEdit_frame (w : Workspace) (name : String) (o : Buffer.Operation) :
    (∀ n, n ≠ name → (w.performEdit name o).slots n = w.slots n)
    ∧ (w.performEdit name o).snapshots = w.snapshots := by
  rw [performEdit_eq]
  cases hedit : (w.view name).edit? o with
  | none => exact ⟨fun n _ => rfl, rfl⟩
  | some e =>
    -- An edit revises cells and sets the slots of its own buffer.
    obtain ⟨new, pushed, heq, -⟩ := edit_eq w name (Buffer.edit?_cases hedit).1
    simp only [Option.map_some, Option.getD_some]
    rw [heq]
    refine ⟨fun n hn => ?_, snapshots_setSlots _ _ _⟩
    rw [slots_setSlots, if_neg hn]
    rfl

end Workspace

end Reckoner
