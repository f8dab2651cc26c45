import Reckoner.Proofs.Buffer.Nested
import Reckoner.Proofs.Workspace.Ownership
import Reckoner.Proofs.Workspace.Sharing

/-!
# Joining buffers

A buffer that is put behind another one should follow what the other one has, with one multiplication sign
between them if operands meet there. The sign is in place before the buffer that comes behind is read. So a
buffer that is joined with itself while operands stand at both of its ends gets a second sign, at its end.

- `OperandsMeet` says where the sign is needed, and `between` is what stands between two buffers;
- `slots_append` and `view_append` say what a buffer has after joining;
- `Whole`: the literals of a workspace and of its stored results are there, whatever is done with it
  (`whole_performAll`) and whatever tokens are taken in (`Whole.put`);
- `view_clone` says that a copy shows what was copied, and that other buffers show what they did;
- `append_concatenates_iff` says that joining fails in the one case, and `append_self_five` is an instance.
-/

namespace Reckoner

namespace Buffer

/-! ## §1 Where operands meet -/

/-- Two buffers meet in operands: neither is empty, and no operator stands at the end of the first one or at
the start of the second one. -/
def OperandsMeet (b c : Buffer) : Prop :=
  ∃ s t, b.getLast? = some s ∧ c.head? = some t ∧ s.isOperator = false ∧ t.isOperator = false

/-- The sign is put there exactly where operands meet. -/
theorem needsTimes_iff (b c : Buffer) : b.needsTimes c = true ↔ OperandsMeet b c := by
  unfold needsTimes OperandsMeet
  cases b.getLast? with
  | none => simp
  | some s =>
    cases c.head? with
    | none => simp
    | some t => simp

instance (b c : Buffer) : Decidable (OperandsMeet b c) :=
  decidable_of_iff _ (needsTimes_iff b c)

/-- What stands between two buffers is one multiplication sign if operands meet. -/
theorem joint_eq (b c : Buffer) :
    b.joint c = if OperandsMeet b c then [.symbol .times] else [] := by
  simp only [joint, needsTimes_iff]

end Buffer

namespace Workspace

open Buffer (OperandsMeet)

variable {w w' : Workspace} {name other : String} {slots : List Slot}

/-! ## §2 Joined buffers -/

/-- The slots between two buffers. -/
def between (w : Workspace) (name other : String) : List Slot :=
  if OperandsMeet (w.view name) (w.view other) then [.operator (.listed .times)] else []

theorem viewSlots_between (w : Workspace) (name other : String) :
    w.viewSlots (w.between name other) = (w.view name).joint (w.view other) := by
  rw [between, Buffer.joint_eq]
  split
  · rfl
  · rfl

/-- Joining takes no new cells, and only the buffer that is named gets new slots. Another buffer is read as it
was, and the buffer itself with the sign in place. -/
theorem slots_append (w : Workspace) (name other : String) :
    (w.append name other).cells = w.cells ∧ (w.append name other).snapshots = w.snapshots
    ∧ ∀ n, (w.append name other).slots n
      = if n = name then w.slots name ++ w.between name other
          ++ (if other = name then w.slots name ++ w.between name other else w.slots other)
        else w.slots n := by
  have hjoint : w.adopt ((w.view name).joint (w.view other)) = (w, w.between name other) := by
    simp only [adopt_joint, between, Buffer.needsTimes_iff]
  refine ⟨?_, ?_, fun n => ?_⟩
  · simp only [append, hjoint, cells_setSlots]
  · simp only [append, hjoint, snapshots_setSlots]
  · simp only [append, hjoint, slots_setSlots, if_true]
    -- The sign is in place before the other buffer is read, which matters if that is the same one.
    by_cases hn : n = name
    · simp only [hn, if_true]
    · simp only [hn, if_false]

/-- What a buffer shows after joining: the sign shows twice if it is joined with itself. -/
theorem view_append (w : Workspace) (name other : String) : (w.append name other).view name
    = w.view name ++ (w.view name).joint (w.view other)
      ++ (if other = name then w.view name ++ (w.view name).joint (w.view other)
        else w.view other) := by
  obtain ⟨hcells, hsnapshots, hslots⟩ := slots_append w name other
  have hview : (w.append name other).view name = w.viewSlots ((w.append name other).slots name) := by
    rw [view, viewSlots, hcells, hsnapshots, viewSlots]
  rw [hview, hslots, if_pos rfl, viewSlots_append, viewSlots_append, viewSlots_between]
  -- What comes behind is the buffer itself, with the sign, or another one.
  split
  · rw [viewSlots_append, viewSlots_between]
    rfl
  · rfl

/-- The sign shows in what comes behind exactly if that is the buffer itself. -/
theorem append_sign_eq_iff {α : Type} {meet : Prop} [Decidable meet] {mine yours : List α} {sign : α}
    (hsame : other = name → yours = mine) :
    mine ++ (if meet then [sign] else [])
        ++ (if other = name then mine ++ (if meet then [sign] else []) else yours)
      = mine ++ (if meet then [sign] else []) ++ yours
    ↔ ¬ (other = name ∧ meet) := by
  -- Both sides begin alike, so it is the end that matters.
  rw [List.append_cancel_left_eq]
  split
  · next hself => simp [hsame hself, hself]
  · next hother => simp [hother]

/-- Joining is putting the slots together, except that a buffer gets a second sign from itself. -/
theorem slots_append_iff (w : Workspace) (name other : String) :
    (w.append name other).slots name = w.slots name ++ w.between name other ++ w.slots other
    ↔ ¬ (other = name ∧ OperandsMeet (w.view name) (w.view other)) := by
  obtain ⟨-, -, hslots⟩ := slots_append w name other
  rw [hslots, if_pos rfl]
  exact append_sign_eq_iff (congrArg w.slots)

/-- The same of what is shown. -/
theorem view_append_iff (w : Workspace) (name other : String) :
    (w.append name other).view name
      = w.view name ++ (w.view name).joint (w.view other) ++ w.view other
    ↔ ¬ (other = name ∧ OperandsMeet (w.view name) (w.view other)) := by
  rw [view_append, Buffer.joint_eq]
  exact append_sign_eq_iff (congrArg w.view)

/-! ## §3 Literals that are there -/

/-- The literals in slots are there. -/
def Holds (w : Workspace) (slots : List Slot) : Prop :=
  ∀ c, .literal c ∈ slots → c < w.cells.length

theorem Holds.mono (h : w.Holds slots) (hcells : w.cells.length ≤ w'.cells.length) : w'.Holds slots :=
  fun c hc => Nat.lt_of_lt_of_le (h c hc) hcells

theorem Holds.append {new : List Slot} (h : w.Holds slots) (hnew : w.Holds new) :
    w.Holds (slots ++ new) :=
  fun c hc => (List.mem_append.mp hc).elim (h c) (hnew c)

/-- The literals of all buffers and stored results are there. -/
structure Whole (w : Workspace) : Prop where
  buffers : w.Present
  filed : w.Holds w.filed

theorem whole_empty : empty.Whole :=
  ⟨nofun, nofun⟩

/-- Operations on one buffer take no cell away. -/
theorem length_cells_performEdit (w : Workspace) (name : String) (o : Buffer.Operation) :
    w.cells.length ≤ (w.performEdit name o).cells.length := by
  rw [performEdit_eq]
  cases hedit : (w.view name).edit? o with
  | none => exact Nat.le_refl _
  | some e =>
    obtain ⟨new, pushed, heq, -⟩ := edit_eq w name (Buffer.edit?_cases hedit).1
    simp only [Option.map_some, Option.getD_some]
    rw [heq, cells_setSlots, List.length_append, length_revised]
    exact Nat.le_add_right _ _

/-- Only storing a result files slots, and these are copies. -/
theorem filed_perform (h : w.Whole) (o : Operation) : (w.perform o).Holds (w.perform o).filed := by
  cases o with
  | edit name o =>
    -- An edit files nothing, and cells are only added.
    have hfiled : (w.performEdit name o).filed = w.filed := by
      unfold filed
      rw [(performEdit_frame w name o).2]
    unfold perform
    rw [hfiled]
    exact h.filed.mono (length_cells_performEdit w name o)
  | append name other =>
    obtain ⟨hcells, hsnapshots, -⟩ := slots_append w name other
    unfold perform filed
    rw [hsnapshots]
    exact h.filed.mono (by rw [hcells])
  | clone name other =>
    obtain ⟨new, copied, hcopy, -⟩ := copySlots_eq w (w.slots other)
    simp only [perform, clone, hcopy, filed, snapshots_setSlots]
    exact h.filed.mono (by simp)
  | abbreviate name other x degrees text =>
    obtain ⟨new, copied, hcopy, -, hcells⟩ := copySlots_eq w (w.slots other)
    simp only [perform, abbreviate, hcopy, filed, snapshots_setSlots, List.flatMap_cons]
    -- The copy is filed, and refers to the cells that it has taken.
    have hcopied : Holds { w with cells := w.cells ++ new } copied := hcells
    refine (hcopied.append ?_).mono (by simp)
    exact h.filed.mono (by simp)

theorem Whole.perform (h : w.Whole) (o : Operation) : (w.perform o).Whole :=
  ⟨present_perform h.buffers o, filed_perform h o⟩

/-- Workspaces are whole, whatever is done with them. By induction on the operations. -/
theorem whole_performAll (os : List Operation) : (empty.performAll os).Whole := by
  induction os using List.reverseRecOn with
  | nil => exact whole_empty
  | append_singleton os o ih =>
    rw [performAll_concat]
    exact ih.perform o

/-- Slots are made for tokens, and everything filed is there. -/
structure Makes (w w' : Workspace) (slots : List Slot) : Prop where
  cells : w.cells.length ≤ w'.cells.length
  buffers : w'.buffers = w.buffers
  filed : w'.Holds w'.filed
  slots : w'.Holds slots

/-- Slots for the first token are followed by slots for the others. -/
theorem Makes.append {w₁ : Workspace} {new : List Slot} (h : Makes w w₁ slots) (h' : Makes w₁ w' new) :
    Makes w w' (slots ++ new) :=
  ⟨h.cells.trans h'.cells, h'.buffers.trans h.buffers, h'.filed, (h.slots.mono h'.cells).append h'.slots⟩

/-- By induction on the tokens and those they hold. -/
theorem makes_adopt (b : Buffer) (h : w.Holds w.filed) : Makes w (w.adopt b).1 (w.adopt b).2 := by
  induction b using Buffer.induction generalizing w with
  | nil => exact ⟨Nat.le_refl _, rfl, h, nofun⟩
  | literal l ts ih =>
    -- The new cell lies behind all others.
    have hfirst : Makes w (w.newCell l).1 [(w.newCell l).2] := by
      refine ⟨by simp [newCell], rfl, h.mono (by simp [newCell]), fun c hc => ?_⟩
      obtain rfl := Slot.literal.inj (List.mem_singleton.mp hc)
      simp [newCell]
    exact hfirst.append (ih hfirst.filed)
  | operator o ts ih =>
    have hfirst : Makes w w [.operator o] := ⟨Nat.le_refl _, rfl, h, by simp [Holds]⟩
    exact hfirst.append (ih h)
  | stored n v e s x ts ihe ih =>
    -- The slots of its expression are filed, unless it is there already.
    have hfirst : Makes w (w.adoptToken (.stored n v e s x)).1
        [(w.adoptToken (.stored n v e s x)).2] := by
      rw [adoptToken]
      split
      · exact ⟨Nat.le_refl _, rfl, h, by simp [Holds]⟩
      · have hexpr := ihe h
        exact ⟨hexpr.cells, hexpr.buffers, hexpr.slots.append hexpr.filed, by simp [Holds]⟩
    exact hfirst.append (ih hfirst.filed)

/-- Tokens that are taken in bring their literals along. -/
theorem Whole.put (h : w.Whole) (name : String) (b : Buffer) (next : Nat) :
    (w.put name b next).Whole := by
  have hmakes := makes_adopt b h.filed
  have hslots (n : String) : (w.adopt b).1.slots n = w.slots n := by
    unfold Workspace.slots
    rw [hmakes.buffers]
  have hfiled : (w.put name b next).filed = (w.adopt b).1.filed := by
    simp only [Workspace.put, Workspace.filed, snapshots_setSlots]
  refine ⟨Present.setSlots h.buffers hslots hmakes.cells name hmakes.slots, ?_⟩
  rw [hfiled]
  exact hmakes.filed.mono (by simp [Workspace.put])

/-! ## §4 Copies -/

/-- Cells are added to a workspace, and nothing else is there changed but buffers. -/
structure Extends (w w' : Workspace) : Prop where
  cells : w.cells <+: w'.cells
  snapshots : w'.snapshots = w.snapshots

theorem Extends.filed (h : Extends w w') (hfiled : w.Holds w.filed) : w'.Holds w'.filed := by
  unfold Workspace.filed
  rw [h.snapshots]
  exact hfiled.mono h.cells.length_le

/-- New cells change nothing that is shown. -/
theorem Extends.viewSlots (h : Extends w w') (hfiled : w.Holds w.filed) (hslots : w.Holds slots) :
    w'.viewSlots slots = w.viewSlots slots := by
  have hcell {c : Nat} (hc : c < w.cells.length) :
      w'.cells.getD c .empty = w.cells.getD c .empty := by
    obtain ⟨new, hnew⟩ := h.cells
    rw [← hnew]
    exact List.getD_append _ _ _ _ hc
  exact viewSlots_congr (fun c hc => hcell (hslots c hc)) fun n _ =>
    shown_congr h.snapshots (fun c hc => hcell (hfiled c hc)) n

/-- Copies show what was copied. By induction on the slots; the cells that are taken for the first ones leave
alone what the others show. -/
theorem viewSlots_copySlots (hfiled : w.Holds w.filed) (hslots : w.Holds slots) :
    Extends w (w.copySlots slots).1
    ∧ (w.copySlots slots).1.viewSlots (w.copySlots slots).2 = w.viewSlots slots := by
  induction slots generalizing w with
  | nil => exact ⟨⟨List.prefix_refl _, rfl⟩, rfl⟩
  | cons slot slots ih =>
    have hrest : w.Holds slots := fun c hc => hslots c (List.mem_cons_of_mem _ hc)
    -- The first slot is copied, and the others from what shows the same then.
    have hcons {w₁ : Workspace} {first : Slot} (hextends : Extends w w₁) (hfirst : w₁.Holds [first])
        (hview : w₁.viewSlots [first] = w.viewSlots [slot]) :
        Extends w (w₁.copySlots slots).1
        ∧ (w₁.copySlots slots).1.viewSlots (first :: (w₁.copySlots slots).2)
          = w.viewSlots (slot :: slots) := by
      have hfiled₁ := hextends.filed hfiled
      obtain ⟨hlater, hcopied⟩ := ih hfiled₁ (hrest.mono hextends.cells.length_le)
      refine ⟨⟨hextends.cells.trans hlater.cells, hlater.snapshots.trans hextends.snapshots⟩, ?_⟩
      calc (w₁.copySlots slots).1.viewSlots (first :: (w₁.copySlots slots).2)
          = (w₁.copySlots slots).1.viewSlots [first]
            ++ (w₁.copySlots slots).1.viewSlots (w₁.copySlots slots).2 := viewSlots_append _ [first] _
        _ = w₁.viewSlots [first] ++ w₁.viewSlots slots := by
            rw [hlater.viewSlots hfiled₁ hfirst, hcopied]
        _ = w.viewSlots [slot] ++ w.viewSlots slots := by rw [hview, hextends.viewSlots hfiled hrest]
        _ = w.viewSlots (slot :: slots) := (viewSlots_append _ [slot] _).symm
    cases slot with
    | operator o => exact hcons ⟨List.prefix_refl _, rfl⟩ (by simp [Holds]) rfl
    | stored n => exact hcons ⟨List.prefix_refl _, rfl⟩ (by simp [Holds]) rfl
    | literal c =>
      -- The literal gets a cell behind all others, with the same contents.
      have hextends : Extends w (w.newCell (w.cells.getD c .empty)).1 := ⟨List.prefix_append _ _, rfl⟩
      refine hcons hextends (fun d hd => ?_) ?_
      · obtain rfl := Slot.literal.inj (List.mem_singleton.mp hd)
        simp
      · simp [Workspace.viewSlots, tokenOf]

/-- A copy shows what was copied, and other buffers show what they did. -/
theorem view_clone (h : w.Whole) (name other n : String) :
    (w.clone name other).view n = if n = name then w.view other else w.view n := by
  obtain ⟨hextends, hcopied⟩ := viewSlots_copySlots h.filed (h.buffers other)
  have hview (slots : List Slot) : (w.clone name other).viewSlots slots
      = (w.copySlots (w.slots other)).1.viewSlots slots := by
    simp only [clone, Workspace.viewSlots, cells_setSlots, snapshots_setSlots]
  have hbuffers : (w.copySlots (w.slots other)).1.slots n = w.slots n := by
    obtain ⟨new, copied, hcopy, -⟩ := copySlots_eq w (w.slots other)
    rw [hcopy]
    rfl
  rw [view, hview, clone, slots_setSlots]
  split
  · exact hcopied
  · rw [hbuffers]
    exact hextends.viewSlots h.filed (h.buffers n)

/-! ## §5 Joining a buffer with itself -/

/-- A buffer behind which a copy of itself is put. -/
theorem view_append_copy (h : w.Whole) {copy : String} (hcopy : copy ≠ name) :
    ((w.clone copy name).append name copy).view name
      = w.view name ++ (w.view name).joint (w.view name) ++ w.view name := by
  -- Copying under another name leaves the buffer as it is.
  have hmine : (w.clone copy name).view name = w.view name := by
    rw [view_clone h, if_neg hcopy.symm]
  have hyours : (w.clone copy name).view copy = w.view name := by
    rw [view_clone h, if_pos rfl]
  rw [view_append, if_neg hcopy, hmine, hyours]

/-- Joining changes the slots of the one buffer only. These are its own, one multiplication sign if operands
meet, and those of the other buffer, unless the buffer is joined with itself while operands stand at both of
its ends. It has a second sign at its end then, and would not have it if it were joined with a copy. -/
theorem append_concatenates_iff (w : Workspace) (name other : String) :
    ((w.append name other).cells = w.cells ∧ (w.append name other).snapshots = w.snapshots
      ∧ ∀ n, n ≠ name → (w.append name other).slots n = w.slots n)
    ∧ ((w.append name other).slots name
        = w.slots name
          ++ (if OperandsMeet (w.view name) (w.view other) then [.operator (.listed .times)] else [])
          ++ w.slots other
      ↔ ¬ (other = name ∧ OperandsMeet (w.view name) (w.view other)))
    ∧ ((w.append name other).view name
        = w.view name
          ++ (if OperandsMeet (w.view name) (w.view other) then [.symbol .times] else [])
          ++ w.view other
      ↔ ¬ (other = name ∧ OperandsMeet (w.view name) (w.view other)))
    ∧ (OperandsMeet (w.view name) (w.view name) → (w.append name name).view name
      = w.view name ++ [.symbol .times] ++ w.view name ++ [.symbol .times])
    ∧ (w.Whole → ∀ copy, copy ≠ name →
      ((w.append name name).view name = ((w.clone copy name).append name copy).view name
      ↔ ¬ OperandsMeet (w.view name) (w.view name))) := by
  obtain ⟨hcells, hsnapshots, hslots⟩ := slots_append w name other
  refine ⟨⟨hcells, hsnapshots, fun n hn => ?_⟩, slots_append_iff w name other, ?_, fun hmeet => ?_,
    fun hwhole copy hcopy => ?_⟩
  -- Other buffers
  · rw [hslots, if_neg hn]
  -- What the buffer shows
  · rw [← Buffer.joint_eq]
    exact view_append_iff w name other
  -- The buffer joined with itself, and with a copy
  · rw [view_append, if_pos rfl, Buffer.joint_eq, if_pos hmeet, List.append_assoc _ _ [_]]
  · rw [view_append_copy hwhole hcopy, view_append_iff]
    simp

/-- A workspace with a five in the buffer `a`. -/
def five : Workspace :=
  empty.performAll [.edit "a" (.press 5)]

theorem append_concatenates_iff_five :
    OperandsMeet (five.view "a") (five.view "a") ∧ five.Whole ∧ "b" ≠ "a"
    ∧ (five.append "a" "a").view "a"
      = five.view "a" ++ [.symbol .times] ++ five.view "a" ++ [.symbol .times]
    ∧ (five.append "a" "a").view "a" ≠ ((five.clone "b" "a").append "a" "b").view "a"
    ∧ (five.append "b" "a").view "b" = five.view "a" := by
  have hmeet : OperandsMeet (five.view "a") (five.view "a") := by decide
  have hwhole : five.Whole := whole_performAll _
  have hne : "b" ≠ "a" := by decide
  -- Joined with itself the five shows two signs, and put behind an empty buffer it shows none.
  obtain ⟨-, -, -, hself, hcopy⟩ := append_concatenates_iff five "a" "a"
  obtain ⟨-, -, hview, -⟩ := append_concatenates_iff five "b" "a"
  refine ⟨hmeet, hwhole, hne, hself hmeet, fun heq => (hcopy hwhole "b" hne).mp heq hmeet, ?_⟩
  rw [hview.mpr fun h => hne h.1.symm]
  rfl

/-- The five is joined with itself, which leaves a multiplication sign at the end. -/
theorem append_self_five :
    five.view "a" = [.literal ⟨"5", "", false, 0⟩]
    ∧ (five.append "a" "a").view "a" = [.literal ⟨"5", "", false, 0⟩, .symbol .times,
      .literal ⟨"5", "", false, 0⟩, .symbol .times]
    ∧ ((five.clone "b" "a").append "a" "b").view "a" = [.literal ⟨"5", "", false, 0⟩, .symbol .times,
      .literal ⟨"5", "", false, 0⟩]
    ∧ (five.append "a" "a").view "a" ≠ five.view "a" ++ [.symbol .times] ++ five.view "a" := by
  refine ⟨rfl, rfl, rfl, fun heq => ?_⟩
  cases congrArg List.length heq

end Workspace

end Reckoner
