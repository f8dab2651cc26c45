import Mathlib.Data.List.Nodup
import Mathlib.Logic.Function.Basic
import Reckoner.Proofs.Workspace.Ownership

/-!
# Operations that keep literals in one place

A workspace is `Neat` if no literal stands at two places in it. Editing a buffer, copying it, storing it as a
result and taking in tokens keep workspaces neat, and so does moving a buffer behind another one. All of
this changes what one buffer shows and nothing else; stored results stay as they are.

- `placed_perm` takes the slots of all buffers apart as those of one buffer and those of the others;
- `freeze` makes a stored result of a buffer, with any value and text;
- `Leads` says what buffers show after operations, that the workspace is neat then, and that stored results
  are shown as before;
- `leads_performEdit`, `leads_clone`, `leads_move`, `leads_freeze` and `leads_put` say so of each operation.
-/

namespace Reckoner

open Buffer (nested)

namespace Workspace

variable {w w₁ w' : Workspace} {name other : String} {slots new : List Slot}

/-! ## §1 Buffers -/

/-- The slots of all buffers. -/
def placed (w : Workspace) : List Slot :=
  w.buffers.flatMap Prod.snd

/-- The slots of all buffers but one. -/
def others (w : Workspace) (name : String) : List Slot :=
  (w.buffers.filter fun entry => entry.1 ≠ name).flatMap Prod.snd

theorem others_congr (hbuffers : w₁.buffers = w.buffers) (name : String) :
    w₁.others name = w.others name := by
  rw [others, others, hbuffers]

/-- The slots of all buffers are those of one buffer and those of the others. -/
theorem placed_perm (hnames : (w.buffers.map Prod.fst).Nodup) (name : String) :
    w.placed.Perm (w.others name ++ w.slots name) := by
  unfold placed others Workspace.slots
  generalize w.buffers = buffers at hnames ⊢
  induction buffers with
  | nil => exact .refl _
  | cons entry rest ih =>
    obtain ⟨n, s⟩ := entry
    obtain ⟨hfresh, hrest⟩ := List.nodup_cons.mp hnames
    rw [List.flatMap_cons, List.lookup_cons]
    by_cases hn : n = name
    · subst hn
      -- No other buffer has the name, so all that follow are others.
      have hothers : rest.filter (fun entry => entry.1 ≠ n) = rest := by
        refine List.filter_eq_self.mpr fun entry hentry => decide_eq_true fun heq => ?_
        exact hfresh (List.mem_map.mpr ⟨entry, hentry, heq⟩)
      rw [List.filter_cons_of_neg (by simp), hothers, beq_self_eq_true]
      exact List.perm_append_comm
    · rw [List.filter_cons_of_pos (by simpa using hn), beq_false_of_ne (Ne.symm hn),
        List.flatMap_cons, List.append_assoc]
      exact (ih hrest).append_left s

/-- Other buffers than one are not affected by giving that one new slots. -/
theorem others_setSlots (w : Workspace) (name : String) (slots : List Slot) :
    (w.setSlots name slots).others name = w.others name := by
  unfold setSlots others
  dsimp only
  split
  · generalize w.buffers = buffers
    induction buffers with
    | nil => rfl
    | cons entry rest ih =>
      obtain ⟨n, s⟩ := entry
      rw [List.map_cons]
      -- The buffer with the name is left out before and after.
      by_cases hn : n = name
      · rw [List.filter_cons_of_neg (by simpa using hn), List.filter_cons_of_neg (by simpa using hn), ih]
      · rw [List.filter_cons_of_pos (by simpa using hn), List.filter_cons_of_pos (by simpa using hn),
          List.flatMap_cons, List.flatMap_cons, ih, if_neg hn]
  · simp

/-- Buffers keep different names. -/
theorem nodup_names_setSlots (hnames : (w.buffers.map Prod.fst).Nodup) (name : String)
    (slots : List Slot) : ((w.setSlots name slots).buffers.map Prod.fst).Nodup := by
  unfold setSlots
  dsimp only
  split
  · simpa only [List.map_map, Function.comp_def] using hnames
  · next hany =>
    simp only [List.any_eq_true, decide_eq_true_eq, not_exists, not_and] at hany
    rw [List.map_append, List.map_cons, List.map_nil, List.nodup_append]
    refine ⟨hnames, List.nodup_singleton _, fun n hn m hm => ?_⟩
    -- A new name is added only if no buffer has it.
    obtain ⟨entry, hentry, rfl⟩ := List.mem_map.mp hn
    exact fun heq => hany entry hentry (heq.trans (List.mem_singleton.mp hm))

/-- Slots that a buffer is given are replaced when it is given others. -/
theorem setSlots_setSlots (w : Workspace) (name : String) (slots new : List Slot) :
    (w.setSlots name slots).setSlots name new = w.setSlots name new := by
  cases hany : w.buffers.any fun entry => entry.1 = name with
  | true =>
    simp only [setSlots, hany, if_true, List.any_map, Function.comp_def, List.map_map]
    congr 1
    refine List.map_congr_left fun entry _ => ?_
    split <;> rfl
  | false =>
    have hkeep : w.buffers.map (fun entry => (entry.1, if entry.1 = name then new else entry.2))
        = w.buffers := by
      simp only [List.any_eq_false, decide_eq_true_eq] at hany
      refine (List.map_congr_left fun entry hentry => ?_).trans (List.map_id _)
      rw [if_neg (hany entry hentry), id]
    simp [setSlots, hany, hkeep]

/-- The slots of a buffer are among those of the others than another one. -/
theorem slots_sublist_others (hne : other ≠ name) : (w.slots other).Sublist (w.others name) := by
  unfold Workspace.slots
  cases hlookup : w.buffers.lookup other with
  | none => exact List.nil_sublist _
  | some found =>
    obtain ⟨front, back, hbuffers, -⟩ := List.lookup_eq_some_iff.mp hlookup
    rw [others, hbuffers, List.filter_append, List.filter_cons_of_pos (by simpa using hne),
      List.flatMap_append, List.flatMap_cons]
    exact (List.sublist_append_left _ _).trans (List.sublist_append_right _ _)

theorem slots_subset_others (hne : other ≠ name) : w.slots other ⊆ w.others name :=
  (slots_sublist_others hne).subset

/-- A buffer that is put behind another one follows what it has and a sign that may be needed between them. -/
theorem append_eq_setSlots (w : Workspace) (hne : other ≠ name) :
    ∃ joint, (∀ slot ∈ joint, slot.isOperator = true)
      ∧ w.viewSlots joint = (w.view name).joint (w.view other)
      ∧ w.append name other = w.setSlots name (w.slots name ++ joint ++ w.slots other) := by
  refine ⟨if (w.view name).needsTimes (w.view other) then [.operator (.listed .times)] else [],
    ?_, ?_, ?_⟩
  · split <;> simp [Slot.isOperator]
  · unfold Buffer.joint
    split <;> rfl
  · simp only [append, adopt_joint, slots_setSlots, setSlots_setSlots, if_true, if_neg hne]

/-! ## §2 Neat workspaces -/

/-- Buffers have different names, over all of them and the stored results no literal stands at two places, and
stored results are numbered below the next one. -/
structure Neat (w : Workspace) : Prop where
  names : (w.buffers.map Prod.fst).Nodup
  tidy : Tidy w w.placed
  below : ∀ n, (w.shown n).isSome → n < w.next

theorem neat_empty : Neat empty where
  names := List.nodup_nil
  tidy := ⟨fun _ => Nat.zero_le _, nofun, nofun, nofun⟩
  below := nofun

/-- What operations on a neat workspace lead to: what buffers show, and the next number. Stored results are
shown as before, and the workspace is neat again. -/
structure Leads (w : Workspace) (views : String → Buffer) (next : Nat) (w' : Workspace) : Prop where
  neat : Neat w'
  view : w'.view = views
  next : w'.next = next
  shown : ∀ n t, w.shown n = some t → w'.shown n = some t

theorem Leads.refl (h : Neat w) : Leads w w.view w.next w :=
  ⟨h, rfl, rfl, fun _ _ ht => ht⟩

/-- Operations in turn. -/
theorem Leads.trans {views views' : String → Buffer} {next next' : Nat} (h : Leads w views next w₁)
    (h' : Leads w₁ views' next' w') : Leads w views' next' w' :=
  ⟨h'.neat, h'.view, h'.next, fun n t ht => h'.shown n t (h.shown n t ht)⟩

theorem Tidy.congr (h : Tidy w slots) (hcells : w'.cells = w.cells)
    (hsnapshots : w'.snapshots = w.snapshots) : Tidy w' slots := by
  have hshown (n : Nat) : w'.shown n = w.shown n := by rw [shown, shown, hcells, hsnapshots]
  have hfiled : w'.filed = w.filed := by rw [filed, filed, hsnapshots]
  exact ⟨fun c => by rw [hfiled]; exact h.once c, fun c hc => by rw [hcells]; exact h.literal c (hfiled ▸ hc),
    fun n hn => by rw [hshown]; exact h.stored n (hfiled ▸ hn),
    fun n t ht => h.nested n t ((hshown n).symm.trans ht)⟩

@[simp] theorem viewSlots_setSlots (w : Workspace) (name : String) (slots new : List Slot) :
    (w.setSlots name slots).viewSlots new = w.viewSlots new := by
  simp only [viewSlots, cells_setSlots, snapshots_setSlots]

@[simp] theorem shown_setSlots (w : Workspace) (name : String) (slots : List Slot) (n : Nat) :
    (w.setSlots name slots).shown n = w.shown n := by
  simp only [shown, cells_setSlots, snapshots_setSlots]

@[simp] theorem next_setSlots (w : Workspace) (name : String) (slots : List Slot) :
    (w.setSlots name slots).next = w.next := by
  unfold setSlots
  dsimp only
  split <;> rfl

/-- A buffer shows its new slots, and others show theirs. -/
theorem view_setSlots (w : Workspace) (name : String) (slots : List Slot) :
    (w.setSlots name slots).view = Function.update w.view name (w.viewSlots slots) := by
  funext n
  rw [view, viewSlots_setSlots, slots_setSlots, Function.update_apply]
  split <;> rfl

/-- A workspace is neat once the new slots of a buffer are tidy together with those of the others. -/
theorem neat_setSlots (hnames : (w.buffers.map Prod.fst).Nodup) (htidy : Tidy w (w.others name ++ new))
    (hbelow : ∀ n, (w.shown n).isSome → n < w.next) : Neat (w.setSlots name new) where
  names := nodup_names_setSlots hnames name new
  tidy := by
    -- All slots are those of the buffer, which are new, and those of the others.
    have hperm := placed_perm (nodup_names_setSlots hnames name new) name
    rw [others_setSlots, slots_setSlots, if_pos rfl] at hperm
    exact (htidy.perm hperm).congr (cells_setSlots _ _ _) (snapshots_setSlots _ _ _)
  below n hn := by
    rw [shown_setSlots] at hn
    rw [next_setSlots]
    exact hbelow n hn

namespace Neat

theorem split (h : Neat w) (name : String) : Tidy w (w.others name ++ w.slots name) :=
  h.tidy.perm (placed_perm h.names name).symm

theorem tidy_others (h : Neat w) (name : String) : Tidy w (w.others name) :=
  (h.split name).subperm (List.sublist_append_left _ _).subperm

theorem slots_subset (h : Neat w) (name : String) : w.slots name ⊆ w.filed ++ w.placed :=
  fun _ hslot => List.mem_append_right _
    ((placed_perm h.names name).mem_iff.mpr (List.mem_append_right _ hslot))

theorem typable (h : Neat w) (name : String) : (w.view name).Typable :=
  h.tidy.typable (h.slots_subset name)

/-- Only the buffer with new slots is affected if the others show the same and stored results do. -/
theorem leads (h : Neat w) (hbuffers : w₁.buffers = w.buffers) (htidy : Tidy w₁ (w.others name ++ new))
    (hbelow : ∀ n, (w₁.shown n).isSome → n < w₁.next)
    (hothers : w₁.viewSlots (w.others name) = w.viewSlots (w.others name))
    (hshown : ∀ n t, w.shown n = some t → w₁.shown n = some t) :
    Leads w (Function.update w.view name (w₁.viewSlots new)) w₁.next (w₁.setSlots name new) where
  neat := by
    rw [← others_congr hbuffers] at htidy
    exact neat_setSlots (hbuffers ▸ h.names) htidy hbelow
  view := by
    funext n
    rw [view_setSlots, Function.update_apply, Function.update_apply]
    by_cases hn : n = name
    · rw [if_pos hn, if_pos hn]
    · rw [if_neg hn, if_neg hn]
      -- Another buffer has the slots it had, which are among the others.
      have hslots : w₁.slots n = w.slots n := by rw [Workspace.slots, Workspace.slots, hbuffers]
      rw [Workspace.view, Workspace.view, hslots]
      exact List.map_congr_left fun slot hslot =>
        List.map_inj_left.mp hothers slot (slots_subset_others hn hslot)
  next := next_setSlots _ _ _
  shown n t ht := (shown_setSlots _ _ _ _).trans (hshown n t ht)

/-- A buffer gets slots that were put in use for it. -/
theorem leads_takes {ts : Buffer} {next : Nat} (h : Neat w) (ht : Takes w (w.others name) ts w₁ new)
    (hbelow : ∀ n, (w₁.shown n).isSome → n < next) :
    Leads w (Function.update w.view name ts) next (({ w₁ with next } : Workspace).setSlots name new) := by
  have hothers := ht.grows.viewSlots fun slot hslot =>
    (h.tidy_others name).knows (List.mem_append_right _ hslot)
  have hview : ({ w₁ with next } : Workspace).viewSlots new = ts := ht.view
  rw [← hview]
  exact h.leads ht.grows.buffers (ht.tidy.congr rfl rfl) hbelow hothers ht.grows.shown

/-- A buffer gets slots without literals. -/
theorem leads_setSlots (h : Neat w) (hliteral : ∀ c, .literal c ∉ new)
    (hstored : ∀ n, .stored n ∈ new → (w.shown n).isSome) :
    Leads w (Function.update w.view name (w.viewSlots new)) w.next (w.setSlots name new) :=
  h.leads rfl ((h.tidy_others name).append hliteral hstored) h.below rfl fun _ _ ht => ht

theorem leads_clear (h : Neat w) (name : String) :
    Leads w (Function.update w.view name []) w.next (w.clear name) :=
  show Leads w (Function.update w.view name (w.viewSlots [])) w.next (w.setSlots name []) from
    h.leads_setSlots nofun nofun

/-- A buffer becomes a copy of another one. -/
theorem leads_clone (h : Neat w) (hne : other ≠ name) :
    Leads w (Function.update w.view name (w.view other)) w.next (w.clone name other) := by
  obtain ⟨hcopy, hsnapshots⟩ := takes_copySlots (h.tidy_others name)
    fun slot hslot => List.mem_append_right _ (slots_subset_others hne hslot)
  have hbelow (n : Nat) (hn : ((w.copySlots (w.slots other)).1.shown n).isSome) : n < w.next := by
    rw [isSome_shown, hsnapshots, ← isSome_shown] at hn
    exact h.below n hn
  have hleads := h.leads_takes hcopy hbelow
  rw [← hcopy.next] at hleads ⊢
  exact hleads

/-- A buffer is put behind another one and then emptied, so that its literals move. -/
theorem leads_move (h : Neat w) (hne : other ≠ name) :
    Leads w (Function.update (Function.update w.view name ((w.view name).append (w.view other))) other [])
      w.next ((w.append name other).clear other) := by
  obtain ⟨joint, hjoint, hshows, happend⟩ := append_eq_setSlots w hne
  have hview : w.viewSlots (w.slots name ++ joint ++ w.slots other)
      = (w.view name).append (w.view other) := by
    rw [viewSlots_append, viewSlots_append, hshows]
    rfl
  have hnames := nodup_names_setSlots h.names name (w.slots name ++ joint ++ w.slots other)
  rw [← happend] at hnames
  -- What is placed at last was placed before, or is the sign between the buffers.
  have hperm : ((w.append name other).others other).Perm (w.placed ++ joint) := by
    have hlast := placed_perm hnames other
    have hjoined := placed_perm hnames name
    have hfirst := placed_perm h.names name
    rw [happend, slots_setSlots, if_neg hne] at hlast
    rw [happend, others_setSlots, slots_setSlots, if_pos rfl] at hjoined
    rw [happend, List.perm_iff_count]
    intro slot
    have h₁ := hlast.count_eq slot
    have h₂ := hjoined.count_eq slot
    have h₃ := hfirst.count_eq slot
    simp only [List.count_append] at h₁ h₂ h₃ ⊢
    omega
  have htidy : Tidy w ((w.append name other).others other) :=
    (h.tidy.append (fun c hc => nomatch hjoint _ hc) (fun n hn => nomatch hjoint _ hn)).perm hperm
  have hshown (n : Nat) : (w.append name other).shown n = w.shown n := by
    rw [happend, shown_setSlots]
  have hnext : (w.append name other).next = w.next := by rw [happend, next_setSlots]
  refine ⟨neat_setSlots hnames ?_ (fun n hn => ?_), ?_, ?_, fun n t ht => ?_⟩
  · rw [List.append_nil]
    exact htidy.congr (by rw [happend, cells_setSlots]) (by rw [happend, snapshots_setSlots])
  · rw [hnext]
    exact h.below n (hshown n ▸ hn)
  · rw [clear, view_setSlots, happend, view_setSlots, hview]
    rfl
  · rw [clear, next_setSlots, hnext]
  · rw [clear, shown_setSlots, hshown, ht]

end Neat

/-! ## §3 Edits -/

/-- Give the literal in a cell other contents. -/
def overwrite (w : Workspace) (c : Nat) (l : Literal) : Workspace :=
  { w with cells := w.cells.set c l }

theorem getD_overwrite_self {c : Nat} (hc : c < w.cells.length) (l : Literal) :
    (w.overwrite c l).cells.getD c .empty = l := by
  rw [overwrite, List.getD_eq_getElem?_getD, List.getElem?_set_self hc, Option.getD_some]

theorem getD_overwrite_of_ne {c d : Nat} (hne : c ≠ d) (l : Literal) :
    (w.overwrite c l).cells.getD d .empty = w.cells.getD d .empty := by
  rw [overwrite, List.getD_eq_getElem?_getD, List.getD_eq_getElem?_getD, List.getElem?_set_ne hne]

namespace Tidy

variable {c d : Nat} (h : Tidy w (slots ++ [.literal c])) (l : Literal)

include h

/-- What is in use besides a literal is not that literal, so it is not affected by its contents. -/
theorem getD_overwrite (hd : .literal d ∈ w.filed ++ slots) :
    (w.overwrite c l).cells.getD d .empty = w.cells.getD d .empty := by
  have hne : c ≠ d := by
    rintro rfl
    -- The literal would be in use twice.
    have hone := h.once c
    rw [← List.append_assoc, List.count_append, List.count_singleton_self] at hone
    have hpos := List.count_pos_iff.mpr hd
    omega
  exact getD_overwrite_of_ne hne l

theorem shown_overwrite (n : Nat) : (w.overwrite c l).shown n = w.shown n := by
  have hsnapshots : (w.overwrite c l).snapshots = w.snapshots := rfl
  exact shown_congr hsnapshots (fun _ hd => h.getD_overwrite l (List.mem_append_left _ hd)) n

theorem viewSlots_overwrite (hnew : new ⊆ slots) : (w.overwrite c l).viewSlots new = w.viewSlots new :=
  viewSlots_congr (fun _ hd => h.getD_overwrite l (List.mem_append_right _ (hnew hd)))
    fun n _ => h.shown_overwrite l n

/-- If the literal is dropped, it does not matter what it was revised to. -/
theorem overwrite : Tidy (w.overwrite c l) slots where
  once d := by
    have hone := h.once d
    rw [← List.append_assoc, List.count_append] at hone
    exact Nat.le_trans (Nat.le_add_right _ _) hone
  literal d hd := by
    obtain ⟨hlt, hwell⟩ := h.literal d (List.append_assoc .. ▸ List.mem_append_left _ hd)
    refine ⟨hlt.trans_eq List.length_set.symm, ?_⟩
    rw [h.getD_overwrite l hd]
    exact hwell
  stored n hn := by
    rw [h.shown_overwrite l]
    exact h.stored n (List.append_assoc .. ▸ List.mem_append_left _ hn)
  nested n t ht := h.nested n t ((h.shown_overwrite l n).symm.trans ht)

/-- The literal stays in use if it can be typed. -/
theorem overwrite_concat (hl : l.WellFormed) : Tidy (w.overwrite c l) (slots ++ [.literal c]) where
  once := h.once
  literal d hd := by
    obtain ⟨hlt, -⟩ := h.literal d hd
    refine ⟨hlt.trans_eq List.length_set.symm, ?_⟩
    rw [← List.append_assoc] at hd
    -- The last slot holds the new contents, and the others are not affected.
    rcases List.mem_append.mp hd with hd | hd
    · exact ((h.overwrite l).literal d hd).2
    · obtain rfl : d = c := Slot.literal.inj (List.mem_singleton.mp hd)
      rwa [getD_overwrite_self hlt]
  stored n hn := by
    rw [h.shown_overwrite l]
    exact h.stored n hn
  nested n t ht := h.nested n t ((h.shown_overwrite l n).symm.trans ht)

end Tidy

theorem Neat.getLast?_slots (h : Neat w) {l : Literal} (hlast : (w.view name).getLast? = some (.literal l)) :
    ∃ c, (w.slots name).getLast? = some (.literal c) := by
  rw [view, viewSlots, List.getLast?_map] at hlast
  obtain ⟨slot, hslot, heq⟩ := Option.map_eq_some_iff.mp hlast
  obtain ⟨c, rfl, -⟩ := h.tidy.of_tokenOf_eq_literal
    (h.slots_subset name (List.mem_of_getLast? hslot)) heq
  exact ⟨c, hslot⟩

/-- A workspace in which a buffer is to keep some slots that show given tokens. Nothing but the literal at the
end of the buffer has been revised. -/
structure Keeps (w : Workspace) (name : String) (slots : List Slot) (kept : Buffer) (w₁ : Workspace) :
    Prop where
  buffers : w₁.buffers = w.buffers
  next : w₁.next = w.next
  shown : ∀ n, w₁.shown n = w.shown n
  others : w₁.viewSlots (w.others name) = w.viewSlots (w.others name)
  tidy : Tidy w₁ (w.others name ++ slots)
  view : w₁.viewSlots slots = kept

namespace Neat

/-- Some slots are kept, and nothing is revised. -/
theorem keeps_take (h : Neat w) (name : String) (n : Nat) :
    Keeps w name ((w.slots name).take n) ((w.view name).take n) w where
  buffers := rfl
  next := rfl
  shown _ := rfl
  others := rfl
  tidy := (h.split name).subperm ((List.take_sublist n _).append_left _).subperm
  view := List.map_take

/-- The literal at the end is given other contents, and some slots are kept. If it is among them, it must be
one that can be typed. -/
theorem keeps_revised (h : Neat w) {c : Nat} (hlast : (w.slots name).getLast? = some (.literal c))
    {l : Literal} {n : Nat} (hl : (w.slots name).length ≤ n → l.WellFormed) :
    Keeps w name ((w.slots name).take n) ((Edit.revise (w.view name) (some l)).take n)
      (w.overwrite c l) := by
  obtain ⟨front, hslots⟩ := List.getLast?_eq_some_iff.mp hlast
  have htidy : Tidy w ((w.others name ++ front) ++ [.literal c]) := by
    rw [List.append_assoc, ← hslots]
    exact h.split name
  have hfront : (w.overwrite c l).viewSlots front = w.viewSlots front :=
    htidy.viewSlots_overwrite l (List.subset_append_right _ _)
  have hview : w.view name = w.viewSlots front ++ [.literal (w.cells.getD c .empty)] := by
    rw [Workspace.view, hslots, viewSlots_append]
    rfl
  have hrevise : Edit.revise (w.view name) (some l) = w.viewSlots front ++ [.literal l] := by
    rw [hview, Edit.revise, List.dropLast_concat]
  -- With all slots kept, the new contents show at the end.
  have hwhole : (w.overwrite c l).viewSlots (front ++ [.literal c])
      = Edit.revise (w.view name) (some l) := by
    have hlt : c < w.cells.length := (htidy.literal c (by simp)).1
    rw [hview, Edit.revise, List.dropLast_concat, viewSlots_append, hfront]
    exact congrArg (fun l => w.viewSlots front ++ [Token.literal l]) (getD_overwrite_self hlt l)
  refine ⟨rfl, rfl, htidy.shown_overwrite l, htidy.viewSlots_overwrite l (List.subset_append_left _ _), ?_, ?_⟩
  -- Either all slots are kept, or some of those before the literal.
  · by_cases hn : (w.slots name).length ≤ n
    · rw [List.take_of_length_le hn, hslots, ← List.append_assoc]
      exact htidy.overwrite_concat l (hl hn)
    · rw [hslots, List.length_append, List.length_singleton] at hn
      rw [hslots, List.take_append_of_le_length (by omega)]
      exact (htidy.overwrite l).subperm ((List.take_sublist n _).append_left _).subperm
  · rw [hslots, ← hwhole]
    exact List.map_take

/-- Tokens that hold no stored results are pushed behind what is kept. -/
theorem leads_push (h : Neat w) {kept push : Buffer} (hkeeps : Keeps w name slots kept w₁)
    (hpush : ∀ t ∈ push, t.number? = none) (htypable : push.Typable) :
    Leads w (Function.update w.view name (kept ++ push)) w.next
      ((w₁.adopt push).1.setSlots name (slots ++ (w₁.adopt push).2)) := by
  -- What is pushed needs no book, as it holds no stored results.
  have hnested : ∀ t ∈ nested push, Enters w₁.shown t := by
    intro t ht
    obtain ⟨u, hu, htu⟩ := Buffer.mem_nested_iff.mp ht
    cases u with
    | literal l =>
      obtain rfl := List.mem_singleton.mp htu
      exact htypable l hu
    | operator o =>
      obtain rfl := List.mem_singleton.mp htu
      trivial
    | stored n v e r x => cases hpush _ hu
  obtain ⟨htakes, hfollows⟩ := takes_adopt push hnested hkeeps.tidy fun _ _ ht => ht
  have hold {new : List Slot} (hnew : new ⊆ w.others name ++ slots) :
      (w₁.adopt push).1.viewSlots new = w₁.viewSlots new :=
    htakes.grows.viewSlots fun slot hslot => hkeeps.tidy.knows (List.mem_append_right _ (hnew hslot))
  have hnext : (w₁.adopt push).1.next = w.next := htakes.next.trans hkeeps.next
  have hview : (w₁.adopt push).1.viewSlots (slots ++ (w₁.adopt push).2) = kept ++ push := by
    rw [viewSlots_append, hold (List.subset_append_right _ _), hkeeps.view, htakes.view]
  rw [← hview, ← hnext]
  refine h.leads (htakes.grows.buffers.trans hkeeps.buffers) ?_ (fun n hn => ?_) ?_ fun n t ht => ?_
  · rw [← List.append_assoc]
    exact htakes.tidy
  · obtain ⟨t, ht⟩ := Option.isSome_iff_exists.mp hn
    have hshown : w.shown n = some t := (hkeeps.shown n).symm.trans (hfollows n t ht)
    rw [hnext]
    exact h.below n (by rw [hshown]; rfl)
  · rw [hold (List.subset_append_left _ _), hkeeps.others]
  · exact htakes.grows.shown n t ((hkeeps.shown n).trans ht)

/-- An edit shows as it does on the tokens. It must push no stored results, revise nothing but a literal at
the end, and leave literals that can be typed. -/
theorem leads_edit (h : Neat w) {e : Edit} (hpush : ∀ t ∈ e.push, t.number? = none)
    (hrevised : e.revised = none ∨ ∃ l l', (w.view name).getLast? = some (.literal l) ∧ e.revised = some l')
    (htypable : (e.apply (w.view name)).Typable) :
    Leads w (Function.update w.view name (e.apply (w.view name))) w.next (w.edit name e) := by
  have hpushed : Buffer.Typable e.push := fun l hl => htypable l (List.mem_append_right _ hl)
  rw [Workspace.edit, revise_eq]
  rcases hrevised with hnone | ⟨l, l', hlast, hsome⟩
  · rw [Edit.apply, hnone, revised_none]
    exact h.leads_push (h.keeps_take name e.keep) hpush hpushed
  · obtain ⟨c, hslot⟩ := h.getLast?_slots hlast
    -- If the revised literal is kept, it shows, so it can be typed.
    have hl (hall : (w.slots name).length ≤ e.keep) : l'.WellFormed := by
      refine htypable l' (List.mem_append_left _ ?_)
      rw [hsome, Edit.revise, List.take_of_length_le]
      · exact List.mem_append_right _ (List.mem_singleton_self _)
      · have hne : w.slots name ≠ [] := List.ne_nil_of_mem (List.mem_of_getLast? hslot)
        have hpos := List.length_pos_of_ne_nil hne
        rw [List.length_append, List.length_dropLast, List.length_singleton, Workspace.view, viewSlots,
          List.length_map]
        omega
    rw [Edit.apply, hsome, hslot]
    exact h.leads_push (h.keeps_revised hslot hl) hpush hpushed

/-- An operation on one buffer shows as it does on the tokens. -/
theorem leads_performEdit (h : Neat w) (name : String) (o : Buffer.Operation) :
    Leads w (Function.update w.view name ((w.view name).perform o)) w.next (w.performEdit name o) := by
  have htypable : ((w.view name).perform o).Typable :=
    (Buffer.grown_perform (h.typable name) o).typable (h.typable name)
  rw [Buffer.perform_eq_apply] at htypable ⊢
  rw [performEdit_eq]
  -- An operation that is rejected does nothing.
  cases hedit : (w.view name).edit? o with
  | none =>
    simp only [Option.map_none, Option.getD_none, Function.update_eq_self]
    exact .refl h
  | some e =>
    rw [hedit] at htypable
    obtain ⟨hpush, hrevised⟩ := Buffer.edit?_cases hedit
    exact h.leads_edit hpush (hrevised.imp_right fun ⟨l, hlast, hsome⟩ => ⟨l, _, hlast, hsome⟩) htypable

/-- Keeping some of the tokens. -/
theorem leads_take (h : Neat w) (name : String) (n : Nat) :
    Leads w (Function.update w.view name ((w.view name).take n)) w.next (w.edit name (Edit.keeping n)) := by
  have happly : (Edit.keeping n).apply (w.view name) = (w.view name).take n := List.append_nil _
  have htypable : ((Edit.keeping n).apply (w.view name)).Typable :=
    happly ▸ fun l hl => h.typable name l (List.mem_of_mem_take hl)
  have hleads := h.leads_edit (List.forall_mem_nil _) (.inl rfl) htypable
  rwa [happly] at hleads

end Neat

/-! ## §4 Stored results -/

/-- Make a buffer the stored result that stands for another one, with a value and possibly a text. -/
def freeze (w : Workspace) (name other : String) (v : Value) (degrees : Bool) (text : Option String) :
    Workspace :=
  let (w, slots) := w.copySlots (w.slots other)
  let snapshot : Snapshot := ⟨v, slots, ⟨degrees, slots.length⟩, text⟩
  { w with snapshots := (w.next, snapshot) :: w.snapshots, next := w.next + 1 }.setSlots name
    [.stored w.next]

/-- Abbreviating a buffer freezes it with a value that is kept under the next number. -/
theorem abbreviate_eq_freeze (w : Workspace) (name other : String) (x : Operand) (degrees : Bool)
    (text : String) : w.abbreviate name other x degrees text
      = w.freeze name other (x.keep w.next) degrees (some text) := by
  obtain ⟨new, copied, hcopy, -⟩ := copySlots_eq w (w.slots other)
  simp only [abbreviate, freeze, hcopy]

/-- A number may be skipped before a buffer gets new slots or afterwards. -/
theorem setSlots_withNext (w : Workspace) (name : String) (slots : List Slot) (next : Nat) :
    ({ w with next } : Workspace).setSlots name slots = { w.setSlots name slots with next } := by
  unfold setSlots
  dsimp only
  split <;> rfl

namespace Neat

/-- The stored result of a buffer holds what the buffer shows. -/
theorem leads_freeze (h : Neat w) (hne : other ≠ name) (v : Value) (degrees : Bool)
    (text : Option String) :
    Leads w (Function.update w.view name [(w.view other).abbreviated w.next v degrees text]) (w.next + 1)
      (w.freeze name other v degrees text) := by
  obtain ⟨hcopy, hsnapshots⟩ := takes_copySlots (h.tidy_others name)
    fun slot hslot => List.mem_append_right _ (slots_subset_others hne hslot)
  unfold freeze
  generalize w.copySlots (w.slots other) = p at hcopy hsnapshots ⊢
  obtain ⟨w₁, copied⟩ := p
  have hsome (n : Nat) (hn : (w₁.shown n).isSome) : n < w.next := by
    rw [isSome_shown, hsnapshots, ← isSome_shown] at hn
    exact h.below n hn
  have hlength : copied.length = (w.view other).length := by
    rw [← show w₁.viewSlots copied = w.view other from hcopy.view, viewSlots, List.length_map]
  -- No stored result has the next number, so the new one is shown under it.
  have hfrozen : Takes w (w.others name) [(w.view other).abbreviated w.next v degrees text]
      (w₁.file w.next ⟨v, copied, ⟨degrees, copied.length⟩, text⟩) [.stored w.next] := by
    rw [Buffer.abbreviated, ← hlength]
    exact hcopy.stored fun t ht => absurd (hsome w.next (by rw [ht]; rfl)) (Nat.lt_irrefl _)
  have hbelow (n : Nat)
      (hn : ((w₁.file w.next ⟨v, copied, ⟨degrees, copied.length⟩, text⟩).shown n).isSome) :
      n < w.next + 1 := by
    rw [shown_file] at hn
    split at hn
    · next heq => exact heq ▸ Nat.lt_succ_self _
    · exact Nat.lt_succ_of_lt (hsome n hn)
  have hnext : w₁.next = w.next := hcopy.next
  dsimp only
  rw [hnext]
  exact h.leads_takes hfrozen hbelow

/-- So does the stored result of a buffer that is abbreviated. -/
theorem leads_abbreviate (h : Neat w) (hne : other ≠ name) (x : Operand) (degrees : Bool) (text : String) :
    Leads w (Function.update w.view name
        [(w.view other).abbreviated w.next (x.keep w.next) degrees (some text)]) (w.next + 1)
      (w.abbreviate name other x degrees text) := by
  rw [abbreviate_eq_freeze]
  exact h.leads_freeze hne _ degrees (some text)

/-- Tokens whose stored results are in a book are put into a buffer. -/
theorem leads_put {book : Nat → Option Token} {b : Buffer} {next : Nat} (h : Neat w)
    (hbook : w.Follows book) (hb : ∀ t ∈ nested b, Enters book t)
    (hnext : ∀ n t, book n = some t → n < next) (name : String) :
    Leads w (Function.update w.view name b) next (w.put name b next)
    ∧ (w.put name b next).Follows book := by
  obtain ⟨htakes, hfollows⟩ := takes_adopt b hb (h.tidy_others name) hbook
  have hbelow (n : Nat) (hn : ((w.adopt b).1.shown n).isSome) : n < next := by
    obtain ⟨t, ht⟩ := Option.isSome_iff_exists.mp hn
    exact hnext n t (hfollows n t ht)
  -- Skipping numbers changes nothing that is shown.
  have hput : w.put name b next
      = ({ (w.adopt b).1 with next } : Workspace).setSlots name (w.adopt b).2 :=
    (setSlots_withNext _ _ _ _).symm
  rw [hput]
  refine ⟨h.leads_takes htakes hbelow, fun n t ht => hfollows n t ?_⟩
  rwa [shown_setSlots] at ht

end Neat

end Workspace

end Reckoner
