import Mathlib.Data.List.GetD
import Mathlib.Data.List.Infix
import Reckoner.Proofs.Workspace.Operation

/-!
# Shared literals

A buffer that is put behind another one shares its literals with it. The literal at the end of a buffer is
edited in place, so editing the one buffer may show in the other: when its end has come to stand at a literal
that they share, and the edit gives that literal new contents.

- `Rewrites` says which operations give a literal new contents, and `retyped_ne_iff` that it is these;
- `Present`: the literals of a workspace are there, which every operation preserves;
- `Intrudes`: an operation on one buffer rewrites a literal of another one, and `view_performEdit_iff` says
  that the other one changes exactly then;
- `view_append_edits_iff` draws the conclusion for whole runs, and `view_append_delete` is the shortest run in
  which a buffer comes to hold an empty literal.
-/

namespace Reckoner

/-! ## §1 Rewriting literals -/

namespace Literal

variable {l l' : Literal}

/-- A number that is put behind a text makes it longer. -/
theorem append_toString_ne (s : String) (n : Nat) : s ++ toString n ≠ s := by
  intro h
  have hnonempty := append_toString_nonempty "" n
  rw [String.append_eq_left_iff.mp h] at hnonempty
  cases hnonempty

/-- Without its last character, a text that is not empty is shorter. -/
theorem dropLastChar_ne {s : String} (h : s.isEmpty = false) : dropLastChar s ≠ s := by
  intro heq
  have hlength := congrArg (List.length ∘ String.toList) heq
  simp only [Function.comp_apply, dropLastChar, String.toList_ofList, List.length_dropLast] at hlength
  have hnil : s.toList = [] := List.length_eq_zero_iff.mp (by omega)
  rw [String.isEmpty_eq_false_iff] at h
  exact h (String.toList_injective (by simp [hnil]))

/-- An accepted digit changes a literal. -/
theorem addDigit_ne {d : Fin 10} (h : l.addDigit d = some l') : l' ≠ l := by
  unfold addDigit at h
  split at h
  -- In an exponent, the digit makes it ten times as large, and more.
  · next hexponent =>
    split at h
    · cases h
    · cases h
      intro heq
      have hsame := congrArg Literal.exponent heq
      dsimp only at hsame
      split at hsame <;> omega
  · split at h
    · cases h
      exact fun heq => append_toString_ne _ _ (congrArg Literal.fraction heq)
    · cases h
      exact fun heq => append_toString_ne _ _ (congrArg Literal.whole heq)

/-- So does an accepted point. -/
theorem addPoint_ne (h : l.addPoint = some l') : l' ≠ l := by
  unfold addPoint at h
  split at h
  · cases h
  · next hpoint =>
    cases h
    intro heq
    refine hpoint ?_
    rw [← congrArg Literal.point heq]
    rfl

/-- Deleting changes every literal that can be typed. -/
theorem delete_ne (h : l.WellFormed) : l.delete ≠ l := by
  unfold delete
  split
  -- An exponent loses its last digit.
  · next hexponent =>
    intro heq
    have hsame : l.exponent.natAbs / 10 = l.exponent.natAbs :=
      (Int.natAbs_tdiv l.exponent 10).symm.trans (congrArg (Int.natAbs ∘ Literal.exponent) heq)
    omega
  · split
    · next hfraction =>
      exact fun heq => dropLastChar_ne (by simpa using hfraction) (congrArg Literal.fraction heq)
    · split
      · next hpoint =>
        intro heq
        have hsame := congrArg Literal.point heq
        rw [hpoint] at hsame
        cases hsame
      · next hpoint =>
        -- Without a point, what is left are the whole digits.
        have hnonempty := h.nonempty
        rw [isEmpty, Bool.eq_false_iff.mpr hpoint] at hnonempty
        exact fun heq => dropLastChar_ne (by simpa using hnonempty) (congrArg Literal.whole heq)

end Literal

namespace Buffer

/-- Whether an operation gives new contents to a literal at the end of a buffer: it types an accepted digit or
point, sets another exponent, or deletes. -/
def Operation.Rewrites (o : Operation) (l : Literal) : Prop :=
  match o with
  | .press n =>
    match Key.ofCode? n with
    | some (.digit d) => (l.addDigit d).isSome = true
    | some .point => l.addPoint.isSome = true
    | _ => False
  | .setExponent e => e ≠ 0 ∧ e ≠ l.exponent
  | .delete => True
  | .stripAdditive => False
  | .clear => False

/-- What is typed on a literal is another literal. -/
theorem getD_ne_iff {l : Literal} {r : Option Literal} (h : ∀ l', r = some l' → l' ≠ l) :
    r.getD l ≠ l ↔ r.isSome = true := by
  cases r with
  | none => simp
  | some l' => simp [h l' rfl]

/-- These operations, and no others, make another literal of one that can be typed. -/
theorem retyped_ne_iff {l : Literal} (h : l.WellFormed) (o : Operation) :
    o.retyped l ≠ l ↔ o.Rewrites l := by
  cases o with
  | press n =>
    simp only [Operation.retyped, Operation.Rewrites]
    cases Key.ofCode? n with
    | none => exact iff_of_false (not_not_intro rfl) id
    | some k =>
      cases k with
      | digit d => exact getD_ne_iff fun l' hl => Literal.addDigit_ne hl
      | point => exact getD_ne_iff fun l' hl => Literal.addPoint_ne hl
      | symbol s => exact iff_of_false (not_not_intro rfl) id
  | setExponent e =>
    simp only [Operation.retyped, Operation.Rewrites]
    split
    -- An exponent of zero is not set.
    · next he => exact iff_of_false (not_not_intro rfl) fun h => h.1 he
    · next he =>
      refine ⟨fun hne => ⟨he, fun heq => hne ?_⟩, fun hne heq => hne.2 ?_⟩
      · rw [heq]
        rfl
      · exact congrArg Literal.exponent heq
  | delete =>
    simp only [Operation.retyped, Operation.Rewrites, h.nonempty, Bool.false_eq_true, if_false]
    exact iff_of_true (Literal.delete_ne h) trivial
  | stripAdditive => exact iff_of_false (not_not_intro rfl) id
  | clear => exact iff_of_false (not_not_intro rfl) id

end Buffer

namespace Workspace

/-! ## §2 Literals that are there -/

/-- The literals in the slots of a workspace are there. -/
def Present (w : Workspace) : Prop :=
  ∀ name c, .literal c ∈ w.slots name → c < w.cells.length

variable {w : Workspace} {name : String}

/-- Cells are only added, so literals stay there. -/
theorem Present.setSlots (h : w.Present) {w' : Workspace} (hslots : ∀ n, w'.slots n = w.slots n)
    (hcells : w.cells.length ≤ w'.cells.length) (name : String) {slots : List Slot}
    (hnew : ∀ c, .literal c ∈ slots → c < w'.cells.length) : (w'.setSlots name slots).Present := by
  intro n c hc
  rw [cells_setSlots]
  rw [slots_setSlots] at hc
  split at hc
  · exact hnew c hc
  · rw [hslots] at hc
    exact Nat.lt_of_lt_of_le (h n c hc) hcells

/-- Operations on one buffer preserve that literals are there. -/
theorem present_performEdit (h : w.Present) (name : String) (o : Buffer.Operation) :
    (w.performEdit name o).Present := by
  rw [performEdit_eq]
  cases hedit : (w.view name).edit? o with
  | none => exact h
  | some e =>
    obtain ⟨new, pushed, heq, -, hcells⟩ := edit_eq w name (Buffer.edit?_cases hedit).1
    simp only [Option.map_some, Option.getD_some]
    rw [heq]
    have hlength : (revised w.cells (w.slots name).getLast? e.revised ++ new).length
        = (w.cells ++ new).length := by
      rw [List.length_append, List.length_append, length_revised]
    refine Present.setSlots h ?_ ?_ name fun c hc => ?_
    · exact fun _ => rfl
    · simp [length_revised]
    rw [hlength]
    rcases List.mem_append.mp hc with hc | hc
    · exact Nat.lt_of_lt_of_le (h name c (List.mem_of_mem_take hc)) (by simp)
    · exact hcells c hc

/-- So does joining, which takes the slots of buffers that are there. -/
theorem present_append (h : w.Present) (name other : String) : (w.append name other).Present := by
  obtain ⟨joint, -, hjoint, hcells, -, hslots⟩ := append_eq w name other
  have hfirst : ∀ c, .literal c ∈ w.slots name ++ joint → c < w.cells.length := fun c hc =>
    h name c ((List.mem_append.mp hc).resolve_right (hjoint c))
  intro n c hc
  rw [hcells]
  rw [hslots] at hc
  split at hc
  -- A slot of the joined buffer was one of the two, or stands in the sign, which has no literal.
  · rcases List.mem_append.mp hc with hc | hc
    · exact hfirst c hc
    · split at hc
      · exact hfirst c hc
      · exact h other c hc
  · exact h n c hc

/-- Every operation preserves that literals are there. -/
theorem present_perform (h : w.Present) (o : Operation) : (w.perform o).Present := by
  cases o with
  | edit name o => exact present_performEdit h name o
  | append name other => exact present_append h name other
  | clone name other =>
    obtain ⟨new, copied, hcopy, -, hcells⟩ := copySlots_eq w (w.slots other)
    simp only [perform, clone, hcopy]
    refine Present.setSlots h ?_ ?_ name hcells
    · exact fun _ => rfl
    · simp
  | abbreviate name other x degrees text =>
    obtain ⟨new, copied, hcopy, -, hcells⟩ := copySlots_eq w (w.slots other)
    simp only [perform, abbreviate, hcopy]
    refine Present.setSlots h ?_ ?_ name fun c hc => nomatch List.mem_singleton.mp hc
    · exact fun _ => rfl
    · simp

/-- The literals are there, whatever is done. By induction on the operations. -/
theorem present_performAll (os : List Operation) : (empty.performAll os).Present := by
  induction os using List.reverseRecOn with
  | nil => exact nofun
  | append_singleton os o ih =>
    rw [performAll_concat]
    exact present_perform ih o

/-! ## §3 One edit -/

/-- Revising the literal in a slot changes this literal only. -/
theorem getD_revised {cells : List Literal} {c : Nat} (hc : c < cells.length) (slot : Option Slot)
    (l : Literal) : (revised cells slot (some l)).getD c .empty
      = if slot = some (.literal c) then l else cells.getD c .empty := by
  unfold revised
  split
  · next cell l' hl =>
    cases hl
    by_cases heq : cell = c
    · subst heq
      simp [hc]
    · simp [heq]
  · next hother =>
    rw [if_neg fun heq => hother c l heq rfl]

/-- The literal at the end of a buffer. -/
theorem getLast?_view {c : Nat} (h : (w.slots name).getLast? = some (.literal c)) :
    (w.view name).getLast? = some (.literal (w.cells.getD c .empty)) := by
  rw [view, viewSlots, List.getLast?_map, h]
  rfl

/-- What a cell that is there holds after an operation on a buffer: a literal at the end of the buffer is
edited in place. -/
theorem getD_cells_performEdit (w : Workspace) (name : String) (o : Buffer.Operation) {c : Nat}
    (hc : c < w.cells.length) : (w.performEdit name o).cells.getD c .empty
      = if (w.slots name).getLast? = some (.literal c) then o.retyped (w.cells.getD c .empty)
        else w.cells.getD c .empty := by
  -- Without new contents, the operation makes the same literal of the one at the end.
  have hkept (hnone : ((w.view name).edit? o).bind Edit.revised = none) : w.cells.getD c .empty
      = if (w.slots name).getLast? = some (.literal c) then o.retyped (w.cells.getD c .empty)
        else w.cells.getD c .empty := by
    split
    · next hlast => exact (Buffer.retyped_eq_self (getLast?_view hlast) hnone).symm
    · rfl
  rw [performEdit_eq]
  cases hedit : (w.view name).edit? o with
  | none => exact hkept (by rw [hedit]; rfl)
  | some e =>
    obtain ⟨hpush, hrevised⟩ := Buffer.edit?_cases hedit
    obtain ⟨new, pushed, heq, -, -⟩ := edit_eq w name hpush
    -- New cells lie behind those that are there.
    have hcells : ((w.edit name e).cells).getD c .empty
        = (revised w.cells (w.slots name).getLast? e.revised).getD c .empty := by
      rw [heq, cells_setSlots]
      exact List.getD_append _ _ _ _ (by rwa [length_revised])
    simp only [Option.map_some, Option.getD_some]
    rw [hcells]
    rcases hrevised with hnone | ⟨l, hlast, hsome⟩
    · rw [hnone, revised_none]
      exact hkept (by rw [hedit]; exact hnone)
    · rw [hsome, getD_revised hc]
      split
      · next hslot =>
        rw [getLast?_view hslot] at hlast
        cases hlast
        rfl
      · rfl

/-- Whether an operation on one buffer rewrites a literal of another one. The literal stands at the end of the
first one then. -/
def Intrudes (w : Workspace) (name other : String) (o : Buffer.Operation) : Prop :=
  ∃ c, (w.slots name).getLast? = some (.literal c) ∧ .literal c ∈ w.slots other
    ∧ o.Rewrites (w.cells.getD c .empty)

/-- A buffer shows what operations on an empty buffer of its own build. -/
def Built (w : Workspace) (name : String) : Prop :=
  ∃ os, w.view name = Buffer.performAll [] os

variable {other : String}

/-- In a buffer that operations build there are literals and operators. -/
theorem Built.slot_cases (h : w.Built other) {slot : Slot} (hslot : slot ∈ w.slots other) :
    (∃ c, slot = .literal c ∧ (w.cells.getD c .empty).WellFormed) ∨ ∃ o, slot = .operator o := by
  obtain ⟨os, hview⟩ := h
  have hplain : (tokenOf w.cells (results w.cells w.snapshots) slot).Plain := by
    refine Buffer.plain_performAll os _ ?_
    rw [← hview]
    exact List.mem_map_of_mem hslot
  cases slot with
  | literal c => exact .inl ⟨c, rfl, hplain.2⟩
  | operator o => exact .inr ⟨o, rfl⟩
  | stored n =>
    -- A slot without a stored result shows a literal that is empty, which cannot be typed.
    rw [tokenOf] at hplain
    cases hlookup : (results w.cells w.snapshots).lookup n with
    | none =>
      rw [hlookup] at hplain
      cases hplain.2.nonempty
    | some t =>
      rw [hlookup, Option.getD_some] at hplain
      cases hplain.1.symm.trans (number?_of_lookup_results hlookup)

theorem Built.wellFormed (h : w.Built other) {c : Nat} (hc : .literal c ∈ w.slots other) :
    (w.cells.getD c .empty).WellFormed := by
  rcases h.slot_cases hc with ⟨d, hd, hwell⟩ | ⟨o, ho⟩
  · cases hd
    exact hwell
  · cases ho

/-- A buffer with the same slots shows the same exactly if the literals there are the same. -/
theorem Built.view_eq_iff (h : w.Built other) {w' : Workspace} (hslots : w'.slots other = w.slots other) :
    w'.view other = w.view other
    ↔ ∀ c, .literal c ∈ w.slots other → w'.cells.getD c .empty = w.cells.getD c .empty := by
  rw [view, view, hslots, viewSlots, viewSlots, List.map_inj_left]
  constructor
  · intro heq c hc
    exact Token.literal.inj (heq _ hc)
  · intro heq slot hslot
    rcases h.slot_cases hslot with ⟨c, rfl, -⟩ | ⟨o, rfl⟩
    · exact congrArg Token.literal (heq c hslot)
    · rfl

/-- An operation on one buffer changes what another one shows exactly if it rewrites a literal there. -/
theorem view_performEdit_iff (hpresent : w.Present) (h : w.Built other) (hne : other ≠ name)
    (o : Buffer.Operation) :
    (w.performEdit name o).view other = w.view other ↔ ¬ w.Intrudes name other o := by
  rw [h.view_eq_iff ((performEdit_frame w name o).1 other hne)]
  constructor
  -- If a literal is rewritten there, it shows.
  · rintro heq ⟨c, hlast, hc, hrewrites⟩
    have hcell := getD_cells_performEdit w name o (hpresent other c hc)
    rw [if_pos hlast, heq c hc] at hcell
    exact (Buffer.retyped_ne_iff (h.wellFormed hc) o).mpr hrewrites hcell.symm
  -- If none is, every literal there holds what it held.
  · intro hspared c hc
    rw [getD_cells_performEdit w name o (hpresent other c hc)]
    split
    · next hlast =>
      by_contra hne
      exact hspared ⟨c, hlast, hc, (Buffer.retyped_ne_iff (h.wellFormed hc) o).mp hne⟩
    · rfl

/-! ## §4 Runs -/

/-- Operations on one buffer in turn, none of which rewrites a literal of another one. -/
def Spares (w : Workspace) (name other : String) (os : List Buffer.Operation) : Prop :=
  ∀ done o, done ++ [o] <+: os → ¬ (w.performEdits name done).Intrudes name other o

/-- A buffer that is put behind another one shows what it showed. -/
theorem view_append_of_ne (w : Workspace) (hne : other ≠ name) :
    (w.append name other).view other = w.view other := by
  obtain ⟨joint, -, -, hcells, hsnapshots, hslots⟩ := append_eq w name other
  rw [view, view, viewSlots, viewSlots, hcells, hsnapshots, hslots, if_neg hne]

/-- Along a run of operations on one buffer, literals stay there. By induction on the run. -/
theorem present_performEdits (h : w.Present) (name : String) (os : List Buffer.Operation) :
    (w.performEdits name os).Present := by
  induction os using List.reverseRecOn with
  | nil => exact h
  | append_singleton os o ih =>
    rw [performEdits_concat]
    exact present_performEdit ih name o

/-- Along a run of operations on one buffer, another one shows the same throughout exactly if no operation
rewrites a literal there. -/
theorem view_performEdits_iff (hpresent : w.Present) (h : w.Built other) (hne : other ≠ name)
    (os : List Buffer.Operation) :
    (∀ done, done <+: os → (w.performEdits name done).view other = w.view other)
    ↔ w.Spares name other os := by
  have hstep (done : List Buffer.Operation) (o : Buffer.Operation)
      (hview : (w.performEdits name done).view other = w.view other) :
      (w.performEdits name (done ++ [o])).view other = w.view other
      ↔ ¬ (w.performEdits name done).Intrudes name other o := by
    -- As long as the other buffer shows the same, it is one that operations build.
    have hbuilt : (w.performEdits name done).Built other := by
      obtain ⟨os, hos⟩ := h
      exact ⟨os, hview.trans hos⟩
    rw [performEdits_concat, ← hview]
    exact view_performEdit_iff (present_performEdits hpresent name done) hbuilt hne o
  constructor
  · intro hsame done o hprefix
    exact (hstep done o (hsame done ((List.prefix_append _ _).trans hprefix))).mp (hsame _ hprefix)
  · intro hspared done hdone
    induction done using List.reverseRecOn with
    | nil => rfl
    | append_singleton done o ih =>
      exact (hstep done o (ih ((List.prefix_append _ _).trans hdone))).mpr (hspared done o hdone)

/-- Put a buffer that keys built behind another one, and edit that one. The buffer shows the same throughout
exactly if no edit types an accepted digit or point, sets another exponent or deletes while the end of the other
one is a literal of the buffer; and then it never holds an empty literal. -/
theorem view_append_edits_iff (program : List Operation) {a b : String} (hne : a ≠ b)
    (hbuilt : (empty.performAll program).Built a) (os : List Buffer.Operation) :
    let w := (empty.performAll program).append b a
    ((∀ done, done <+: os → (w.performEdits b done).view a = (empty.performAll program).view a)
      ↔ w.Spares b a os)
    ∧ (w.Spares b a os →
      ∀ done, done <+: os → ∀ l, .literal l ∈ (w.performEdits b done).view a → l.isEmpty = false) := by
  intro w
  have hview : w.view a = (empty.performAll program).view a := view_append_of_ne _ hne
  have hpresent : w.Present := present_append (present_performAll program) b a
  obtain ⟨keys, hkeys⟩ := hbuilt
  -- After joining, the run is one of operations on the other buffer, so the step lemma carries over to it.
  have hiff := view_performEdits_iff hpresent ⟨keys, hview.trans hkeys⟩ hne os
  rw [hview] at hiff
  refine ⟨hiff, fun hspared done hdone l hl => ?_⟩
  rw [hiff.mpr hspared done hdone, hkeys] at hl
  exact (Buffer.plain_performAll keys _ hl).2.nonempty

/-- A one in the buffer `a`, and a three and a plus in the buffer `b`. -/
def oneAndThreePlus : List Operation :=
  [.edit "a" (.press 1), .edit "b" (.press 3), .edit "b" (.press 20)]

/-- Edits behind the one: a plus, a digit, its exponent, and deleting that. -/
def editsBehind : List Buffer.Operation :=
  [.press 20, .press 4, .setExponent 2, .delete]

theorem view_append_edits_iff_oneAndThreePlus :
    "a" ≠ "b" ∧ (empty.performAll oneAndThreePlus).Built "a"
    ∧ ((empty.performAll oneAndThreePlus).append "b" "a").Spares "b" "a" editsBehind
    ∧ ∀ l, .literal l ∈ (((empty.performAll oneAndThreePlus).append "b" "a").performEdits "b"
      editsBehind).view "a" → l.isEmpty = false := by
  have hne : "a" ≠ "b" := by decide
  have hbuilt : (empty.performAll oneAndThreePlus).Built "a" := ⟨[.press 1], rfl⟩
  obtain ⟨hiff, hempty⟩ := view_append_edits_iff oneAndThreePlus hne hbuilt editsBehind
  -- No edit of the run shows in the one, as the runs up to each of them show.
  have hspared := hiff.mp fun done hdone => by
    rw [← List.mem_inits] at hdone
    simp only [editsBehind, List.inits, List.map_cons, List.map_nil, List.mem_cons,
      List.not_mem_nil, or_false] at hdone
    rcases hdone with rfl | rfl | rfl | rfl | rfl <;> rfl
  exact ⟨hne, hbuilt, hspared, hempty hspared editsBehind (List.prefix_refl _)⟩

/-- The one is put behind the plus and deleted there, which leaves an empty literal in the buffer `a`. -/
theorem view_append_delete :
    (empty.performAll oneAndThreePlus).Built "a" ∧ (empty.performAll oneAndThreePlus).Built "b"
    ∧ (∀ c, .literal c ∈ (empty.performAll oneAndThreePlus).slots "a" →
      .literal c ∉ (empty.performAll oneAndThreePlus).slots "b")
    ∧ (empty.performAll oneAndThreePlus).view "a" = [.literal ⟨"1", "", false, 0⟩]
    ∧ (((empty.performAll oneAndThreePlus).append "b" "a").performEdits "b" [.delete]).view "a"
      = [.literal .empty] := by
  have ha : (empty.performAll oneAndThreePlus).slots "a" = [.literal 0] := rfl
  have hb : (empty.performAll oneAndThreePlus).slots "b"
      = [.literal 1, .operator (.listed .plus)] := rfl
  refine ⟨⟨[.press 1], rfl⟩, ⟨[.press 3, .press 20], rfl⟩, fun c hc => ?_, rfl, rfl⟩
  -- Before they are joined, the buffers share no literal.
  rw [ha, List.mem_singleton] at hc
  cases hc
  rw [hb]
  decide

end Workspace

end Reckoner
