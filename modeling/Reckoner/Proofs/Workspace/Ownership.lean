import Mathlib.Data.List.GetD
import Mathlib.Data.List.Perm.Basic
import Reckoner.Proofs.Buffer.Editing
import Reckoner.Proofs.Workspace.Operation

/-!
# Every literal has one place

As long as nothing is put behind a buffer without being copied, a literal stands in one place only: in one
buffer or in one stored result, and there once. So an edit of a literal shows nowhere else, and stored results
never change.

- `shown` is what a stored result is shown as, and `viewSlots_congr` says what a view depends on;
- `Grows` says that cells and stored results are only added; what was there is shown as before;
- `Tidy` says of slots in use that no literal stands at two of them or in a stored result besides, that all
  literals there can be typed, and that all stored results there are;
- `Takes` says that new slots show given tokens and that all slots in use are tidy with them; it holds of
  copies (`takes_copySlots`) and of tokens that are taken in (`takes_adopt`).
-/

namespace Reckoner

open Buffer (nested)

namespace Workspace

variable {w w' : Workspace} {slots new : List Slot} {n : Nat} {t : Token}

/-! ## §1 What is shown -/

/-- The token that the stored result with a number is shown as. -/
def shown (w : Workspace) (n : Nat) : Option Token :=
  (results w.cells w.snapshots).lookup n

/-- The slots of all stored results. -/
def filed (w : Workspace) : List Slot :=
  w.snapshots.flatMap fun p => p.2.expr

/-- A number shows a stored result exactly if there is one. -/
theorem isSome_shown (w : Workspace) (n : Nat) :
    (w.shown n).isSome = (w.snapshots.lookup n).isSome := by
  unfold shown
  -- The list of results has the numbers that are on record.
  induction w.snapshots with
  | nil => rfl
  | cons p earlier ih =>
    obtain ⟨m, s⟩ := p
    rw [results, List.lookup_cons, List.lookup_cons]
    split
    · rfl
    · exact ih

/-- A slot shows the same if its literal or its stored result is the same. -/
theorem tokenOf_congr {cells cells' : List Literal} {known known' : List (Nat × Token)} {slot : Slot}
    (hcell : ∀ c, slot = .literal c → cells'.getD c .empty = cells.getD c .empty)
    (hknown : ∀ n, slot = .stored n → known'.lookup n = known.lookup n) :
    tokenOf cells' known' slot = tokenOf cells known slot := by
  cases slot with
  | literal c => exact congrArg Token.literal (hcell c rfl)
  | operator o => rfl
  | stored n => exact congrArg (Option.getD · default) (hknown n rfl)

/-- Views depend on the literals and the stored results in the slots. -/
theorem viewSlots_congr
    (hcells : ∀ c, .literal c ∈ slots → w'.cells.getD c .empty = w.cells.getD c .empty)
    (hshown : ∀ n, .stored n ∈ slots → w'.shown n = w.shown n) :
    w'.viewSlots slots = w.viewSlots slots :=
  List.map_congr_left fun _ hslot => tokenOf_congr (fun c hc => hcells c (hc ▸ hslot))
    fun n hn => hshown n (hn ▸ hslot)

/-- Stored results depend on their own literals. -/
theorem results_congr {cells cells' : List Literal} {snapshots : List (Nat × Snapshot)}
    (h : ∀ c, .literal c ∈ snapshots.flatMap (fun p => p.2.expr) →
      cells'.getD c .empty = cells.getD c .empty) :
    results cells' snapshots = results cells snapshots := by
  induction snapshots with
  | nil => rfl
  | cons p earlier ih =>
    obtain ⟨m, s⟩ := p
    have hearlier := ih fun c hc => h c (List.mem_append_right _ hc)
    have hexpr : s.expr.map (tokenOf cells' (results cells earlier))
        = s.expr.map (tokenOf cells (results cells earlier)) :=
      List.map_congr_left fun slot hslot => tokenOf_congr
        (fun c hc => h c (List.mem_append_left _ (hc ▸ hslot))) fun _ _ => rfl
    simp only [results, hearlier, hexpr]

theorem shown_congr (hsnapshots : w'.snapshots = w.snapshots)
    (hcells : ∀ c, .literal c ∈ w.filed → w'.cells.getD c .empty = w.cells.getD c .empty) (n : Nat) :
    w'.shown n = w.shown n := by
  rw [shown, shown, hsnapshots, results_congr hcells]

/-- Put a stored result before those that are there. -/
def file (w : Workspace) (n : Nat) (s : Snapshot) : Workspace :=
  { w with snapshots := (n, s) :: w.snapshots }

/-- A new stored result is shown with what its slots show. -/
theorem shown_file (w : Workspace) (m : Nat) (s : Snapshot) (n : Nat) : (w.file m s).shown n
    = if n = m then some (.stored m s.value (w.viewSlots s.expr) s.scope s.text) else w.shown n := by
  unfold shown viewSlots file
  rw [results, List.lookup_cons]
  -- It stands before all others, so it is found first.
  by_cases hn : n = m
  · simp only [hn, beq_self_eq_true, if_true]
  · simp only [beq_false_of_ne hn, hn, if_false]

theorem viewSlots_append (w : Workspace) (slots new : List Slot) :
    w.viewSlots (slots ++ new) = w.viewSlots slots ++ w.viewSlots new :=
  List.map_append

/-! ## §2 Growth -/

/-- Whether the literal or the stored result in a slot is there. -/
def Knows (w : Workspace) : Slot → Prop
  | .literal c => c < w.cells.length
  | .operator _ => True
  | .stored n => (w.shown n).isSome

/-- Cells and stored results are added to a workspace. -/
structure Grows (w w' : Workspace) : Prop where
  cells : w.cells <+: w'.cells
  shown : ∀ n t, w.shown n = some t → w'.shown n = some t
  buffers : w'.buffers = w.buffers

namespace Grows

theorem refl (w : Workspace) : Grows w w :=
  ⟨List.prefix_refl _, fun _ _ h => h, rfl⟩

theorem trans {w₁ w₂ w₃ : Workspace} (h : Grows w₁ w₂) (h' : Grows w₂ w₃) : Grows w₁ w₃ :=
  ⟨h.cells.trans h'.cells, fun n t ht => h'.shown n t (h.shown n t ht), h'.buffers.trans h.buffers⟩

theorem getD_cells (h : Grows w w') {c : Nat} (hc : c < w.cells.length) :
    w'.cells.getD c .empty = w.cells.getD c .empty := by
  obtain ⟨more, hmore⟩ := h.cells
  rw [← hmore, List.getD_append _ _ _ _ hc]

/-- What was there is shown as before. -/
theorem viewSlots (h : Grows w w') (hslots : ∀ slot ∈ slots, w.Knows slot) :
    w'.viewSlots slots = w.viewSlots slots := by
  refine viewSlots_congr (fun c hc => h.getD_cells (hslots _ hc)) fun n hn => ?_
  obtain ⟨t, ht⟩ := Option.isSome_iff_exists.mp (hslots _ hn)
  rw [ht, h.shown n t ht]

/-- A stored result is added. If there is one with its number, it is shown as the same token. -/
theorem file {v : Value} {r : Scope} {x : Option String}
    (hn : ∀ t, w.shown n = some t → t = .stored n v (w.viewSlots new) r x) :
    Grows w (w.file n ⟨v, new, r, x⟩) where
  cells := List.prefix_refl _
  shown m t ht := by
    rw [shown_file]
    split
    · next hm =>
      subst hm
      rw [hn t ht]
    · exact ht
  buffers := rfl

end Grows

/-! ## §3 Tidiness -/

/-- Slots in use besides those of the stored results. Over all of them, no literal stands at two places; all
literals can be typed, and all stored results are there. -/
structure Tidy (w : Workspace) (slots : List Slot) : Prop where
  once : ∀ c, (w.filed ++ slots).count (.literal c) ≤ 1
  literal : ∀ c, .literal c ∈ w.filed ++ slots →
    c < w.cells.length ∧ (w.cells.getD c .empty).WellFormed
  stored : ∀ n, .stored n ∈ w.filed ++ slots → (w.shown n).isSome
  nested : ∀ n t, w.shown n = some t → Buffer.Typable t.nested

namespace Tidy

/-- Fewer slots, in any order. -/
theorem subperm (h : Tidy w slots) (hnew : List.Subperm new slots) : Tidy w new where
  once c := by
    have hle := hnew.count_le (.literal c)
    have hone := h.once c
    rw [List.count_append] at hone ⊢
    omega
  literal c hc := h.literal c <| (List.mem_append.mp hc).elim (List.mem_append_left _)
    fun hc => List.mem_append_right _ (hnew.subset hc)
  stored n hn := h.stored n <| (List.mem_append.mp hn).elim (List.mem_append_left _)
    fun hn => List.mem_append_right _ (hnew.subset hn)
  nested := h.nested

theorem perm (h : Tidy w slots) (hnew : new.Perm slots) : Tidy w new :=
  h.subperm hnew.subperm

/-- Everything in use is there. -/
theorem knows (h : Tidy w slots) {slot : Slot} (hslot : slot ∈ w.filed ++ slots) : w.Knows slot := by
  cases slot with
  | literal c => exact (h.literal c hslot).1
  | operator o => trivial
  | stored n => exact h.stored n hslot

/-- Slots without literals may be put in use as long as their stored results are there. -/
theorem append (h : Tidy w slots) (hliteral : ∀ c, .literal c ∉ new)
    (hstored : ∀ n, .stored n ∈ new → (w.shown n).isSome) : Tidy w (slots ++ new) where
  once c := by
    rw [← List.append_assoc, List.count_append, List.count_eq_zero.mpr (hliteral c)]
    exact h.once c
  literal c hc := by
    rw [← List.append_assoc] at hc
    exact h.literal c ((List.mem_append.mp hc).resolve_right (hliteral c))
  stored n hn := by
    rw [← List.append_assoc] at hn
    exact (List.mem_append.mp hn).elim (h.stored n) (hstored n)
  nested := h.nested

/-- A slot in use that shows a literal has one. -/
theorem of_tokenOf_eq_literal (h : Tidy w slots) {slot : Slot} (hslot : slot ∈ w.filed ++ slots)
    {l : Literal} (heq : tokenOf w.cells (results w.cells w.snapshots) slot = .literal l) :
    ∃ c, slot = .literal c ∧ w.cells.getD c .empty = l := by
  cases slot with
  | literal c => exact ⟨c, rfl, Token.literal.inj heq⟩
  | operator o => cases heq
  | stored n =>
    obtain ⟨t, ht⟩ := Option.isSome_iff_exists.mp (h.stored n hslot)
    have hnumber := number?_of_lookup_results ht
    rw [tokenOf, show (results w.cells w.snapshots).lookup n = some t from ht] at heq
    obtain rfl : t = .literal l := heq
    cases hnumber

/-- What slots in use show can be typed as far as it is literals. -/
theorem typable (h : Tidy w slots) (hnew : new ⊆ w.filed ++ slots) : (w.viewSlots new).Typable := by
  intro l hl
  obtain ⟨slot, hslot, heq⟩ := List.mem_map.mp hl
  obtain ⟨c, rfl, rfl⟩ := h.of_tokenOf_eq_literal (hnew hslot) heq
  exact (h.literal c (hnew hslot)).2

/-- So can the literals in the stored results that are shown, at every depth. -/
theorem typable_nested (h : Tidy w slots) (hnew : new ⊆ w.filed ++ slots) :
    Buffer.Typable (Buffer.nested (w.viewSlots new)) := by
  intro l hl
  obtain ⟨t, ht, hnested⟩ := Buffer.mem_nested_iff.mp hl
  obtain ⟨slot, hslot, rfl⟩ := List.mem_map.mp ht
  cases slot with
  | literal c =>
    obtain rfl := Token.literal.inj (List.mem_singleton.mp hnested)
    exact (h.literal c (hnew hslot)).2
  | operator o => cases List.mem_singleton.mp hnested
  | stored n =>
    obtain ⟨t, ht⟩ := Option.isSome_iff_exists.mp (h.stored n (hnew hslot))
    rw [tokenOf, show (results w.cells w.snapshots).lookup n = some t from ht] at hnested
    exact h.nested n t ht l hnested

/-- Slots that were in use are filed in a stored result. -/
theorem file (h : Tidy w (slots ++ new)) {v : Value} {r : Scope} {x : Option String}
    (hn : ∀ t, w.shown n = some t → t = .stored n v (w.viewSlots new) r x) :
    Tidy (w.file n ⟨v, new, r, x⟩) slots := by
  -- Filing moves the slots from those in use to those on record, and adds none.
  have hfiled : ((w.file n ⟨v, new, r, x⟩).filed ++ slots).Perm (w.filed ++ (slots ++ new)) := by
    show ((new ++ w.filed) ++ slots).Perm _
    rw [List.append_assoc, ← List.append_assoc w.filed]
    exact List.perm_append_comm
  refine ⟨fun c => ?_, fun c hc => h.literal c (hfiled.mem_iff.mp hc), fun m hm => ?_, fun m t ht => ?_⟩
  · rw [hfiled.count_eq]
    exact h.once c
  · obtain ⟨t, ht⟩ := Option.isSome_iff_exists.mp (h.stored m (hfiled.mem_iff.mp hm))
    rw [(Grows.file hn).shown m t ht]
    rfl
  · rw [shown_file] at ht
    split at ht
    · obtain rfl := Option.some.inj ht
      have hexpr := h.typable_nested fun _ hslot =>
        List.mem_append_right w.filed (List.mem_append_right slots hslot)
      exact fun l hl => hexpr l ((List.mem_cons.mp hl).resolve_left nofun)
    · exact h.nested m t ht

end Tidy

/-! ## §4 Taking slots in use -/

/-- New slots that show tokens are put in use, besides those that are. -/
structure Takes (w : Workspace) (slots : List Slot) (ts : Buffer) (w' : Workspace) (new : List Slot) :
    Prop where
  grows : Grows w w'
  next : w'.next = w.next
  tidy : Tidy w' (slots ++ new)
  view : w'.viewSlots new = ts

namespace Takes

variable {ts us : Buffer} {w₁ w₂ : Workspace} {new' : List Slot}

theorem nil (h : Tidy w slots) : Takes w slots [] w [] :=
  ⟨.refl w, rfl, by rwa [List.append_nil], rfl⟩

/-- Some slots are put in use and then others. -/
theorem append (h : Takes w slots ts w₁ new) (h' : Takes w₁ (slots ++ new) us w₂ new') :
    Takes w slots (ts ++ us) w₂ (new ++ new') where
  grows := h.grows.trans h'.grows
  next := h'.next.trans h.next
  tidy := by
    rw [← List.append_assoc]
    exact h'.tidy
  view := by
    have hold : w₂.viewSlots new = w₁.viewSlots new := h'.grows.viewSlots fun slot hslot =>
      h.tidy.knows (List.mem_append_right _ (List.mem_append_right _ hslot))
    rw [viewSlots_append, hold, h.view, h'.view]

/-- Adding a cell changes no stored result. -/
theorem shown_newCell (h : Tidy w slots) (l : Literal) (n : Nat) :
    (w.newCell l).1.shown n = w.shown n := by
  have hsnapshots : (w.newCell l).1.snapshots = w.snapshots := rfl
  exact shown_congr hsnapshots (fun c hc => List.getD_append _ _ _ _
    (h.literal c (List.mem_append_left _ hc)).1) n

/-- A literal that can be typed is put into a new cell. -/
theorem literal (h : Tidy w slots) {l : Literal} (hl : l.WellFormed) :
    Takes w slots [.literal l] (w.newCell l).1 [(w.newCell l).2] := by
  have hshown := shown_newCell h l
  have hnew : (w.newCell l).1.cells.getD w.cells.length .empty = l := by simp [newCell]
  have hold {c : Nat} (hc : c < w.cells.length) :
      (w.newCell l).1.cells.getD c .empty = w.cells.getD c .empty :=
    List.getD_append _ _ _ _ hc
  -- No slot in use refers to the new cell, as it is not there.
  have hfresh : .literal w.cells.length ∉ w.filed ++ slots :=
    fun hmem => Nat.lt_irrefl _ (h.literal _ hmem).1
  -- Nothing in use is affected, and the new cell is referred to once.
  refine ⟨⟨List.prefix_append _ _, fun n t ht => (hshown n).trans ht, rfl⟩, rfl,
    ⟨fun c => ?_, fun c hc => ?_, fun n hn => ?_, fun n t ht => ?_⟩, ?_⟩
  · rw [← List.append_assoc, List.count_append]
    by_cases hc : c = w.cells.length
    · subst hc
      have hnone : (w.filed ++ slots).count (.literal w.cells.length) = 0 :=
        List.count_eq_zero.mpr hfresh
      exact Nat.le_of_eq ((congrArg (· + _) hnone).trans (by simp [newCell]))
    · have hnone : [(w.newCell l).2].count (.literal c) = 0 := by
        simpa [newCell, List.count_singleton] using Ne.symm hc
      exact Nat.le_trans (Nat.le_of_eq (congrArg (_ + ·) hnone)) (h.once c)
  · rw [← List.append_assoc] at hc
    rcases List.mem_append.mp hc with hc | hc
    · obtain ⟨hlt, hwell⟩ := h.literal c hc
      rw [hold hlt]
      exact ⟨by simpa [newCell] using Nat.lt_succ_of_lt hlt, hwell⟩
    · obtain rfl : c = w.cells.length := Slot.literal.inj (List.mem_singleton.mp hc)
      rw [hnew]
      exact ⟨by simp [newCell], hl⟩
  · rw [← List.append_assoc] at hn
    rw [hshown]
    exact h.stored n ((List.mem_append.mp hn).resolve_right (by simp [newCell]))
  · exact h.nested n t ((hshown n).symm.trans ht)
  · exact congrArg (fun l => [Token.literal l]) hnew

theorem operator (h : Tidy w slots) (o : Operator) : Takes w slots [.operator o] w [.operator o] :=
  ⟨.refl w, rfl, h.append (by simp) (by simp), rfl⟩

/-- A stored result that is there. -/
theorem known (h : Tidy w slots) (ht : w.shown n = some t) : Takes w slots [t] w [.stored n] := by
  refine ⟨.refl w, rfl, h.append (by simp) fun m hm => ?_, ?_⟩
  · obtain rfl : m = n := Slot.stored.inj (List.mem_singleton.mp hm)
    rw [ht]
    rfl
  · exact congrArg (fun found : Option Token => [found.getD default]) ht

/-- A stored result is made of slots that were put in use for it. If there is one with its number, it is
shown as the same token. -/
theorem stored {e : Buffer} (h : Takes w slots e w₁ new) {v : Value} {r : Scope} {x : Option String}
    (hn : ∀ t, w₁.shown n = some t → t = .stored n v e r x) :
    Takes w slots [.stored n v e r x] (w₁.file n ⟨v, new, r, x⟩) [.stored n] := by
  rw [← h.view] at hn
  have hgrows := Grows.file hn
  have hself : (w₁.file n ⟨v, new, r, x⟩).shown n = some (.stored n v e r x) := by
    rw [shown_file, if_pos rfl, h.view]
  -- Once it is filed, it is a stored result that is there.
  obtain ⟨-, -, hlast, hview⟩ := known (h.tidy.file hn) hself
  exact ⟨h.grows.trans hgrows, h.next, hlast, hview⟩

end Takes

/-! ## §5 Copies -/

/-- Copies show what their originals show. By induction on the slots that are copied. -/
theorem takes_copySlots (h : Tidy w slots) {copied : List Slot} (hcopied : copied ⊆ w.filed ++ slots) :
    Takes w slots (w.viewSlots copied) (w.copySlots copied).1 (w.copySlots copied).2
    ∧ (w.copySlots copied).1.snapshots = w.snapshots := by
  induction copied generalizing w slots with
  | nil => exact ⟨.nil h, rfl⟩
  | cons slot rest ih =>
    have hslot : slot ∈ w.filed ++ slots := hcopied List.mem_cons_self
    have hrest : rest ⊆ w.filed ++ slots := fun _ hmem => hcopied (List.mem_cons_of_mem _ hmem)
    -- The first slot is copied, and the others are copied from what is shown as before then.
    have hcons {w₁ : Workspace} {first : Slot} (hfirst : Takes w slots (w.viewSlots [slot]) w₁ [first])
        (hsnapshots : w₁.snapshots = w.snapshots) :
        Takes w slots (w.viewSlots (slot :: rest)) (w₁.copySlots rest).1
          (first :: (w₁.copySlots rest).2)
        ∧ (w₁.copySlots rest).1.snapshots = w.snapshots := by
      have hfiled : w₁.filed = w.filed := by rw [filed, filed, hsnapshots]
      have hsub : rest ⊆ w₁.filed ++ (slots ++ [first]) := by
        rw [hfiled, ← List.append_assoc]
        exact fun _ hmem => List.mem_append_left _ (hrest hmem)
      obtain ⟨hcopy, hsame⟩ := ih hfirst.tidy hsub
      rw [hfirst.grows.viewSlots fun _ hmem => h.knows (hrest hmem)] at hcopy
      exact ⟨hfirst.append hcopy, hsame.trans hsnapshots⟩
    cases slot with
    | literal c => exact hcons (.literal h (h.literal c hslot).2) rfl
    | operator o => exact hcons (.operator h o) rfl
    | stored n =>
      obtain ⟨t, ht⟩ := Option.isSome_iff_exists.mp (h.stored n hslot)
      have hview : w.viewSlots [.stored n] = [t] :=
        congrArg (fun found : Option Token => [found.getD default]) ht
      exact hcons (hview ▸ .known h ht) rfl

/-! ## §6 Tokens that are taken in -/

/-- What a token needs to be taken in: a literal can be typed, and a stored result is the one that a book
has under its number. -/
def Enters (book : Nat → Option Token) : Token → Prop
  | .literal l => l.WellFormed
  | .operator _ => True
  | .stored n v e r x => book n = some (.stored n v e r x)

/-- All stored results are shown as a book has them. -/
def Follows (w : Workspace) (book : Nat → Option Token) : Prop :=
  ∀ n t, w.shown n = some t → book n = some t

/-- Tokens that are taken in are shown. By induction on the tokens and those they hold; what is there
follows the book all along. -/
theorem takes_adopt {book : Nat → Option Token} (b : Buffer) (hb : ∀ t ∈ nested b, Enters book t)
    (h : Tidy w slots) (hbook : w.Follows book) :
    Takes w slots b (w.adopt b).1 (w.adopt b).2 ∧ (w.adopt b).1.Follows book := by
  induction b using Buffer.induction generalizing w slots with
  | nil => exact ⟨.nil h, hbook⟩
  | literal l ts ih =>
    have hfirst : Takes w slots [.literal l] _ _ := .literal h (hb _ List.mem_cons_self)
    -- A new cell changes no stored result, so the book is still followed.
    have hbook' : (w.newCell l).1.Follows book := fun n t ht =>
      hbook n t ((Takes.shown_newCell h l n).symm.trans ht)
    obtain ⟨hrest, hfollows⟩ := ih (fun t ht => hb t (List.mem_cons_of_mem _ ht)) hfirst.tidy hbook'
    exact ⟨hfirst.append hrest, hfollows⟩
  | operator o ts ih =>
    have hfirst := Takes.operator h o
    obtain ⟨hrest, hfollows⟩ := ih (fun t ht => hb t (List.mem_cons_of_mem _ ht)) hfirst.tidy hbook
    exact ⟨hfirst.append hrest, hfollows⟩
  | stored n v e r x ts ihe ih =>
    have hn : book n = some (.stored n v e r x) := hb _ List.mem_cons_self
    have hts : ∀ t ∈ nested ts, Enters book t := fun t ht =>
      hb t (List.mem_cons_of_mem _ (List.mem_append_right _ ht))
    -- Whether the stored result is there already or is made, it is as the book has it.
    have hcons {w₁ : Workspace} (hfirst : Takes w slots [.stored n v e r x] w₁ [.stored n])
        (hbook' : w₁.Follows book) (heq : w.adoptToken (.stored n v e r x) = (w₁, .stored n)) :
        Takes w slots (.stored n v e r x :: ts) (w.adopt (.stored n v e r x :: ts)).1
          (w.adopt (.stored n v e r x :: ts)).2
        ∧ (w.adopt (.stored n v e r x :: ts)).1.Follows book := by
      obtain ⟨hrest, hfollows⟩ := ih hts hfirst.tidy hbook'
      simp only [adopt, heq]
      exact ⟨hfirst.append hrest, hfollows⟩
    -- Taken in twice, a stored result is made once.
    cases hthere : (w.snapshots.lookup n).isSome with
    | true =>
      rw [← isSome_shown] at hthere
      obtain ⟨t, ht⟩ := Option.isSome_iff_exists.mp hthere
      obtain rfl : t = .stored n v e r x := Option.some.inj ((hbook n t ht).symm.trans hn)
      rw [isSome_shown] at hthere
      exact hcons (.known h ht) hbook (by simp only [adoptToken, hthere, if_true])
    | false =>
      obtain ⟨hexpr, hbook'⟩ := ihe
        (fun t ht => hb t (List.mem_cons_of_mem _ (List.mem_append_left _ ht))) h hbook
      have hself (t : Token) (ht : (w.adopt e).1.shown n = some t) : t = .stored n v e r x :=
        Option.some.inj ((hbook' n t ht).symm.trans hn)
      refine hcons (hexpr.stored hself) (fun m t ht => ?_) (by simp [adoptToken, hthere, file])
      rw [shown_file, hexpr.view] at ht
      split at ht
      · next hm =>
        subst hm
        rw [← Option.some.inj ht]
        exact hn
      · exact hbook' m t ht

end Workspace

end Reckoner
