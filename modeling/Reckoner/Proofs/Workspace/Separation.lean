import Reckoner.Proofs.Workspace.Operation

/-!
# Operands are never neighbours

Two operands side by side would read as one number but be multiplied. Wherever operands could meet, a
multiplication sign is put between them: when a number is typed behind a stored result, and when buffers are
joined.

- `Separated` says of a buffer that no operands are neighbours in it, nor in the expressions that stored
  results in it hold;
- `isChain_perform` and `isChain_joined`: operations on a buffer and joining buffers keep operands apart;
- `Apart` is the invariant of a workspace, and `apart_perform` says that every operation preserves it;
- `separated_view` draws the conclusion for all that can be done with named buffers.

Which tokens are operators is all that matters, and shared literals make no difference to that.
-/

namespace Reckoner

/-- Neighbours that are not both operands. -/
def Token.Apart (t u : Token) : Prop :=
  t.isOperator = true ∨ u.isOperator = true

namespace Buffer

/-! ## §1 Operands that are apart -/

/-- No operands are neighbours in a buffer, nor in the expressions that stored results in it hold. -/
structure Separated (b : Buffer) : Prop where
  chain : b.IsChain Token.Apart
  nested : ∀ {n v e s x}, .stored n v e s x ∈ Buffer.nested b → e.IsChain Token.Apart

variable {b c : Buffer}

/-- Which literals and stored results the operands are does not matter. -/
theorem isChain_congr (h : b.map Token.isOperator = c.map Token.isOperator) :
    b.IsChain Token.Apart ↔ c.IsChain Token.Apart := by
  have hkinds (b : Buffer) : b.IsChain Token.Apart
      ↔ (b.map Token.isOperator).IsChain fun x y => x = true ∨ y = true := by
    rw [List.isChain_map]
    exact Iff.rfl
  rw [hkinds, hkinds, h]

/-- Keeping operands apart is a condition on neighbours that operations respect. -/
theorem tolerant_apart : Tolerant Token.Apart where
  literal _ h := h
  typed _ h := .inl h
  applied _ := .inr rfl
  multiplied _ := .inr rfl

/-- An operator may stand in front. -/
theorem isChain_symbol_cons (s : Symbol) :
    (.symbol s :: b : Buffer).IsChain Token.Apart ↔ b.IsChain Token.Apart := by
  rw [List.isChain_cons]
  exact and_iff_right fun u _ => .inl rfl

/-- Operations on a buffer keep operands apart. -/
theorem isChain_perform (h : b.IsChain Token.Apart) (o : Operation) :
    (b.perform o).IsChain Token.Apart := by
  -- An operator in front makes the start of the buffer a place like any other.
  rw [← isChain_symbol_cons .leftParen] at h ⊢
  exact (step_perform b o).isChain tolerant_apart rfl h fun _ _ _ _ _ _ _ _ => .inr rfl

/-- What stands between two buffers keeps their operands apart. -/
theorem isChain_joined (hb : b.IsChain Token.Apart) {d : Buffer} (hd : d.IsChain Token.Apart)
    (hhead : d.head? = c.head?) : (b ++ b.joint c ++ d).IsChain Token.Apart := by
  unfold joint
  split
  -- With a multiplication sign between them, what meets on either side of it is apart.
  · rw [List.append_assoc, List.isChain_append]
    exact ⟨hb, (isChain_symbol_cons .times).mpr hd, fun t _ u hu => by
      rw [List.singleton_append, List.head?_cons, Option.mem_some_iff] at hu
      exact hu ▸ .inr rfl⟩
  -- Without one, one of the two that meet is an operator, for else the sign would be there.
  · next hneeds =>
    rw [List.append_nil, List.isChain_append]
    refine ⟨hb, hd, fun t ht u hu => ?_⟩
    rw [hhead] at hu
    rw [Option.mem_def] at ht hu
    simp only [needsTimes, ht, hu, Bool.and_eq_true, Bool.not_eq_true', not_and,
      Bool.not_eq_false] at hneeds
    by_cases hlast : t.isOperator = true
    · exact .inl hlast
    · exact .inr (hneeds (Bool.eq_false_iff.mpr hlast))

/-- Joining buffers keeps operands apart. -/
theorem isChain_append (hb : b.IsChain Token.Apart) (hc : c.IsChain Token.Apart) :
    (b.append c).IsChain Token.Apart :=
  isChain_joined hb hc rfl

/-- A buffer may be joined with itself after the multiplication sign is in place. -/
theorem isChain_doubled (hb : b.IsChain Token.Apart) :
    (b ++ b.joint b ++ (b ++ b.joint b)).IsChain Token.Apart := by
  -- The buffer with its sign is the first part of the buffer joined with itself.
  have hfirst : (b ++ b.joint b).IsChain Token.Apart := by
    have hjoined := isChain_joined hb hb rfl
    exact hjoined.left_of_append
  refine isChain_joined hb hfirst ?_
  cases b with
  | nil => rfl
  | cons t ts => rfl

end Buffer

namespace Workspace

/-! ## §2 One operation -/

/-- No operands are neighbours in the buffers of a workspace and in the expressions of its stored results. -/
structure Apart (w : Workspace) : Prop where
  buffers : ∀ name, (w.view name).IsChain Token.Apart
  snapshots : ∀ p ∈ w.snapshots, (w.viewSlots p.2.expr).IsChain Token.Apart

variable {w : Workspace}

/-- Only the kinds of slots matter. -/
theorem isChain_viewSlots_congr {w w' : Workspace} {slots slots' : List Slot}
    (h : slots.map Slot.isOperator = slots'.map Slot.isOperator) :
    (w.viewSlots slots).IsChain Token.Apart ↔ (w'.viewSlots slots').IsChain Token.Apart := by
  refine Buffer.isChain_congr ?_
  rw [map_isOperator_viewSlots, map_isOperator_viewSlots, h]

/-- Carrying out an edit changes kinds as on the tokens themselves. -/
theorem map_isOperator_apply {b : Buffer} {o : Buffer.Operation} {e : Edit} (h : b.edit? o = some e) :
    (e.apply b).map Token.isOperator
      = (b.map Token.isOperator).take e.keep ++ e.push.map Token.isOperator := by
  have hrevise : (Edit.revise b e.revised).map Token.isOperator = b.map Token.isOperator := by
    -- What is revised is a literal before and after.
    rcases (Buffer.edit?_cases h).2 with hnone | ⟨l, hlast, hsome⟩
    · rw [hnone]
      rfl
    · obtain ⟨front, rfl⟩ := List.getLast?_eq_some_iff.mp hlast
      rw [hsome, Edit.revise, List.dropLast_concat, List.map_append, List.map_append]
      rfl
  rw [Edit.apply, List.map_append, List.map_take, hrevise]

/-- An operation on one buffer changes the kinds of tokens as it does for a buffer of its own. -/
theorem map_isOperator_performEdit (w : Workspace) (name : String) (o : Buffer.Operation) :
    ((w.performEdit name o).view name).map Token.isOperator
      = ((w.view name).perform o).map Token.isOperator := by
  rw [performEdit_eq, Buffer.perform_eq_apply]
  cases hedit : (w.view name).edit? o with
  | none => rfl
  | some e =>
    obtain ⟨new, pushed, heq, hpushed, -⟩ := edit_eq w name (Buffer.edit?_cases hedit).1
    simp only [Option.map_some, Option.getD_some]
    rw [map_isOperator_apply hedit, map_isOperator_view, map_isOperator_view, heq, slots_setSlots,
      if_pos rfl, List.map_append, List.map_take, hpushed]

/-- Operations on one buffer keep operands apart in all. -/
theorem apart_performEdit (h : w.Apart) (name : String) (o : Buffer.Operation) :
    (w.performEdit name o).Apart := by
  obtain ⟨hslots, hsnapshots⟩ := performEdit_frame w name o
  constructor
  · intro n
    by_cases hn : n = name
    · subst hn
      rw [Buffer.isChain_congr (map_isOperator_performEdit w n o)]
      exact Buffer.isChain_perform (h.buffers n) o
    · exact (isChain_viewSlots_congr (congrArg _ (hslots n hn))).mpr (h.buffers n)
  · intro p hp
    rw [hsnapshots] at hp
    exact (isChain_viewSlots_congr rfl).mpr (h.snapshots p hp)

theorem apart_append (h : w.Apart) (name other : String) : (w.append name other).Apart := by
  obtain ⟨joint, hjoint, -, -, hsnapshots, hslots⟩ := append_eq w name other
  constructor
  · intro n
    by_cases hn : n = name
    · subst hn
      have hkinds : ((w.append n other).view n).map Token.isOperator
          = (w.view n ++ (w.view n).joint (w.view other) ++ if other = n
            then w.view n ++ (w.view n).joint (w.view other) else w.view other).map
              Token.isOperator := by
        rw [map_isOperator_view, hslots, if_pos rfl]
        split <;> simp only [List.map_append, hjoint, map_isOperator_view]
      rw [Buffer.isChain_congr hkinds]
      -- Joined with itself, the buffer is read with the multiplication sign in place.
      split
      · next heq =>
        subst heq
        exact Buffer.isChain_doubled (h.buffers other)
      · exact Buffer.isChain_append (h.buffers n) (h.buffers other)
    · have hslot : (w.append name other).slots n = w.slots n := by rw [hslots, if_neg hn]
      exact (isChain_viewSlots_congr (congrArg _ hslot)).mpr (h.buffers n)
  · intro p hp
    rw [hsnapshots] at hp
    exact (isChain_viewSlots_congr rfl).mpr (h.snapshots p hp)

/-- A copy of a buffer has the kinds of that buffer. -/
theorem apart_clone (h : w.Apart) (name other : String) : (w.clone name other).Apart := by
  obtain ⟨new, copied, hcopy, hkinds, -⟩ := copySlots_eq w (w.slots other)
  have hclone : w.clone name other
      = { w with cells := w.cells ++ new }.setSlots name copied := by
    simp only [clone, hcopy]
  rw [hclone]
  constructor
  · intro n
    unfold view
    rw [slots_setSlots]
    split
    · exact (isChain_viewSlots_congr hkinds).mpr (h.buffers other)
    · exact (isChain_viewSlots_congr rfl).mpr (h.buffers n)
  · intro p hp
    rw [snapshots_setSlots] at hp
    exact (isChain_viewSlots_congr rfl).mpr (h.snapshots p hp)

/-- The expression of a new stored result is a copy of a buffer. -/
theorem apart_abbreviate (h : w.Apart) (name other : String) (x : Operand) (degrees : Bool)
    (text : String) : (w.abbreviate name other x degrees text).Apart := by
  obtain ⟨new, copied, hcopy, hkinds, -⟩ := copySlots_eq w (w.slots other)
  simp only [abbreviate, hcopy]
  constructor
  · intro n
    unfold view
    rw [slots_setSlots]
    split
    · exact List.isChain_singleton _
    · exact (isChain_viewSlots_congr rfl).mpr (h.buffers n)
  · intro p hp
    rw [snapshots_setSlots] at hp
    -- The new record is a copy, and the others are as they were.
    rcases List.mem_cons.mp hp with rfl | hp
    · exact (isChain_viewSlots_congr hkinds).mpr (h.buffers other)
    · exact (isChain_viewSlots_congr rfl).mpr (h.snapshots p hp)

/-- Every operation keeps operands apart. -/
theorem apart_perform (h : w.Apart) (o : Operation) : (w.perform o).Apart := by
  cases o with
  | edit name o => exact apart_performEdit h name o
  | append name other => exact apart_append h name other
  | clone name other => exact apart_clone h name other
  | abbreviate name other x degrees text => exact apart_abbreviate h name other x degrees text

/-! ## §3 Stored results -/

/-- A stored result that a slot shows is among the results. -/
theorem mem_nested_results {cells : List Literal} {known : List (Nat × Token)} {slot : Slot} {n : Nat}
    {v : Value} {e : Buffer} {s : Scope} {x : Option String}
    (h : .stored n v e s x ∈ (tokenOf cells known slot).nested) :
    .stored n v e s x ∈ Buffer.nested (known.map Prod.snd) := by
  cases slot with
  | literal c => cases List.mem_singleton.mp h
  | operator o => cases List.mem_singleton.mp h
  | stored m =>
    rw [tokenOf] at h
    cases hlookup : known.lookup m with
    | none =>
      rw [hlookup] at h
      cases List.mem_singleton.mp h
    | some t =>
      rw [hlookup] at h
      obtain ⟨front, back, hknown, -⟩ := List.lookup_eq_some_iff.mp hlookup
      have hmem : t ∈ known.map Prod.snd := List.mem_map.mpr ⟨(m, t), by simp [hknown], rfl⟩
      exact Buffer.mem_nested_iff.mpr ⟨t, hmem, h⟩

/-- The expression of a stored result has the kinds that are on record. By induction on the record. -/
theorem map_isOperator_of_mem_results {cells : List Literal} {snapshots : List (Nat × Snapshot)} {n : Nat}
    {v : Value} {e : Buffer} {s : Scope} {x : Option String}
    (h : .stored n v e s x ∈ Buffer.nested ((results cells snapshots).map Prod.snd)) :
    ∃ p ∈ snapshots, e.map Token.isOperator = p.2.expr.map Slot.isOperator := by
  induction snapshots with
  | nil => cases h
  | cons p snapshots ih =>
    obtain ⟨m, snapshot⟩ := p
    have hearlier (h : .stored n v e s x ∈ Buffer.nested ((results cells snapshots).map Prod.snd)) :
        ∃ p ∈ (m, snapshot) :: snapshots, e.map Token.isOperator = p.2.expr.map Slot.isOperator := by
      obtain ⟨p, hp, hkinds⟩ := ih h
      exact ⟨p, List.mem_cons_of_mem _ hp, hkinds⟩
    rw [results, List.map_cons, Buffer.nested_stored, List.mem_cons, List.mem_append] at h
    -- It is the latest result, or inside that one, or earlier; what is inside is earlier, too.
    rcases h with heq | hexpr | hknown
    · cases heq
      refine ⟨_, List.mem_cons_self, ?_⟩
      rw [List.map_map]
      exact List.map_congr_left fun slot _ => isOperator_tokenOf cells snapshots slot
    · obtain ⟨t, ht, hnested⟩ := Buffer.mem_nested_iff.mp hexpr
      obtain ⟨slot, -, rfl⟩ := List.mem_map.mp ht
      exact hearlier (mem_nested_results hnested)
    · exact hearlier hknown

/-- What a workspace shows is separated at every depth. -/
theorem Apart.separated (h : w.Apart) (name : String) : (w.view name).Separated where
  chain := h.buffers name
  nested hstored := by
    obtain ⟨t, ht, hnested⟩ := Buffer.mem_nested_iff.mp hstored
    obtain ⟨slot, -, rfl⟩ := List.mem_map.mp ht
    obtain ⟨p, hp, hkinds⟩ := map_isOperator_of_mem_results (mem_nested_results hnested)
    have hexpr := h.snapshots p hp
    rw [← Buffer.isChain_congr (hkinds.trans (map_isOperator_viewSlots w p.2.expr).symm)] at hexpr
    exact hexpr

/-! ## §4 Runs -/

theorem apart_empty : empty.Apart :=
  ⟨fun _ => List.isChain_nil, nofun⟩

/-- Operands are apart, whatever is done. By induction on the operations. -/
theorem apart_performAll (os : List Operation) : (empty.performAll os).Apart := by
  induction os using List.reverseRecOn with
  | nil => exact apart_empty
  | append_singleton os o ih =>
    rw [performAll_concat]
    exact apart_perform ih o

/-- Whatever is done with named buffers, no operands are neighbours in them. -/
theorem separated_view (os : List Operation) (name : String) :
    ((empty.performAll os).view name).Separated :=
  (apart_performAll os).separated name

end Workspace

end Reckoner
