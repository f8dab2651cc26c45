import Reckoner.Proofs.Session.Desk
import Reckoner.Proofs.Session.Recomputation

/-!
# Literals of a session

Literals are edited in place. Whatever is done with a session, no literal stands at two places in its
expression, its memory and all stored results, and none of them is empty. So what is typed changes the
expression and nothing else.

- `Valid` says what holds of a desk between two actions, and `Shows` what an action leads to;
  `Valid.shows_after` is one action, put together from the steps that it takes;
- `Valid.session_afterAll` says that runs on the cells are runs of the session that is shown;
- `literals_unshared` says what follows for the literals and the stored results.
-/

namespace Reckoner

open Buffer (nested)

namespace Desk

open Workspace

variable {d : Desk} {w w' : Workspace} {s : Session}

/-! ## §1 One action -/

/-- A desk between two actions: memory holds one stored result, and nothing is left of the last action. -/
structure Valid (d : Desk) : Prop where
  neat : Neat d.store
  scratch : d.store.view scratchName = []
  current : d.store.view currentName = []
  memory : d.remembers = true → Session.isMemory (d.store.view memoryName) = true

/-- A workspace shows a session after an action, and shows stored results as before. -/
structure Shows (w : Workspace) (w' : Workspace) (s : Session) : Prop where
  neat : Neat w'
  scratch : w'.view scratchName = []
  current : w'.view currentName = []
  expr : w'.view expressionName = s.expr
  memory : ∀ b, s.memory = some b → w'.view memoryName = b ∧ Session.isMemory b = true
  next : w'.next = s.next
  shown : ∀ n t, w.shown n = some t → w'.shown n = some t

/-- What the session has as its memory is shown by the workspace, and is one stored result. -/
theorem Valid.memory_of_eq (h : d.Valid) {b : Buffer} (hb : d.session.memory = some b) :
    d.store.view memoryName = b ∧ Session.isMemory b = true := by
  unfold session at hb
  dsimp only at hb
  split at hb
  · next hremembers =>
    obtain rfl := Option.some.inj hb
    exact ⟨rfl, h.memory hremembers⟩
  · cases hb

/-- Memory shows stored results only. -/
theorem isSome_number?_of_isMemory {b : Buffer} (hb : Session.isMemory b = true) :
    ∀ t ∈ b, t.number?.isSome := by
  unfold Session.isMemory at hb
  split at hb
  · simp [Token.number?]
  · cases hb

/-- What operations lead to shows a session if its buffers do. -/
theorem Shows.of_leads {views : String → Buffer} {next : Nat} (hleads : Leads w views next w')
    (hscratch : views scratchName = []) (hcurrent : views currentName = [])
    (hexpr : views expressionName = s.expr)
    (hmemory : ∀ b, s.memory = some b → views memoryName = b ∧ Session.isMemory b = true)
    (hnext : next = s.next) : Shows w w' s where
  neat := hleads.neat
  scratch := by rw [hleads.view, hscratch]
  current := by rw [hleads.view, hcurrent]
  expr := by rw [hleads.view, hexpr]
  memory b hb := by
    rw [hleads.view]
    exact hmemory b hb
  next := hleads.next.trans hnext
  shown := hleads.shown

/-- An action that changes nothing that the session shows. -/
theorem Valid.shows (h : d.Valid) {next : Nat} (hleads : Leads d.store d.store.view next w')
    (hexpr : s.expr = d.session.expr) (hmemory : s.memory = d.session.memory) (hnext : next = s.next) :
    Shows d.store w' s :=
  .of_leads hleads h.scratch h.current hexpr.symm (fun _ hb => h.memory_of_eq (hmemory ▸ hb)) hnext

/-- An action that changes the expression. -/
theorem Valid.shows_expr (h : d.Valid) {b : Buffer} {next : Nat}
    (hleads : Leads d.store (Function.update d.store.view expressionName b) next w') (hexpr : s.expr = b)
    (hmemory : s.memory = d.session.memory) (hnext : next = s.next) : Shows d.store w' s := by
  refine .of_leads hleads ?_ ?_ ?_ (fun c hc => ?_) hnext
  · rw [Function.update_of_ne (by decide), h.scratch]
  · rw [Function.update_of_ne (by decide), h.current]
  · rw [Function.update_self, hexpr]
  · rw [Function.update_of_ne (by decide)]
    exact h.memory_of_eq (hmemory ▸ hc)

/-- An action that changes memory. -/
theorem Valid.shows_memory (h : d.Valid) {b : Buffer} {next : Nat}
    (hleads : Leads d.store (Function.update d.store.view memoryName b) next w')
    (hexpr : s.expr = d.session.expr)
    (hmemory : ∀ c, s.memory = some c → c = b ∧ Session.isMemory b = true) (hnext : next = s.next) :
    Shows d.store w' s := by
  refine .of_leads hleads ?_ ?_ ?_ (fun c hc => ?_) hnext
  · rw [Function.update_of_ne (by decide), h.scratch]
  · rw [Function.update_of_ne (by decide), h.current]
  · rw [Function.update_of_ne (by decide), hexpr]
    rfl
  · obtain ⟨rfl, hone⟩ := hmemory c hc
    rw [Function.update_self]
    exact ⟨rfl, hone⟩

/-- An action outside the session. -/
theorem Valid.shows_outside (h : d.Valid) {name : String} {b : Buffer} {next : Nat}
    (hleads : Leads d.store (Function.update d.store.view (outsideName name) b) next w')
    (hnext : next = d.session.next) : Shows d.store w' d.session := by
  -- No buffer of the session has the name of one outside.
  have hview {other : String} (hother : other.toList.head? ≠ some 'o') :
      Function.update d.store.view (outsideName name) b other = d.store.view other :=
    Function.update_of_ne (outsideName_ne name hother).symm _ _
  refine .of_leads hleads ?_ ?_ ?_ (fun c hc => ?_) hnext
  · rw [hview (by decide), h.scratch]
  · rw [hview (by decide), h.current]
  · exact hview (by decide)
  · rw [hview (by decide)]
    exact h.memory_of_eq hc

/-- Nothing is pasted from the buffer that is used for pasting. -/
theorem source_ne_scratch (d : Desk) {source : Source} {name : String} (h : d.source? source = some name) :
    name ≠ scratchName := by
  cases source with
  | outside n =>
    obtain rfl := Option.some.inj h
    exact outsideName_ne n (by decide)
  | expression =>
    obtain rfl := Option.some.inj h
    decide
  | memory =>
    simp only [source?] at h
    split at h
    · obtain rfl := Option.some.inj h
      decide
    · cases h

/-- Pasting. -/
theorem Valid.shows_paste (h : d.Valid) (source : Source) :
    Shows d.store (d.paste source) (((d.source? source).map fun name =>
      Command.paste (d.store.view name)).map d.session.after |>.getD d.session) := by
  unfold paste
  cases hsource : d.source? source with
  | none => exact h.shows (.refl h.neat) rfl rfl rfl
  | some name =>
    -- The copy is made first, in a buffer of its own, also if the expression is pasted behind itself.
    have hpasted := leads_pasteFrom h.neat h.scratch (d.source_ne_scratch hsource)
    simp only [Option.map_some, Option.getD_some]
    exact h.shows_expr hpasted rfl rfl rfl

/-- Recalling memory pastes it. -/
theorem recall_eq (d : Desk) : d.sessionAfter .recallMemory = d.sessionAfter (.paste .memory) := by
  have hrecall : d.sessionAfter .recallMemory = d.session.recall.2 := rfl
  have hpaste : d.sessionAfter (.paste .memory) = (((d.source? .memory).map fun name =>
    Command.paste (d.store.view name)).map d.session.after).getD d.session := rfl
  rw [hrecall, hpaste, Session.recall]
  cases hremembers : d.remembers with
  | false => simp [session, source?, hremembers]
  | true => simp [session, source?, hremembers, Session.after]

/-- What is shown after evaluating is what was shown before, but for the result. -/
theorem evaluate_snd_eq {x : Evaluated Quantity} (heval : d.session.evaluate = (x, s)) :
    ∃ q text, s = { d.session with result := q, resultText := text } := by
  obtain ⟨q, text, hframe⟩ := d.session.evaluate_frame
  rw [heval] at hframe
  exact ⟨q, text, hframe⟩

/-- Collapsing puts the stored result in the place of the expression. -/
theorem Valid.shows_collapse (h : d.Valid) : Shows d.store d.collapse d.session.collapse.2 := by
  unfold collapse Session.collapse Session.abbreviated
  cases heval : d.session.evaluate with
  | mk outcome s =>
    obtain ⟨q, text, rfl⟩ := evaluate_snd_eq heval
    cases outcome with
    | error e => exact h.shows (.refl h.neat) rfl rfl rfl
    | ok x =>
      have hkept := leads_keepExpression h.neat h.scratch (show expressionName ≠ scratchName by decide)
        x d.degrees text
      exact h.shows_expr hkept rfl rfl rfl

/-- Combining memory with the stored result of the expression, which is in a buffer of its own. -/
theorem Valid.shows_combined (h : d.Valid) {t : Token} (ht : t.number?.isSome)
    (hkept : Leads d.store (Function.update d.store.view currentName [t]) (d.store.next + 1) w)
    (hexpr : s.expr = d.session.expr) (hmemory : s.memory = d.session.memory)
    (hdegrees : s.degrees = d.degrees) (hnext : s.next = d.store.next + 1)
    (change : Session.MemoryChange) :
    Shows d.store (w.combine d.remembers change d.degrees) (match s.combined change t with
      | .error e => ((.error e : Evaluated Unit), s)
      | .ok u => (.ok (), { s with memory := some [u], next := s.next + 1 })).2 := by
  have hview : w.viewSlots (w.memorySlots d.remembers) = d.session.memory.getD [] := by
    rw [getD_memory, viewSlots_memorySlots, viewSlots_memorySlots, hkept.view,
      Function.update_of_ne (by decide)]
  -- Memory shows stored results only, so combining takes no literals from it.
  have hstored : ∀ u ∈ w.viewSlots (w.memorySlots d.remembers), u.number?.isSome := by
    rw [hview]
    cases hm : d.session.memory with
    | none => exact List.forall_mem_nil _
    | some b => exact isSome_number?_of_isMemory (h.memory_of_eq hm).2
  have hscratch : w.view scratchName = [] := by
    rw [hkept.view, Function.update_of_ne (by decide), h.scratch]
  have hcombined := leads_combine hkept.neat hstored (by rw [hkept.view, Function.update_self]) ht change
    hscratch (s := s) (by rw [hview, hmemory]) (by rw [hnext, hkept.next])
  rw [hkept.view, hkept.next, hdegrees] at hcombined
  -- Either way the buffers that were used are empty again, so at most memory shows something else.
  cases hu : s.combined change t with
  | error e =>
    simp only [hu, Function.update_idem, update_empty h.current] at hcombined
    exact h.shows (hkept.trans hcombined) hexpr hmemory hnext.symm
  | ok u =>
    simp only [hu, update_emptied h.current (show memoryName ≠ currentName by decide)] at hcombined
    refine h.shows_memory (hkept.trans hcombined) hexpr (fun c hc => ?_) (congrArg (· + 1) hnext.symm)
    obtain ⟨x, text, -, -, rfl⟩ := Session.combined_eq hu
    exact ⟨(Option.some.inj hc).symm, rfl⟩

/-- Updating memory puts the stored result, or what it comes to with memory, into memory. -/
theorem Valid.shows_updateMemory (h : d.Valid) (change : Session.MemoryChange) :
    Shows d.store (d.updateMemory change) (d.session.updateMemory change).2 := by
  unfold updateMemory Session.updateMemory Session.abbreviated
  cases heval : d.session.evaluate with
  | mk outcome s =>
    obtain ⟨q, text, rfl⟩ := evaluate_snd_eq heval
    cases outcome with
    | error e => exact h.shows (.refl h.neat) rfl rfl rfl
    | ok x =>
      -- The stored result of the expression is made first, whatever becomes of memory.
      have hkept := leads_keepExpression h.neat h.scratch (show currentName ≠ scratchName by decide)
        x d.degrees text
      have hnone : d.session.memory.isNone = !d.remembers := by
        unfold session
        dsimp only
        split <;> simp_all
      dsimp only
      rw [hnone]
      split
      · have hremembered := leads_remember hkept.neat (by rw [hkept.view, Function.update_self]) rfl
        rw [hkept.view, hkept.next, update_emptied h.current (by decide)] at hremembered
        refine h.shows_memory (hkept.trans hremembered) rfl (fun c hc => ?_) rfl
        exact ⟨(Option.some.inj hc).symm, rfl⟩
      · refine h.shows_combined rfl hkept ?_ ?_ ?_ ?_ change
        all_goals rfl

/-- A book of the stored results that are there and of those that are restored. -/
theorem exists_book (hneat : Neat w) {room : Nat} {bytes : Codec.Bytes}
    (h : Session.restoreWithin room bytes w.next = .ok s) : ∃ book : Nat → Option Token,
    w.Follows book ∧ (∀ t ∈ s.held, Enters book t) ∧ ∀ n t, book n = some t → n < s.next := by
  obtain ⟨hnext, hnumbered, hrange⟩ := Session.numbered_of_restoreWithin_ok h
  have hsound := Session.sound_of_restoreWithin_ok h
  -- The restored ones are numbered behind those that are there.
  refine ⟨fun n => if n < w.next then w.shown n else s.held.find? (·.number? = some n),
    fun n t ht => ?_, fun t ht => ?_, fun n t ht => ?_⟩
  · dsimp only
    rw [if_pos (hneat.below n (by rw [ht]; rfl)), ht]
  -- What is restored follows the book if stored results with one number are the same.
  · cases t with
    | literal l => exact hsound _ ht
    | operator o => trivial
    | stored n v e r x =>
      have hlow := (hrange _ ht n rfl).1
      show (if n < w.next then w.shown n else s.held.find? (·.number? = some n)) = _
      rw [if_neg (Nat.not_lt.mpr hlow)]
      cases hfind : s.held.find? (·.number? = some n) with
      | none =>
        have hnone := List.find?_eq_none.mp hfind _ ht
        exact absurd (decide_eq_true rfl) hnone
      | some u =>
        have hu := List.find?_some hfind
        rw [decide_eq_true_eq] at hu
        exact congrArg some (hnumbered _ ht u (List.mem_of_find?_eq_some hfind) rfl hu.symm).symm
  · dsimp only at ht
    split at ht
    · next hlt => exact Nat.lt_of_lt_of_le hlt hnext
    · have hn := List.find?_some ht
      rw [decide_eq_true_eq] at hn
      exact (hrange t (List.mem_of_find?_eq_some ht) n hn).2

/-- Expression and memory of a restored session are taken in with literals of their own. -/
theorem leads_putSession (hneat : Neat w) {room : Nat} {bytes : Codec.Bytes}
    (h : Session.restoreWithin room bytes w.next = .ok s) :
    Leads w (Function.update (Function.update w.view expressionName s.expr) memoryName (s.memory.getD []))
      s.next (w.putSession s) := by
  obtain ⟨book, hfollows, henters, hbound⟩ := exists_book hneat h
  obtain ⟨hexpr, hfollows'⟩ := hneat.leads_put hfollows
    (fun t ht => henters t (Session.expr_subset_held s ht)) hbound expressionName
  obtain ⟨hmemory, -⟩ := hexpr.neat.leads_put hfollows'
    (fun t ht => henters t (Session.memory_subset_held s ht)) hbound memoryName
  rw [hexpr.view] at hmemory
  exact hexpr.trans hmemory

/-- Restoring what the session saves. -/
theorem Valid.shows_reload (h : d.Valid) (room : Nat) : Shows d.store (d.reload room)
    (((d.session.save.toOption.map (Command.restore room)).map d.session.after).getD d.session) := by
  unfold reload restored?
  cases hsave : d.session.save with
  | error e => exact h.shows (.refl h.neat) rfl rfl rfl
  | ok bytes =>
    have hnext : d.session.next = d.store.next := rfl
    simp only [Except.toOption, Option.map_some, Option.getD_some, Option.bind_some,
      Session.after_restore, hnext]
    cases hrestore : Session.restoreWithin room bytes d.store.next with
    | error e => exact h.shows (.refl h.neat) rfl rfl rfl
    | ok s =>
      -- What is restored as memory is one stored result.
      have hmemory : s.memory.all Session.isMemory = true := by
        obtain ⟨-, -, -, -, -, -, hall, -⟩ := Session.of_restoreWithin_ok hrestore
        exact hall
      change Shows d.store (d.store.putSession s) s
      refine .of_leads (leads_putSession h.neat hrestore) ?_ ?_ ?_ (fun b hb => ?_) rfl
      · rw [Function.update_of_ne (by decide), Function.update_of_ne (by decide), h.scratch]
      · rw [Function.update_of_ne (by decide), Function.update_of_ne (by decide), h.current]
      · rw [Function.update_of_ne (by decide), Function.update_self]
      · rw [hb] at hmemory ⊢
        exact ⟨Function.update_self _ _ _, hmemory⟩

/-- An edit of the expression. -/
theorem Valid.shows_edit (h : d.Valid) (o : Buffer.Operation)
    (hs : s.expr = d.session.expr.perform o ∧ s.memory = d.session.memory ∧ s.next = d.session.next) :
    Shows d.store (d.store.performEdit expressionName o) s :=
  h.shows_expr (h.neat.leads_performEdit expressionName o) hs.1 hs.2.1 hs.2.2.symm

/-- After every action the workspace shows the session that the action leads to. -/
theorem Valid.shows_after (h : d.Valid) (a : Action) : Shows d.store (d.storeAfter a) (d.sessionAfter a) := by
  cases a with
  | press n => exact h.shows_edit (.press n) (d.session.after_press n)
  | setExponent e => exact h.shows_edit (.setExponent e) (d.session.after_setExponent e)
  | delete => exact h.shows_edit .delete ⟨rfl, rfl, rfl⟩
  | clear => exact h.shows_edit .clear ⟨rfl, rfl, rfl⟩
  | build name o => exact h.shows_outside (h.neat.leads_performEdit (outsideName name) o) rfl
  | paste source => exact h.shows_paste source
  | setDegrees degrees =>
    obtain ⟨hexpr, hmemory, hnext⟩ := d.session.after_setDegrees degrees
    exact h.shows (.refl h.neat) hexpr hmemory hnext.symm
  | evaluate =>
    obtain ⟨q, text, hframe⟩ := d.session.evaluate_frame
    have hsession : d.sessionAfter .evaluate = { d.session with result := q, resultText := text } := hframe
    rw [hsession]
    exact h.shows (.refl h.neat) rfl rfl rfl
  | collapse => exact h.shows_collapse
  | updateMemory change => exact h.shows_updateMemory change
  | recallMemory => exact d.recall_eq ▸ h.shows_paste .memory
  | clearMemory => exact h.shows_memory (h.neat.leads_clear memoryName) rfl nofun rfl
  | reload room => exact h.shows_reload room

/-! ## §2 Runs -/

/-- A fresh desk is valid. -/
theorem valid_fresh (degrees : Bool) : (fresh degrees).Valid where
  neat := neat_empty
  scratch := rfl
  current := rfl
  memory := nofun

/-- Every action leads to a valid desk. -/
theorem Valid.after (h : d.Valid) (a : Action) : (d.after a).Valid where
  neat := (h.shows_after a).neat
  scratch := (h.shows_after a).scratch
  current := (h.shows_after a).current
  memory hsome := by
    obtain ⟨b, hb⟩ := Option.isSome_iff_exists.mp hsome
    obtain ⟨hview, hone⟩ := (h.shows_after a).memory b hb
    exact (congrArg Session.isMemory hview).trans hone

/-- What is shown after an action is the session that the action leads to. -/
theorem Valid.session_after (h : d.Valid) (a : Action) : (d.after a).session = d.sessionAfter a := by
  have hshows := h.shows_after a
  -- Memory is read off the workspace if the session has one.
  have hmemory : (if (d.sessionAfter a).memory.isSome then some ((d.storeAfter a).view memoryName) else none)
      = (d.sessionAfter a).memory := by
    cases hm : (d.sessionAfter a).memory with
    | none => rfl
    | some b => exact congrArg some (hshows.memory b hm).1
  -- The desk takes everything else over from the session; only this is read off the workspace.
  have hfields : (d.after a).session = { d.sessionAfter a with
      expr := (d.storeAfter a).view expressionName
      memory := if (d.sessionAfter a).memory.isSome then some ((d.storeAfter a).view memoryName) else none
      next := (d.storeAfter a).next } := rfl
  rw [hfields, hmemory, hshows.expr, hshows.next]

theorem Valid.afterAll (h : d.Valid) (as : List Action) : (d.afterAll as).Valid := by
  induction as generalizing d with
  | nil => exact h
  | cons a as ih => exact ih (h.after a)

/-- What is shown after actions in turn is the session that they lead to. -/
theorem Valid.session_afterAll (h : d.Valid) (as : List Action) :
    (d.afterAll as).session = (d.counterparts as).foldl Session.after d.session := by
  induction as generalizing d with
  | nil => rfl
  | cons a as ih =>
    -- An action outside the session has no counterpart and leaves what is shown alone.
    have hfirst : (d.counterpart a).toList.foldl Session.after d.session = (d.after a).session := by
      rw [h.session_after a, sessionAfter]
      cases d.counterpart a <;> rfl
    rw [counterparts, List.foldl_append, hfirst]
    exact ih (h.after a)

/-- Stored results are shown as before after actions in turn. -/
theorem Valid.shown_afterAll (h : d.Valid) (as : List Action) {n : Nat} {t : Token}
    (ht : d.store.shown n = some t) : (d.afterAll as).store.shown n = some t := by
  induction as generalizing d with
  | nil => exact ht
  | cons a as ih => exact ih (h.after a) ((h.shows_after a).shown n t ht)

theorem afterAll_append (d : Desk) (as later : List Action) :
    d.afterAll (as ++ later) = (d.afterAll as).afterAll later :=
  List.foldl_append

/-- The slots of the expression, of memory and of all stored results, each of these once. -/
def held (d : Desk) : List Slot :=
  d.store.slots expressionName ++ d.store.memorySlots d.remembers ++ d.store.filed

/-- What is held are stored results and two of the buffers. -/
theorem Valid.held_subperm (h : d.Valid) : List.Subperm d.held (d.store.filed ++ d.store.placed) := by
  have hmemory : (d.store.memorySlots d.remembers).Sublist (d.store.others expressionName) := by
    unfold memorySlots
    split
    · exact slots_sublist_others (by decide)
    · exact List.nil_sublist _
  -- The places of the expression may be counted before all others.
  have hplaced := (placed_perm h.neat.names expressionName).symm
  have hheld : d.held.Perm
      (d.store.filed ++ (d.store.memorySlots d.remembers ++ d.store.slots expressionName)) :=
    List.perm_append_comm.trans (List.perm_append_comm.append_left _)
  have hwithin : (d.store.filed ++ (d.store.memorySlots d.remembers ++ d.store.slots expressionName)).Sublist
      (d.store.filed ++ (d.store.others expressionName ++ d.store.slots expressionName)) :=
    (hmemory.append_right _).append_left _
  exact (hheld.subperm.trans hwithin.subperm).trans (hplaced.append_left _).subperm

/-- Everything that the session shows can be typed as far as it is literals, at every depth. -/
theorem Valid.typable_held (h : d.Valid) : Buffer.Typable d.session.held := by
  have hheld := h.held_subperm.subset
  -- Literals of stored results are found by going down to what these were computed from.
  have hnested {slots : List Slot} (hslots : slots ⊆ d.held) :
      Buffer.Typable (nested (d.store.viewSlots slots)) :=
    h.neat.tidy.typable_nested fun _ hslot => hheld (hslots hslot)
  rw [Session.held, getD_memory]
  intro l hl
  rcases List.mem_append.mp hl with hl | hl
  · exact hnested (fun _ hslot => List.mem_append_left _ (List.mem_append_left _ hslot)) l hl
  · exact hnested (fun _ hslot => List.mem_append_left _ (List.mem_append_right _ hslot)) l hl

/-- Whatever is done from a fresh session on, it shows what the actions lead to. Every literal in the
expression, in memory and in a stored result is there and can be typed, also at every depth of what is shown;
every stored result that is referred to is there. No literal stands at two places, and stored results are
shown unchanged whatever is done after them. -/
theorem literals_unshared (degrees : Bool) (as : List Action) :
    let d := (fresh degrees).afterAll as
    d.session = ((fresh degrees).counterparts as).foldl Session.after (Session.fresh degrees)
    ∧ (∀ c, .literal c ∈ d.held → ∃ l, d.store.cells[c]? = some l ∧ l.WellFormed)
    ∧ (∀ l, .literal l ∈ d.session.held → l.WellFormed)
    ∧ (∀ n, .stored n ∈ d.held → ∃ s, d.store.snapshots.lookup n = some s)
    ∧ (∀ c, d.held.count (.literal c) ≤ 1)
    ∧ ∀ done, done <+: as → ∀ n t, ((fresh degrees).afterAll done).store.shown n = some t →
      d.store.shown n = some t := by
  intro d
  have hvalid : d.Valid := (valid_fresh degrees).afterAll as
  have htidy := hvalid.neat.tidy
  have hheld := hvalid.held_subperm
  -- No literal stands at two places of a tidy workspace, and all that is held is in it.
  refine ⟨(valid_fresh degrees).session_afterAll as, fun c hc => ?_, hvalid.typable_held, fun n hn => ?_,
    fun c => ?_, ?_⟩
  · obtain ⟨hlt, hwell⟩ := htidy.literal c (hheld.subset hc)
    rw [List.getD_eq_getElem _ _ hlt] at hwell
    exact ⟨_, List.getElem?_eq_getElem hlt, hwell⟩
  · have hsome := htidy.stored n (hheld.subset hn)
    rw [isSome_shown] at hsome
    exact Option.isSome_iff_exists.mp hsome
  · exact Nat.le_trans (hheld.count_le _) (htidy.once c)
  -- What was done first leads to a valid desk, from which the later actions go on.
  · rintro done ⟨later, rfl⟩ n t ht
    have hdone := (valid_fresh degrees).afterAll done
    have hlater := hdone.shown_afterAll later ht
    rwa [← afterAll_append] at hlater

/-- A digit that is added to memory and pasted behind itself: three literals, one for each place. -/
example : ((fresh true).afterAll [.press 1, .updateMemory .add, .paste .expression]).held
    = [.literal 0, .operator (.listed .times), .literal 3, .stored 0, .literal 2] := by
  decide

end Desk

end Reckoner
