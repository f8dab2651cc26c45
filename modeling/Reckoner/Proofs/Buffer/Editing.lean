import Reckoner.Proofs.Buffer.Soundness

/-!
# What edits add

Keys add literals and operators, and nothing else: what is in a buffer after an edit was there before,
or is `Plain`, that is, a literal that can be typed or an operator key. `Grown` says so of two buffers,
and there is a lemma for each edit of a buffer that is `Typable`.
-/

namespace Reckoner

/-! ## §1 Literals -/

namespace Literal

theorem digits_append {s t : String} (hs : ∀ c ∈ s.toList, Text.isAsciiDigit c = true)
    (ht : ∀ c ∈ t.toList, Text.isAsciiDigit c = true) :
    ∀ c ∈ (s ++ t).toList, Text.isAsciiDigit c = true := by
  intro c hc
  rw [String.toList_append, List.mem_append] at hc
  exact hc.elim (hs c) (ht c)

/-- The text of a natural is made of digits. -/
theorem digits_toString (n : Nat) : ∀ c ∈ (toString n).toList, Text.isAsciiDigit c = true := by
  intro c hc
  rw [Nat.toString_eq_repr, Nat.toList_repr] at hc
  have hdigit : c.isDigit = true := Nat.isDigit_of_mem_toDigits (by decide) (by decide) hc
  unfold Char.isDigit at hdigit
  exact hdigit

theorem digits_dropLastChar {s : String} (hs : ∀ c ∈ s.toList, Text.isAsciiDigit c = true) :
    ∀ c ∈ (dropLastChar s).toList, Text.isAsciiDigit c = true := by
  intro c hc
  rw [dropLastChar, String.toList_ofList] at hc
  exact hs c (List.dropLast_subset _ hc)

theorem append_toString_nonempty (s : String) (n : Nat) : (s ++ toString n).isEmpty = false := by
  simp [Nat.toString_eq_repr, String.isEmpty_eq_false_iff, String.append_eq_empty_iff]

variable {l l' : Literal}

theorem WellFormed.withExponent (h : l.WellFormed) (e : Int) : (l.withExponent e).WellFormed :=
  ⟨h.nonempty, h.whole, h.fraction, h.point⟩

/-- A digit may be typed behind a literal, or begin one. -/
theorem addDigit_wellFormed (h : l = .empty ∨ l.WellFormed) {d : Fin 10}
    (hl : l.addDigit d = some l') : l'.WellFormed := by
  unfold addDigit at hl
  rcases h with rfl | h
  -- The empty literal has neither exponent nor point, so its first digit is a whole digit.
  · cases hl
    refine ⟨?_, ?_, ?_, ?_⟩
    · simp only [isEmpty, append_toString_nonempty, Bool.and_false]
    · exact digits_append (by simp [empty]) (digits_toString d.val)
    · simp [empty]
    · simp [empty]
  -- A later digit goes where the literal is being written: into the exponent, the fraction or the whole
  -- part.
  · split at hl
    · split at hl
      · cases hl
      · cases hl
        exact h.withExponent _
    · split at hl
      · next hpoint =>
        cases hl
        refine ⟨?_, h.whole, digits_append h.fraction (digits_toString d.val), fun _ => hpoint⟩
        simp [isEmpty, hpoint]
      · cases hl
        refine ⟨?_, digits_append h.whole (digits_toString d.val), h.fraction, h.point⟩
        simp only [isEmpty, append_toString_nonempty, Bool.and_false]

/-- A point may be typed behind a literal, or begin one. -/
theorem addPoint_wellFormed (h : l = .empty ∨ l.WellFormed) (hl : l.addPoint = some l') :
    l'.WellFormed := by
  unfold addPoint at hl
  split at hl
  · cases hl
  · cases hl
    -- The point may stand alone, and then it makes the literal nonempty.
    rcases h with rfl | h
    · exact ⟨rfl, by simp [empty], by simp [empty], fun _ => rfl⟩
    · exact ⟨rfl, h.whole, h.fraction, fun _ => rfl⟩

/-- What is left of a literal is empty or can be typed. -/
theorem delete_wellFormed (h : l.WellFormed) (hl : l.delete.isEmpty = false) :
    l.delete.WellFormed := by
  unfold delete at hl ⊢
  split
  · exact h.withExponent _
  · split
    · next hfraction =>
      have hpoint : l.point = true := h.point (by simpa using hfraction)
      exact ⟨by simp [isEmpty, hpoint], h.whole, digits_dropLastChar h.fraction, fun _ => hpoint⟩
    -- Without fraction digits nothing depends on the point any more.
    · next hexponent hfraction =>
      have hnone : l.fraction.isEmpty = true := by simpa using hfraction
      split
      · next hpoint =>
        rw [if_neg hexponent, if_neg hfraction, if_pos hpoint] at hl
        exact ⟨hl, h.whole, h.fraction, fun hne => absurd hnone (Bool.eq_false_iff.mp hne)⟩
      · next hpoint =>
        rw [if_neg hexponent, if_neg hfraction, if_neg hpoint] at hl
        exact ⟨hl, digits_dropLastChar h.whole, h.fraction,
          fun hne => absurd hnone (Bool.eq_false_iff.mp hne)⟩

end Literal

/-! ## §2 Buffers -/

/-- A literal that can be typed, or an operator key. -/
def Token.Plain (t : Token) : Prop :=
  t.number? = none ∧ t.Sound

theorem Token.plain_symbol (s : Symbol) : (Token.symbol s).Plain :=
  ⟨rfl, s, rfl⟩

theorem Token.plain_literal {l : Literal} (h : l.WellFormed) : (Token.literal l).Plain :=
  ⟨rfl, h⟩

/-- What keys type can be displayed. -/
theorem Token.Plain.text_ok {t : Token} (h : t.Plain) : ∃ text, t.text = .ok text := by
  obtain ⟨hnumber, hsound⟩ := h
  cases t with
  | literal l => exact ⟨_, rfl⟩
  | operator o =>
    obtain ⟨s, rfl⟩ := hsound
    exact Token.operatorText_listed s
  | stored n v e s x => cases hnumber

theorem Buffer.describe_plain {b : Buffer} (h : ∀ t ∈ b, t.Plain) : ∃ name, b.describe = .ok name :=
  describe_ok fun t ht => (h t ht).text_ok

namespace Buffer

/-- The tokens of `c` are plain, or are tokens of `b`. -/
def Grown (b c : Buffer) : Prop :=
  ∀ t ∈ c, t ∈ b ∨ t.Plain

variable {b c : Buffer}

theorem Grown.refl (b : Buffer) : Grown b b :=
  fun _ ht => .inl ht

theorem grown_take (b : Buffer) (n : Nat) : Grown b (b.take n) :=
  fun _ ht => .inl (List.mem_of_mem_take ht)

theorem Grown.push (h : Grown b c) {ts : List Token} (hts : ∀ t ∈ ts, t.Plain) :
    Grown b (c ++ ts) := by
  intro t ht
  rcases List.mem_append.mp ht with ht | ht
  · exact h t ht
  · exact .inr (hts t ht)

/-- Giving the literal at the end new contents. -/
theorem grown_revising (b : Buffer) {l : Literal} (hl : l.WellFormed) :
    Grown b ((Edit.revising b l).apply b) := by
  intro t ht
  rcases List.mem_append.mp ht with ht | ht
  · rcases List.mem_append.mp (List.mem_of_mem_take ht) with ht | ht
    · exact .inl (List.dropLast_subset _ ht)
    · obtain rfl := List.mem_singleton.mp ht
      exact .inr (Token.plain_literal hl)
  · cases ht

theorem grown_pushing (b : Buffer) {ts : List Token} (hts : ∀ t ∈ ts, t.Plain) :
    Grown b ((Edit.pushing b ts).apply b) :=
  (grown_take b _).push hts

/-- A buffer all of whose literals can be typed. -/
def Typable (b : Buffer) : Prop :=
  ∀ l, .literal l ∈ b → l.WellFormed

theorem typable_of_sound (h : ∀ t ∈ b, t.Sound) : b.Typable :=
  fun _ hl => h _ hl

theorem Grown.typable (h : Grown b c) (hb : b.Typable) : c.Typable :=
  fun l hl => (h _ hl).elim (hb l) fun hplain => hplain.2

/-- Typing keeps the buffer but for the literal at its end, as long as the literal stays well formed. -/
theorem grown_typeEdit (hb : b.Typable) {type : Literal → Option Literal}
    (htype : ∀ l l', l = .empty ∨ l.WellFormed → type l = some l' → l'.WellFormed) {e : Edit}
    (he : b.typeEdit type = some e) : Grown b (e.apply b) := by
  unfold typeEdit at he
  -- A literal at the end is revised; behind a stored result a multiplication sign comes first; otherwise
  -- the literal is only added.
  split at he
  · next l hlast =>
    obtain ⟨l', hl', rfl⟩ := Option.map_eq_some_iff.mp he
    exact grown_revising b (htype l l' (.inr (hb l (List.mem_of_getLast? hlast))) hl')
  · obtain ⟨l', hl', rfl⟩ := Option.map_eq_some_iff.mp he
    refine grown_pushing b fun t ht => ?_
    rcases List.mem_cons.mp ht with rfl | ht
    · exact Token.plain_symbol .times
    · obtain rfl := List.mem_singleton.mp ht
      exact Token.plain_literal (htype _ l' (.inl rfl) hl')
  · obtain ⟨l', hl', rfl⟩ := Option.map_eq_some_iff.mp he
    refine grown_pushing b fun t ht => ?_
    obtain rfl := List.mem_singleton.mp ht
    exact Token.plain_literal (htype _ l' (.inl rfl) hl')

/-- An operator key takes waiting operators away, or leaves everything, and adds itself. -/
theorem grown_symbolEdit {s : Symbol} {e : Edit} (he : b.symbolEdit s = some e) :
    Grown b (e.apply b) := by
  have hs : ∀ t ∈ [Token.symbol s], t.Plain := by
    intro t ht
    obtain rfl := List.mem_singleton.mp ht
    exact Token.plain_symbol s
  unfold symbolEdit at he
  split at he
  · split at he
    · cases he
    · cases he
      exact (grown_take b _).push hs
  · cases he
    exact grown_pushing b hs

/-- Pressing a key adds a literal or an operator at most. -/
theorem grown_press (hb : b.Typable) {n : Int} {accepted : Bool}
    (h : b.press n = .ok (accepted, c)) : Grown b c := by
  simp only [press, bind_ok_iff] at h
  obtain ⟨edit, hedit, h⟩ := h
  unfold pressEdit at hedit
  split at hedit
  · next k _ =>
    cases hedit
    split at h
    · next e he =>
      cases h
      -- Each kind of key comes with its own edit.
      cases k with
      | digit d => exact grown_typeEdit hb (fun _ _ h hl => Literal.addDigit_wellFormed h hl) he
      | point => exact grown_typeEdit hb (fun _ _ h hl => Literal.addPoint_wellFormed h hl) he
      | symbol s => exact grown_symbolEdit he
    · cases h
      exact .refl b
  · cases hedit

/-- Setting an exponent changes the literal at the end at most. -/
theorem grown_setExponent (hb : b.Typable) (e : Int) : Grown b (b.setExponent e).2 := by
  unfold setExponent exponentEdit
  -- Only a literal has an exponent; the other ends reject the edit.
  cases hlast : b.getLast? with
  | none => exact .refl b
  | some t =>
    cases t with
    | literal l =>
      have hl := hb l (List.mem_of_getLast? hlast)
      refine grown_revising b ?_
      split
      · exact hl
      · exact hl.withExponent e
    | operator o => exact .refl b
    | stored n v e s x => exact .refl b

/-- Deleting shortens the literal at the end, or drops the last token. -/
theorem grown_delete (hb : b.Typable) : Grown b b.delete := by
  unfold delete deleteEdit
  split
  · next l hlast =>
    have hl := hb l (List.mem_of_getLast? hlast)
    intro t ht
    simp only [hl.nonempty, Bool.false_eq_true, if_false, Edit.apply, Edit.revise,
      List.append_nil] at ht
    -- What is left of the literal is empty exactly if the literal itself is dropped.
    rcases hleft : l.delete.isEmpty with _ | _
    · rw [hleft] at ht
      rcases List.mem_append.mp (List.mem_of_mem_take ht) with ht | ht
      · exact .inl (List.dropLast_subset _ ht)
      · obtain rfl := List.mem_singleton.mp ht
        exact .inr (Token.plain_literal (Literal.delete_wellFormed hl hleft))
    · rw [hleft] at ht
      have hlength : b.length - 1 = b.dropLast.length := List.length_dropLast.symm
      rw [if_pos rfl, hlength, List.take_left] at ht
      exact .inl (List.dropLast_subset _ ht)
  · rw [Edit.apply, Edit.keeping, List.append_nil]
    exact grown_take b _

/-- What keys build from nothing is plain. By induction on the keys. -/
theorem plain_of_pressAll {ns : List Int} (hb : ∀ t ∈ b, t.Plain) (h : b.pressAll ns = .ok c) :
    ∀ t ∈ c, t.Plain := by
  induction ns generalizing b with
  | nil =>
    cases h
    exact hb
  | cons n ns ih =>
    simp only [pressAll, bind_ok_iff] at h
    obtain ⟨⟨accepted, pressed⟩, hpress, h⟩ := h
    -- What the first key leaves is plain again, since a key only adds what is plain.
    refine ih (fun t ht => ?_) h
    rcases grown_press (typable_of_sound fun t ht => (hb t ht).2) hpress t ht with ht | ht
    · exact hb t ht
    · exact ht

theorem plain_of_ofKeys {ns : List Int} (h : ofKeys ns = .ok b) : ∀ t ∈ b, t.Plain :=
  plain_of_pressAll (by simp) h

end Buffer

end Reckoner
