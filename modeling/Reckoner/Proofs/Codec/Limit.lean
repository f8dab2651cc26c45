import Reckoner.Proofs.Codec.Outline

/-!
# Writing with limited room

There may be room only for stored results that are nested less deeply than a limit. What counts is how
deeply they are nested in the records that are written, where some stand as numbers, and not how deeply
they are nested in the buffer.

- `save_of_saveWithin`: within a limit nothing else is written than without one;
- `saveWithin_eq`: what can be saved without a limit is saved within one if its records are nested less
  deeply, and there is too little room otherwise.
-/

namespace Reckoner.Codec

/-! ## §1 More room -/

theorem enter_succ_bind {α : Type} (room : Nat) (f : Option Nat → Except WriteError α) :
    (enter (some (room + 1)) >>= f) = f (some room) := by
  rw [enter]
  exact ok_bind (some room) f

/-- Where a buffer was entered there was room for it. -/
theorem of_enter_some_ok {room : Nat} {room' : Option Nat} (h : enter (some room) = .ok room') :
    ∃ below, room = below + 1 ∧ room' = some below := by
  cases room with
  | zero => cases h
  | succ below =>
    cases h
    exact ⟨below, rfl, rfl⟩

/-- What is written within a limit is written without one. By induction on the buffer. -/
theorem writeEach_of_some {room : Nat} {T : Issued Identity} {b : Buffer}
    {y : Bytes × Issued Identity} (h : writeEach (some room) T b = .ok y) :
    writeEach none T b = .ok y := by
  induction b using Buffer.induction generalizing room T y with
  | nil => exact h
  | literal l ts ih =>
    simp only [writeEach, bind_ok_iff] at h ⊢
    obtain ⟨first, hfirst, rest, hrest, hy⟩ := h
    exact ⟨first, hfirst, rest, ih hrest, hy⟩
  | operator o ts ih =>
    simp only [writeEach, bind_ok_iff] at h ⊢
    obtain ⟨first, hfirst, rest, hrest, hy⟩ := h
    exact ⟨first, hfirst, rest, ih hrest, hy⟩
  | stored n v e s x ts ihe ih =>
    simp only [writeEach, bind_ok_iff] at h ⊢
    obtain ⟨first, hfirst, rest, hrest, hy⟩ := h
    refine ⟨first, ?_, rest, ih hrest, hy⟩
    unfold writeToken at hfirst ⊢
    split at hfirst
    · exact hfirst
    -- A limit is met only where a buffer begins, here that of a full record.
    · simp only [enter_none_bind, bind_ok_iff] at hfirst ⊢
      obtain ⟨number, hnumber, room', hroom, count, hcount, inner, hinner, hfirst⟩ := hfirst
      obtain ⟨below, rfl, rfl⟩ := of_enter_some_ok hroom
      exact ⟨number, hnumber, count, hcount, inner, ihe hinner, hfirst⟩

/-- What is saved within a limit is saved without one. -/
theorem save_of_saveWithin {room : Option Nat} {b : Buffer} {saved : Saved}
    (h : saveWithin room b = .ok saved) : save b = .ok saved := by
  cases room with
  | none => exact h
  | some room =>
    simp only [save, saveWithin, writeTokens, enter_none_bind, bind_ok_iff] at h ⊢
    obtain ⟨written, ⟨room', hroom, count, hcount, each, heach, hwritten⟩, hsaved⟩ := h
    obtain ⟨below, rfl, rfl⟩ := of_enter_some_ok hroom
    exact ⟨written, ⟨count, hcount, each, writeEach_of_some heach, hwritten⟩, hsaved⟩

/-! ## §2 As much room as it takes -/

variable {T T₁ T₂ : Issued Identity} {t : Token} {ts : List Token} {rs : List Record}
  {first rest bytes : Bytes}

/-- There is room for tokens if there is room for the first one and for the others. -/
theorem writeEach_cons_eq {r : Record} {room : Nat}
    (h : writeToken (some room) T t
      = if depth r ≤ room then .ok (first, T₁) else .error .nestedTooDeeply)
    (hs : writeEach (some room) T₁ ts
      = if depthEach rs ≤ room then .ok (rest, T₂) else .error .nestedTooDeeply) :
    writeEach (some room) T (t :: ts)
      = if depthEach (r :: rs) ≤ room then .ok (first ++ rest, T₂) else .error .nestedTooDeeply := by
  have hmax : depthEach (r :: rs) ≤ room ↔ depth r ≤ room ∧ depthEach rs ≤ room := by
    rw [depthEach, Nat.max_le]
  rw [writeEach, h]
  -- There is too little room for the first token, or for the others, or there is enough for all.
  by_cases hr : depth r ≤ room
  · rw [if_pos hr, ok_bind]
    dsimp only
    rw [hs]
    by_cases hrs : depthEach rs ≤ room
    · rw [if_pos hrs, if_pos (hmax.mpr ⟨hr, hrs⟩)]
      rfl
    · rw [if_neg hrs, if_neg fun h => hrs (hmax.mp h).2]
      rfl
  · rw [if_neg hr, if_neg fun h => hr (hmax.mp h).1]
    rfl

/-- A full record takes one level of room, and what its expression takes. -/
theorem writeToken_full_eq {n : Nat} {v : Value} {e : List Token} {s : Scope} {x : Option String}
    {inner : List Record} (hnone : T.lookup v.identity = none) (hlength : inner.length = e.length)
    (hencode : encode (.full T.reserve.1 inner s.degrees x) = .ok bytes)
    (hinner : ∀ each, encodeEach inner = .ok each → ∀ room, writeEach (some room) T.reserve.2 e
      = if depthEach inner ≤ room then .ok (each, T₁) else .error .nestedTooDeeply) (room : Nat) :
    writeToken (some room) T (.stored n v e s x)
      = if depthEach inner + 1 ≤ room then .ok (bytes, T₁.bind v.identity T.reserve.1)
        else .error .nestedTooDeeply := by
  obtain ⟨number, _, text, hnumber, hall, htext, rfl⟩ := encode_full_ok_iff.mp hencode
  obtain ⟨count, each, hcount, heach, rfl⟩ := encodeAll_ok_iff.mp hall
  rw [hlength] at hcount
  rw [writeToken, hnone]
  dsimp only
  rw [hnumber, ok_bind]
  cases room with
  | zero =>
    rw [if_neg (Nat.not_succ_le_zero _)]
    rfl
  | succ room =>
    rw [enter_succ_bind, hcount, ok_bind, hinner each heach room]
    -- The text is written only after the expression, so it does not matter where there is too little room.
    by_cases hroom : depthEach inner ≤ room
    · rw [if_pos hroom, if_pos (Nat.succ_le_succ hroom), ok_bind]
      dsimp only
      rw [htext, ok_bind]
      simp only [List.append_assoc]
      rfl
    · rw [if_neg hroom, if_neg fun h => hroom (Nat.le_of_succ_le_succ h)]
      rfl

/-- Within a limit tokens are written if their records are nested no more deeply. By induction on the
outline. -/
theorem Outlines.writeEach_eq (h : Outlines byValue T ts rs T₁) (hencode : encodeEach rs = .ok bytes)
    (room : Nat) : writeEach (some room) T ts
      = if depthEach rs ≤ room then .ok (bytes, T₁) else .error .nestedTooDeeply := by
  induction h generalizing bytes room with
  | nil T =>
    obtain rfl := Except.ok.inj hencode
    rfl
  | @literal T T' ts rs l _ ih =>
    obtain ⟨first, rest, hfirst, hrest, rfl⟩ := encodeEach_cons_ok_iff.mp hencode
    have hwrite : writeToken (some room) T (.literal l) = .ok (first, T) := by
      simp only [encode, bind_ok_iff, return_ok_iff] at hfirst
      obtain ⟨written, hwritten, rfl⟩ := hfirst
      rw [writeToken, hwritten]
      rfl
    exact writeEach_cons_eq (r := .literal l) hwrite (ih hrest room)
  | @operator T T' ts rs o _ ih =>
    obtain ⟨first, rest, hfirst, hrest, rfl⟩ := encodeEach_cons_ok_iff.mp hencode
    have hwrite : writeToken (some room) T (.operator o) = .ok (first, T) := by
      simp only [encode, bind_ok_iff, return_ok_iff] at hfirst
      obtain ⟨written, hwritten, rfl⟩ := hfirst
      rw [writeToken, hwritten]
      rfl
    exact writeEach_cons_eq (r := .operator o.code) hwrite (ih hrest room)
  -- A number takes no room, whatever it stands for.
  | @known T T' ts rs n v i e s x hi _ ih =>
    obtain ⟨first, rest, hfirst, hrest, rfl⟩ := encodeEach_cons_ok_iff.mp hencode
    have hlookup : T.lookup v.identity = some i := hi
    have hwrite : writeToken (some room) T (.stored n v e s x) = .ok (first, T) := by
      simp only [encode, bind_ok_iff, return_ok_iff] at hfirst
      obtain ⟨written, hwritten, rfl⟩ := hfirst
      rw [writeToken, hlookup]
      dsimp only
      rw [hwritten]
      rfl
    exact writeEach_cons_eq (r := .reference i) hwrite (ih hrest room)
  | fresh s x hnone he _ ihe ih =>
    obtain ⟨first, rest, hfirst, hrest, rfl⟩ := encodeEach_cons_ok_iff.mp hencode
    exact writeEach_cons_eq
      (writeToken_full_eq hnone he.length_eq hfirst (fun _ heach => ihe heach) room) (ih hrest room)

/-- What can be saved without a limit can be saved within one if its records are nested less deeply, and
there is too little room otherwise. -/
theorem saveWithin_eq {b : Buffer} {saved : Saved} (h : save b = .ok saved) (room : Nat) :
    saveWithin (some room) b
      = if depthEach (outline byValue b) < room then .ok saved else .error .nestedTooDeeply := by
  obtain ⟨rs, T, houtlines, hencode, hshared⟩ := save_ok_iff.mp h
  obtain ⟨count, each, hcount, heach, hbytes⟩ := encodeAll_ok_iff.mp hencode
  rw [houtlines.length_eq] at hcount
  rw [houtlines.eq_outline, saveWithin, writeTokens]
  cases room with
  | zero =>
    rw [if_neg (Nat.not_lt_zero _)]
    rfl
  | succ room =>
    rw [enter_succ_bind, hcount, ok_bind, houtlines.writeEach_eq heach room]
    -- The buffer itself takes the first level.
    by_cases hroom : depthEach rs ≤ room
    · rw [if_pos hroom, if_pos (Nat.lt_succ_of_le hroom)]
      obtain ⟨bytes, shared⟩ := saved
      subst hbytes hshared
      rfl
    · rw [if_neg hroom, if_neg fun h => hroom (Nat.le_of_lt_succ h)]
      rfl

end Reckoner.Codec
