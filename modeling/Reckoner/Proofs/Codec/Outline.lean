import Reckoner.Codec.Buffer
import Reckoner.Proofs.Buffer.Nested
import Reckoner.Proofs.Outcome

/-!
# Outlines of saved buffers

Saving a buffer does two things at once: it decides which stored results are written in full and
which by number, and it turns all that into bytes. Here the two are taken apart.

- `Record` is what stands in a saved buffer, before it is bytes; `encodeEach` makes the bytes;
- `Outlines` says which records a buffer has. The key by which stored results are shared is a
  parameter: saving goes by the identity of values (`byValue`), an ideal saving would go by the
  stored results themselves (`byToken`);
- `outline` computes the records of a whole buffer;
- `writeTokens_ok_iff` puts the two parts together again: saving is encoding the outline by value.
-/

namespace Reckoner.Codec

/-! ## §1 Records -/

/-- What stands for a token in a saved buffer. -/
inductive Record where
  | literal (l : Literal)
  | operator (n : Int)
  | reference (n : Int)
  | full (n : Int) (expr : List Record) (degrees : Bool) (text : Option String)
  deriving Repr, Inhabited

mutual

/-- The bytes of a record. -/
def encode : Record → Except WriteError Bytes
  | .literal l => do return writeTag Token.literalTag ++ (← writeLiteral l)
  | .operator n => do return writeTag Token.operatorTag ++ (← writeInt n)
  | .reference n => do return writeTag Token.storedTag ++ (← writeInt n)
  | .full n expr degrees text => do
    let number ← writeInt n
    let count ← writeInt expr.length
    let inner ← encodeEach expr
    let text ← writeStoredText text
    return writeTag Token.storedTag ++ number ++ count ++ inner ++ writeBool degrees ++ text

/-- The bytes of records one after the other. -/
def encodeEach : List Record → Except WriteError Bytes
  | [] => .ok []
  | r :: rs => do
    let first ← encode r
    let rest ← encodeEach rs
    return first ++ rest

end

/-- The bytes of the records of a buffer, after their count. -/
def encodeAll (rs : List Record) : Except WriteError Bytes := do
  let count ← writeInt rs.length
  let each ← encodeEach rs
  return count ++ each

theorem encodeAll_ok_iff {rs : List Record} {bytes : Bytes} :
    encodeAll rs = .ok bytes ↔ ∃ count each, writeInt rs.length = .ok count
      ∧ encodeEach rs = .ok each ∧ bytes = count ++ each := by
  simp only [encodeAll, bind_ok_iff, return_ok_iff, eq_comm (a := bytes), exists_and_left]

theorem encodeEach_cons_ok_iff {r : Record} {rs : List Record} {bytes : Bytes} :
    encodeEach (r :: rs) = .ok bytes
      ↔ ∃ first rest, encode r = .ok first ∧ encodeEach rs = .ok rest ∧ bytes = first ++ rest := by
  simp only [encodeEach, bind_ok_iff, return_ok_iff, eq_comm (a := bytes), exists_and_left]

/-- A full record is encoded with the records of its expression as a buffer inside. -/
theorem encode_full_ok_iff {n : Int} {rs : List Record} {degrees : Bool} {text : Option String}
    {bytes : Bytes} :
    encode (.full n rs degrees text) = .ok bytes
      ↔ ∃ number inner written, writeInt n = .ok number ∧ encodeAll rs = .ok inner
        ∧ writeStoredText text = .ok written
        ∧ bytes = writeTag Token.storedTag ++ number ++ inner ++ writeBool degrees ++ written := by
  simp only [encode, encodeAll_ok_iff, bind_ok_iff, return_ok_iff]
  constructor
  · rintro ⟨number, hnumber, count, hcount, each, heach, written, hwritten, rfl⟩
    exact ⟨number, count ++ each, written, hnumber, ⟨count, each, hcount, heach, rfl⟩, hwritten,
      by simp only [List.append_assoc]⟩
  · rintro ⟨number, _, written, hnumber, ⟨count, each, hcount, heach, rfl⟩, hwritten, rfl⟩
    exact ⟨number, hnumber, count, hcount, each, heach, written, hwritten,
      by simp only [List.append_assoc]⟩

mutual

/-- How deeply full records are nested in a record. -/
def depth : Record → Nat
  | .literal _ => 0
  | .operator _ => 0
  | .reference _ => 0
  | .full _ expr _ _ => depthEach expr + 1

/-- How deeply full records are nested in records. -/
def depthEach : List Record → Nat
  | [] => 0
  | r :: rs => max (depth r) (depthEach rs)

end

/-- Records are nested no more deeply than each of them is. -/
theorem depthEach_le_iff {rs : List Record} {d : Nat} :
    depthEach rs ≤ d ↔ ∀ r ∈ rs, depth r ≤ d := by
  induction rs with
  | nil => exact ⟨fun _ => nofun, fun _ => Nat.zero_le d⟩
  | cons r rs ih => rw [depthEach, Nat.max_le, ih, List.forall_mem_cons]

theorem exists_encode_literal {l : Literal} (h : ∃ bytes, writeLiteral l = .ok bytes) :
    ∃ bytes, encode (.literal l) = .ok bytes := by
  obtain ⟨written, hwritten⟩ := h
  exact ⟨_, by rw [encode, hwritten]; rfl⟩

theorem exists_encode_operator {n : Int} (h : ∃ bytes, writeInt n = .ok bytes) :
    ∃ bytes, encode (.operator n) = .ok bytes := by
  obtain ⟨number, hnumber⟩ := h
  exact ⟨_, by rw [encode, hnumber]; rfl⟩

theorem exists_encode_reference {n : Int} (h : ∃ bytes, writeInt n = .ok bytes) :
    ∃ bytes, encode (.reference n) = .ok bytes := by
  obtain ⟨number, hnumber⟩ := h
  exact ⟨_, by rw [encode, hnumber]; rfl⟩

/-- A full record can be encoded if what stands in it can. -/
theorem exists_encode_full {n : Int} {rs : List Record} {text : Option String}
    (hnumber : ∃ bytes, writeInt n = .ok bytes) (hcount : ∃ bytes, writeInt rs.length = .ok bytes)
    (heach : ∃ bytes, encodeEach rs = .ok bytes) (htext : ∃ bytes, writeStoredText text = .ok bytes)
    (degrees : Bool) : ∃ bytes, encode (.full n rs degrees text) = .ok bytes := by
  obtain ⟨number, hnumber⟩ := hnumber
  obtain ⟨count, hcount⟩ := hcount
  obtain ⟨each, heach⟩ := heach
  obtain ⟨written, hwritten⟩ := htext
  have hall : encodeAll rs = .ok (count ++ each) := encodeAll_ok_iff.mpr ⟨count, each, hcount, heach, rfl⟩
  exact ⟨_, encode_full_ok_iff.mpr ⟨number, _, written, hnumber, hall, hwritten, rfl⟩⟩

theorem exists_encodeEach_nil : ∃ bytes, encodeEach [] = .ok bytes :=
  ⟨[], rfl⟩

/-- Encodable records in front of encodable ones. -/
theorem exists_encodeEach_cons {r : Record} {rs : List Record} (h : ∃ bytes, encode r = .ok bytes)
    (hs : ∃ bytes, encodeEach rs = .ok bytes) : ∃ bytes, encodeEach (r :: rs) = .ok bytes := by
  obtain ⟨first, hfirst⟩ := h
  obtain ⟨rest, hrest⟩ := hs
  exact ⟨first ++ rest, encodeEach_cons_ok_iff.mpr ⟨first, rest, hfirst, hrest, rfl⟩⟩

/-- Records can be encoded if each of them can. -/
theorem exists_encodeEach {rs : List Record} (h : ∀ r ∈ rs, ∃ bytes, encode r = .ok bytes) :
    ∃ bytes, encodeEach rs = .ok bytes := by
  induction rs with
  | nil => exact exists_encodeEach_nil
  | cons r rs ih =>
    obtain ⟨hr, hrs⟩ := List.forall_mem_cons.mp h
    exact exists_encodeEach_cons hr (ih hrs)

/-- The bytes of two runs of records stand one behind the other. -/
theorem encodeEach_append {rs rs' : List Record} {bytes bytes' : Bytes}
    (h : encodeEach rs = .ok bytes) (h' : encodeEach rs' = .ok bytes') :
    encodeEach (rs ++ rs') = .ok (bytes ++ bytes') := by
  induction rs generalizing bytes with
  | nil =>
    obtain rfl := Except.ok.inj h
    exact h'
  | cons r rs ih =>
    obtain ⟨first, rest, hfirst, hrest, rfl⟩ := encodeEach_cons_ok_iff.mp h
    rw [List.append_assoc]
    exact encodeEach_cons_ok_iff.mpr ⟨first, rest ++ bytes', hfirst, ih hrest, rfl⟩

/-! ## §2 Outlines -/

variable {κ : Type} [BEq κ]

namespace Issued

theorem lookup_reserve (T : Issued κ) (k : κ) : T.reserve.2.lookup k = T.lookup k := rfl

theorem lookup_bind_self [LawfulBEq κ] (T : Issued κ) (k : κ) (i : Int) :
    (T.bind k i).lookup k = some i := by
  unfold Issued.lookup Issued.bind
  exact List.lookup_cons_self

theorem lookup_bind_of_ne [LawfulBEq κ] (T : Issued κ) {k k' : κ} (h : k' ≠ k) (i : Int) :
    (T.bind k i).lookup k' = T.lookup k' := by
  unfold Issued.lookup Issued.bind
  rw [List.lookup_cons, beq_eq_false_iff_ne.mpr h]

end Issued

/-- Sharing by the identity of the value. -/
def byValue (_ : Nat) (v : Value) : Identity :=
  v.identity

/-- Sharing by the number of the stored result itself. -/
def byToken (n : Nat) (_ : Value) : Nat :=
  n

/-- The records of tokens, given which keys have numbers before and after. -/
inductive Outlines (key : Nat → Value → κ) :
    Issued κ → List Token → List Record → Issued κ → Prop where
  | nil (T : Issued κ) : Outlines key T [] [] T
  | literal {T T' : Issued κ} {ts : List Token} {rs : List Record} (l : Literal) :
      Outlines key T ts rs T' → Outlines key T (.literal l :: ts) (.literal l :: rs) T'
  | operator {T T' : Issued κ} {ts : List Token} {rs : List Record} (o : Operator) :
      Outlines key T ts rs T' → Outlines key T (.operator o :: ts) (.operator o.code :: rs) T'
  | known {T T' : Issued κ} {ts : List Token} {rs : List Record} {n : Nat} {v : Value}
      {i : Int} (e : List Token) (s : Scope) (x : Option String) (h : T.lookup (key n v) = some i) :
      Outlines key T ts rs T' → Outlines key T (.stored n v e s x :: ts) (.reference i :: rs) T'
  | fresh {T T₁ T₂ : Issued κ} {e ts : List Token} {inner rs : List Record} {n : Nat} {v : Value}
      (s : Scope) (x : Option String) (h : T.lookup (key n v) = none) :
      Outlines key T.reserve.2 e inner T₁ →
      Outlines key (T₁.bind (key n v) T.reserve.1) ts rs T₂ →
      Outlines key T (.stored n v e s x :: ts) (.full T.reserve.1 inner s.degrees x :: rs) T₂

mutual

/-- The record of a token, and the numbers given out after it. -/
def outlineToken (key : Nat → Value → κ) (T : Issued κ) : Token → Record × Issued κ
  | .literal l => (.literal l, T)
  | .operator o => (.operator o.code, T)
  | .stored n v e s x =>
    match T.lookup (key n v) with
    | some i => (.reference i, T)
    | none =>
      let (inner, T₁) := outlineEach key T.reserve.2 e
      (.full T.reserve.1 inner s.degrees x, T₁.bind (key n v) T.reserve.1)

/-- The records of tokens one after the other, and the numbers given out after them. -/
def outlineEach (key : Nat → Value → κ) (T : Issued κ) : List Token → List Record × Issued κ
  | [] => ([], T)
  | t :: ts =>
    let (r, T₁) := outlineToken key T t
    let (rs, T₂) := outlineEach key T₁ ts
    (r :: rs, T₂)

end

/-- The records of a buffer. -/
def outline (key : Nat → Value → κ) (b : Buffer) : List Record :=
  (outlineEach key .empty b).1

/-- The records that are computed are an outline. -/
theorem outlines_outlineEach (key : Nat → Value → κ) (T : Issued κ) (b : Buffer) :
    Outlines key T b (outlineEach key T b).1 (outlineEach key T b).2 := by
  induction b using Buffer.induction generalizing T with
  | nil => exact .nil T
  | literal l ts ih => exact .literal l (ih T)
  | operator o ts ih => exact .operator o (ih T)
  | stored n v e s x ts ihe ihts =>
    -- A stored result whose key has a number is a reference, any other a full record.
    cases h : T.lookup (key n v) with
    | some i =>
      simp only [outlineEach, outlineToken, h]
      exact .known e s x h (ihts T)
    | none =>
      simp only [outlineEach, outlineToken, h]
      exact .fresh s x h (ihe _) (ihts _)

/-- Tokens have only one outline. -/
theorem Outlines.eq_outlineEach {key : Nat → Value → κ} {T T' : Issued κ} {ts : List Token}
    {rs : List Record} (h : Outlines key T ts rs T') : outlineEach key T ts = (rs, T') := by
  induction h with
  | nil T => rfl
  | literal l _ ih => simp only [outlineEach, outlineToken, ih]
  | operator o _ ih => simp only [outlineEach, outlineToken, ih]
  | known e s x h _ ih => simp only [outlineEach, outlineToken, h, ih]
  | fresh s x h _ _ ihe ihts => simp only [outlineEach, outlineToken, h, ihe, ihts]

theorem Outlines.eq_outline {key : Nat → Value → κ} {T : Issued κ} {b : Buffer}
    {rs : List Record} (h : Outlines key .empty b rs T) : outline key b = rs := by
  rw [outline, h.eq_outlineEach]

/-- The records of tokens, and then of others. -/
theorem Outlines.append {key : Nat → Value → κ} {T T₁ T₂ : Issued κ} {ts us : List Token}
    {rs rs' : List Record} (h : Outlines key T ts rs T₁) (h' : Outlines key T₁ us rs' T₂) :
    Outlines key T (ts ++ us) (rs ++ rs') T₂ := by
  induction h with
  | nil T => exact h'
  | literal l _ ih => exact .literal l (ih h')
  | operator o _ ih => exact .operator o (ih h')
  | known e s x hi _ ih => exact .known e s x hi (ih h')
  | fresh s x hnone he _ _ ih => exact .fresh s x hnone he (ih h')

/-- There are as many records as tokens. -/
theorem Outlines.length_eq {key : Nat → Value → κ} {T T' : Issued κ} {ts : List Token}
    {rs : List Record} (h : Outlines key T ts rs T') : rs.length = ts.length := by
  induction h with
  | nil T => rfl
  | literal l _ ih => simp only [List.length_cons, ih]
  | operator o _ ih => simp only [List.length_cons, ih]
  | known e s x h _ ih => simp only [List.length_cons, ih]
  | fresh s x h _ _ _ ihts => simp only [List.length_cons, ihts]

/-- Records are nested no more deeply than the stored results they are for. -/
theorem Outlines.depth_le {key : Nat → Value → κ} {T T' : Issued κ} {ts : List Token}
    {rs : List Record} (h : Outlines key T ts rs T') : depthEach rs ≤ Buffer.depth ts := by
  -- On the outline; only a full record adds a level, and then the stored result that it is for has one
  -- too.
  induction h with
  | nil T => exact Nat.le_refl _
  | literal l _ ih => simpa [depthEach, depth, Buffer.depth, Token.depth] using ih
  | operator o _ ih => simpa [depthEach, depth, Buffer.depth, Token.depth] using ih
  | known e s x h _ ih => simp [depthEach, depth, Buffer.depth, Token.depth]; omega
  | fresh s x h _ _ ihe ihts => simp [depthEach, depth, Buffer.depth, Token.depth]; omega

/-! ## §3 Saving is encoding -/

/-- Without a limit there is room. -/
theorem enter_none_bind {α : Type} (f : Option Nat → Except WriteError α) :
    (enter none >>= f) = f none := by
  rw [enter]
  exact ok_bind none f

/-- Writing tokens encodes their outline by value, and fails as that fails. -/
theorem writeEach_eq (T : Issued Identity) (b : Buffer) :
    writeEach none T b = (fun bytes => (bytes, (outlineEach byValue T b).2))
      <$> encodeEach (outlineEach byValue T b).1 := by
  induction b using Buffer.induction generalizing T with
  | nil => rfl
  | literal l ts ih =>
    simp only [writeEach, writeToken, outlineEach, outlineToken, encodeEach, encode, ih,
      map_eq_pure_bind, bind_assoc, pure_bind]
  | operator o ts ih =>
    simp only [writeEach, writeToken, outlineEach, outlineToken, encodeEach, encode, ih,
      map_eq_pure_bind, bind_assoc, pure_bind]
  | stored n v e s x ts ihe ihts =>
    cases h : T.lookup (byValue n v) with
    | some i =>
      have hlookup : T.lookup v.identity = some i := h
      simp only [writeEach, writeToken, outlineEach, outlineToken, encodeEach, encode, h, hlookup,
        ihts, map_eq_pure_bind, bind_assoc, pure_bind]
    | none =>
      have hlookup : T.lookup v.identity = none := h
      -- The count is taken of the tokens while writing, but of the records while encoding.
      have hlength : (outlineEach byValue T.reserve.2 e).1.length = e.length :=
        (outlines_outlineEach byValue T.reserve.2 e).length_eq
      simp only [writeEach, writeToken, enter_none_bind, outlineEach, outlineToken, encodeEach, encode,
        h, hlookup, ihe, ihts, hlength, map_eq_pure_bind, bind_assoc, pure_bind]
      rfl

/-- Tokens are written as their outline by value is encoded. -/
theorem writeEach_ok_iff {T T' : Issued Identity} {ts : List Token} {bytes : Bytes} :
    writeEach none T ts = .ok (bytes, T')
      ↔ ∃ rs, Outlines byValue T ts rs T' ∧ encodeEach rs = .ok bytes := by
  rw [writeEach_eq, map_eq_pure_bind, bind_ok_iff]
  constructor
  · rintro ⟨_, hencode, hreturn⟩
    cases hreturn
    exact ⟨_, outlines_outlineEach byValue T ts, hencode⟩
  · rintro ⟨rs, houtlines, hencode⟩
    rw [houtlines.eq_outlineEach]
    exact ⟨bytes, hencode, rfl⟩

/-- And so is a buffer, behind its count. -/
theorem writeTokens_ok_iff {T T' : Issued Identity} {b : Buffer} {bytes : Bytes} :
    writeTokens none T b = .ok (bytes, T')
      ↔ ∃ rs, Outlines byValue T b rs T' ∧ encodeAll rs = .ok bytes := by
  simp only [writeTokens, enter_none_bind, bind_ok_iff]
  constructor
  · rintro ⟨count, hcount, ⟨each, T''⟩, hwrite, hreturn⟩
    cases hreturn
    obtain ⟨rs, houtlines, heach⟩ := writeEach_ok_iff.mp hwrite
    -- The count is the same for tokens and for records.
    rw [← houtlines.length_eq] at hcount
    exact ⟨rs, houtlines, encodeAll_ok_iff.mpr ⟨count, each, hcount, heach, rfl⟩⟩
  · rintro ⟨rs, houtlines, hencode⟩
    obtain ⟨count, each, hcount, heach, rfl⟩ := encodeAll_ok_iff.mp hencode
    rw [houtlines.length_eq] at hcount
    exact ⟨count, hcount, (each, T'), writeEach_ok_iff.mpr ⟨rs, houtlines, heach⟩, rfl⟩

/-- Saving a buffer encodes its outline by value and counts the records that are written in full. -/
theorem save_ok_iff {b : Buffer} {saved : Saved} :
    save b = .ok saved ↔ ∃ rs T, Outlines byValue .empty b rs T ∧ encodeAll rs = .ok saved.bytes
      ∧ T.count = saved.shared := by
  simp only [save, saveWithin, bind_ok_iff, return_ok_iff]
  constructor
  · rintro ⟨⟨bytes, T⟩, hwrite, rfl⟩
    obtain ⟨rs, houtlines, hencode⟩ := writeTokens_ok_iff.mp hwrite
    exact ⟨rs, T, houtlines, hencode, rfl⟩
  · rintro ⟨rs, T, houtlines, hencode, hshared⟩
    exact ⟨(saved.bytes, T), writeTokens_ok_iff.mpr ⟨rs, houtlines, hencode⟩, by rw [hshared]⟩

end Reckoner.Codec
