import Reckoner.Proofs.Codec.Bytes
import Reckoner.Proofs.Codec.Outline

/-!
# The form of saved buffers

What the bytes of a saved buffer may be, said without reading or writing them. Records are spelled by
bytes, and they are numbered in order.

- `Spells` says which bytes stand for records. All of them are what encoding makes of the records, but
  those that stand for truth values: these may be any bytes, and are listed;
- `Ordered` says how full records are numbered, and which records may be referred to;
- `Transcript` is both, for a whole buffer, and `Transcript.unique` says that bytes have one transcript
  at most.
-/

namespace Reckoner.Codec

/-! ## §1 Spelling -/

/-- The bytes that stand for records, after the bytes among them that stand for truth values, in their
order. Zero stands for false, and any other byte for true. -/
inductive Spells : List Record → List UInt8 → Bytes → Prop where
  | nil : Spells [] [] []
  | literal {rs : List Record} {truths : List UInt8} {l : Literal} {b : UInt8}
      {whole fraction exponent rest : Bytes} (hwhole : writeText l.whole = .ok whole)
      (hpoint : l.point = decide (b ≠ 0)) (hfraction : writeText l.fraction = .ok fraction)
      (hexponent : writeInt l.exponent = .ok exponent) :
      Spells rs truths rest →
      Spells (.literal l :: rs) (b :: truths)
        (writeTag Token.literalTag ++ (whole ++ [b] ++ fraction ++ exponent) ++ rest)
  | operator {rs : List Record} {truths : List UInt8} {n : Int} {number rest : Bytes}
      (hnumber : writeInt n = .ok number) :
      Spells rs truths rest →
      Spells (.operator n :: rs) truths (writeTag Token.operatorTag ++ number ++ rest)
  | reference {rs : List Record} {truths : List UInt8} {n : Int} {number rest : Bytes}
      (hnumber : writeInt n = .ok number) :
      Spells rs truths rest →
      Spells (.reference n :: rs) truths (writeTag Token.storedTag ++ number ++ rest)
  | full {inner rs : List Record} {truths truths' : List UInt8} {n : Int} {degrees : Bool}
      {text : String} {b : UInt8} {number count each written rest : Bytes}
      (hnumber : writeInt n = .ok number) (hcount : writeInt inner.length = .ok count)
      (hdegrees : degrees = decide (b ≠ 0)) (hwritten : writeText text = .ok written) :
      Spells inner truths each → Spells rs truths' rest →
      Spells (.full n inner degrees (some text) :: rs) (truths ++ b :: truths')
        (writeTag Token.storedTag ++ number ++ count ++ each ++ [b] ++ written ++ rest)

/-- The bytes of the records of a buffer, after their count. -/
def SpellsAll (rs : List Record) (truths : List UInt8) (bytes : Bytes) : Prop :=
  ∃ count each, writeInt rs.length = .ok count ∧ Spells rs truths each ∧ bytes = count ++ each

/-- One record more in front. -/
theorem Spells.cons {r : Record} {rs : List Record} {truths truths' : List UInt8}
    {first rest : Bytes} (h : Spells [r] truths first) (hs : Spells rs truths' rest) :
    Spells (r :: rs) (truths ++ truths') (first ++ rest) := by
  cases h with
  | literal hwhole hpoint hfraction hexponent h =>
    cases h
    rw [List.append_nil]
    exact .literal hwhole hpoint hfraction hexponent hs
  | operator hnumber h =>
    cases h
    rw [List.append_nil]
    exact .operator hnumber hs
  | reference hnumber h =>
    cases h
    rw [List.append_nil]
    exact .reference hnumber hs
  | full hnumber hcount hdegrees hwritten hinner h =>
    cases h
    rw [List.append_nil, List.append_assoc, List.singleton_append]
    exact .full hnumber hcount hdegrees hwritten hinner hs

/-! ## §2 Encoding -/

/-- Zero and one are the bytes that are written for truth values. -/
theorem writeBool_of_plain {b : UInt8} (h : b = 0 ∨ b = 1) : writeBool (decide (b ≠ 0)) = [b] := by
  rcases h with rfl | rfl <;> rfl

/-- Records that are spelled can be encoded, with the same bytes if those for truth values are as they
are written. -/
theorem Spells.encodeEach {rs : List Record} {truths : List UInt8} {bytes : Bytes}
    (h : Spells rs truths bytes) : ∃ written, encodeEach rs = .ok written
      ∧ ((∀ b ∈ truths, b = 0 ∨ b = 1) → written = bytes) := by
  -- On the spelling; what is not a truth value is spelled as it is written.
  induction h with
  | nil => exact ⟨[], rfl, fun _ => rfl⟩
  | @literal rs truths l b whole fraction exponent _ hwhole hpoint hfraction hexponent _ ih =>
    obtain ⟨rest, hrest, heq⟩ := ih
    refine ⟨writeTag Token.literalTag
      ++ (whole ++ writeBool (decide (b ≠ 0)) ++ fraction ++ exponent) ++ rest, ?_, ?_⟩
    · simp only [Codec.encodeEach, encode, writeLiteral, hwhole, hpoint, hfraction, hexponent, hrest,
        ok_bind, pure_bind]
      rfl
    · intro hplain
      obtain ⟨hb, hplain⟩ := List.forall_mem_cons.mp hplain
      rw [writeBool_of_plain hb, heq hplain]
  | @operator _ _ _ number _ hnumber _ ih =>
    obtain ⟨rest, hrest, heq⟩ := ih
    refine ⟨writeTag Token.operatorTag ++ number ++ rest, ?_, fun hplain => by rw [heq hplain]⟩
    simp only [Codec.encodeEach, encode, hnumber, hrest, ok_bind, pure_bind]
    rfl
  | @reference _ _ _ number _ hnumber _ ih =>
    obtain ⟨rest, hrest, heq⟩ := ih
    refine ⟨writeTag Token.storedTag ++ number ++ rest, ?_, fun hplain => by rw [heq hplain]⟩
    simp only [Codec.encodeEach, encode, hnumber, hrest, ok_bind, pure_bind]
    rfl
  | @full _ _ _ _ _ degrees _ b number count _ written _ hnumber hcount hdegrees hwritten _ _
      ihinner ih =>
    obtain ⟨inner, hinner, hinnerEq⟩ := ihinner
    obtain ⟨rest, hrest, heq⟩ := ih
    refine ⟨writeTag Token.storedTag ++ number ++ count ++ inner ++ writeBool degrees ++ written
      ++ rest, ?_, ?_⟩
    · simp only [Codec.encodeEach, encode, writeStoredText, hnumber, hcount, hinner, hwritten, hrest,
        ok_bind, pure_bind]
      rfl
    · intro hplain
      obtain ⟨hplainInner, hplain⟩ := List.forall_mem_append.mp hplain
      obtain ⟨hb, hplain⟩ := List.forall_mem_cons.mp hplain
      rw [hdegrees, writeBool_of_plain hb, hinnerEq hplainInner, heq hplain]

/-- A whole buffer is encoded behind its count. -/
theorem SpellsAll.encodeAll {rs : List Record} {truths : List UInt8} {bytes : Bytes}
    (h : SpellsAll rs truths bytes) : ∃ written, encodeAll rs = .ok written
      ∧ ((∀ b ∈ truths, b = 0 ∨ b = 1) → written = bytes) := by
  obtain ⟨count, each, hcount, hspells, rfl⟩ := h
  obtain ⟨written, hwritten, heq⟩ := hspells.encodeEach
  exact ⟨count ++ written, encodeAll_ok_iff.mpr ⟨count, written, hcount, hwritten, rfl⟩,
    fun hplain => by rw [heq hplain]⟩

/-! ## §3 Order -/

/-- Records numbered in order, given how many numbers have been given out and which records are
complete, before and after. A full record has the next number, and is complete behind its expression.
Only complete records are referred to, so none is from inside itself. -/
inductive Ordered : Nat → List Int → List Record → Nat → List Int → Prop where
  | nil (n : Nat) (done : List Int) : Ordered n done [] n done
  | literal {n n' : Nat} {done done' : List Int} {rs : List Record} (l : Literal) :
      Ordered n done rs n' done' → Ordered n done (.literal l :: rs) n' done'
  | operator {n n' : Nat} {done done' : List Int} {rs : List Record} (i : Int) :
      Ordered n done rs n' done' → Ordered n done (.operator i :: rs) n' done'
  | reference {n n' : Nat} {done done' : List Int} {rs : List Record} {i : Int} (h : i ∈ done) :
      Ordered n done rs n' done' → Ordered n done (.reference i :: rs) n' done'
  | full {n n₁ n' : Nat} {done done₁ done' : List Int} {inner rs : List Record} (degrees : Bool)
      (text : Option String) :
      Ordered (n + 1) done inner n₁ done₁ → Ordered n₁ (((n : Int) + 1) :: done₁) rs n' done' →
      Ordered n done (.full ((n : Int) + 1) inner degrees text :: rs) n' done'

mutual

/-- The numbers of the full records in a record, in the order in which these begin. -/
def numbers : Record → List Int
  | .literal _ => []
  | .operator _ => []
  | .reference _ => []
  | .full n expr _ _ => n :: numbersEach expr

/-- The numbers of the full records in records, in the order in which these begin. -/
def numbersEach : List Record → List Int
  | [] => []
  | r :: rs => numbers r ++ numbersEach rs

end

namespace Ordered

variable {n n' : Nat} {done done' : List Int} {rs : List Record}

/-- No number is given out twice. -/
theorem le (h : Ordered n done rs n' done') : n ≤ n' := by
  induction h with
  | nil => exact Nat.le_refl _
  | literal _ _ ih => exact ih
  | operator _ _ ih => exact ih
  | reference _ _ ih => exact ih
  | full _ _ _ _ ihinner ih => omega

/-- Full records are numbered one after the other. -/
theorem numbersEach_eq (h : Ordered n done rs n' done') :
    numbersEach rs = (List.range' (n + 1) (n' - n)).map Int.ofNat := by
  induction h with
  | nil n done => simp [numbersEach]
  | literal _ _ ih => exact ih
  | operator _ _ ih => exact ih
  | reference _ _ ih => exact ih
  | @full n n₁ n' _ _ _ inner rs _ _ hinner hrest ihinner ih =>
    have hle := hinner.le
    have hle' := hrest.le
    -- The record itself has the first number, then come those inside, then those behind it.
    have hsum : n' - n = ((n₁ - (n + 1)) + (n' - n₁)) + 1 := by omega
    have hnext : n₁ + 1 = (n + 1 + 1) + (n₁ - (n + 1)) := by omega
    rw [hsum, List.range'_succ, ← List.range'_append_1, ← hnext, List.map_cons, List.map_append,
      ← ihinner, ← ih]
    rfl

/-- Only numbers that were given out are complete. -/
theorem bounded (h : Ordered n done rs n' done') (hdone : ∀ i ∈ done, i ≤ n) :
    ∀ i ∈ done', i ≤ n' := by
  induction h with
  | nil => exact hdone
  | literal _ _ ih => exact ih hdone
  | operator _ _ ih => exact ih hdone
  | reference _ _ ih => exact ih hdone
  | @full n n₁ n' done done₁ done' inner rs _ _ hinner hrest ihinner ih =>
    have hle := hinner.le
    apply ih
    -- The record that is complete has a number that was given out when it began.
    refine List.forall_mem_cons.mpr ⟨by omega, ihinner fun i hi => ?_⟩
    have := hdone i hi
    omega

end Ordered

/-! ## §4 Transcripts -/

/-- What the bytes of a saved buffer stand for: records in order, spelled by these bytes with the given
ones for truth values. -/
structure Transcript (rs : List Record) (truths : List UInt8) (bytes : Bytes) : Prop where
  spelled : SpellsAll rs truths bytes
  ordered : ∃ n done, Ordered 0 [] rs n done

/-- Records in order are told by their bytes, and by how many they are. By induction on the spelling of
the one, with that of the other beside it; a reference is told from a full record by its number. -/
theorem Spells.unique {rs : List Record} {truths : List UInt8} {bytes : Bytes}
    (h : Spells rs truths bytes) {n n' m : Nat} {done done₁ done₂ : List Int}
    (hordered : Ordered n done rs n' done₁) (hdone : ∀ i ∈ done, i ≤ n) {rs' : List Record}
    {truths' : List UInt8} {bytes' : Bytes} (h' : Spells rs' truths' bytes')
    (hordered' : Ordered n done rs' m done₂) (hlength : rs.length = rs'.length)
    {tail tail' : Bytes} (heq : bytes ++ tail = bytes' ++ tail') :
    rs = rs' ∧ truths = truths' ∧ n' = m ∧ done₁ = done₂ ∧ tail = tail' := by
  induction h generalizing n n' m done done₁ done₂ rs' truths' bytes' tail tail' with
  | nil =>
    -- The tag is the first byte, so the two records are of one kind, but for a reference and a full
    -- record.
    cases h' with
    | nil =>
      cases hordered
      cases hordered'
      exact ⟨rfl, rfl, rfl, rfl, heq⟩
    | _ => cases hlength
  | @literal _ _ l _ _ _ _ _ hwhole hpoint hfraction hexponent _ ih =>
    cases h' with
    | nil => cases hlength
    | @literal _ _ l' _ _ _ _ _ hwhole' hpoint' hfraction' hexponent' h' =>
      cases hordered with | literal _ hordered =>
      cases hordered' with | literal _ hordered' =>
      simp only [List.append_assoc, List.append_cancel_left_eq, List.cons_append, List.nil_append] at heq
      obtain ⟨hwholeEq, heq⟩ := writeText_append_inj hwhole hwhole' heq
      obtain ⟨rfl, hbehind⟩ := List.cons_eq_cons.mp heq
      obtain ⟨hfractionEq, heq⟩ := writeText_append_inj hfraction hfraction' hbehind
      obtain ⟨hexponentEq, heq⟩ := writeInt_append_inj hexponent hexponent' heq
      obtain ⟨rfl, rfl, rfl, rfl, rfl⟩ :=
        ih hordered hdone h' hordered' (Nat.succ.inj hlength) heq
      -- All fields of the literals were read off the same bytes.
      have hliteral : l = l' := by
        cases l
        cases l'
        simp_all
      exact ⟨by rw [hliteral], rfl, rfl, rfl, rfl⟩
    | _ => simp [writeTag, Token.literalTag, Token.operatorTag, Token.storedTag] at heq
  | operator hnumber _ ih =>
    cases h' with
    | nil => cases hlength
    | operator hnumber' h' =>
      cases hordered with | operator i hordered =>
      cases hordered' with | operator i' hordered' =>
      simp only [List.append_assoc, List.append_cancel_left_eq] at heq
      obtain ⟨rfl, heq⟩ := writeInt_append_inj hnumber hnumber' heq
      obtain ⟨rfl, rfl, rfl, rfl, rfl⟩ :=
        ih hordered hdone h' hordered' (Nat.succ.inj hlength) heq
      exact ⟨rfl, rfl, rfl, rfl, rfl⟩
    | _ => simp [writeTag, Token.literalTag, Token.operatorTag, Token.storedTag] at heq
  | reference hnumber _ ih =>
    cases h' with
    | nil => cases hlength
    | reference hnumber' h' =>
      cases hordered with | reference hi hordered =>
      cases hordered' with | reference hi' hordered' =>
      simp only [List.append_assoc, List.append_cancel_left_eq] at heq
      obtain ⟨rfl, heq⟩ := writeInt_append_inj hnumber hnumber' heq
      obtain ⟨rfl, rfl, rfl, rfl, rfl⟩ :=
        ih hordered hdone h' hordered' (Nat.succ.inj hlength) heq
      exact ⟨rfl, rfl, rfl, rfl, rfl⟩
    | full hnumber' _ _ _ _ _ =>
      -- The number of a complete record has been given out, that of a full record has not.
      cases hordered with | reference hi hordered =>
      cases hordered' with | full _ _ _ _ =>
      simp only [List.append_assoc, List.append_cancel_left_eq] at heq
      obtain ⟨rfl, -⟩ := writeInt_append_inj hnumber hnumber' heq
      have := hdone _ hi
      omega
    | _ => simp [writeTag, Token.literalTag, Token.operatorTag, Token.storedTag] at heq
  | full hnumber hcount hdegrees hwritten _ _ ihinner ih =>
    cases h' with
    | nil => cases hlength
    | reference hnumber' _ =>
      cases hordered with | full _ _ _ _ =>
      cases hordered' with | reference hi _ =>
      simp only [List.append_assoc, List.append_cancel_left_eq] at heq
      obtain ⟨rfl, -⟩ := writeInt_append_inj hnumber hnumber' heq
      have := hdone _ hi
      omega
    | full hnumber' hcount' hdegrees' hwritten' hinner' h' =>
      cases hordered with | full _ _ hordered₁ hordered₂ =>
      cases hordered' with | full _ _ hordered₁' hordered₂' =>
      simp only [List.append_assoc, List.append_cancel_left_eq, List.cons_append, List.nil_append] at heq
      obtain ⟨-, heq⟩ := writeInt_append_inj hnumber hnumber' heq
      obtain ⟨hcountEq, heq⟩ := writeInt_append_inj hcount hcount' heq
      -- Inside the expression one number more has been given out.
      have hdone₁ : ∀ i ∈ done, i ≤ ((n + 1 : Nat) : Int) := fun i hi => by
        have := hdone i hi
        omega
      obtain ⟨rfl, rfl, rfl, rfl, heq⟩ :=
        ihinner hordered₁ hdone₁ hinner' hordered₁' (Int.ofNat.inj hcountEq) heq
      obtain ⟨rfl, hbehind⟩ := List.cons_eq_cons.mp heq
      obtain ⟨rfl, heq⟩ := writeText_append_inj hwritten hwritten' hbehind
      have hdone₂ := hordered₁.bounded hdone₁
      have hle := hordered₁.le
      obtain ⟨rfl, rfl, rfl, rfl, rfl⟩ := ih hordered₂
        (List.forall_mem_cons.mpr ⟨by omega, hdone₂⟩) h' hordered₂' (Nat.succ.inj hlength) heq
      exact ⟨by rw [hdegrees, hdegrees'], rfl, rfl, rfl, rfl⟩
    | _ => simp [writeTag, Token.literalTag, Token.operatorTag, Token.storedTag] at heq

/-- Bytes have one transcript at most. -/
theorem Transcript.unique {rs rs' : List Record} {truths truths' : List UInt8} {bytes : Bytes}
    (h : Transcript rs truths bytes) (h' : Transcript rs' truths' bytes) :
    rs = rs' ∧ truths = truths' := by
  obtain ⟨⟨count, each, hcount, hspells, rfl⟩, n, done, hordered⟩ := h
  obtain ⟨⟨count', each', hcount', hspells', heq⟩, n', done', hordered'⟩ := h'
  obtain ⟨hlength, heq⟩ := writeInt_append_inj hcount hcount' heq
  -- Behind the count the two spellings take all of the bytes.
  have htail : each ++ [] = each' ++ [] := by rw [heq]
  obtain ⟨hrecords, htruths, -⟩ := hspells.unique hordered (fun i hi => nomatch hi) hspells' hordered'
    (Int.ofNat.inj hlength) htail
  exact ⟨hrecords, htruths⟩

end Reckoner.Codec
