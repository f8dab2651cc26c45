import Mathlib.Data.Option.Basic
import Reckoner.Proofs.Codec.Merging
import Reckoner.Session

/-!
# Bytes cut off and bytes added

How many bytes loading takes is told by these bytes themselves. So nothing can be cut off the end of a
saved buffer or of a saved session without notice, and nothing can be added there.

- `Curtailed` compares two readings of the same bytes, the second of which has fewer of them: they end
  alike, unless the second one meets the end of its bytes;
- `readNested_curtailed` and `readMemory_curtailed` carry this through all of reading;
- `load_restore_cut_extended` draws the conclusion for whole buffers and whole sessions.

The stored results that the two readings make may be numbered differently, and so may the values that
they are given; neither makes a difference to what can be read.
-/

namespace Reckoner.Codec

open Buffer (Resembles)

/-! ## §1 Byte readers -/

/-- A byte reader that does the same when more bytes follow, if it does not miss any. -/
def Reader.Steady {α : Type} (r : Reader α) : Prop :=
  ∀ bytes missing, (r bytes).1 = .error .unexpectedEnd
    ∨ r (bytes ++ missing) = ((r bytes).1, (r bytes).2 ++ missing)

/-- Taking bytes does not depend on those that come later. -/
theorem take_steady (n : Nat) : (take n).Steady := by
  intro bytes missing
  by_cases h : n ≤ bytes.length
  · right
    simp only [take, List.take_append_of_le_length h, List.drop_append_of_le_length h]
  · left
    have hshort : (bytes.take n).length ≠ n := by
      rw [List.length_take]
      omega
    simp only [take, if_neg hshort]

/-- Nor does what is made of them. -/
theorem Reader.Steady.map {α β : Type} {r : Reader α} (hr : r.Steady) (f : α → β) :
    (Reader.map f r).Steady := by
  intro bytes missing
  rcases hr bytes missing with hend | hsame
  · left
    simp only [Reader.map, hend]
    rfl
  · right
    simp only [Reader.map, hsame]

theorem readByte_steady : readByte.Steady :=
  (take_steady 1).map ofComplement

theorem readBool_steady : readBool.Steady :=
  readByte_steady.map _

theorem readInt_steady : readInt.Steady :=
  (take_steady 4).map ofComplement

theorem readText_steady : readText.Steady := by
  intro bytes missing
  -- First the two bytes of the length, then as many as these say.
  rcases take_steady 2 bytes missing with hend | hsame
  · left
    rcases hsize : take 2 bytes with ⟨size, rest⟩
    rw [hsize] at hend
    simp only at hend
    subst hend
    simp only [readText, hsize]
  · rcases hsize : take 2 bytes with ⟨e | size, rest⟩
    · right
      simp only [hsize] at hsame
      simp only [readText, hsize, hsame]
    · simp only [hsize] at hsame
      rcases take_steady (ofBigEndian size) rest missing with hend | hbody
      · left
        simp only [readText, hsize, hend]
        rfl
      · right
        simp only [readText, hsize, hsame, hbody]

/-! ## §2 Two readings -/

/-- Where two readings stand that go through the same bytes, `missing` being those that the second one
does not have. Under the same numbers they have stored results of the same quantities at hand. -/
structure Abreast (missing : Bytes) (p q : Progress) : Prop where
  bytes : p.bytes = q.bytes ++ missing
  highest : p.table.highest = q.table.highest
  stored : ∀ i, Option.Rel Resembles (p.table.get i) (q.table.get i)

/-- What two readings return, with the readings abreast. -/
def Both {α β : Type} (missing : Bytes) (R : α → β → Prop) (y : α × Progress) (z : β × Progress) :
    Prop :=
  R y.1 z.1 ∧ Abreast missing y.2 z.2

/-- Outcomes of two readings: values in a relation, or the same error. The second may also have met the
end of its bytes. -/
inductive Curtailed {α β : Type} (R : α → β → Prop) :
    Except LoadError α → Except LoadError β → Prop where
  | ok {a : α} {b : β} (h : R a b) : Curtailed R (.ok a) (.ok b)
  | error (e : LoadError) : Curtailed R (.error e) (.error e)
  | ended (x : Except LoadError α) : Curtailed R x (malformed .unexpectedEnd)

namespace Curtailed

variable {α β γ δ : Type} {R : α → β → Prop} {S : γ → δ → Prop}

/-- Readings that end alike go on alike. -/
theorem bind {x : Except LoadError α} {y : Except LoadError β} {f : α → Except LoadError γ}
    {g : β → Except LoadError δ} (h : Curtailed R x y) (hfg : ∀ a b, R a b → Curtailed S (f a) (g b)) :
    Curtailed S (x >>= f) (y >>= g) := by
  cases h with
  | ok hab => exact hfg _ _ hab
  | error e => exact .error e
  | ended x => exact .ended _

/-- Outcomes that correspond are alike without an end being met. -/
theorem of_corresponds {x : Except LoadError α} {y : Except LoadError β} (h : Corresponds R x y) :
    Curtailed R x y := by
  cases h with
  | ok hab => exact .ok hab
  | error e => exact .error e

/-- If the reading with all bytes succeeds, so does the other one, or it has met the end. -/
theorem of_ok_left {a : α} {y : Except LoadError β} (h : Curtailed R (.ok a) y) :
    (∃ b, y = .ok b ∧ R a b) ∨ y = malformed .unexpectedEnd := by
  cases h with
  | ok hab => exact .inl ⟨_, rfl, hab⟩
  | ended => exact .inr rfl

/-- If the reading with fewer bytes succeeds, so does the other one. -/
theorem of_ok_right {x : Except LoadError α} {b : β} (h : Curtailed R x (.ok b)) :
    ∃ a, x = .ok a ∧ R a b := by
  cases h with
  | ok hab => exact ⟨_, rfl, hab⟩

end Curtailed

/-- Two actions that take readings abreast to such outcomes. -/
def Loading.Curtails {α β : Type} (missing : Bytes) (R : α → β → Prop) (f : Loading α)
    (g : Loading β) : Prop :=
  ∀ p q, Abreast missing p q → Curtailed (Both missing R) (f p) (g q)

variable {missing : Bytes}

/-- Reading bytes keeps readings abreast, unless the second one meets its end. -/
theorem Abreast.read {α : Type} {p q : Progress} (h : Abreast missing p q) {r : Reader α}
    (hr : r.Steady) : Curtailed (Both missing Eq) (p.read r) (q.read r) := by
  unfold Progress.read
  rcases hq : r q.bytes with ⟨x, rest⟩
  rcases hr q.bytes missing with hend | hsame
  · rw [hq] at hend
    simp only at hend
    subst hend
    exact .ended _
  · rw [hq] at hsame
    rw [h.bytes, hsame]
    cases x with
    | ok x => exact .ok ⟨rfl, rfl, h.highest, h.stored⟩
    | error e => exact .error _

/-! ## §3 Tokens -/

/-- The four fields of a literal are read one after the other, and then checked. -/
theorem readLiteral_curtailed : Loading.Curtails missing Resembles readLiteral readLiteral := by
  intro p q h
  refine (h.read readText_steady).bind ?_
  rintro ⟨whole, p₁⟩ ⟨_, q₁⟩ ⟨rfl, h₁⟩
  refine (h₁.read readBool_steady).bind ?_
  rintro ⟨point, p₂⟩ ⟨_, q₂⟩ ⟨rfl, h₂⟩
  refine (h₂.read readText_steady).bind ?_
  rintro ⟨fraction, p₃⟩ ⟨_, q₃⟩ ⟨rfl, h₃⟩
  refine (h₃.read readInt_steady).bind ?_
  rintro ⟨exponent, p₄⟩ ⟨_, q₄⟩ ⟨rfl, h₄⟩
  dsimp only
  -- The check looks at the fields, which are the same.
  split
  · exact .error _
  · exact .ok ⟨.literal _, h₄⟩

theorem readOperator_curtailed : Loading.Curtails missing Resembles readOperator readOperator := by
  intro p q h
  refine (h.read readInt_steady).bind ?_
  rintro ⟨n, p₁⟩ ⟨_, q₁⟩ ⟨rfl, h₁⟩
  dsimp only
  split
  · exact .ok ⟨.operator _, h₁⟩
  · exact .error _

/-- Expressions that resemble each other have the same value, or none for the same reason. -/
theorem evaluateStored_resembles {e e' : Buffer} (h : List.Forall₂ Resembles e e') (i : Int)
    (degrees : Bool) : Corresponds (fun x y => x.quantity = y.quantity)
      (evaluateStored i e degrees) (evaluateStored i e' degrees) := by
  have hboth := Buffer.evaluatePrefix_corresponds h degrees
  have hlength := h.length_eq
  unfold evaluateStored
  generalize e.evaluatePrefix ⟨degrees, e.length⟩ = x at hboth ⊢
  generalize e'.evaluatePrefix ⟨degrees, e'.length⟩ = y at hboth ⊢
  cases hboth with
  | @ok a b hab =>
    obtain ⟨position, x⟩ := a
    obtain ⟨_, y⟩ := b
    obtain ⟨rfl, hxy⟩ := hab
    dsimp only
    rw [hlength]
    split
    · exact .ok hxy
    · exact .error _
  | error cause => cases cause <;> exact .error _

/-- The next record is begun in both readings, or in neither. -/
theorem Abreast.claim {p q : Progress} (h : Abreast missing p q) (i : Int) :
    Curtailed (fun t u => Abreast missing { p with table := t } { q with table := u })
      ((p.table.claim i).mapError LoadError.format) ((q.table.claim i).mapError LoadError.format) := by
  unfold Received.claim
  rw [h.highest]
  split
  · exact .ok ⟨h.bytes, rfl, h.stored⟩
  · exact .error _

/-- New stored results of the same quantity are put under the same number. -/
theorem Abreast.put {p q : Progress} (h : Abreast missing p q) {t u : Token} (htu : Resembles t u)
    (i : Int) (n m : Nat) :
    Abreast missing { p with table := p.table.put i t, next := n }
      { q with table := q.table.put i u, next := m } where
  bytes := h.bytes
  highest := h.highest
  stored j := by
    simp only [Received.get_put]
    split
    · exact .some htu
    · exact h.stored j

/-- A stored result is looked up under its number, or its record is read in full. -/
theorem readStored_curtailed {f g : Loading Buffer}
    (hfg : Loading.Curtails missing (List.Forall₂ Resembles) f g) :
    Loading.Curtails missing Resembles (readStored f) (readStored g) := by
  intro p q h
  refine (h.read readInt_steady).bind ?_
  rintro ⟨i, p₁⟩ ⟨_, q₁⟩ ⟨rfl, h₁⟩
  have hstored := h₁.stored i
  dsimp only at h₁ ⊢
  generalize p₁.table.get i = t at hstored ⊢
  generalize q₁.table.get i = u at hstored ⊢
  -- The number is known to both readings or to neither.
  cases hstored with
  | some htu => exact .ok ⟨htu, h₁⟩
  | none =>
    refine (h₁.claim i).bind fun table table' h₂ => ?_
    -- The expression is read with less room, and then evaluated on both sides.
    refine (hfg _ _ h₂).bind ?_
    rintro ⟨e, p₃⟩ ⟨e', q₃⟩ ⟨he, h₃⟩
    refine (h₃.read readBool_steady).bind ?_
    rintro ⟨degrees, p₄⟩ ⟨_, q₄⟩ ⟨rfl, h₄⟩
    refine (Curtailed.of_corresponds (evaluateStored_resembles he i degrees)).bind fun x y hxy => ?_
    refine (h₄.read readText_steady).bind ?_
    rintro ⟨text, p₅⟩ ⟨_, q₅⟩ ⟨rfl, h₅⟩
    exact .ok ⟨.stored hxy, h₅.put (.stored hxy) i _ _⟩

/-- Which token it is, its tag says, and both readings have the same tag. -/
theorem readToken_curtailed {f g : Loading Buffer}
    (hfg : Loading.Curtails missing (List.Forall₂ Resembles) f g) :
    Loading.Curtails missing Resembles (readToken f) (readToken g) := by
  intro p q h
  refine (h.read readByte_steady).bind ?_
  rintro ⟨tag, p₁⟩ ⟨_, q₁⟩ ⟨rfl, h₁⟩
  dsimp only
  split
  · exact readLiteral_curtailed p₁ q₁ h₁
  · split
    · exact readOperator_curtailed p₁ q₁ h₁
    · split
      · exact readStored_curtailed hfg p₁ q₁ h₁
      · exact .error _

/-! ## §4 Buffers and sessions -/

/-- By induction on the count. -/
theorem readEach_curtailed {f g : Loading Token} (hfg : Loading.Curtails missing Resembles f g)
    (n : Nat) :
    Loading.Curtails missing (List.Forall₂ Resembles) (readEach f n) (readEach g n) := by
  induction n with
  | zero => exact fun p q h => .ok ⟨.nil, h⟩
  | succ n ih =>
    intro p q h
    -- The first token is read abreast, and the rest by the induction hypothesis.
    refine (hfg p q h).bind ?_
    rintro ⟨t, p₁⟩ ⟨u, q₁⟩ ⟨htu, h₁⟩
    refine (ih p₁ q₁ h₁).bind ?_
    rintro ⟨ts, p₂⟩ ⟨us, q₂⟩ ⟨hrest, h₂⟩
    exact .ok ⟨.cons htu hrest, h₂⟩

/-- By induction on the room for nested stored results. -/
theorem readNested_curtailed (room : Nat) :
    Loading.Curtails missing (List.Forall₂ Resembles) (readNested room) (readNested room) := by
  induction room with
  | zero => exact fun p q _ => .error _
  | succ room ih =>
    intro p q h
    refine (h.read readInt_steady).bind ?_
    rintro ⟨count, p₁⟩ ⟨_, q₁⟩ ⟨rfl, h₁⟩
    dsimp only
    split
    · exact .error _
    · exact readEach_curtailed (readToken_curtailed ih) _ p₁ q₁ h₁

/-- Memory is a truth value and, if that is true, a buffer. -/
theorem readMemory_curtailed (room : Nat) :
    Loading.Curtails missing (Option.Rel (List.Forall₂ Resembles)) (Session.readMemory room)
      (Session.readMemory room) := by
  intro p q h
  refine (h.read readBool_steady).bind ?_
  rintro ⟨present, p₁⟩ ⟨_, q₁⟩ ⟨rfl, h₁⟩
  dsimp only
  split
  · refine (readNested_curtailed room p₁ q₁ h₁).bind ?_
    rintro ⟨b, p₂⟩ ⟨c, q₂⟩ ⟨hbc, h₂⟩
    exact .ok ⟨.some hbc, h₂⟩
  · exact .ok ⟨.none, h₁⟩

/-! ## §5 Bytes cut off and bytes added -/

/-- Two readings begin abreast, whatever number each gives to its first stored result. -/
theorem abreast_start (bytes missing : Bytes) (next next' : Nat) :
    Abreast missing ⟨bytes ++ missing, .empty, next⟩ ⟨bytes, .empty, next'⟩ where
  bytes := rfl
  highest := rfl
  stored _ := .none

/-- What is read to the end cannot be read with bytes cut off. -/
theorem Loading.Curtails.cut {α β : Type} {R : α → α → Prop} {f : Loading α}
    (hf : Loading.Curtails missing R f f) (hmissing : missing ≠ [])
    {finish : α × Progress → Except LoadError β}
    (hfinish : ∀ y z, finish y = .ok z → y.2.bytes = []) {bytes : Bytes} {next : Nat} {z : β}
    (h : f ⟨bytes ++ missing, .empty, next⟩ >>= finish = .ok z) (next' : Nat) :
    f ⟨bytes, .empty, next'⟩ >>= finish = malformed .unexpectedEnd := by
  obtain ⟨y, hy, hz⟩ := bind_ok_iff.mp h
  have hboth := hf _ _ (abreast_start bytes missing next next')
  rw [hy] at hboth
  rcases hboth.of_ok_left with ⟨y', -, -, habreast⟩ | hend
  -- Were the shorter reading to come to an end of its own, the missing bytes would be left.
  · have hleft := habreast.bytes
    rw [hfinish y z hz] at hleft
    exact absurd (List.append_eq_nil_iff.mp hleft.symm).2 hmissing
  · rw [hend]
    rfl

/-- What is read to the end is read alike with bytes added, and these are left. -/
theorem Loading.Curtails.extended {α β : Type} {R : α → α → Prop} {f : Loading α}
    (hf : Loading.Curtails missing R f f) {finish : α × Progress → Except LoadError β}
    (hfinish : ∀ y z, finish y = .ok z → y.2.bytes = []) {bytes : Bytes} {next : Nat} {z : β}
    (h : f ⟨bytes, .empty, next⟩ >>= finish = .ok z) (next' : Nat) :
    ∃ y y', f ⟨bytes ++ missing, .empty, next'⟩ >>= finish = finish y' ∧ finish y = .ok z
      ∧ R y'.1 y.1 ∧ y'.2.bytes = missing := by
  obtain ⟨y, hy, hz⟩ := bind_ok_iff.mp h
  have hboth := hf _ _ (abreast_start bytes missing next' next)
  rw [hy] at hboth
  obtain ⟨y', hy', hR, habreast⟩ := hboth.of_ok_right
  have hleft := habreast.bytes
  rw [hfinish y z hz, List.nil_append] at hleft
  exact ⟨y, y', by rw [hy']; rfl, hz, hR, hleft⟩

/-- What loading does when a buffer has been read. -/
def finishLoad (y : Buffer × Progress) : Except LoadError Loaded :=
  if y.2.bytes.isEmpty then .ok ⟨y.1, y.2.table.size, y.2.next⟩ else malformed .trailingExpression

theorem loadWithin_eq (room : Nat) (bytes : Bytes) (next : Nat) :
    loadWithin room bytes next = readNested room ⟨bytes, .empty, next⟩ >>= finishLoad := rfl

/-- If that check passes, no bytes are left. -/
theorem bytes_of_finishLoad_ok (y : Buffer × Progress) (loaded : Loaded)
    (h : finishLoad y = .ok loaded) : y.2.bytes = [] := by
  unfold finishLoad at h
  split at h
  · next hempty => exact List.isEmpty_iff.mp hempty
  · cases h

/-- Mode, expression and memory of a saved session, one after the other. -/
def readParts (room : Nat) : Loading (Bool × Buffer × Option Buffer) := fun p => do
  let (degrees, p) ← p.read readBool
  let (expr, p) ← readNested room p
  let (memory, p) ← Session.readMemory room p
  return ((degrees, expr, memory), p)

/-- What restoring does when the parts of a session have been read. -/
def finishRestore (y : (Bool × Buffer × Option Buffer) × Progress) : Except LoadError Session :=
  if !y.1.2.2.all Session.isMemory then malformed .memoryNotSingle
  else if !y.2.bytes.isEmpty then malformed .trailingSession
  else .ok ⟨y.1.1, y.1.2.1, y.1.2.2, none, none, y.2.next⟩

/-- Restoring reads the parts of a session and then checks the memory and what is left. -/
theorem restoreWithin_eq (room : Nat) (bytes : Bytes) (next : Nat) :
    Session.restoreWithin room bytes next
      = readParts room ⟨bytes, .empty, next⟩ >>= finishRestore := by
  simp only [Session.restoreWithin, readParts, bind_assoc, pure_bind]
  rfl

/-- If these checks pass, no bytes are left. -/
theorem bytes_of_finishRestore_ok (y : (Bool × Buffer × Option Buffer) × Progress) (s : Session)
    (h : finishRestore y = .ok s) : y.2.bytes = [] := by
  unfold finishRestore at h
  split at h
  · cases h
  · split at h
    · cases h
    · next hempty => simpa using hempty

/-- The three parts are read one after the other; of what they hold, only the memory matters afterwards. -/
theorem readParts_curtailed (room : Nat) :
    Loading.Curtails missing
      (fun y z => Option.Rel (List.Forall₂ Resembles) y.2.2 z.2.2) (readParts room)
      (readParts room) := by
  intro p q h
  refine (h.read readBool_steady).bind ?_
  rintro ⟨degrees, p₁⟩ ⟨_, q₁⟩ ⟨rfl, h₁⟩
  refine (readNested_curtailed room p₁ q₁ h₁).bind ?_
  rintro ⟨b, p₂⟩ ⟨c, q₂⟩ ⟨-, h₂⟩
  refine (readMemory_curtailed room p₂ q₂ h₂).bind ?_
  rintro ⟨m, p₃⟩ ⟨m', q₃⟩ ⟨hm, h₃⟩
  exact .ok ⟨hm, h₃⟩

/-- What resembles a memory may be held by memory as well. -/
theorem isMemory_resembles {b c : Buffer} (h : List.Forall₂ Resembles b c) :
    Session.isMemory b = Session.isMemory c := by
  cases h with
  | nil => rfl
  | cons htu hrest =>
    cases hrest with
    | nil => cases htu <;> rfl
    | cons _ _ => cases htu <;> rfl

/-- Whatever bytes are accepted as a saved buffer or as a saved session, with some of them cut off at
the end their end is missed, and with some added these are found to be left. -/
theorem load_restore_cut_extended (room : Nat) (bytes : Bytes) (next next' : Nat) :
    (∀ loaded, loadWithin room bytes next = .ok loaded →
      (∀ cut, cut <+: bytes → cut ≠ bytes → loadWithin room cut next' = malformed .unexpectedEnd)
      ∧ ∀ extra, extra ≠ [] →
        loadWithin room (bytes ++ extra) next' = malformed .trailingExpression)
    ∧ ∀ s, Session.restoreWithin room bytes next = .ok s →
      (∀ cut, cut <+: bytes → cut ≠ bytes →
        Session.restoreWithin room cut next' = malformed .unexpectedEnd)
      ∧ ∀ extra, extra ≠ [] →
        Session.restoreWithin room (bytes ++ extra) next' = malformed .trailingSession := by
  have hmissing {cut missing : Bytes} (hne : cut ≠ cut ++ missing) : missing ≠ [] := by
    rintro rfl
    exact hne (List.append_nil cut).symm
  refine ⟨fun loaded h => ⟨?_, ?_⟩, fun s h => ⟨?_, ?_⟩⟩
  · rintro cut ⟨missing, rfl⟩ hne
    exact (readNested_curtailed room).cut (hmissing hne) bytes_of_finishLoad_ok h next'
  -- With bytes added, the check at the end is what fails.
  · intro extra hextra
    have hcurtails : Loading.Curtails extra (List.Forall₂ Buffer.Resembles) (readNested room)
        (readNested room) := readNested_curtailed room
    obtain ⟨y, y', hload, -, -, hleft⟩ := hcurtails.extended bytes_of_finishLoad_ok h next'
    rw [loadWithin_eq, hload, finishLoad, hleft, if_neg (by simpa using hextra)]
  · rintro cut ⟨missing, rfl⟩ hne
    rw [restoreWithin_eq] at h ⊢
    exact (readParts_curtailed room).cut (hmissing hne) bytes_of_finishRestore_ok h next'
  · intro extra hextra
    rw [restoreWithin_eq] at h ⊢
    have hcurtails : Loading.Curtails extra
        (fun y z => Option.Rel (List.Forall₂ Resembles) y.2.2 z.2.2) (readParts room)
        (readParts room) := readParts_curtailed room
    obtain ⟨y, y', hrestore, hy, hm, hleft⟩ := hcurtails.extended bytes_of_finishRestore_ok h next'
    -- The memory is in order, as it was without the added bytes.
    have hall : y'.1.2.2.all Session.isMemory = y.1.2.2.all Session.isMemory := by
      generalize y'.1.2.2 = m' at hm ⊢
      generalize y.1.2.2 = m at hm ⊢
      cases hm with
      | some hbc => exact isMemory_resembles hbc
      | none => rfl
    rw [hrestore]
    unfold finishRestore at hy ⊢
    rw [hall, hleft]
    split at hy
    · cases hy
    · next hmemory => rw [if_neg hmemory, if_pos (by simpa using hextra)]

/-- A session in degrees whose expression is saved as `onePi` and whose memory is empty. -/
def onePiSession : Bytes :=
  [1] ++ onePi ++ [0]

theorem load_restore_cut_extended_onePi :
    (loadWithin 2 onePi 0 = .ok ⟨[storedPi 0 false "a", .symbol .plus, storedPi 0 false "a"], 1, 1⟩
      ∧ onePi.take 20 <+: onePi ∧ onePi.take 20 ≠ onePi
      ∧ loadWithin 2 (onePi.take 20) 5 = malformed .unexpectedEnd
      ∧ ([0] : Bytes) ≠ [] ∧ loadWithin 2 (onePi ++ [0]) 5 = malformed .trailingExpression)
    ∧ ∃ s, Session.restoreWithin 2 onePiSession 0 = .ok s
      ∧ onePiSession.take 20 <+: onePiSession ∧ onePiSession.take 20 ≠ onePiSession
      ∧ Session.restoreWithin 2 (onePiSession.take 20) 5 = malformed .unexpectedEnd
      ∧ ([0] : Bytes) ≠ []
      ∧ Session.restoreWithin 2 (onePiSession ++ [0]) 5 = malformed .trailingSession := by
  have hload : loadWithin 2 onePi 0
      = .ok ⟨[storedPi 0 false "a", .symbol .plus, storedPi 0 false "a"], 1, 1⟩ := rfl
  have hrestore : Session.restoreWithin 2 onePiSession 0 = .ok
      ⟨true, [storedPi 0 false "a", .symbol .plus, storedPi 0 false "a"], none, none, none, 1⟩ := rfl
  have hcut : onePi.take 20 ≠ onePi := by decide
  have hcut' : onePiSession.take 20 ≠ onePiSession := by decide
  obtain ⟨hloadCut, hloadExtended⟩ := (load_restore_cut_extended 2 onePi 0 5).1 _ hload
  obtain ⟨hrestoreCut, hrestoreExtended⟩ := (load_restore_cut_extended 2 onePiSession 0 5).2 _ hrestore
  exact ⟨⟨hload, List.take_prefix 20 _, hcut, hloadCut _ (List.take_prefix 20 _) hcut, by simp,
      hloadExtended [0] (by simp)⟩,
    _, hrestore, List.take_prefix 20 _, hcut', hrestoreCut _ (List.take_prefix 20 _) hcut', by simp,
    hrestoreExtended [0] (by simp)⟩

end Reckoner.Codec
