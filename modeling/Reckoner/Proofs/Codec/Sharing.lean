import Reckoner.Proofs.Codec.Shelving

/-!
# Records and tokens

How the records that saving makes and the tokens that loading makes of them belong together.

- `Outlines.rebuilds`: the records of a sound buffer rebuild tokens that resemble it, by whatever key
  stored results are shared, as long as a key names one quantity;
- `Rebuilds.outlines`: rebuilt tokens, shared by token, have the very records they were rebuilt from.

So loading forgets nothing that is in the records, and what can be lost between saving and loading is
lost while saving, where two stored results share a key.
-/

namespace Reckoner.Codec

open Buffer (nested Resembles head_mem tail_subset expr_subset)

/-! ## §1 From tokens to records and back -/

variable {κ : Type} [BEq κ]

/-- While saving and loading go along with each other: a bound key leads to a stored result on the
shelf, of the quantity that the key names among the tokens `A`. -/
structure Linked (key : Nat → Value → κ) (A : List Token) (T : Issued κ) (S : Shelf) : Prop where
  count : (T.count : Int) = S.highest
  lookup : ∀ {k i}, T.lookup k = some i → ∃ n' v' e' s' x', S.get i = some (.stored n' v' e' s' x')
    ∧ ∀ n v e s x, .stored n v e s x ∈ A → key n v = k → v.quantity = v'.quantity

namespace Linked

variable {key : Nat → Value → κ} {A : List Token} {T : Issued κ} {S : Shelf}

theorem empty (key : Nat → Value → κ) (A : List Token) (next : Nat) :
    Linked key A .empty ⟨.empty, next⟩ where
  count := rfl
  lookup h := nomatch h

theorem reserve_eq (h : Linked key A T S) : T.reserve.1 = S.highest + 1 := by
  rw [← h.count]
  rfl

/-- Reserving a number goes along with claiming it. -/
theorem reserve (h : Linked key A T S) : Linked key A T.reserve.2 S.claim where
  count := by
    rw [Shelf.highest_claim, ← h.count]
    rfl
  lookup hk := h.lookup hk

/-- Binding a key to the place of a new stored result. -/
theorem bind [LawfulBEq κ] (h : Linked key A T S) {k : κ} {i : Int} (hfree : S.get i = none) {n' : Nat}
    {v' : Value} {e' : Buffer} {s' : Scope} {x' : Option String}
    (hA : ∀ n v e s x, .stored n v e s x ∈ A → key n v = k → v.quantity = v'.quantity) :
    Linked key A (T.bind k i) (S.put i (.stored n' v' e' s' x')) where
  count := h.count
  lookup := by
    intro k' j hj
    -- The new key leads to the new stored result, any other to where it led before.
    by_cases hk : k' = k
    · subst hk
      rw [Issued.lookup_bind_self] at hj
      obtain rfl := Option.some.inj hj
      exact ⟨n', v', e', s', x', by rw [Shelf.get_put, if_pos rfl], hA⟩
    · rw [Issued.lookup_bind_of_ne T hk] at hj
      obtain ⟨n, v, e, s, x, hget, hquantity⟩ := h.lookup hj
      exact ⟨n, v, e, s, x, Shelf.extends_put hfree _ _ _ hget, hquantity⟩

end Linked

/-- What can be written has a text. -/
theorem of_writeStoredText_ok {text : Option String} {bytes : Bytes}
    (h : writeStoredText text = .ok bytes) : ∃ s, text = some s := by
  cases text with
  | none => cases h
  | some s => exact ⟨s, rfl⟩

/-- The records of sound tokens rebuild tokens that resemble them. By induction on the outline: what
was rebuilt of the expression of a stored result resembles it, so it evaluates to the same quantity. -/
theorem Outlines.rebuilds [LawfulBEq κ] {key : Nat → Value → κ} {A : List Token} (hA : Coherent key A)
    {T T' : Issued κ} {b : Buffer} {rs : List Record} (h : Outlines key T b rs T')
    (hbA : nested b ⊆ A) (hsound : b.Sound) {bytes : Bytes} (hbytes : encodeEach rs = .ok bytes)
    {S : Shelf} (hS : Stocked S) (hT : Linked key A T S) :
    ∃ b' S', Rebuilds S rs b' S' ∧ List.Forall₂ Resembles b b' ∧ Linked key A T' S' := by
  induction h generalizing S bytes with
  | nil T => exact ⟨[], S, .nil S, .nil, hT⟩
  | literal l _ ih =>
    obtain ⟨_, rest, -, hrest, rfl⟩ := encodeEach_cons_ok_iff.mp hbytes
    have hl : l.WellFormed := hsound.head
    obtain ⟨ts', S', hts, hrel, hT'⟩ := ih (tail_subset hbA) hsound.tail hrest hS hT
    exact ⟨_, S', .literal l hl hts, .cons (.literal l) hrel, hT'⟩
  | operator o _ ih =>
    obtain ⟨_, rest, -, hrest, rfl⟩ := encodeEach_cons_ok_iff.mp hbytes
    obtain ⟨s, rfl⟩ : ∃ s, o = .listed s := hsound.head
    obtain ⟨ts', S', hts, hrel, hT'⟩ := ih (tail_subset hbA) hsound.tail hrest hS hT
    exact ⟨_, S', .operator (Operator.ofCode_code s) hts, .cons (.operator _) hrel, hT'⟩
  | @known T T' ts rs n v i e s x hi _ ih =>
    obtain ⟨_, rest, -, hrest, rfl⟩ := encodeEach_cons_ok_iff.mp hbytes
    obtain ⟨n', v', e', s', x', hget, hquantity⟩ := hT.lookup hi
    obtain ⟨ts', S', hts, hrel, hT'⟩ := ih (tail_subset hbA) hsound.tail hrest hS hT
    -- The reference may lead to another stored result, but to one of the same quantity.
    have hv : v.quantity = v'.quantity := hquantity n v e s x (head_mem hbA) rfl
    exact ⟨_, S', .known hget hts, .cons (.stored hv) hrel, hT'⟩
  | @fresh T T₁ T₂ e ts inner rs n v s x _ _ _ ihinner ih =>
    obtain ⟨_, rest, hfirst, hrest, rfl⟩ := encodeEach_cons_ok_iff.mp hbytes
    obtain ⟨_, _, _, -, heach, htext, -⟩ := encode_full_ok_iff.mp hfirst
    obtain ⟨_, each, -, heach, -⟩ := encodeAll_ok_iff.mp heach
    obtain ⟨text, rfl⟩ := of_writeStoredText_ok htext
    obtain ⟨e', S₁, he, hrelInner, hT₁⟩ :=
      ihinner (expr_subset hbA) hsound.expr heach hS.claim hT.reserve
    -- The rebuilt expression evaluates as the expression did.
    obtain ⟨hreach, y, hy, hyv⟩ : s.reach = e.length
        ∧ ∃ y, Buffer.evaluatePrefix e s = .ok (e.length, y) ∧ y.quantity = v.quantity :=
      hsound.head
    have hscope : s = ⟨s.degrees, e.length⟩ := by rw [← hreach]
    rw [hscope] at hy
    obtain ⟨y', hy', hyy'⟩ := Buffer.evaluatePrefix_resembles hrelInner hy
    have hquantity : v.quantity = y'.quantity := by rw [← hyv, hyy']
    -- The key may have been bound to a number by a stored result inside; it is bound anew.
    have hbind : Linked key A (T₁.bind (key n v) (S.highest + 1))
        (S₁.put (S.highest + 1) (S₁.make e' y' s.degrees text)) := by
      refine hT₁.bind (he.get_claimed.trans hS.get_next) ?_
      intro m w f r z hmem hkey
      exact (hA m w f r z hmem n v e s _ (head_mem hbA) hkey).trans hquantity
    rw [hT.reserve_eq] at ih ⊢
    obtain ⟨ts', S', hts, hrel, hT'⟩ :=
      ih (tail_subset hbA) hsound.tail hrest (hS.complete he hy' text) hbind
    exact ⟨_, S', .fresh text hS.get_next he hy' hts, .cons (.stored hquantity) hrel, hT'⟩

/-! ## §2 From records to tokens and back -/

/-- While loading and saving by token go along with each other: the bound numbers are those of the
stored results on the shelf, in their places. -/
structure Tracks (T : Issued Nat) (S : Shelf) : Prop where
  count : (T.count : Int) = S.highest
  lookup : ∀ n i, T.lookup n = some i ↔ ∃ t, S.get i = some t ∧ t.number? = some n

namespace Tracks

variable {T : Issued Nat} {S : Shelf}

theorem empty (next : Nat) : Tracks .empty ⟨.empty, next⟩ where
  count := rfl
  lookup _ _ := ⟨nofun, fun ⟨_, ht, _⟩ => nomatch ht⟩

theorem reserve_eq (h : Tracks T S) : T.reserve.1 = S.highest + 1 := by
  rw [← h.count]
  rfl

/-- Reserving a number goes along with claiming it. -/
theorem reserve (h : Tracks T S) : Tracks T.reserve.2 S.claim where
  count := by
    rw [Shelf.highest_claim, ← h.count]
    rfl
  lookup := h.lookup

/-- Binding the number of a new stored result to its place. -/
theorem bind (h : Tracks T S) {i : Int} (hfree : S.get i = none) {t : Token} {n : Nat}
    (ht : t.number? = some n) (hn : T.lookup n = none) : Tracks (T.bind n i) (S.put i t) where
  count := h.count
  lookup := by
    intro m j
    -- The number that is bound leads to the new stored result, and to none that was there before.
    by_cases hm : m = n
    · subst hm
      rw [Issued.lookup_bind_self]
      constructor
      · rintro ⟨⟩
        exact ⟨t, by rw [Shelf.get_put, if_pos rfl], ht⟩
      · rintro ⟨u, hu, hnumber⟩
        rw [Shelf.get_put] at hu
        split at hu
        · next hj => rw [hj]
        · have := (h.lookup m j).mpr ⟨u, hu, hnumber⟩
          -- It was not bound before, so nothing on the shelf had it.
          rw [hn] at this
          cases this
    · rw [Issued.lookup_bind_of_ne T hm, h.lookup]
      constructor
      · rintro ⟨u, hu, hnumber⟩
        exact ⟨u, Shelf.extends_put hfree t j u hu, hnumber⟩
      · rintro ⟨u, hu, hnumber⟩
        rw [Shelf.get_put] at hu
        split at hu
        · obtain rfl := Option.some.inj hu
          rw [ht] at hnumber
          exact absurd (Option.some.inj hnumber).symm hm
        · exact ⟨u, hu, hnumber⟩

/-- The number of the next stored result is not bound. -/
theorem lookup_next (h : Tracks T S) (hS : Stocked S) {n : Nat} (hn : S.next ≤ n) :
    T.lookup n = none := by
  cases hlookup : T.lookup n with
  | none => rfl
  | some i =>
    obtain ⟨t, ht, hnumber⟩ := (h.lookup n i).mp hlookup
    -- Whatever is bound is on the shelf, and what is there has a number that was given out.
    obtain ⟨m, v, e, s, text, rfl, hm⟩ := hS.stored ht
    cases hnumber
    omega

end Tracks

/-- Rebuilt tokens, shared by token, have the records that they were rebuilt from. -/
theorem Rebuilds.outlines {S S' : Shelf} {rs : List Record} {ts : List Token}
    (h : Rebuilds S rs ts S') (hS : Stocked S) {T : Issued Nat} (hT : Tracks T S) :
    ∃ T', Outlines byToken T ts rs T' ∧ Tracks T' S' := by
  -- On the rebuilding; the table is the one that saving by token has at this place.
  induction h generalizing T with
  | nil S => exact ⟨T, .nil T, hT⟩
  | literal l _ _ ih =>
    obtain ⟨T', hts, hT'⟩ := ih hS hT
    exact ⟨T', .literal l hts, hT'⟩
  | @operator _ _ _ _ n s hs _ ih =>
    obtain ⟨T', hts, hT'⟩ := ih hS hT
    -- A number that is read is written again: it is that of the key.
    obtain rfl := Operator.code_of_ofCode hs
    exact ⟨T', .operator (.listed s) hts, hT'⟩
  | known hget _ ih =>
    obtain ⟨T', hts, hT'⟩ := ih hS hT
    obtain ⟨n, v, e, s, text, rfl, -⟩ := hS.stored hget
    exact ⟨T', .known e s (some text) ((hT.lookup n _).mpr ⟨_, hget, rfl⟩) hts, hT'⟩
  | @fresh S S₁ S₂ _ _ e _ x degrees text hfree hinner hx _ ihinner ih =>
    obtain ⟨T₁, he, hT₁⟩ := ihinner hS.claim hT.reserve
    obtain ⟨hS₁, -⟩ := hinner.stocked hS.claim
    -- A new stored result has a new number, so saving by token writes it in full.
    have hbind := hT₁.bind (hinner.get_claimed.trans hfree)
      (t := S₁.make e x degrees text) rfl (hT₁.lookup_next hS₁ (Nat.le_refl _))
    obtain ⟨T', hts, hT'⟩ := ih (hS.complete hinner hx text) hbind
    rw [← hT.reserve_eq] at hts ⊢
    exact ⟨T', .fresh _ _ (hT.lookup_next hS hinner.next_le) he hts, hT'⟩

end Reckoner.Codec
