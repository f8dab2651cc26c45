import Reckoner.Proofs.Buffer.Isomorphism
import Reckoner.Proofs.Codec.Shelving

/-!
# Records as a canonical form

The records of a buffer, shared by token, name its stored results by the order in which they are met.
Nothing else is left of their numbers, so that two buffers have the same records exactly if they are
isomorphic.

- `Outlines.of_alike`: buffers that are alike have the same records;
- `Outlines.alike`: sound buffers with the same records are alike;
- `isomorphic_iff_outline_eq` is both, for whole buffers.
-/

namespace Reckoner.Codec

open Buffer (nested head_mem tail_subset expr_subset Alike Renamed Isomorphic)

/-! ## §1 The numbers given out -/

/-- A stored result in a buffer has a key. -/
def Meets {κ : Type} (key : Nat → Value → κ) (b : List Token) (k : κ) : Prop :=
  ∃ n v e s x, .stored n v e s x ∈ nested b ∧ key n v = k

/-- A key that is met in a part is met in the whole. -/
theorem Meets.mono {κ : Type} {key : Nat → Value → κ} {b c : List Token} {k : κ}
    (h : Meets key b k) (hbc : nested b ⊆ nested c) :
    Meets key c k := by
  obtain ⟨n, v, e, s, x, hmem, hkey⟩ := h
  exact ⟨n, v, e, s, x, hbc hmem, hkey⟩

section
variable {κ : Type} [BEq κ] {key : Nat → Value → κ} {T T₁ T' : Issued κ} {b : List Token}
  {rs : List Record}

namespace Issued

/-- What is bound in one table is bound to the same number in another. -/
def Extends (T T' : Issued κ) : Prop :=
  ∀ k i, T.lookup k = some i → T'.lookup k = some i

/-- Bound numbers have been given out, each to one key. -/
structure Tidy (T : Issued κ) : Prop where
  bounded : ∀ {k i}, T.lookup k = some i → i ≤ T.count
  distinct : ∀ {k k' i}, T.lookup k = some i → T.lookup k' = some i → k = k'

theorem Tidy.empty : Tidy (.empty : Issued κ) where
  bounded h := nomatch h
  distinct h := nomatch h

theorem Tidy.reserve (h : T.Tidy) : T.reserve.2.Tidy where
  bounded hk := by
    have := h.bounded hk
    show _ ≤ ((T.count + 1 : Nat) : Int)
    omega
  distinct hk hk' := h.distinct hk hk'

variable [LawfulBEq κ]

/-- Binding a new key changes no other. -/
theorem Extends.bind {k : κ} (h : T.lookup k = none) (i : Int) : T.Extends (T.bind k i) := by
  intro k' j hj
  have hne : k' ≠ k := by
    rintro rfl
    rw [h] at hj
    cases hj
  rw [T.lookup_bind_of_ne hne, hj]

/-- A number that is not in use may be bound. -/
theorem Tidy.bind (h : T.Tidy) (k : κ) {i : Int} (hi : i ≤ T.count)
    (hfree : ∀ k, T.lookup k ≠ some i) : (T.bind k i).Tidy where
  bounded := by
    intro k' j hj
    by_cases hk : k' = k
    · subst hk
      rw [lookup_bind_self] at hj
      obtain rfl := Option.some.inj hj
      exact hi
    · rw [T.lookup_bind_of_ne hk] at hj
      exact h.bounded hj
  distinct := by
    intro k₁ k₂ j h₁ h₂
    -- Two keys of one number are both the new one, or both old; a mixed pair would need the number to be
    -- in use.
    by_cases hk₁ : k₁ = k <;> by_cases hk₂ : k₂ = k
    · rw [hk₁, hk₂]
    · subst hk₁
      rw [lookup_bind_self] at h₁
      rw [T.lookup_bind_of_ne hk₂, ← Option.some.inj h₁] at h₂
      exact absurd h₂ (hfree k₂)
    · subst hk₂
      rw [lookup_bind_self] at h₂
      rw [T.lookup_bind_of_ne hk₁, ← Option.some.inj h₂] at h₁
      exact absurd h₁ (hfree k₁)
    · rw [T.lookup_bind_of_ne hk₁] at h₁
      rw [T.lookup_bind_of_ne hk₂] at h₂
      exact h.distinct h₁ h₂

end Issued

/-- Numbers are given out, and none is taken back. -/
theorem Outlines.count_le (h : Outlines key T b rs T') : T.count ≤ T'.count := by
  induction h with
  | nil T => exact Nat.le_refl _
  | literal l _ ih => exact ih
  | operator o _ ih => exact ih
  | known e s x hi _ ih => exact ih
  | @fresh T T₁ T₂ e ts inner rs n v s x hnone _ _ ihe ih =>
    have hreserve : T.reserve.2.count = T.count + 1 := rfl
    have hbind : (T₁.bind (key n v) T.reserve.1).count = T₁.count := rfl
    omega

/-- The number that was reserved for a record has been given out once its inside is written. -/
theorem Outlines.reserved_le (h : Outlines key T.reserve.2 b rs T₁) : T.reserve.1 ≤ T₁.count := by
  have hreserve : T.reserve.1 = (T.count : Int) + 1 := rfl
  have hcount : T.reserve.2.count = T.count + 1 := rfl
  have := h.count_le
  omega

variable [LawfulBEq κ]

/-- Only keys that were not bound are bound. -/
theorem Outlines.table_extends (h : Outlines key T b rs T') : T.Extends T' := by
  induction h with
  | nil T => exact fun k i hi => hi
  | literal l _ ih => exact ih
  | operator o _ ih => exact ih
  | known e s x hi _ ih => exact ih
  | @fresh T T₁ T₂ e ts inner rs n v s x hnone _ _ ihe ih =>
    intro k i hi
    have hne : k ≠ key n v := by
      rintro rfl
      rw [hnone] at hi
      cases hi
    -- Behind the record the table has its key too, and that one was not bound before.
    apply ih
    rw [T₁.lookup_bind_of_ne hne]
    exact ihe k i hi

/-- A binding was there before, or its number was given out since. -/
theorem Outlines.lookup_old_or_new (h : Outlines key T b rs T') {k : κ} {i : Int}
    (hi : T'.lookup k = some i) : T.lookup k = some i ∨ (T.count : Int) < i := by
  induction h with
  | nil T => exact .inl hi
  | literal l _ ih => exact ih hi
  | operator o _ ih => exact ih hi
  | known e s x hj _ ih => exact ih hi
  | @fresh T T₁ T₂ e ts inner rs n v s x hnone he _ ihe ih =>
    have hcount := he.count_le
    have hreserve : T.reserve.2.count = T.count + 1 := rfl
    have hbind : (T₁.bind (key n v) T.reserve.1).count = T₁.count := rfl
    rcases ih hi with hold | hnew
    -- Bound when the record was complete, at its beginning, or inside.
    · by_cases hk : k = key n v
      · subst hk
        rw [Issued.lookup_bind_self] at hold
        have hnumber : (T.count : Int) + 1 = i := Option.some.inj hold
        exact .inr (by omega)
      · rw [T₁.lookup_bind_of_ne hk] at hold
        rcases ihe hold with hold | hnew
        · exact .inl hold
        · exact .inr (by omega)
    · exact .inr (by omega)

/-- A binding was there before, or its key is that of a stored result that was met. -/
theorem Outlines.lookup_old_or_met (h : Outlines key T b rs T') {k : κ} {i : Int}
    (hi : T'.lookup k = some i) : T.lookup k = some i ∨ Meets key b k := by
  induction h with
  | nil T => exact .inl hi
  | literal l _ ih => exact (ih hi).imp_right fun h => h.mono (tail_subset (List.Subset.refl _))
  | operator o _ ih => exact (ih hi).imp_right fun h => h.mono (tail_subset (List.Subset.refl _))
  | known e s x hj _ ih => exact (ih hi).imp_right fun h => h.mono (tail_subset (List.Subset.refl _))
  | @fresh T T₁ T₂ e ts inner rs n v s x _ _ _ ihe ih =>
    rcases ih hi with hold | hmet
    -- The key of the record itself is met here, any other was bound inside the expression.
    · by_cases hk : k = key n v
      · exact .inr ⟨n, v, e, s, x, List.mem_cons_self, hk.symm⟩
      · rw [T₁.lookup_bind_of_ne hk] at hold
        exact (ihe hold).imp_right fun h => h.mono (expr_subset (List.Subset.refl _))
    · exact .inr (hmet.mono (tail_subset (List.Subset.refl _)))

/-- A number that was reserved is not bound while its record is not complete. -/
theorem Outlines.lookup_reserved (h : Outlines key T.reserve.2 b rs T₁) (hT : T.Tidy) (k : κ) :
    T₁.lookup k ≠ some T.reserve.1 := by
  have hreserve : T.reserve.1 = (T.count : Int) + 1 := rfl
  intro hk
  -- Neither an old number nor one that was given out since is the reserved one.
  rcases h.lookup_old_or_new hk with hold | hnew
  · have := hT.bounded hold
    omega
  · have hcount : T.reserve.2.count = T.count + 1 := rfl
    omega

end

/-! ## §2 Buffers that are alike have the same records -/

/-- Tables that have given out as many numbers, to keys that are related. -/
structure Matched {κ κ' : Type} [BEq κ] [BEq κ'] (K : κ → κ' → Prop) (T : Issued κ)
    (T' : Issued κ') : Prop where
  count : T.count = T'.count
  lookup : ∀ {k k'}, K k k' → T.lookup k = T'.lookup k'

section
variable {κ κ' : Type} [BEq κ] [BEq κ'] {K : κ → κ' → Prop}

theorem Matched.empty : Matched K .empty .empty where
  count := rfl
  lookup _ := rfl

variable [LawfulBEq κ] [LawfulBEq κ']

/-- Binding keys that belong together to one number keeps tables matched. -/
theorem Matched.bind {T : Issued κ} {T' : Issued κ'} (h : Matched K T T') (hK : Relator.BiUnique K)
    {k : κ} {k' : κ'} (hk : K k k') (i : Int) : Matched K (T.bind k i) (T'.bind k' i) where
  count := h.count
  lookup := by
    intro l l' hl
    by_cases heq : l = k
    · subst heq
      obtain rfl := hK.2 hk hl
      rw [Issued.lookup_bind_self, Issued.lookup_bind_self]
    · have hne : l' ≠ k' := by
        rintro rfl
        exact heq (hK.1 hl hk)
      rw [T.lookup_bind_of_ne heq, T'.lookup_bind_of_ne hne]
      exact h.lookup hl

/-- Buffers that are alike have the same records, if the keys that face each other belong together one
to one. -/
theorem Outlines.of_alike (hK : Relator.BiUnique K) {R : Nat → Value → Nat → Value → Prop}
    {key : Nat → Value → κ} {key' : Nat → Value → κ'}
    (hR : ∀ {n v m w}, R n v m w → K (key n v) (key' m w)) {T T₁ : Issued κ} {b c : List Token}
    {rs : List Record} (h : Outlines key T b rs T₁) (hbc : Alike R b c) {T' : Issued κ'}
    (hT : Matched K T T') : ∃ T₁', Outlines key' T' c rs T₁' ∧ Matched K T₁ T₁' := by
  -- On the first outline: the buffer that is alike decides the case of the second one.
  induction h generalizing c T' with
  | nil T =>
    cases hbc
    exact ⟨T', .nil T', hT⟩
  | literal l _ ih =>
    cases hbc with
    | literal _ hrest =>
      obtain ⟨T₁', h', hT₁⟩ := ih hrest hT
      exact ⟨T₁', .literal l h', hT₁⟩
  | operator o _ ih =>
    cases hbc with
    | operator _ hrest =>
      obtain ⟨T₁', h', hT₁⟩ := ih hrest hT
      exact ⟨T₁', .operator o h', hT₁⟩
  | known e s x hi _ ih =>
    cases hbc with
    | stored _ _ hr he hrest =>
      obtain ⟨T₁', h', hT₁⟩ := ih hrest hT
      exact ⟨T₁', .known _ s x ((hT.lookup (hR hr)).symm.trans hi) h', hT₁⟩
  | @fresh T T₁ T₂ e ts inner rs n v s x hnone _ _ ihe ih =>
    cases hbc with
    | stored _ _ hr he hrest =>
      have hnumber : T.reserve.1 = T'.reserve.1 := by
        show (T.count : Int) + 1 = T'.count + 1
        rw [hT.count]
      have hreserve : Matched K T.reserve.2 T'.reserve.2 :=
        ⟨congrArg (· + 1) hT.count, hT.lookup⟩
      obtain ⟨T₁', hinner, hT₁⟩ := ihe he hreserve
      -- The same number is bound on both sides, to keys that belong together.
      rw [hnumber] at ih ⊢
      obtain ⟨T₂', h', hT₂⟩ := ih hrest (hT₁.bind hK (hR hr) _)
      exact ⟨T₂', .fresh s x ((hT.lookup (hR hr)).symm.trans hnone) hinner h', hT₂⟩

end

/-! ## §3 Buffers with the same records are alike -/

section
variable {κ : Type} [BEq κ] {key : Nat → Value → κ} {T T' : Issued κ} {b : List Token}
  {rs : List Record}

theorem Outlines.of_operator {n : Int} (h : Outlines key T b (.operator n :: rs) T') :
    ∃ o ts, b = .operator o :: ts ∧ o.code = n ∧ Outlines key T ts rs T' := by
  cases h with
  | operator o h => exact ⟨o, _, rfl, rfl, h⟩

/-- A full record comes from a stored result that was not bound. -/
theorem Outlines.of_full {i : Int} {inner : List Record} {degrees : Bool} {x : Option String}
    (h : Outlines key T b (.full i inner degrees x :: rs) T') :
    ∃ n v e s ts T₁, b = .stored n v e s x :: ts ∧ T.reserve.1 = i ∧ s.degrees = degrees
      ∧ T.lookup (key n v) = none ∧ Outlines key T.reserve.2 e inner T₁
      ∧ Outlines key (T₁.bind (key n v) T.reserve.1) ts rs T' := by
  cases h with
  | fresh s x hnone he h => exact ⟨_, _, _, s, _, _, rfl, rfl, rfl, hnone, he, h⟩

end

/-- The numbers that are bound to the same place in two tables. -/
def SamePlace (T T' : Issued Nat) (n m : Nat) : Prop :=
  ∃ i, T.lookup n = some i ∧ T'.lookup m = some i

/-- In tidy tables a place belongs to one key, so the numbers belong together one to one. -/
theorem SamePlace.biUnique {T T' : Issued Nat} (hT : T.Tidy) (hT' : T'.Tidy) :
    Relator.BiUnique (SamePlace T T') := by
  constructor
  · rintro n m k ⟨i, hn, hk⟩ ⟨j, hm, hk'⟩
    rw [hk] at hk'
    obtain rfl := Option.some.inj hk'
    exact hT.distinct hn hm
  · rintro n m k ⟨i, hn, hm⟩ ⟨j, hn', hk⟩
    rw [hn] at hn'
    obtain rfl := Option.some.inj hn'
    exact hT'.distinct hm hk

theorem SamePlace.mono {T T₁ T' T₁' : Issued Nat} (hT : T.Extends T₁) (hT' : T'.Extends T₁')
    {b c : List Token} (h : Alike (Renamed (SamePlace T T')) b c) :
    Alike (Renamed (SamePlace T₁ T₁')) b c :=
  h.mono fun ⟨⟨i, hn, hm⟩, hquantity⟩ => ⟨⟨i, hT _ _ hn, hT' _ _ hm⟩, hquantity⟩

/-- Two tables while buffers with the same records are walked through: as many numbers have been given
out, and the stored results of `A` and `A'` that are bound to the same place are alike. -/
structure Paired (A A' : List Token) (T T' : Issued Nat) : Prop where
  count : T.count = T'.count
  left : T.Tidy
  right : T'.Tidy
  alike : ∀ {n m i v e s x w f r y}, T.lookup n = some i → T'.lookup m = some i →
    .stored n v e s x ∈ A → .stored m w f r y ∈ A' →
    Alike (Renamed (SamePlace T T')) [.stored n v e s x] [.stored m w f r y]

namespace Paired

variable {A A' : List Token} {T T' : Issued Nat}

theorem empty (A A' : List Token) : Paired A A' .empty .empty where
  count := rfl
  left := .empty
  right := .empty
  alike h := nomatch h

theorem reserve (h : Paired A A' T T') : Paired A A' T.reserve.2 T'.reserve.2 where
  count := congrArg (· + 1) h.count
  left := h.left.reserve
  right := h.right.reserve
  alike hn hm ht hu := h.alike hn hm ht hu

/-- Two stored results with expressions that are alike may be bound to the same place. -/
theorem bind (h : Paired A A' T T') (hA : Numbered A) (hA' : Numbered A') {n m : Nat}
    {v w : Value} {e f : Buffer} {s : Scope} {x : Option String} {i : Int} (hi : i ≤ T.count)
    (hfree : ∀ k, T.lookup k ≠ some i) (hfree' : ∀ k, T'.lookup k ≠ some i)
    (hn : T.lookup n = none) (hm : T'.lookup m = none) (ht : .stored n v e s x ∈ A)
    (hu : .stored m w f s x ∈ A') (hquantity : v.quantity = w.quantity)
    (he : Alike (Renamed (SamePlace T T')) e f) : Paired A A' (T.bind n i) (T'.bind m i) where
  count := h.count
  left := h.left.bind n hi hfree
  right := h.right.bind m (by rw [← h.count]; exact hi) hfree'
  alike := by
    intro n' m' j v' e' s' x' w' f' r' y' hn' hm' ht' hu'
    have hmono {b c : List Token} (h : Alike (Renamed (SamePlace T T')) b c) :=
      SamePlace.mono (Issued.Extends.bind hn i) (Issued.Extends.bind hm i) h
    -- Only the two new bindings are at the new place, as it was free in both tables.
    by_cases hnn : n' = n <;> by_cases hmm : m' = m
    · subst hnn hmm
      cases hA.eq ht ht'
      cases hA'.eq hu hu'
      have hself : SamePlace (T.bind n' i) (T'.bind m' i) n' m' :=
        ⟨i, T.lookup_bind_self n' i, T'.lookup_bind_self m' i⟩
      exact .stored s x ⟨hself, hquantity⟩ (hmono he) .nil
    · subst hnn
      rw [Issued.lookup_bind_self] at hn'
      rw [T'.lookup_bind_of_ne hmm, ← Option.some.inj hn'] at hm'
      exact absurd hm' (hfree' m')
    · subst hmm
      rw [Issued.lookup_bind_self] at hm'
      rw [T.lookup_bind_of_ne hnn, ← Option.some.inj hm'] at hn'
      exact absurd hn' (hfree n')
    · rw [T.lookup_bind_of_ne hnn] at hn'
      rw [T'.lookup_bind_of_ne hmm] at hm'
      exact hmono (h.alike hn' hm' ht' hu')

end Paired

/-- No number that was not bound before a stored result is bound behind its expression, as no stored
result is nested in itself. -/
theorem Outlines.lookup_own {A : List Token} (hA : Numbered A) {T T₁ : Issued Nat} {e : Buffer}
    {inner : List Record} {n : Nat} {v : Value} {s : Scope} {x : Option String}
    (h : Outlines byToken T.reserve.2 e inner T₁) (ht : .stored n v e s x ∈ A) (he : nested e ⊆ A)
    (hn : T.lookup n = none) : T₁.lookup n = none := by
  cases hlookup : T₁.lookup n with
  | none => rfl
  | some i =>
    rcases h.lookup_old_or_met hlookup with hold | ⟨m, w, f, r, y, hmem, hkey⟩
    · rw [Issued.lookup_reserve, hn] at hold
      cases hold
    · obtain rfl : m = n := hkey
      rw [← hA.eq ht (he hmem)] at hmem
      exact absurd hmem (Buffer.not_mem_nested_self m v e s x)

/-- Sound buffers with the same records are alike, the numbers at the same places facing each other. By
induction on the outline of the one, with that of the other beside it. -/
theorem Outlines.alike {A A' : List Token} (hA : Numbered A) (hA' : Numbered A')
    (hsound : ∀ t ∈ A, t.Sound) (hsound' : ∀ t ∈ A', t.Sound) {T T₁ : Issued Nat} {b : Buffer}
    {rs : List Record} (h : Outlines byToken T b rs T₁) (hbA : nested b ⊆ A) {T' T₁' : Issued Nat}
    {c : Buffer} (h' : Outlines byToken T' c rs T₁') (hcA : nested c ⊆ A')
    (hT : Paired A A' T T') :
    Alike (Renamed (SamePlace T₁ T₁')) b c ∧ Paired A A' T₁ T₁' := by
  induction h generalizing T' T₁' c with
  | nil T =>
    cases h'
    exact ⟨.nil, hT⟩
  | literal l _ ih =>
    cases h' with
    | literal _ h' =>
      obtain ⟨hrest, hT₁⟩ := ih (tail_subset hbA) h' (tail_subset hcA) hT
      exact ⟨.literal l hrest, hT₁⟩
  | operator o _ ih =>
    obtain ⟨o', us, rfl, hcode, hus⟩ := h'.of_operator
    obtain rfl := Operator.code_injective hcode
    obtain ⟨hrest, hT₁⟩ := ih (tail_subset hbA) hus (tail_subset hcA) hT
    exact ⟨.operator o' hrest, hT₁⟩
  -- Both sides refer to a stored result that was walked through before.
  | @known T T₁ ts rs n v i e s x hi hts ih =>
    cases h' with
    | known f r y hi' h' =>
      obtain ⟨hrest, hT₁⟩ := ih (tail_subset hbA) h' (tail_subset hcA) hT
      have hhead := hT.alike hi hi' (head_mem hbA) (head_mem hcA)
      exact ⟨.cons (SamePlace.mono hts.table_extends h'.table_extends hhead) hrest, hT₁⟩
  | @fresh T T₁ T₂ e ts inner rs n v s x hn he hts ihe ih =>
    obtain ⟨m, w, f, r, us, T₁', rfl, hplace, hdegrees, hm, hf, hus⟩ := h'.of_full
    have ht := head_mem hbA
    have hu := head_mem hcA
    obtain ⟨hef, hT₁⟩ := ihe (expr_subset hbA) hf (expr_subset hcA) hT.reserve
    -- The values need not be compared: they are what the expressions evaluate to.
    obtain ⟨hquantity, rfl⟩ := hef.eq_of_sound (hsound _ ht) (hsound' _ hu) hdegrees.symm
    have hn₁ := he.lookup_own hA ht (expr_subset hbA) hn
    have hm₁ := hf.lookup_own hA' hu (expr_subset hcA) hm
    have hfree' : ∀ k, T₁'.lookup k ≠ some T.reserve.1 := by
      rw [← hplace]
      exact hf.lookup_reserved hT.right
    have hbind := hT₁.bind hA hA' he.reserved_le (he.lookup_reserved hT.left) hfree' hn₁ hm₁ ht hu
      hquantity hef
    rw [hplace] at hus
    obtain ⟨hrest, hT₂⟩ := ih (tail_subset hbA) hus (tail_subset hcA) hbind
    have hhead := hbind.alike (T₁.lookup_bind_self n T.reserve.1) (T₁'.lookup_bind_self m T.reserve.1)
      ht hu
    exact ⟨.cons (SamePlace.mono hts.table_extends hus.table_extends hhead) hrest, hT₂⟩

/-- Sound buffers whose numbers name their stored results are isomorphic exactly if they have the same
records by token. -/
theorem isomorphic_iff_outline_eq {b c : Buffer} (hb : b.Sound) (hc : c.Sound)
    (hbn : Numbered (nested b)) (hcn : Numbered (nested c)) :
    Isomorphic b c ↔ outline byToken b = outline byToken c := by
  constructor
  -- Renaming the numbers leaves the order in which stored results are met, hence the records.
  · rintro ⟨M, hM, halike⟩
    obtain ⟨T, hT, -⟩ : ∃ T, Outlines byToken .empty c (outline byToken b) T ∧ Matched M _ T :=
      (outlines_outlineEach byToken .empty b).of_alike hM (fun hR => hR.1) halike .empty
    exact hT.eq_outline.symm
  · intro heq
    have hout := outlines_outlineEach byToken .empty c
    have hrecords : (outlineEach byToken .empty c).1 = (outlineEach byToken .empty b).1 := heq.symm
    rw [hrecords] at hout
    obtain ⟨halike, hpaired⟩ := (outlines_outlineEach byToken .empty b).alike hbn hcn hb hc
      (fun t ht => ht) hout (fun t ht => ht) (.empty _ _)
    -- The renaming is read off the two tables that the outlines leave.
    exact ⟨_, SamePlace.biUnique hpaired.left hpaired.right, halike⟩

end Reckoner.Codec
