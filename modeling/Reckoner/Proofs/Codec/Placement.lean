import Mathlib.Algebra.Ring.Nat
import Mathlib.Data.List.Nodup
import Reckoner.Proofs.Codec.Canonical
import Reckoner.Proofs.Codec.Sharing

/-!
# Places of stored results

Some stored results of a saved buffer are written in full, and the others by number. `Stands` lays the
records beside the tokens that they are for, and collects the stored results that are written in full,
in their order. The number of a record is the place of a stored result among these.

- `Outlines.ordered`: records are numbered in order, by whatever key stored results are shared;
- `Outlines.arranged`: no stored result is written in full twice, and where a number is written instead,
  it is the place of a stored result with the same key;
- `Stands.length_bytes` says how many bytes are written, and `Stands.encodes` when they can be.
-/

namespace Reckoner.Codec

open Buffer (nested head_mem tail_subset expr_subset)

/-! ## §1 Records beside tokens -/

/-- A number is the place of a token in a list, counted from one. -/
def Named (A : List Token) (i : Int) (t : Token) : Prop :=
  ∃ k : Nat, i = k + 1 ∧ A[k]? = some t

namespace Named

variable {A : List Token} {i : Int} {t : Token}

theorem mem (h : Named A i t) : t ∈ A := by
  obtain ⟨k, -, hk⟩ := h
  exact List.mem_of_getElem? hk

theorem append (h : Named A i t) (B : List Token) : Named (A ++ B) i t := by
  obtain ⟨k, hi, hk⟩ := h
  have hlt : k < A.length := (List.getElem?_eq_some_iff.mp hk).1
  exact ⟨k, hi, by rw [List.getElem?_append_left hlt, hk]⟩

/-- The next token gets the next number. -/
theorem next (A : List Token) (t : Token) (B : List Token) :
    Named (A ++ t :: B) (A.length + 1) t :=
  ⟨A.length, rfl, by simp⟩

theorem bounds (h : Named A i t) : 1 ≤ i ∧ i ≤ A.length := by
  obtain ⟨k, rfl, hk⟩ := h
  have hlt : k < A.length := (List.getElem?_eq_some_iff.mp hk).1
  omega

end Named

/-- Records beside the tokens that they are for, and the stored results among these that are written in
full, in their order. Numbers are places in `A`; the stored result there is the one that is written in
full, and is in the relation `R` to one that a number is written for. -/
inductive Stands (R : Token → Token → Prop) (A : List Token) :
    List Record → List Token → List Token → Prop where
  | nil : Stands R A [] [] []
  | literal {rs : List Record} {ts us : List Token} (l : Literal) :
      Stands R A rs ts us → Stands R A (.literal l :: rs) (.literal l :: ts) us
  | operator {rs : List Record} {ts us : List Token} (o : Operator) :
      Stands R A rs ts us → Stands R A (.operator o.code :: rs) (.operator o :: ts) us
  | reference {rs : List Record} {ts us : List Token} {i : Int} {u : Token} {n : Nat} {v : Value}
      {e : List Token} {s : Scope} {x : Option String} (hu : Named A i u)
      (h : R u (.stored n v e s x)) :
      Stands R A rs ts us → Stands R A (.reference i :: rs) (.stored n v e s x :: ts) us
  | full {inner rs : List Record} {e ts us vs : List Token} {i : Int} {n : Nat} {v : Value}
      (s : Scope) (x : Option String) (h : Named A i (.stored n v e s x)) :
      Stands R A inner e us → Stands R A rs ts vs →
      Stands R A (.full i inner s.degrees x :: rs) (.stored n v e s x :: ts)
        (.stored n v e s x :: (us ++ vs))

namespace Stands

variable {R R' : Token → Token → Prop} {A : List Token} {rs : List Record} {ts us : List Token}

/-- More stored results may follow. -/
theorem append (h : Stands R A rs ts us) (B : List Token) : Stands R (A ++ B) rs ts us := by
  induction h with
  | nil => exact .nil
  | literal l _ ih => exact .literal l ih
  | operator o _ ih => exact .operator o ih
  | reference hu h _ ih => exact .reference (hu.append B) h ih
  | full s x h _ _ ihe ih => exact .full s x (h.append B) ihe ih

/-- Another relation that holds between stored results of the buffer wherever the first one does. -/
theorem mono (h : Stands R A rs ts us)
    (hR : ∀ u ∈ A, ∀ t ∈ nested ts, R u t → R' u t) : Stands R' A rs ts us := by
  induction h with
  | nil => exact .nil
  | literal l _ ih =>
    exact .literal l (ih fun u hu t ht => hR u hu t (tail_subset (List.Subset.refl _) ht))
  | operator o _ ih =>
    exact .operator o (ih fun u hu t ht => hR u hu t (tail_subset (List.Subset.refl _) ht))
  | reference hu h _ ih =>
    exact .reference hu (hR _ hu.mem _ (head_mem (List.Subset.refl _)) h)
      (ih fun u hu t ht => hR u hu t (tail_subset (List.Subset.refl _) ht))
  | full s x h _ _ ihe ih =>
    exact .full s x h (ihe fun u hu t ht => hR u hu t (expr_subset (List.Subset.refl _) ht))
      (ih fun u hu t ht => hR u hu t (tail_subset (List.Subset.refl _) ht))

/-- There are as many records as tokens. -/
theorem length_records (h : Stands R A rs ts us) : rs.length = ts.length := by
  induction h with
  | nil => rfl
  | literal _ _ ih => simp only [List.length_cons, ih]
  | operator _ _ ih => simp only [List.length_cons, ih]
  | reference _ _ _ ih => simp only [List.length_cons, ih]
  | full _ _ _ _ _ _ ih => simp only [List.length_cons, ih]

/-- What is collected are stored results. -/
theorem stored (h : Stands R A rs ts us) : ∀ u ∈ us, u.number?.isSome = true := by
  induction h with
  | nil => exact nofun
  | literal _ _ ih => exact ih
  | operator _ _ ih => exact ih
  | reference _ _ _ ih => exact ih
  | full _ _ _ _ _ ihe ih => exact List.forall_mem_cons.mpr ⟨rfl, List.forall_mem_append.mpr ⟨ihe, ih⟩⟩

end Stands

/-! ## §2 Outlines -/

section
variable {κ : Type} [BEq κ] [LawfulBEq κ] {key : Nat → Value → κ} {T T' : Issued κ}
  {b : List Token} {rs : List Record}

/-- A number that is looked up is among those bound. -/
theorem Issued.mem_of_lookup {k : κ} {i : Int} (h : T.lookup k = some i) :
    i ∈ T.bound.map Prod.snd := by
  unfold Issued.lookup at h
  rw [List.lookup_eq_some_iff] at h
  obtain ⟨before, behind, hbound, -⟩ := h
  rw [hbound]
  simp

/-- The records of tokens are numbered in order, and numbers stand for complete records. -/
theorem Outlines.ordered (h : Outlines key T b rs T') :
    Ordered T.count (T.bound.map Prod.snd) rs T'.count (T'.bound.map Prod.snd) := by
  induction h with
  | nil T => exact .nil _ _
  | literal l _ ih => exact .literal l ih
  | operator o _ ih => exact .operator _ ih
  | known e s x hi _ ih => exact .reference (Issued.mem_of_lookup hi) ih
  | fresh s x hnone _ _ ihe ih => exact .full _ _ ihe ih

end

/-- The key of a stored result. -/
def keyOf {κ : Type} (key : Nat → Value → κ) : Token → Option κ
  | .stored n v _ _ _ => some (key n v)
  | _ => none

/-- Two stored results have the same key. -/
def SameKey {κ : Type} (key : Nat → Value → κ) (u t : Token) : Prop :=
  ∃ k, keyOf key u = some k ∧ keyOf key t = some k

theorem keyOf_byToken (t : Token) : keyOf byToken t = t.number? := by
  cases t <;> rfl

section
variable {κ : Type} [BEq κ] {key : Nat → Value → κ} {T T' : Issued κ} {b : List Token}
  {rs : List Record}

/-- A stored result has a key with a number. -/
def Bound (key : Nat → Value → κ) (T : Issued κ) (u : Token) : Prop :=
  ∃ k i, keyOf key u = some k ∧ T.lookup k = some i

/-- While a buffer is saved, `A` are the stored results that are written in full so far, complete or
not. None of them is there twice, and the number that is bound to a key is the place of a stored result
with this key. -/
structure Placed (key : Nat → Value → κ) (T : Issued κ) (A : List Token) : Prop where
  count : T.count = A.length
  lookup : ∀ {k i}, T.lookup k = some i → ∃ u, Named A i u ∧ keyOf key u = some k
  nodup : A.Nodup

namespace Placed

variable {A : List Token}

theorem empty (key : Nat → Value → κ) : Placed key .empty [] where
  count := rfl
  lookup h := nomatch h
  nodup := .nil

/-- A stored result that is begun to be written gets the next place. -/
theorem reserve (h : Placed key T A) {t : Token} (ht : t ∉ A) :
    Placed key T.reserve.2 (A ++ [t]) where
  count := by
    rw [List.length_append, ← h.count]
    rfl
  lookup hk := by
    obtain ⟨u, hu, hkey⟩ := h.lookup hk
    exact ⟨u, hu.append [t], hkey⟩
  nodup := List.nodup_append.mpr
    -- It is new, or it would have been there.
    ⟨h.nodup, List.nodup_singleton t, fun u hu w hw heq => ht (List.mem_singleton.mp hw ▸ heq ▸ hu)⟩

/-- Binding its own key to the place of a stored result. -/
theorem bind [LawfulBEq κ] (h : Placed key T A) {k : κ} {i : Int} {u : Token} (hu : Named A i u)
    (hkey : keyOf key u = some k) : Placed key (T.bind k i) A where
  count := h.count
  lookup := by
    intro k' j hj
    by_cases hk : k' = k
    · subst hk
      rw [Issued.lookup_bind_self] at hj
      obtain rfl := Option.some.inj hj
      exact ⟨u, hu, hkey⟩
    · rw [T.lookup_bind_of_ne hk] at hj
      exact h.lookup hj
  nodup := h.nodup

end Placed

theorem Bound.mono {u : Token} (h : Bound key T u) (hT : T.Extends T') : Bound key T' u := by
  obtain ⟨k, i, hkey, hi⟩ := h
  exact ⟨k, i, hkey, hT k i hi⟩

/-- Whatever key is bound, a key that had a number has one. -/
theorem Bound.bind [LawfulBEq κ] {u : Token} (h : Bound key T u) (k : κ) (i : Int) :
    Bound key (T.bind k i) u := by
  obtain ⟨k', j, hkey, hj⟩ := h
  by_cases hk : k' = k
  · subst hk
    exact ⟨k', i, hkey, T.lookup_bind_self k' i⟩
  · exact ⟨k', j, hkey, by rw [T.lookup_bind_of_ne hk, hj]⟩

/-- The stored results of `A` have keys with numbers, or are not met in a buffer. -/
def Covered (key : Nat → Value → κ) (T : Issued κ) (A : List Token) (b : Buffer) : Prop :=
  ∀ u ∈ A, Bound key T u ∨ u ∉ nested b

namespace Covered

variable {A : List Token} {c : Buffer}

theorem mono (h : Covered key T A b) (hcb : nested c ⊆ nested b) : Covered key T A c :=
  fun u hu => (h u hu).imp_right fun hnot hmem => hnot (hcb hmem)

theorem tail {t : Token} (h : Covered key T A (t :: b)) : Covered key T A b :=
  h.mono (tail_subset (List.Subset.refl _))

theorem append {B : List Token} (h : Covered key T A b) (hB : Covered key T B b) :
    Covered key T (A ++ B) b :=
  List.forall_mem_append.mpr ⟨h, hB⟩

/-- What has a number keeps it. -/
theorem extend (h : Covered key T A b)
    (hT : ∀ u, Bound key T u → Bound key T' u) : Covered key T' A b :=
  fun u hu => (h u hu).imp_left (hT u)

theorem of_bound (h : ∀ u ∈ A, Bound key T u) : Covered key T A b :=
  fun u hu => .inl (h u hu)

end Covered

variable [LawfulBEq κ]

/-- Which stored results are written in full from some point on. The ones before are complete, so that
numbers are written for them, or they are being written, and then they are not met again. -/
theorem Outlines.stands (h : Outlines key T b rs T') {A : List Token} (hA : Placed key T A)
    (hcovered : Covered key T A b) :
    ∃ us, Stands (SameKey key) (A ++ us) rs b us ∧ Placed key T' (A ++ us) ∧ us ⊆ nested b
      ∧ ∀ u ∈ us, Bound key T' u := by
  induction h generalizing A with
  | nil T =>
    rw [← List.append_nil A] at hA
    exact ⟨[], .nil, hA, List.nil_subset _, nofun⟩
  | literal l _ ih =>
    obtain ⟨us, hus, hA', hsubset, hbound⟩ := ih hA hcovered.tail
    exact ⟨us, .literal l hus, hA',
      List.Subset.trans hsubset (tail_subset (List.Subset.refl _)), hbound⟩
  | operator o _ ih =>
    obtain ⟨us, hus, hA', hsubset, hbound⟩ := ih hA hcovered.tail
    exact ⟨us, .operator o hus, hA',
      List.Subset.trans hsubset (tail_subset (List.Subset.refl _)), hbound⟩
  -- The number is looked up, and its place holds a stored result with this key.
  | known e s x hi _ ih =>
    obtain ⟨us, hus, hA', hsubset, hbound⟩ := ih hA hcovered.tail
    obtain ⟨w, hw, hkey⟩ := hA.lookup hi
    exact ⟨us, .reference (hw.append us) ⟨_, hkey, rfl⟩ hus, hA',
      List.Subset.trans hsubset (tail_subset (List.Subset.refl _)), hbound⟩
  | @fresh T T₁ T₂ e ts inner rs n v s x hnone he hts ihe ih =>
    let t : Token := .stored n v e s x
    have hhead : t ∈ nested (t :: ts) := head_mem (List.Subset.refl _)
    -- It has not been written, as then its key would have a number, or it would be inside itself.
    have hnew : t ∉ A := by
      intro hmem
      rcases hcovered t hmem with ⟨k, i, hkey, hi⟩ | hnot
      · obtain rfl := Option.some.inj hkey
        rw [hnone] at hi
        cases hi
      · exact hnot hhead
    -- While its expression is written it is not complete, but it is not met there either.
    have hwithin : Covered key T.reserve.2 (A ++ [t]) e := by
      have hbefore : Covered key T.reserve.2 A (t :: ts) := hcovered
      refine (hbefore.mono (expr_subset (List.Subset.refl _))).append fun u hu => ?_
      rw [List.mem_singleton.mp hu]
      exact .inr (Buffer.not_mem_nested_self n v e s x)
    obtain ⟨us, hus, hA₁, hsubset, hbound⟩ := ihe (hA.reserve hnew) hwithin
    have hplace : Named (A ++ [t] ++ us) T.reserve.1 t := by
      have hreserve : T.reserve.1 = (A.length : Int) + 1 := by rw [← hA.count]; rfl
      rw [hreserve]
      exact (Named.next A t []).append us
    have hself : Bound key (T₁.bind (key n v) T.reserve.1) t :=
      ⟨key n v, T.reserve.1, rfl, T₁.lookup_bind_self _ _⟩
    -- Behind it, its key is bound, and so are those of all that was written inside.
    have hbehind : Covered key (T₁.bind (key n v) T.reserve.1) (A ++ [t] ++ us) ts := by
      have hbefore : Covered key T.reserve.2 A (t :: ts) := hcovered
      have hold := hbefore.tail.extend fun u hu =>
        (hu.mono he.table_extends).bind (key n v) T.reserve.1
      refine (hold.append (.of_bound fun u hu => ?_)).append (.of_bound fun u hu => ?_)
      · rw [List.mem_singleton.mp hu]
        exact hself
      · exact (hbound u hu).bind _ _
    obtain ⟨vs, hvs, hA₂, hsubset', hbound'⟩ := ih (hA₁.bind hplace rfl) hbehind
    have happend : A ++ t :: (us ++ vs) = A ++ [t] ++ us ++ vs := by simp
    refine ⟨t :: (us ++ vs), ?_, ?_, ?_, ?_⟩
    · rw [happend]
      exact .full s x (hplace.append vs) (hus.append vs) hvs
    · rw [happend]
      exact hA₂
    · refine List.cons_subset.mpr ⟨hhead, List.append_subset.mpr ⟨?_, ?_⟩⟩
      · exact List.Subset.trans hsubset (expr_subset (List.Subset.refl _))
      · exact List.Subset.trans hsubset' (tail_subset (List.Subset.refl _))
    · refine List.forall_mem_cons.mpr ⟨hself.mono hts.table_extends, ?_⟩
      refine List.forall_mem_append.mpr ⟨fun u hu => ?_, hbound'⟩
      exact ((hbound u hu).bind _ _).mono hts.table_extends

end

/-! ## §3 Whole buffers -/

/-- The records of a buffer, and the stored results `A` that are written in full, each of them once, in
order. -/
structure Arranged (R : Token → Token → Prop) (b : Buffer) (rs : List Record) (A : List Token) :
    Prop where
  stands : Stands R A rs b A
  ordered : ∃ done, Ordered 0 [] rs A.length done
  nodup : A.Nodup
  subset : A ⊆ nested b

namespace Arranged

variable {R R' : Token → Token → Prop} {b : Buffer} {rs : List Record} {A : List Token}

/-- Full records are numbered from one on. -/
theorem numbersEach_eq (h : Arranged R b rs A) :
    numbersEach rs = (List.range' 1 A.length).map Int.ofNat := by
  obtain ⟨done, hordered⟩ := h.ordered
  exact hordered.numbersEach_eq

/-- Weaker relations arrange as well. -/
theorem mono (h : Arranged R b rs A)
    (hR : ∀ u ∈ nested b, ∀ t ∈ nested b, R u t → R' u t) : Arranged R' b rs A where
  stands := h.stands.mono fun u hu => hR u (h.subset hu)
  ordered := h.ordered
  nodup := h.nodup
  subset := h.subset

end Arranged

/-- Whatever key stored results are shared by, the records of a buffer are arranged by it. -/
theorem Outlines.arranged {κ : Type} [BEq κ] [LawfulBEq κ] {key : Nat → Value → κ} {T : Issued κ}
    {b : Buffer} {rs : List Record} (h : Outlines key .empty b rs T) :
    ∃ A, Arranged (SameKey key) b rs A ∧ Placed key T A := by
  obtain ⟨A, hstands, hplaced, hsubset, -⟩ := h.stands (Placed.empty key) nofun
  -- The numbers given out are as many as the stored results written in full.
  have hordered := h.ordered
  rw [hplaced.count] at hordered
  exact ⟨A, ⟨hstands, ⟨_, hordered⟩, hplaced.nodup, hsubset⟩, hplaced⟩

/-! ## §4 Sizes -/

/-- How many bytes a token takes where it stands. For a stored result these are a tag and a number. -/
def ownSize : Token → Nat
  | .literal l => 1 + (2 + (utf8 l.whole).length) + 1 + (2 + (utf8 l.fraction).length) + 4
  | .operator _ => 1 + 4
  | .stored .. => 1 + 4

/-- How many bytes a stored result takes besides where it is written in full: a count, its expression,
a mode and a text. -/
def bodySize : Token → Nat
  | .stored _ _ e _ (some text) => 4 + (e.map ownSize).sum + 1 + (2 + (utf8 text).length)
  | _ => 0

/-- A literal takes a tag, its two texts with their lengths, a truth value and an exponent. -/
theorem length_of_encode_literal {l : Literal} {bytes : Bytes} (h : encode (.literal l) = .ok bytes) :
    bytes.length = ownSize (.literal l) := by
  simp only [encode, writeLiteral, bind_ok_iff, return_ok_iff] at h
  obtain ⟨_, ⟨whole, hwhole, fraction, hfraction, exponent, hexponent, rfl⟩, rfl⟩ := h
  simp only [writeTag, writeBool, List.length_append, List.length_singleton, ownSize,
    length_of_writeText hwhole, length_of_writeText hfraction, length_of_writeInt hexponent]
  omega

/-- An operator takes a tag and a number. -/
theorem length_of_encode_operator {n : Int} {bytes : Bytes} (h : encode (.operator n) = .ok bytes) :
    bytes.length = 5 := by
  simp only [encode, bind_ok_iff, return_ok_iff] at h
  obtain ⟨number, hnumber, rfl⟩ := h
  simp [writeTag, length_of_writeInt hnumber]

/-- A number in the place of a stored result takes five bytes with its tag. -/
theorem length_of_encode_reference {n : Int} {bytes : Bytes} (h : encode (.reference n) = .ok bytes) :
    bytes.length = 5 := by
  simp only [encode, bind_ok_iff, return_ok_iff] at h
  obtain ⟨number, hnumber, rfl⟩ := h
  simp [writeTag, length_of_writeInt hnumber]

namespace Stands

variable {R : Token → Token → Prop} {A : List Token} {rs : List Record} {ts us : List Token}

/-- Every token takes its own bytes where it stands, and every stored result that is written in full
takes those of its body once. -/
theorem length_bytes (h : Stands R A rs ts us) {bytes : Bytes} (hencode : encodeEach rs = .ok bytes) :
    bytes.length = (ts.map ownSize).sum + (us.map bodySize).sum := by
  induction h generalizing bytes with
  | nil =>
    obtain rfl := Except.ok.inj hencode
    rfl
  | literal l _ ih =>
    obtain ⟨first, rest, hfirst, hrest, rfl⟩ := encodeEach_cons_ok_iff.mp hencode
    simp only [List.length_append, List.map_cons, List.sum_cons, length_of_encode_literal hfirst,
      ih hrest]
    omega
  | operator o _ ih =>
    obtain ⟨first, rest, hfirst, hrest, rfl⟩ := encodeEach_cons_ok_iff.mp hencode
    simp only [List.length_append, List.map_cons, List.sum_cons, length_of_encode_operator hfirst,
      ih hrest, ownSize]
    omega
  | reference _ _ _ ih =>
    obtain ⟨first, rest, hfirst, hrest, rfl⟩ := encodeEach_cons_ok_iff.mp hencode
    simp only [List.length_append, List.map_cons, List.sum_cons, length_of_encode_reference hfirst,
      ih hrest, ownSize]
    omega
  -- A full record takes its own bytes, then its body, and what its expression takes is in the body.
  | @full inner rs e ts us vs i n v s x _ _ _ ihe ih =>
    obtain ⟨first, rest, hfirst, hrest, rfl⟩ := encodeEach_cons_ok_iff.mp hencode
    obtain ⟨number, _, written, hnumber, hinner, hwritten, rfl⟩ := encode_full_ok_iff.mp hfirst
    obtain ⟨count, each, hcount, heach, rfl⟩ := encodeAll_ok_iff.mp hinner
    obtain ⟨text, rfl⟩ := of_writeStoredText_ok hwritten
    have htext : written.length = 2 + (utf8 text).length := length_of_writeText hwritten
    simp only [writeTag, writeBool, List.length_append, List.length_singleton, List.map_cons,
      List.map_append, List.sum_cons, List.sum_append, length_of_writeInt hnumber,
      length_of_writeInt hcount, htext, ihe heach, ih hrest, ownSize, bodySize]
    omega

end Stands

/-! ## §5 What can be written -/

/-- What stands in the record of a token besides numbers can be written. -/
def Writable : Token → Prop
  | .literal l => ∃ bytes, writeLiteral l = .ok bytes
  | .operator o => ∃ bytes, writeInt o.code = .ok bytes
  | .stored _ _ e _ x =>
    (∃ bytes, writeInt e.length = .ok bytes) ∧ ∃ bytes, writeStoredText x = .ok bytes

/-- Records can be encoded if what stands in them can be written, and if places can. -/
theorem Stands.encodes {R : Token → Token → Prop} {A : List Token} {rs : List Record}
    {ts us : List Token} (h : Stands R A rs ts us) (hA : A.length < 2 ^ 31)
    (hts : ∀ t ∈ nested ts, Writable t) : ∃ bytes, encodeEach rs = .ok bytes := by
  -- Places are bounded by the length, which can be written.
  have hnumber {i : Int} {t : Token} (hi : Named A i t) : ∃ bytes, writeInt i = .ok bytes := by
    have hbounds := hi.bounds
    exact (writeInt_ok_iff i).mpr (by omega)
  induction h with
  | nil => exact exists_encodeEach_nil
  | literal l _ ih =>
    have hl : Writable (.literal l) := hts _ (head_mem (List.Subset.refl _))
    have hrest := ih fun t ht => hts t (tail_subset (List.Subset.refl _) ht)
    exact exists_encodeEach_cons (exists_encode_literal hl) hrest
  | operator o _ ih =>
    have ho : Writable (.operator o) := hts _ (head_mem (List.Subset.refl _))
    have hrest := ih fun t ht => hts t (tail_subset (List.Subset.refl _) ht)
    exact exists_encodeEach_cons (exists_encode_operator ho) hrest
  | reference hu _ _ ih =>
    have hrest := ih fun t ht => hts t (tail_subset (List.Subset.refl _) ht)
    exact exists_encodeEach_cons (exists_encode_reference (hnumber hu)) hrest
  | @full inner rs e ts us vs i n v s x hi hinner _ ihe ih =>
    obtain ⟨hcount, htext⟩ : Writable (.stored n v e s x) := hts _ (head_mem (List.Subset.refl _))
    have heach := ihe fun t ht => hts t (expr_subset (List.Subset.refl _) ht)
    have hrest := ih fun t ht => hts t (tail_subset (List.Subset.refl _) ht)
    rw [← hinner.length_records] at hcount
    exact exists_encodeEach_cons (exists_encode_full (hnumber hi) hcount heach htext s.degrees) hrest

end Reckoner.Codec
