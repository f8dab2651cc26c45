import Reckoner.Proofs.Codec.Rebuilding

/-!
# The stored results at hand while loading

Every stored result that loading makes is put on a shelf under the number of its record, and stays
there. So the shelf tells what loading can have made of any bytes whatever:

- `Rebuilds.stocked`: everything that was rebuilt is sound at every depth, and all stored results in it
  are on the shelf, each under one number;
- `Rebuilds.values`: values of the same identity have the same quantity.
-/

namespace Reckoner.Codec

open Buffer (nested nested_cons)

variable {S S₁ S' : Shelf} {rs : List Record} {ts : List Token}

/-! ## §1 The shelf grows -/

/-- Numbers of records are given out in order, and never taken back. -/
theorem Rebuilds.highest_le (h : Rebuilds S rs ts S') : S.highest ≤ S'.highest := by
  induction h with
  | nil S => exact Int.le_refl _
  | literal _ _ _ ih => exact ih
  | operator _ _ ih => exact ih
  | known _ _ ih => exact ih
  | fresh _ _ _ _ _ ihinner ih =>
    simp only [Shelf.highest_claim] at ihinner
    simp only [Shelf.highest_put] at ih
    omega

/-- So are the numbers of stored results. -/
theorem Rebuilds.next_le (h : Rebuilds S rs ts S') : S.next ≤ S'.next := by
  induction h with
  | nil S => exact Nat.le_refl _
  | literal _ _ _ ih => exact ih
  | operator _ _ ih => exact ih
  | known _ _ ih => exact ih
  | fresh _ _ _ _ _ ihinner ih =>
    simp only [Shelf.next_claim] at ihinner
    simp only [Shelf.next_put] at ih
    omega

/-- Stored results that are made are numbered from the next number on. -/
theorem Rebuilds.le_number {base : Nat} (h : Rebuilds S rs ts S') (hbase : base ≤ S.next)
    (hS : ∀ i t n, S.get i = some t → t.number? = some n → base ≤ n) :
    ∀ i t n, S'.get i = some t → t.number? = some n → base ≤ n := by
  induction h with
  | nil S => exact hS
  | literal _ _ _ ih => exact ih hbase hS
  | operator _ _ ih => exact ih hbase hS
  | known _ _ ih => exact ih hbase hS
  | fresh _ _ hinner _ _ ihinner ih =>
    have hlater := hinner.next_le
    rw [Shelf.next_claim] at hlater
    refine ih (by rw [Shelf.next_put]; omega) fun i t n ht hn => ?_
    -- What is put on the shelf has the number that is next after its expression, so a later one.
    rw [Shelf.get_put] at ht
    split at ht
    · cases ht
      obtain rfl := Option.some.inj hn
      exact Nat.le_trans hbase hlater
    · exact ihinner hbase hS i t n ht hn

/-- What was on the shelf under a number that was given out, or was missing there, remains so. -/
theorem Rebuilds.get_of_le (h : Rebuilds S rs ts S') {i : Int} (hi : i ≤ S.highest) :
    S'.get i = S.get i := by
  induction h with
  | nil S => rfl
  | literal _ _ _ ih => exact ih hi
  | operator _ _ ih => exact ih hi
  | known _ _ ih => exact ih hi
  | @fresh S S₁ S₂ _ _ _ _ _ _ _ _ hinner _ _ ihinner ih =>
    have hlater := hinner.highest_le
    simp only [Shelf.highest_claim] at hlater ihinner
    -- The record that is completed here has a later number than the one looked at.
    have hne : i ≠ S.highest + 1 := by omega
    rw [ih (by rw [Shelf.highest_put]; omega), Shelf.get_put, if_neg hne, ihinner (by omega)]
    rfl

/-- A number that was given out for a record is not in use while the record is not complete. -/
theorem Rebuilds.get_claimed {e : Buffer} (h : Rebuilds S.claim rs e S₁) :
    S₁.get (S.highest + 1) = S.get (S.highest + 1) :=
  h.get_of_le (Int.le_refl (S.highest + 1))

/-- A shelf on which everything remains that was on another one. -/
def Shelf.Extends (S S' : Shelf) : Prop :=
  ∀ i t, S.get i = some t → S'.get i = some t

/-- All stored results among some tokens are on the shelf, and all these tokens are sound. -/
def Shelf.Supplies (S : Shelf) (A : List Token) : Prop :=
  ∀ u ∈ A, u.Sound ∧ (u.number?.isSome = true → ∃ i, S.get i = some u)

/-- What is supplied from a shelf is supplied from one that has more. -/
theorem Shelf.Supplies.mono {A : List Token} (h : S.Supplies A) (hS : S.Extends S') :
    S'.Supplies A := by
  intro u hu
  refine ⟨(h u hu).1, fun hstored => ?_⟩
  obtain ⟨i, hi⟩ := (h u hu).2 hstored
  exact ⟨i, hS i u hi⟩

theorem Shelf.supplies_append {A B : List Token} :
    S.Supplies (A ++ B) ↔ S.Supplies A ∧ S.Supplies B :=
  List.forall_mem_append

/-! ## §2 What is on the shelf -/

/-- A shelf as loading keeps it. Only numbers given out are in use; on the shelf are stored results
with texts, each under one number; whatever is in them is sound, and on the shelf as well. -/
structure Stocked (S : Shelf) : Prop where
  bounded : ∀ {i t}, S.get i = some t → i ≤ S.highest
  stored : ∀ {i t}, S.get i = some t → ∃ n v e s text, t = .stored n v e s (some text) ∧ n < S.next
  distinct : ∀ {i j t u}, S.get i = some t → S.get j = some u → t.number? = u.number? → i = j
  supplied : ∀ {i t}, S.get i = some t → S.Supplies t.nested

namespace Stocked

theorem empty (next : Nat) : Stocked ⟨.empty, next⟩ where
  bounded h := nomatch h
  stored h := nomatch h
  distinct h := nomatch h
  supplied h := nomatch h

theorem claim (h : Stocked S) : Stocked S.claim where
  bounded ht := by
    have := h.bounded ht
    rw [Shelf.highest_claim]
    omega
  stored ht := h.stored ht
  distinct ht hu := h.distinct ht hu
  supplied ht := h.supplied ht

/-- Nothing is on the shelf under the next number. -/
theorem get_next (h : Stocked S) : S.get (S.highest + 1) = none := by
  cases hget : S.get (S.highest + 1) with
  | none => rfl
  | some t =>
    have := h.bounded hget
    omega

/-- Stored results on the shelf keep their places. -/
theorem extends_of_rebuilds (h : Stocked S) (hr : Rebuilds S rs ts S') : S.Extends S' := by
  intro i t ht
  rw [hr.get_of_le (h.bounded ht), ht]

end Stocked

/-- Putting something under a free number takes nothing away. -/
theorem Shelf.extends_put {i : Int} (hfree : S.get i = none) (t : Token) :
    S.Extends (S.put i t) := by
  intro j u hu
  have hne : j ≠ i := by
    rintro rfl
    rw [hfree] at hu
    cases hu
  rw [Shelf.get_put, if_neg hne, hu]

/-- The stored result of an expression that was read as a whole is sound. -/
theorem sound_make {e : Buffer} {degrees : Bool} {x : Operand}
    (hx : e.evaluatePrefix ⟨degrees, e.length⟩ = .ok (e.length, x)) (text : String) :
    (S.make e x degrees text).Sound :=
  ⟨rfl, x, hx, rfl⟩

/-- A new stored result may be put on the shelf if what is in it is there already. -/
theorem Stocked.put (h : Stocked S) {i : Int} (hfree : S.get i = none) (hi : i ≤ S.highest)
    {e : Buffer} (he : S.Supplies (nested e)) {degrees : Bool} {x : Operand}
    (hx : e.evaluatePrefix ⟨degrees, e.length⟩ = .ok (e.length, x)) (text : String) :
    Stocked (S.put i (S.make e x degrees text)) := by
  have hextends := Shelf.extends_put hfree (S.make e x degrees text)
  -- What is on the new shelf is the new stored result or was there before.
  have hcases {j : Int} {u : Token} (hu : (S.put i (S.make e x degrees text)).get j = some u) :
      i = j ∧ S.make e x degrees text = u ∨ S.get j = some u := by
    rw [Shelf.get_put] at hu
    split at hu
    · next hj => exact .inl ⟨hj.symm, Option.some.inj hu⟩
    · exact .inr hu
  -- The new stored result has the next number, which no other one on the shelf has.
  have hnumber {j : Int} {u : Token} (hu : S.get j = some u) : u.number? ≠ some S.next := by
    obtain ⟨n, v, e, s, text, rfl, hn⟩ := h.stored hu
    intro heq
    cases heq
    omega
  constructor
  case bounded =>
    intro j u hu
    rcases hcases hu with ⟨rfl, -⟩ | hold
    · exact hi
    · exact h.bounded hold
  case stored =>
    intro j u hu
    rcases hcases hu with ⟨-, rfl⟩ | hold
    · exact ⟨_, _, _, _, text, rfl, Nat.lt_succ_self _⟩
    · obtain ⟨n, v, e, s, text, rfl, hn⟩ := h.stored hold
      exact ⟨_, _, _, _, text, rfl, Nat.lt_succ_of_lt hn⟩
  case distinct =>
    intro j k t u ht hu heq
    rcases hcases ht with ⟨rfl, rfl⟩ | ht <;> rcases hcases hu with ⟨rfl, rfl⟩ | hu
    · rfl
    · exact absurd heq.symm (hnumber hu)
    · exact absurd heq (hnumber ht)
    · exact h.distinct ht hu heq
  case supplied =>
    intro j u hu
    rcases hcases hu with ⟨rfl, rfl⟩ | hold
    · intro w hw
      rcases List.mem_cons.mp hw with rfl | hw
      · exact ⟨sound_make hx text, fun _ => ⟨i, by rw [Shelf.get_put, if_pos rfl]; rfl⟩⟩
      · exact he.mono hextends w hw
    · exact (h.supplied hold).mono hextends

/-- Everything that was rebuilt is sound, and all stored results in it are on the shelf. -/
theorem Rebuilds.stocked (h : Rebuilds S rs ts S') (hS : Stocked S) :
    Stocked S' ∧ S'.Supplies (nested ts) := by
  -- On the rebuilding; a full record is the one case in which something is put on the shelf.
  induction h with
  | nil S => exact ⟨hS, fun u hu => nomatch hu⟩
  | literal l hl _ ih =>
    obtain ⟨hS', hts⟩ := ih hS
    refine ⟨hS', ?_⟩
    intro u hu
    rcases List.mem_cons.mp hu with rfl | hu
    · exact ⟨hl, nofun⟩
    · exact hts u hu
  | operator hs _ ih =>
    obtain ⟨hS', hts⟩ := ih hS
    refine ⟨hS', ?_⟩
    intro u hu
    rcases List.mem_cons.mp hu with rfl | hu
    · exact ⟨⟨_, rfl⟩, nofun⟩
    · exact hts u hu
  | known hget hrest ih =>
    obtain ⟨hS', hts⟩ := ih hS
    rw [nested_cons]
    exact ⟨hS', Shelf.supplies_append.mpr
      ⟨(hS.supplied hget).mono (hS.extends_of_rebuilds hrest), hts⟩⟩
  | @fresh S S₁ S₂ _ _ e _ x degrees text hfree hinner hx hrest ihinner ih =>
    obtain ⟨hS₁, he⟩ := ihinner hS.claim
    have hhighest := hinner.highest_le
    rw [Shelf.highest_claim] at hhighest
    have hfree₁ : S₁.get (S.highest + 1) = none := hinner.get_claimed.trans hfree
    -- What is in the new stored result is on the shelf before the stored result itself is.
    have hput := hS₁.put hfree₁ hhighest he hx text
    obtain ⟨hS₂, hts⟩ := ih hput
    -- The new stored result is found on the shelf it was put on, and stays there.
    have hself : (S₁.put (S.highest + 1) (S₁.make e x degrees text)).get (S.highest + 1)
        = some (S₁.make e x degrees text) := by
      rw [Shelf.get_put, if_pos rfl]
    rw [nested_cons]
    exact ⟨hS₂, Shelf.supplies_append.mpr
      ⟨(hput.supplied hself).mono (hput.extends_of_rebuilds hrest), hts⟩⟩

/-- The shelf after a full record. -/
theorem Stocked.complete (hS : Stocked S) {e : Buffer} (h : Rebuilds S.claim rs e S₁)
    {degrees : Bool} {x : Operand}
    (hx : e.evaluatePrefix ⟨degrees, e.length⟩ = .ok (e.length, x)) (text : String) :
    Stocked (S₁.put (S.highest + 1) (S₁.make e x degrees text)) := by
  obtain ⟨hS₁, he⟩ := h.stocked hS.claim
  have hhighest := h.highest_le
  rw [Shelf.highest_claim] at hhighest
  exact hS₁.put (h.get_claimed.trans hS.get_next) hhighest he hx text

/-- What was rebuilt is sound at every depth. -/
theorem Shelf.Supplies.sound {b : Buffer} (h : S.Supplies (nested b)) : b.Sound :=
  fun t ht => (h t ht).1

/-- What was rebuilt can be displayed. -/
theorem Stocked.text_ok (h : Stocked S) {b : Buffer} (hb : S.Supplies (nested b)) :
    ∀ t ∈ b, ∃ text, t.text = .ok text := by
  intro t ht
  obtain ⟨hsound, hshelf⟩ := hb t (Buffer.mem_nested_of_mem ht)
  cases t with
  | literal l => exact ⟨_, rfl⟩
  | operator o =>
    obtain ⟨s, rfl⟩ := hsound
    exact Token.operatorText_listed s
  | stored n v e s x =>
    obtain ⟨i, hi⟩ := hshelf rfl
    obtain ⟨_, _, _, _, text, heq, -⟩ := h.stored hi
    cases heq
    exact ⟨text, rfl⟩

/-- Among stored results on a shelf, numbers name stored results. -/
theorem Stocked.isNumbered (h : Stocked S) {A : List Token} (hA : S.Supplies A) : Numbered A := by
  intro t ht u hu hstored heq
  obtain ⟨i, hi⟩ := (hA t ht).2 hstored
  obtain ⟨j, hj⟩ := (hA u hu).2 (heq ▸ hstored)
  -- Two places with one number are one place.
  obtain rfl := h.distinct hi hj heq
  rw [hi] at hj
  exact Option.some.inj hj

/-! ## §3 Values -/

/-- Among some tokens, a key names one quantity. -/
def Coherent {κ : Type} (key : Nat → Value → κ) (A : List Token) : Prop :=
  ∀ n v e s x, .stored n v e s x ∈ A → ∀ n' v' e' s' x', .stored n' v' e' s' x' ∈ A →
    key n v = key n' v' → v.quantity = v'.quantity

/-- Quantities to begin with: constants have theirs, and no result is known. -/
def constantQuantity : Identity → Quantity
  | .constant c => c.quantity
  | .result _ => 0

/-- The quantities of the values on a shelf: constants have theirs, and the results are numbered by
numbers that were given out. -/
structure Values (q : Identity → Quantity) (S : Shelf) : Prop where
  constant : ∀ c, q (.constant c) = c.quantity
  quantity : ∀ {i t v}, S.get i = some t → t.value? = some v → q v.identity = v.quantity
  given : ∀ {i t v m}, S.get i = some t → t.value? = some v → v.identity = .result m → m < S.next

namespace Values

variable {q : Identity → Quantity}

theorem empty (next : Nat) : Values constantQuantity ⟨.empty, next⟩ where
  constant _ := rfl
  quantity ht := nomatch ht
  given ht := nomatch ht

/-- A stored result whose value has the quantity that its identity stands for may be put on the
shelf. -/
theorem put (h : Values q S) {i : Int} {t : Token} {v : Value} (ht : t.value? = some v)
    (hv : q v.identity = v.quantity) (hgiven : ∀ m, v.identity = .result m → m ≤ S.next) :
    Values q (S.put i t) where
  constant := h.constant
  quantity := by
    intro j u w hu hw
    -- It is the new stored result that is looked at, or one that was there.
    rw [Shelf.get_put] at hu
    split at hu
    · obtain rfl := Option.some.inj hu
      obtain rfl := Option.some.inj (ht.symm.trans hw)
      exact hv
    · exact h.quantity hu hw
  given := by
    intro j u w m hu hw hm
    rw [Shelf.get_put] at hu
    rw [Shelf.next_put]
    split at hu
    · obtain rfl := Option.some.inj hu
      obtain rfl := Option.some.inj (ht.symm.trans hw)
      exact Nat.lt_succ_of_le (hgiven m hm)
    · exact Nat.lt_succ_of_lt (h.given hu hw hm)

/-- The next number may stand for any quantity. -/
theorem update (h : Values q S) (y : Quantity) :
    Values (fun k => if k = .result S.next then y else q k) S where
  constant c := by
    rw [if_neg (by simp)]
    exact h.constant c
  quantity := by
    intro i t v ht hv
    have hne : v.identity ≠ .result S.next := by
      intro heq
      exact Nat.lt_irrefl _ (h.given ht hv heq)
    rw [if_neg hne]
    exact h.quantity ht hv
  given := h.given

/-- The stored result of an expression on the shelf has a value that was on the shelf, or is a
constant, or is new. -/
theorem make (h : Values q S) {e : Buffer} (he : S.Supplies (nested e)) {s : Scope} {position : Nat}
    {x : Operand} (hx : e.evaluatePrefix s = .ok (position, x)) (i : Int) (degrees : Bool)
    (text : String) : ∃ q', Values q' (S.put i (S.make e x degrees text)) := by
  -- The value of the expression has one of three origins.
  cases Buffer.evaluatePrefix_origin hx with
  | computed y =>
    refine ⟨_, (h.update y).put rfl ?_ ?_⟩
    · exact if_pos rfl
    · rintro m ⟨⟩
      exact Nat.le_refl _
  | constant c => exact ⟨q, h.put rfl (h.constant c) nofun⟩
  -- A stored result of the expression is on the shelf, so its value has its quantity already.
  | stored v hv =>
    obtain ⟨n, e', s', text', hmem⟩ := hv
    obtain ⟨j, hj⟩ := (he _ (Buffer.mem_nested_of_mem hmem)).2 rfl
    refine ⟨q, h.put (v := v) rfl (h.quantity hj rfl) ?_⟩
    intro m hm
    exact Nat.le_of_lt (h.given hj rfl hm)

end Values

/-- Identities keep standing for quantities while tokens are rebuilt. -/
theorem Rebuilds.values (h : Rebuilds S rs ts S') (hS : Stocked S) {q : Identity → Quantity}
    (hq : Values q S) : ∃ q', Values q' S' := by
  induction h generalizing q with
  | nil S => exact ⟨q, hq⟩
  | literal _ _ _ ih => exact ih hS hq
  | operator _ _ ih => exact ih hS hq
  | known _ _ ih => exact ih hS hq
  | fresh text hfree hinner hx _ ihinner ih =>
    -- First the values inside the expression, then that of the stored result itself.
    obtain ⟨q₁, hq₁⟩ := ihinner hS.claim ⟨hq.constant, hq.quantity, hq.given⟩
    obtain ⟨q₂, hq₂⟩ := hq₁.make (hinner.stocked hS.claim).2 hx _ _ text
    exact ih (hS.complete hinner hx text) hq₂

/-- Among stored results on a shelf, identities name quantities. -/
theorem Values.coherent {q : Identity → Quantity} (h : Values q S) {A : List Token}
    (hA : S.Supplies A) : Coherent byValue A := by
  intro n v e s x ht n' v' e' s' x' hu hkey
  obtain ⟨i, hi⟩ := (hA _ ht).2 rfl
  obtain ⟨j, hj⟩ := (hA _ hu).2 rfl
  have hidentity : v.identity = v'.identity := hkey
  -- Both quantities are what the identity stands for.
  rw [← h.quantity hi rfl, ← h.quantity hj rfl, hidentity]

end Reckoner.Codec
