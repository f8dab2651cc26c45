import Mathlib.Algebra.Ring.Nat
import Mathlib.Data.List.Perm.Subperm
import Reckoner.Proofs.Codec.Limit
import Reckoner.Proofs.Codec.Merging
import Reckoner.Proofs.Codec.Placement

/-!
# What is accepted

Whatever bytes are accepted as a saved buffer have a single transcript. It tells what was made of them:
tokens that are sound at every depth, numbered in order, every number standing for the very stored result
that was made of the record with this number.

- `loaded_sound_arranged` says so, and when what was made can be saved;
- `load_roots`: it cannot be if there is too little room. Saving goes by value and not by token, and may
  nest records far more deeply than those that were read;
- `save_loaded_eq`: if no two stored results have the same value, saving writes the same bytes again, but
  for truth values that were written as other bytes than zero and one.
-/

namespace Reckoner.Codec

open Buffer (nested)

variable {S S' : Shelf} {rs : List Record} {ts : List Token} {b : Buffer} {next : Nat}

/-! ## §1 What can be written again -/

/-- What was read for full records can be written again. -/
def Shelf.Writable (S : Shelf) : Prop :=
  ∀ i t, S.get i = some t → ∀ u ∈ t.nested, Codec.Writable u

/-- What is rebuilt from records that were written can be written again. -/
theorem Rebuilds.writable (h : Rebuilds S rs ts S') {bytes : Bytes}
    (hencode : encodeEach rs = .ok bytes) (hS : S.Writable) :
    (∀ t ∈ nested ts, Writable t) ∧ S'.Writable := by
  induction h generalizing bytes with
  | nil S => exact ⟨nofun, hS⟩
  | literal l _ _ ih =>
    obtain ⟨_, rest, hfirst, hrest, -⟩ := encodeEach_cons_ok_iff.mp hencode
    simp only [encode, bind_ok_iff] at hfirst
    obtain ⟨written, hwritten, -⟩ := hfirst
    obtain ⟨hts, hS'⟩ := ih hrest hS
    exact ⟨List.forall_mem_cons.mpr ⟨⟨written, hwritten⟩, hts⟩, hS'⟩
  | @operator _ _ _ _ n s hs _ ih =>
    obtain ⟨_, rest, hfirst, hrest, -⟩ := encodeEach_cons_ok_iff.mp hencode
    simp only [encode, bind_ok_iff] at hfirst
    obtain ⟨written, hwritten, -⟩ := hfirst
    obtain ⟨hts, hS'⟩ := ih hrest hS
    have hcode : (Operator.listed s).code = n := Operator.code_of_ofCode hs
    rw [← hcode] at hwritten
    exact ⟨List.forall_mem_cons.mpr ⟨⟨written, hwritten⟩, hts⟩, hS'⟩
  -- A number stands for what is on the shelf, which can be written by assumption.
  | known hget _ ih =>
    obtain ⟨_, rest, -, hrest, -⟩ := encodeEach_cons_ok_iff.mp hencode
    obtain ⟨hts, hS'⟩ := ih hrest hS
    rw [Buffer.nested_cons]
    exact ⟨List.forall_mem_append.mpr ⟨hS _ _ hget, hts⟩, hS'⟩
  | @fresh S S₁ S₂ inner _ e _ x degrees text _ hinner _ _ ihinner ih =>
    obtain ⟨_, rest, hfirst, hrest, -⟩ := encodeEach_cons_ok_iff.mp hencode
    obtain ⟨_, _, written, -, hexpr, hwritten, -⟩ := encode_full_ok_iff.mp hfirst
    obtain ⟨count, each, hcount, heach, -⟩ := encodeAll_ok_iff.mp hexpr
    obtain ⟨he, hS₁⟩ := ihinner heach hS
    rw [← hinner.length_eq] at hcount
    have hnested : ∀ u ∈ (S₁.make e x degrees text).nested, Writable u :=
      List.forall_mem_cons.mpr ⟨⟨⟨count, hcount⟩, written, hwritten⟩, he⟩
    -- The new stored result joins what is on the shelf.
    have hput : (S₁.put (S.highest + 1) (S₁.make e x degrees text)).Writable := by
      intro i t ht
      rw [Shelf.get_put] at ht
      split at ht
      · obtain rfl := Option.some.inj ht
        exact hnested
      · exact hS₁ i t ht
    obtain ⟨hts, hS₂⟩ := ih hrest hput
    rw [Buffer.nested_cons]
    exact ⟨List.forall_mem_append.mpr ⟨hnested, hts⟩, hS₂⟩

/-- Numbers that are spelled can be written. -/
theorem Spells.numbers {truths : List UInt8} {bytes : Bytes} (h : Spells rs truths bytes) :
    ∀ i ∈ numbersEach rs, ∃ written, writeInt i = .ok written := by
  induction h with
  | nil => exact nofun
  | literal _ _ _ _ _ ih => exact ih
  | operator _ _ ih => exact ih
  | reference _ _ ih => exact ih
  | full hnumber _ _ _ _ _ ihinner ih =>
    exact List.forall_mem_append.mpr ⟨List.forall_mem_cons.mpr ⟨⟨_, hnumber⟩, ihinner⟩, ih⟩

/-- There are no more full records than can be numbered. -/
theorem Arranged.length_lt {R : Token → Token → Prop} {A : List Token} (h : Arranged R b rs A)
    {truths : List UInt8} {bytes : Bytes} (hspells : Spells rs truths bytes) :
    A.length < 2 ^ 31 := by
  rcases Nat.eq_zero_or_pos A.length with hzero | hpos
  · omega
  -- The last full record has the length for its number, and this number was written.
  · have hlast : (A.length : Int) ∈ numbersEach rs := by
      rw [h.numbersEach_eq]
      exact List.mem_map_of_mem (List.mem_range'_1.mpr (by omega))
    have hrange := (writeInt_ok_iff _).mp (hspells.numbers _ hlast)
    omega

/-! ## §2 Records of a loaded buffer -/

/-- What was rebuilt from nothing is arranged by its own stored results, and all of them are written in
full. -/
theorem Rebuilds.arranged (h : Rebuilds ⟨.empty, next⟩ rs b S) :
    ∃ A, Arranged Eq b rs A ∧ ∀ t ∈ nested b, t.number?.isSome = true → t ∈ A := by
  obtain ⟨hS, hb⟩ := h.stocked (Stocked.empty next)
  obtain ⟨T, houtlines, hT⟩ := h.outlines (Stocked.empty next) (Tracks.empty next)
  obtain ⟨A, harranged, hplaced⟩ := houtlines.arranged
  have hnumbered := hS.isNumbered hb
  refine ⟨A, harranged.mono ?_, fun t ht hstored => ?_⟩
  -- Tokens of one number are the same token, since the shelf gave each a number of its own.
  · rintro u hu t ht ⟨n, hukey, htkey⟩
    rw [keyOf_byToken] at hukey htkey
    exact hnumbered u hu t ht (by rw [hukey]; rfl) (hukey.trans htkey.symm)
  -- Every stored result is on the shelf, hence was given a number, hence has a full record.
  · obtain ⟨i, hi⟩ := (hb t ht).2 hstored
    obtain ⟨n, hn⟩ := Option.isSome_iff_exists.mp hstored
    obtain ⟨u, hu, hkey⟩ := hplaced.lookup ((hT.lookup n i).mpr ⟨t, hi, hn⟩)
    rw [keyOf_byToken] at hkey
    rw [hnumbered t ht u (harranged.subset hu.mem) hstored (hn.trans hkey.symm)]
    exact hu.mem

/-- What was rebuilt from records that were written can be saved. Saving may write fewer stored results
in full, and others than by token, but all of them are among those that were read. -/
theorem Rebuilds.save_ok (h : Rebuilds ⟨.empty, next⟩ rs b S) {truths : List UInt8} {bytes : Bytes}
    (hspells : SpellsAll rs truths bytes) : ∃ saved, save b = .ok saved := by
  obtain ⟨count, each, hcount, heach, -⟩ := hspells
  obtain ⟨written, hwritten, -⟩ := heach.encodeEach
  obtain ⟨A, hA, hall⟩ := h.arranged
  have houtlines := outlines_outlineEach byValue .empty b
  obtain ⟨A', hA', -⟩ := houtlines.arranged
  -- There were numbers for all of `A`, so there are numbers for fewer.
  have hsubset : A' ⊆ A := fun u hu => hall u (hA'.subset hu) (hA'.stands.stored u hu)
  have hle : A'.length ≤ A.length := (List.subperm_of_subset hA'.nodup hsubset).length_le
  have hlt := hA.length_lt heach
  obtain ⟨hwritable, -⟩ := h.writable hwritten (fun i t ht => nomatch ht)
  obtain ⟨each', heach'⟩ := hA'.stands.encodes (by omega) hwritable
  rw [← h.length_eq, ← houtlines.length_eq] at hcount
  exact ⟨⟨count ++ each', _⟩, save_ok_iff.mpr
    ⟨_, _, houtlines, encodeAll_ok_iff.mpr ⟨count, each', hcount, heach', rfl⟩, rfl⟩⟩

/-- The bytes of a loaded buffer have a transcript, which has the records by token of the buffer. -/
theorem transcript_of_loadWithin_ok {room : Nat} {bytes : Bytes} {loaded : Loaded}
    (h : loadWithin room bytes next = .ok loaded) :
    ∃ rs truths S, Rebuilds ⟨.empty, next⟩ rs loaded.buffer S ∧ depthEach rs < room
      ∧ Transcript rs truths bytes := by
  obtain ⟨rs, truths, S, hrebuilds, hdepth, hspells⟩ := spells_of_loadWithin_ok h
  obtain ⟨A, harranged, -⟩ := hrebuilds.arranged
  -- The order of the numbers is not read off the bytes but off the buffer that was rebuilt.
  obtain ⟨done, hordered⟩ := harranged.ordered
  exact ⟨rs, truths, S, hrebuilds, hdepth, hspells, _, done, hordered⟩

/-- Whatever bytes are accepted, what is made of them is sound at every depth: literals are not empty and
have digits only, with a fraction only behind a point, operators are keys, and a stored result is what
its whole expression evaluates to, all of which its scope reaches. The bytes are a transcript in which
full records are numbered from one on, in their order, and any other number is that of a complete record
and stands for the very stored result that was made of it. What was made can be saved if there is room for
its records by value. -/
theorem loaded_sound_arranged {room : Nat} {bytes : Bytes} {loaded : Loaded}
    (h : loadWithin room bytes next = .ok loaded) :
    loaded.buffer.Sound ∧ Numbered (nested loaded.buffer)
    ∧ (∃ rs truths A, Transcript rs truths bytes ∧ Arranged Eq loaded.buffer rs A
      ∧ numbersEach rs = (List.range' 1 A.length).map Int.ofNat)
    ∧ ∃ saved, save loaded.buffer = .ok saved
      ∧ ∀ limit, saveWithin (some limit) loaded.buffer
        = if depthEach (outline byValue loaded.buffer) < limit then .ok saved
          else .error .nestedTooDeeply := by
  obtain ⟨rs, truths, S, hrebuilds, -, htranscript⟩ := transcript_of_loadWithin_ok h
  obtain ⟨hsound, hnumbered, -, -⟩ := of_rebuilds_empty hrebuilds
  obtain ⟨A, harranged, -⟩ := hrebuilds.arranged
  obtain ⟨saved, hsaved⟩ := hrebuilds.save_ok htranscript.spelled
  exact ⟨hsound, hnumbered, ⟨rs, truths, A, htranscript, harranged, harranged.numbersEach_eq⟩,
    saved, hsaved, saveWithin_eq hsaved⟩

/-- A stored one. -/
def storedOne : Token :=
  .stored 0 ⟨1, .result 0⟩ [.literal ⟨"1", "", false, 0⟩] ⟨false, 1⟩ (some "1")

/-- Its negative, stored as well. -/
def storedMinusOne : Token :=
  .stored 1 ⟨(1 : Quantity).negate, .result 1⟩ [.symbol .minus, storedOne] ⟨false, 2⟩ (some "-1")

/-- The bytes of a stored minus one with a stored one inside, of this one, and of the minus one again. -/
def minusOnes : Bytes :=
  [0, 0, 0, 3,
    2, 0, 0, 0, 1, 0, 0, 0, 2, 1, 0, 0, 0, 21,
      2, 0, 0, 0, 2, 0, 0, 0, 1, 0, 0, 1, 49, 0, 0, 0, 0, 0, 0, 0, 0, 0, 1, 49, 0, 0, 2, 45, 49,
    2, 0, 0, 0, 2,
    2, 0, 0, 0, 1]

theorem load_minusOnes :
    load minusOnes 0 = .ok ⟨[storedMinusOne, storedOne, storedMinusOne], 2, 2⟩ := rfl

theorem loaded_sound_arranged_minusOnes :
    load minusOnes 0 = .ok ⟨[storedMinusOne, storedOne, storedMinusOne], 2, 2⟩
    ∧ Buffer.Sound [storedMinusOne, storedOne, storedMinusOne]
    ∧ (∃ rs truths A, Transcript rs truths minusOnes
      ∧ Arranged Eq [storedMinusOne, storedOne, storedMinusOne] rs A
      ∧ numbersEach rs = (List.range' 1 A.length).map Int.ofNat)
    ∧ ∃ saved, saveWithin (some deepestWriting) [storedMinusOne, storedOne, storedMinusOne]
      = .ok saved := by
  obtain ⟨hsound, -, htranscript, saved, -, hsaved⟩ := loaded_sound_arranged load_minusOnes
  exact ⟨load_minusOnes, hsound, htranscript, saved, hsaved deepestWriting⟩

/-! ## §3 Roots of zero -/

/-- Zero, squared so many times, and stored each time. -/
def squared : Nat → Token
  | 0 => .stored 0 ⟨0, .result 0⟩ [.literal ⟨"0", "", false, 0⟩] ⟨false, 1⟩ (some "")
  | n + 1 =>
    .stored (2 * n + 2) ⟨0, .result (2 * n + 2)⟩ [squared n, .symbol .square] ⟨false, 2⟩ (some "")

/-- The root of such a square. It is the constant zero. -/
def rooted (n : Nat) : Token :=
  .stored (2 * n + 1) Constant.zero.value [.symbol .sqrt, squared n] ⟨false, 2⟩ (some "")

/-- The records of what is squared: zero, or the number of the square before. -/
def squareRecords : Nat → List Record
  | 0 => [.literal ⟨"0", "", false, 0⟩]
  | n + 1 => [.reference (2 * n + 2), .operator Symbol.square.code]

/-- The full record of a root by token. That of the square stands in it. -/
def rootRecord (n : Nat) : Record :=
  .full (2 * n + 1)
    [.operator Symbol.sqrt.code, .full (2 * n + 2) (squareRecords n) false (some "")] false (some "")

/-- So many roots, and the square in the last one again. All roots have one value, so saving takes them
for the first one. With the roots the squares in them are lost, and the last square has to be written in
full, with all others in each other. -/
def roots (n : Nat) : Buffer :=
  (List.range (n + 1)).map rooted ++ [squared n]

/-- The records of these by token. -/
def rootRecords (n : Nat) : List Record :=
  (List.range (n + 1)).map rootRecord ++ [.reference (2 * n + 2)]

/-- The value of such a square is a result of its own, whatever it was computed from. -/
theorem squared_eq (n : Nat) :
    ∃ e s, squared n = .stored (2 * n) ⟨0, .result (2 * n)⟩ e s (some "") := by
  cases n with
  | zero => exact ⟨_, _, rfl⟩
  | succ n => exact ⟨_, _, rfl⟩

/-- Evaluated, its expression gives zero. -/
theorem evaluatePrefix_square (n : Nat) :
    Buffer.evaluatePrefix [squared n, .symbol .square] ⟨false, 2⟩ = .ok (2, .computed 0) := by
  obtain ⟨e, s, hsquared⟩ := squared_eq n
  have hzero : (0 : Quantity).multiply 0 = 0 := congrArg Quantity.rational (Rat.mul_zero 0)
  have heval : Buffer.evaluatePrefix [squared n, .symbol .square] ⟨false, 2⟩
      = .ok (2, .computed ((0 : Quantity).multiply 0)) := by
    rw [hsquared]
    rfl
  rw [heval, hzero]

/-- The root of such a square is the constant, not a new result. -/
theorem evaluatePrefix_root (n : Nat) : Buffer.evaluatePrefix [.symbol .sqrt, squared n] ⟨false, 2⟩
    = .ok (2, .ofValue Constant.zero.value) := by
  obtain ⟨e, s, hsquared⟩ := squared_eq n
  rw [hsquared]
  rfl

/-- A full record whose number is the next makes a stored result. -/
theorem Rebuilds.full {S₁ : Shelf} {inner : List Record} {e : Buffer} {x : Operand} {degrees : Bool}
    {text : String} {i : Int} {t : Token} (hi : S.highest + 1 = i) (hfree : S.get i = none)
    (hinner : Rebuilds S.claim inner e S₁)
    (hx : e.evaluatePrefix ⟨degrees, e.length⟩ = .ok (e.length, x))
    (ht : S₁.make e x degrees text = t) :
    Rebuilds S [.full i inner degrees (some text)] [t] (S₁.put i t) := by
  subst hi ht
  exact .fresh text hfree hinner hx (.nil _)

/-- What is on the shelf once so many roots have been rebuilt: two stored results for each, and the last
square under the last number but for its root. -/
structure Rooted (S : Shelf) (n : Nat) : Prop where
  stocked : Stocked S
  highest : S.highest = 2 * n
  next : S.next = 2 * n
  last : ∀ m, n = m + 1 → S.get (2 * m + 2) = some (squared m)

/-- Numbers beyond those of the roots are free. -/
theorem Rooted.free {n : Nat} (h : Rooted S n) {i : Int} (hi : 2 * n < i) : S.get i = none := by
  cases hget : S.get i with
  | none => rfl
  | some t =>
    have hbound := h.stocked.bounded hget
    have hhighest := h.highest
    omega

/-- The record of the next square makes this square. -/
theorem Rooted.square {n : Nat} (h : Rooted S n) :
    Rebuilds S.claim [.full (2 * n + 2) (squareRecords n) false (some "")] [squared n]
      (S.claim.claim.put (2 * n + 2) (squared n)) := by
  have hnumber : S.claim.highest + 1 = 2 * n + 2 := by
    rw [Shelf.highest_claim, h.highest]
    omega
  have hfree : S.claim.get (2 * n + 2) = none := h.free (by omega)
  -- A square is computed, so it is a new value and not the one before.
  have hmake (e : Buffer) (text : String) : S.claim.claim.make e (.computed 0) false text
      = .stored (2 * n) ⟨0, .result (2 * n)⟩ e ⟨false, e.length⟩ (some text) := by
    rw [← h.next]
    rfl
  -- The first square is made of a literal, the others of the square before, which is on the shelf.
  cases n with
  | zero =>
    exact .full hnumber hfree (.literal _ ((literalFault_eq_none_iff _).mp rfl) (.nil _)) rfl
      (hmake _ _)
  | succ m =>
    have hlast : S.claim.claim.get (2 * m + 2) = some (squared m) := h.last m rfl
    exact .full hnumber hfree (.known hlast (.operator rfl (.nil _))) (evaluatePrefix_square m)
      (hmake _ _)

/-- The record of the next root makes this root. -/
theorem Rooted.root {n : Nat} (h : Rooted S n) :
    ∃ S', Rebuilds S [rootRecord n] [rooted n] S' ∧ Rooted S' (n + 1) := by
  have hnumber : S.highest + 1 = 2 * n + 1 := by rw [h.highest]
  have hmake : (S.claim.claim.put (2 * n + 2) (squared n)).make [.symbol .sqrt, squared n]
      (.ofValue Constant.zero.value) false "" = rooted n := by
    rw [Shelf.make, Shelf.next_put, Shelf.next_claim, Shelf.next_claim, h.next]
    rfl
  have hrebuilds : Rebuilds S [rootRecord n] [rooted n]
      ((S.claim.claim.put (2 * n + 2) (squared n)).put (2 * n + 1) (rooted n)) :=
    .full hnumber (h.free (by omega)) (.operator rfl h.square) (evaluatePrefix_root n) hmake
  -- The record of a root holds that of a square, so two numbers are used up.
  refine ⟨_, hrebuilds, (hrebuilds.stocked h.stocked).1, ?_, ?_, ?_⟩
  · simp only [Shelf.highest_put, Shelf.highest_claim, h.highest]
    omega
  · simp only [Shelf.next_put, Shelf.next_claim, h.next]
    omega
  · rintro m ⟨⟩
    rw [Shelf.get_put, if_neg (by omega), Shelf.get_put, if_pos rfl]

/-- The records of roots make these roots. -/
theorem rebuilds_rooted (n : Nat) : ∃ S, Rebuilds ⟨.empty, 0⟩ ((List.range n).map rootRecord)
    ((List.range n).map rooted) S ∧ Rooted S n := by
  induction n with
  | zero => exact ⟨_, .nil _, Stocked.empty 0, rfl, rfl, nofun⟩
  | succ n ih =>
    obtain ⟨S, hS, hrooted⟩ := ih
    -- The shelf that the roots before have left is what the next root starts from.
    obtain ⟨S', hS', hrooted'⟩ := hrooted.root
    rw [List.range_succ, List.map_append, List.map_append]
    exact ⟨S', hS.append hS', hrooted'⟩

theorem rebuilds_roots (n : Nat) : ∃ S, Rebuilds ⟨.empty, 0⟩ (rootRecords n) (roots n) S := by
  obtain ⟨S, hS, hrooted⟩ := rebuilds_rooted (n + 1)
  exact ⟨S, hS.append (.known (hrooted.last n rfl) (.nil S))⟩

/-- Roots are read two records deep. -/
theorem depthEach_rootRecords (n : Nat) : depthEach (rootRecords n) ≤ 2 := by
  rw [depthEach_le_iff, rootRecords, List.forall_mem_append, List.forall_mem_map]
  refine ⟨fun m _ => ?_, List.forall_mem_singleton.mpr (Nat.zero_le 2)⟩
  -- Behind the first, a square refers to the one before instead of holding it.
  cases m with
  | zero => exact Nat.le_refl 2
  | succ m => exact Nat.le_refl 2

/-- While no square but the first has a number, they are written in each other. -/
theorem depth_squared {T : Issued Identity} {i : Int} (hfirst : T.lookup (.result 0) = some i)
    (n : Nat) (hnone : ∀ m < n, T.lookup (.result (2 * m + 2)) = none) :
    depth (outlineToken byValue T (squared n)).1 = n := by
  -- On the number of squares; the table grows on the way down, but none of the squares is bound in it yet.
  induction n generalizing T with
  | zero =>
    simp only [squared, outlineToken, byValue, hfirst, depth]
  | succ n ih =>
    -- The number of the square is bound behind its expression only, so the squares in it have none.
    have hinner := ih (T := T.reserve.2) hfirst fun m hm => hnone m (Nat.lt_succ_of_lt hm)
    simp only [squared, Token.symbol, outlineToken, byValue, hnone n (Nat.lt_succ_self n), outlineEach,
      depth, depthEach, hinner]
    omega

/-- Roots are written by value as many records deep as there are squares of squares. -/
theorem le_depthEach_roots (n : Nat) : n ≤ depthEach (outline byValue (roots n)) := by
  let T := (outlineEach byValue .empty [rooted 0]).2
  have hroot : T.lookup (.constant .zero) = some 1 := rfl
  have hsquare : T.lookup (.result 0) = some 2 := rfl
  have hnone (m : Nat) : T.lookup (.result (2 * m + 2)) = none := rfl
  -- All roots but the first are numbers, as the first one has their value.
  have hroots (m : Nat) : ∃ rs, Outlines byValue .empty ((List.range (m + 1)).map rooted) rs T := by
    -- By induction on the roots: the table stays the one that the first root has left.
    induction m with
    | zero => exact ⟨_, outlines_outlineEach byValue .empty [rooted 0]⟩
    | succ m ih =>
      obtain ⟨rs, hrs⟩ := ih
      rw [List.range_succ, List.map_append]
      exact ⟨_, hrs.append (.known _ _ _ hroot (.nil T))⟩
  obtain ⟨rs, hrs⟩ := hroots n
  have houtlines := hrs.append (outlines_outlineEach byValue T [squared n])
  rw [roots, houtlines.eq_outline]
  have hdepth := depth_squared hsquare n fun m _ => hnone m
  calc n = depth (outlineToken byValue T (squared n)).1 := hdepth.symm
    _ ≤ _ := depthEach_le_iff.mp (Nat.le_refl _) _ (List.mem_append_right rs List.mem_cons_self)

theorem length_squareRecords_le (n : Nat) : (squareRecords n).length ≤ 2 := by
  cases n with
  | zero => exact Nat.le_succ 1
  | succ n => exact Nat.le_refl 2

/-- There are numbers for half a billion roots. -/
theorem encodes_rootRecords {n : Nat} (hn : n < 2 ^ 29) :
    ∃ bytes, encodeAll (rootRecords n) = .ok bytes := by
  have hint (i : Int) (hlow : 0 ≤ i) (hhigh : i < 2 ^ 31) : ∃ bytes, writeInt i = .ok bytes :=
    (writeInt_ok_iff i).mpr ⟨by omega, hhigh⟩
  have hempty : ∃ bytes, writeStoredText (some "") = .ok bytes := ⟨_, rfl⟩
  have hsquare : ∀ m ≤ n, ∃ bytes, encodeEach (squareRecords m) = .ok bytes := by
    intro m hm
    cases m with
    | zero => exact exists_encodeEach_cons (exists_encode_literal ⟨_, rfl⟩) exists_encodeEach_nil
    | succ m =>
      have hreference := exists_encode_reference (hint (2 * m + 2) (by omega) (by omega))
      have hsign : ∃ bytes, encode (.operator Symbol.square.code) = .ok bytes := ⟨_, rfl⟩
      exact exists_encodeEach_cons hreference (exists_encodeEach_cons hsign exists_encodeEach_nil)
  -- A root holds the square in full, and both have numbers below the limit.
  have hroot : ∀ m ≤ n, ∃ bytes, encode (rootRecord m) = .ok bytes := by
    intro m hm
    have hlength := length_squareRecords_le m
    have hsign : ∃ bytes, encode (.operator Symbol.sqrt.code) = .ok bytes := ⟨_, rfl⟩
    have hfull := exists_encode_full (hint (2 * m + 2) (by omega) (by omega))
      (hint (squareRecords m).length (by omega) (by omega)) (hsquare m hm) hempty false
    have heach := exists_encodeEach_cons hsign (exists_encodeEach_cons hfull exists_encodeEach_nil)
    refine exists_encode_full (hint (2 * m + 1) (by omega) (by omega)) ?_ heach hempty false
    exact hint 2 (by omega) (by omega)
  have hall : ∀ r ∈ rootRecords n, ∃ bytes, encode r = .ok bytes := by
    refine List.forall_mem_append.mpr ⟨List.forall_mem_map.mpr fun m hm => ?_, ?_⟩
    · exact hroot m (Nat.le_of_lt_succ (List.mem_range.mp hm))
    · exact List.forall_mem_singleton.mpr (exists_encode_reference (hint _ (by omega) (by omega)))
  obtain ⟨each, heach⟩ := exists_encodeEach hall
  have hlength : (rootRecords n).length = n + 2 := by simp [rootRecords]
  obtain ⟨count, hcount⟩ := hint (rootRecords n).length (by omega) (by omega)
  exact ⟨_, encodeAll_ok_iff.mpr ⟨count, each, hcount, heach, rfl⟩⟩

/-- The bytes of roots, as saving by token writes them. -/
def rootBytes (n : Nat) : Bytes :=
  (encodeAll (rootRecords n)).toOption.getD []

/-- Roots can be loaded, and cannot be saved unless there is room for as many records in each other. -/
theorem load_roots {n : Nat} (hn : n < 2 ^ 29) :
    ∃ loaded, load (rootBytes n) 0 = .ok loaded ∧ loaded.buffer = roots n
      ∧ ∀ limit ≤ n, saveWithin (some limit) loaded.buffer = .error .nestedTooDeeply := by
  obtain ⟨bytes, hencode⟩ := encodes_rootRecords hn
  have hbytes : rootBytes n = bytes := congrArg (fun x => x.toOption.getD []) hencode
  obtain ⟨S, hrebuilds⟩ := rebuilds_roots n
  have hdepth : depthEach (rootRecords n) < deepestStorage :=
    Nat.lt_of_le_of_lt (depthEach_rootRecords n) (by decide)
  have hload := hrebuilds.loadWithin hdepth hencode
  -- Without a limit they can be saved.
  obtain ⟨rs, truths, S', hrebuilds', -, htranscript⟩ := transcript_of_loadWithin_ok hload
  obtain ⟨saved, hsaved⟩ := hrebuilds'.save_ok htranscript.spelled
  rw [hbytes]
  refine ⟨_, hload, rfl, fun limit hlimit => ?_⟩
  have hroom := Nat.le_trans hlimit (le_depthEach_roots n)
  -- With a limit, the records by value are compared with it, and these are as deep as there are roots.
  rw [saveWithin_eq hsaved, if_neg (Nat.not_lt.mpr hroom)]

/-- More roots than there is room for. -/
theorem loaded_unsavable_roots : ∃ loaded, load (rootBytes 6000) 0 = .ok loaded
    ∧ saveWithin (some deepestWriting) loaded.buffer = .error .nestedTooDeeply := by
  obtain ⟨loaded, hload, -, hsave⟩ := load_roots (n := 6000) (by decide)
  exact ⟨loaded, hload, hsave deepestWriting (by decide)⟩

/-! ## §4 Saving what was loaded -/

/-- The truth values of a saved buffer are written as zero and one. -/
def PlainTruths (bytes : Bytes) : Prop :=
  ∃ rs truths, Transcript rs truths bytes ∧ ∀ b ∈ truths, b = 0 ∨ b = 1

/-- Different stored results of a buffer, at whatever depth, have different values. -/
def DistinctValues (b : Buffer) : Prop :=
  ∀ n v e s x, .stored n v e s x ∈ nested b → ∀ n' v' e' s' x', .stored n' v' e' s' x' ∈ nested b →
    v.identity = v'.identity → n = n'

/-- If the truth values of accepted bytes are written as zero and one, and the stored results that were
made of them have different values, saving writes the same bytes. It takes no more room than loading. -/
theorem save_loaded_eq {room : Nat} {bytes : Bytes} {loaded : Loaded}
    (h : loadWithin room bytes next = .ok loaded) (hplain : PlainTruths bytes)
    (hdistinct : DistinctValues loaded.buffer) :
    ∃ saved, saved.bytes = bytes
      ∧ ∀ limit, room ≤ limit → saveWithin (some limit) loaded.buffer = .ok saved := by
  obtain ⟨rs, truths, S, hrebuilds, hdepth, htranscript⟩ := transcript_of_loadWithin_ok h
  obtain ⟨-, hnumbered, -, hrecords⟩ := of_rebuilds_empty hrebuilds
  obtain ⟨written, hwritten, hsame⟩ := htranscript.spelled.encodeAll
  -- The bytes have one transcript, so it is this one whose truth values are zero and one.
  obtain ⟨rs', truths', htranscript', hplain'⟩ := hplain
  obtain ⟨-, rfl⟩ := htranscript.unique htranscript'
  obtain rfl := hsame hplain'
  -- Where all values differ, sharing by value is sharing by token, so the same records are written.
  have houtline : outline byValue loaded.buffer = rs := by
    rw [outline_eq_of_distinct hnumbered hdistinct, hrecords]
  have houtlines := outlines_outlineEach byValue .empty loaded.buffer
  have hencode : encodeAll (outlineEach byValue .empty loaded.buffer).1 = .ok written := by
    rw [← hwritten, ← houtline]
    rfl
  obtain ⟨saved, hsave, hbytes⟩ : ∃ saved, save loaded.buffer = .ok saved ∧ saved.bytes = written :=
    ⟨⟨written, _⟩, save_ok_iff.mpr ⟨_, _, houtlines, hencode, rfl⟩, rfl⟩
  refine ⟨saved, hbytes, fun limit hlimit => ?_⟩
  rw [saveWithin_eq hsave, houtline, if_pos (Nat.lt_of_lt_of_le hdepth hlimit)]

/-- Records that are encoded are spelled, with zero and one for truth values. -/
theorem Outlines.spells {κ : Type} [BEq κ] {key : Nat → Value → κ} {T T' : Issued κ}
    (h : Outlines key T ts rs T') {bytes : Bytes} (hencode : encodeEach rs = .ok bytes) :
    ∃ truths, Spells rs truths bytes ∧ ∀ b ∈ truths, b = 0 ∨ b = 1 := by
  have hplain (p : Bool) : ∃ b : UInt8, writeBool p = [b] ∧ p = decide (b ≠ 0) ∧ (b = 0 ∨ b = 1) := by
    cases p with
    | false => exact ⟨0, rfl, rfl, .inl rfl⟩
    | true => exact ⟨1, rfl, rfl, .inr rfl⟩
  -- On the outline; each record takes its own bytes from the front.
  induction h generalizing bytes with
  | nil =>
    obtain rfl := Except.ok.inj hencode
    exact ⟨[], .nil, nofun⟩
  | literal l _ ih =>
    obtain ⟨first, rest, hfirst, hrest, rfl⟩ := encodeEach_cons_ok_iff.mp hencode
    obtain ⟨truths, hspells, htruths⟩ := ih hrest
    simp only [encode, writeLiteral, bind_ok_iff, return_ok_iff] at hfirst
    obtain ⟨_, ⟨whole, hwhole, fraction, hfraction, exponent, hexponent, rfl⟩, rfl⟩ := hfirst
    obtain ⟨b, hb, hpoint, hzero⟩ := hplain l.point
    rw [hb]
    exact ⟨b :: truths, .literal hwhole hpoint hfraction hexponent hspells,
      List.forall_mem_cons.mpr ⟨hzero, htruths⟩⟩
  | operator o _ ih =>
    obtain ⟨first, rest, hfirst, hrest, rfl⟩ := encodeEach_cons_ok_iff.mp hencode
    obtain ⟨truths, hspells, htruths⟩ := ih hrest
    simp only [encode, bind_ok_iff, return_ok_iff] at hfirst
    obtain ⟨number, hnumber, rfl⟩ := hfirst
    exact ⟨truths, .operator hnumber hspells, htruths⟩
  | known e s x _ _ ih =>
    obtain ⟨first, rest, hfirst, hrest, rfl⟩ := encodeEach_cons_ok_iff.mp hencode
    obtain ⟨truths, hspells, htruths⟩ := ih hrest
    simp only [encode, bind_ok_iff, return_ok_iff] at hfirst
    obtain ⟨number, hnumber, rfl⟩ := hfirst
    exact ⟨truths, .reference hnumber hspells, htruths⟩
  | fresh s x _ _ _ ihinner ih =>
    obtain ⟨first, rest, hfirst, hrest, rfl⟩ := encodeEach_cons_ok_iff.mp hencode
    obtain ⟨truths', hspells, htruths'⟩ := ih hrest
    obtain ⟨number, _, written, hnumber, hall, hwritten, rfl⟩ := encode_full_ok_iff.mp hfirst
    obtain ⟨count, each, hcount, heach, rfl⟩ := encodeAll_ok_iff.mp hall
    obtain ⟨truths, hinner, htruths⟩ := ihinner heach
    obtain ⟨text, rfl⟩ := of_writeStoredText_ok hwritten
    obtain ⟨b, hb, hdegrees, hzero⟩ := hplain s.degrees
    have hfull := Spells.full hnumber hcount hdegrees hwritten hinner hspells
    refine ⟨truths ++ b :: truths', ?_, List.forall_mem_append.mpr
      ⟨htruths, List.forall_mem_cons.mpr ⟨hzero, htruths'⟩⟩⟩
    rw [hb]
    simpa only [List.append_assoc] using hfull

/-- Saving writes zero and one for truth values. -/
theorem plainTruths_of_save_ok {b : Buffer} {saved : Saved} (h : save b = .ok saved) :
    PlainTruths saved.bytes := by
  obtain ⟨rs, T, houtlines, hencode, -⟩ := save_ok_iff.mp h
  obtain ⟨count, each, hcount, heach, hbytes⟩ := encodeAll_ok_iff.mp hencode
  -- The records that were saved are the transcript.
  obtain ⟨truths, hspells, hplain⟩ := houtlines.spells heach
  exact ⟨rs, truths, ⟨⟨count, each, hcount, hspells, hbytes⟩, _, _, houtlines.ordered⟩, hplain⟩

/-- A stored minus one and the stored one in it have different values. -/
theorem save_loaded_eq_minusOnes :
    load minusOnes 0 = .ok ⟨[storedMinusOne, storedOne, storedMinusOne], 2, 2⟩
    ∧ PlainTruths minusOnes ∧ DistinctValues [storedMinusOne, storedOne, storedMinusOne]
    ∧ ∃ saved, saved.bytes = minusOnes
      ∧ saveWithin (some deepestWriting) [storedMinusOne, storedOne, storedMinusOne] = .ok saved := by
  have hsave : save [storedMinusOne, storedOne, storedMinusOne] = .ok ⟨minusOnes, 2⟩ := rfl
  have hplain : PlainTruths minusOnes := plainTruths_of_save_ok hsave
  have hdistinct : DistinctValues [storedMinusOne, storedOne, storedMinusOne] := by
    have hown : ∀ t ∈ nested [storedMinusOne, storedOne, storedMinusOne],
        t.value?.map Value.identity = t.number?.map Identity.result := by decide
    intro n v e s x h n' v' e' s' x' h' heq
    have hv : v.identity = .result n := Option.some.inj (hown _ h)
    have hv' : v'.identity = .result n' := Option.some.inj (hown _ h')
    rw [hv, hv'] at heq
    exact Identity.result.inj heq
  obtain ⟨saved, hbytes, hlimit⟩ := save_loaded_eq load_minusOnes hplain hdistinct
  exact ⟨load_minusOnes, hplain, hdistinct, saved, hbytes, hlimit deepestWriting (by decide)⟩

end Reckoner.Codec
