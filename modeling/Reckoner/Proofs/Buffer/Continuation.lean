import Mathlib.Data.List.Basic
import Reckoner.Buffer.Edit
import Reckoner.Proofs.Outcome

/-!
# Going on with a buffer

Keys only look at the end of a buffer: at the last token, and at the binary operators that wait for an
operand there. So what they do behind some tokens they do no matter which tokens these are.

- `trailing_append` and `withoutTrailingBinary_append`: an operand ends what waits;
- `pressed?` is the buffer after a key, if the key is accepted;
- `pressed?_append`: pressing a key behind some tokens.
-/

namespace Reckoner.Buffer

/-! ## §1 Ends of buffers -/

/-- What runs back from the end of a buffer stops at the last token that does not belong to it. -/
theorem trailing_append {p : Token → Bool} {t : Token} (ht : p t = false) (front back : Buffer) :
    trailing p (front ++ t :: back) = trailing p back := by
  -- Seen from the end, the token that stops the run comes before everything in front of it.
  have hstop (us vs : List Token) : (us ++ t :: vs).takeWhile p = us.takeWhile p := by
    induction us with
    | nil => exact List.takeWhile_cons_of_neg (by rw [ht]; nofun)
    | cons u us ih => simp only [List.cons_append, List.takeWhile_cons, ih]
  unfold trailing
  rw [List.reverse_append, List.reverse_cons, List.append_assoc, List.singleton_append, hstop]

theorem trailing_le (p : Token → Bool) (b : Buffer) : trailing p b ≤ b.length := by
  unfold trailing
  exact Nat.le_trans (List.takeWhile_prefix p).length_le (Nat.le_of_eq List.length_reverse)

/-- Behind an operand, the operators that wait start where they start without what is in front. -/
theorem binaryStart_append {t : Token} (ht : isBinary t = false) (front back : Buffer) :
    binaryStart (front ++ t :: back) = front.length + (binaryStart back + 1) := by
  have hle := trailing_le isBinary back
  simp only [binaryStart, trailing_append ht, List.length_append, List.length_cons]
  omega

/-- Only what stands behind the last operand waits for an operand. -/
theorem withoutTrailingBinary_append {t : Token} (ht : isBinary t = false) (front back : Buffer) :
    withoutTrailingBinary (front ++ t :: back) = front ++ t :: withoutTrailingBinary back := by
  rw [withoutTrailingBinary, binaryStart_append ht, List.take_length_add_append, List.take_succ_cons]
  rfl

/-! ## §2 Keys -/

/-- The buffer after a key, or `none` if the key is rejected. -/
def pressed? (b : Buffer) (k : Key) : Option Buffer :=
  (b.keyEdit k).map fun e => e.apply b

/-- Pressing a key by its code: an unknown code is an error, a rejected key leaves the buffer as it is. -/
theorem press_eq (b : Buffer) (n : Int) : b.press n = match Key.ofCode? n with
    | none => .error (.unknownKey n)
    | some k => .ok (match b.pressed? k with
      | some c => (true, c)
      | none => (false, b)) := by
  unfold press pressEdit pressed?
  cases Key.ofCode? n with
  | none => rfl
  | some k =>
    simp only [ok_bind]
    cases b.keyEdit k <;> rfl

theorem apply_pushing (b : Buffer) (ts : List Token) : (Edit.pushing b ts).apply b = b ++ ts := by
  simp only [Edit.apply, Edit.pushing, Edit.revise, List.take_length]

/-- Revising exchanges the last token. -/
theorem apply_revising {b : Buffer} (hb : b ≠ []) (l : Literal) :
    (Edit.revising b l).apply b = b.dropLast ++ [.literal l] := by
  have hlength : b.length = (b.dropLast ++ [Token.literal l]).length := by
    rw [List.length_append, List.length_dropLast, List.length_singleton,
      Nat.sub_add_cancel (List.length_pos_iff.mpr hb)]
  simp only [Edit.apply, Edit.revising, Edit.revise, List.append_nil]
  rw [hlength, List.take_length]

/-- What a digit or a point types, given what it does to a literal. -/
def typed? (b : Buffer) (type : Literal → Option Literal) : Option Buffer :=
  match b.getLast? with
  | some (.literal l) => (type l).map fun l => b.dropLast ++ [.literal l]
  | some (.stored ..) => (type .empty).map fun l => b ++ [.symbol .times, .literal l]
  | _ => (type .empty).map fun l => b ++ [.literal l]

theorem map_typeEdit (b : Buffer) (type : Literal → Option Literal) :
    (b.typeEdit type).map (fun e => e.apply b) = b.typed? type := by
  -- With nothing or an operator at the end a literal of its own begins.
  have hempty (hlast : b.getLast? = none ∨ ∃ o, b.getLast? = some (.operator o)) :
      (b.typeEdit type).map (fun e => e.apply b) = b.typed? type := by
    rcases hlast with hlast | ⟨o, hlast⟩ <;>
      simp only [typeEdit, typed?, hlast, Option.map_map, Function.comp_def, apply_pushing]
  cases hlast : b.getLast? with
  | none => exact hempty (.inl hlast)
  | some t =>
    cases t with
    | operator o => exact hempty (.inr ⟨o, hlast⟩)
    -- Only a literal is revised, and then the buffer is not empty.
    | literal l =>
      have hb : b ≠ [] := by
        rintro rfl
        cases hlast
      simp only [typeEdit, typed?, hlast, Option.map_map, Function.comp_def, apply_revising hb]
    | stored n v e s x =>
      simp only [typeEdit, typed?, hlast, Option.map_map, Function.comp_def, apply_pushing]

/-- What an operator key types. -/
def operated? (b : Buffer) (s : Symbol) : Option Buffer :=
  if s.isBinary && !s.isLeading then
    if b.lacksOperand then none else some (b.withoutTrailingBinary ++ [.symbol s])
  else some (b ++ [.symbol s])

/-- The edit of an operator key, carried out. -/
theorem map_symbolEdit (b : Buffer) (s : Symbol) :
    (b.symbolEdit s).map (fun e => e.apply b) = b.operated? s := by
  unfold symbolEdit operated?
  split
  · split
    · rfl
    · rfl
  · exact congrArg some (apply_pushing b _)

theorem pressed?_digit (b : Buffer) (d : Fin 10) : b.pressed? (.digit d) = b.typed? (·.addDigit d) :=
  b.map_typeEdit _

theorem pressed?_point (b : Buffer) : b.pressed? .point = b.typed? Literal.addPoint :=
  b.map_typeEdit _

theorem pressed?_symbol (b : Buffer) (s : Symbol) : b.pressed? (.symbol s) = b.operated? s :=
  b.map_symbolEdit s

/-- A key does something to a literal, or is an operator. -/
theorem pressed?_cases (k : Key) :
    (∃ type, ∀ b, pressed? b k = typed? b type) ∨ ∃ s, ∀ b, pressed? b k = operated? b s := by
  cases k with
  | digit d => exact .inl ⟨_, fun b => b.pressed?_digit d⟩
  | point => exact .inl ⟨_, pressed?_point⟩
  | symbol s => exact .inr ⟨s, fun b => b.pressed?_symbol s⟩

/-- Behind some tokens, a digit or a point types what it types elsewhere. -/
theorem typed?_append (front : Buffer) {b : Buffer} (hb : b ≠ []) (type : Literal → Option Literal) :
    typed? (front ++ b) type = (b.typed? type).map (front ++ ·) := by
  unfold typed?
  rw [List.getLast?_append_of_ne_nil front hb, List.dropLast_append_of_ne_nil hb]
  split <;> simp only [Option.map_map, Function.comp_def, List.append_assoc]

/-- Behind some tokens, an operator does what it does elsewhere, if it replaces none of them. -/
theorem operated?_append {front b : Buffer} (hb : b ≠ [])
    (hfront : withoutTrailingBinary (front ++ b) = front ++ withoutTrailingBinary b) (s : Symbol) :
    operated? (front ++ b) s = (b.operated? s).map (front ++ ·) := by
  -- Whether an operand is missing is decided by the last token alone.
  have hlacks : lacksOperand (front ++ b) = lacksOperand b := by
    unfold lacksOperand
    rw [List.getLast?_append_of_ne_nil front hb]
  unfold operated?
  rw [hlacks, hfront]
  split
  · split
    · rfl
    · simp only [Option.map_some, List.append_assoc]
  · simp only [Option.map_some, List.append_assoc]

/-- Pressing a key behind some tokens. -/
theorem pressed?_append (front : Buffer) {b : Buffer} (hb : b ≠ [])
    (hfront : withoutTrailingBinary (front ++ b) = front ++ withoutTrailingBinary b) (k : Key) :
    pressed? (front ++ b) k = (b.pressed? k).map (front ++ ·) := by
  -- Every key types something or operates, and both only look at the end.
  rcases pressed?_cases k with ⟨type, hk⟩ | ⟨s, hk⟩
  · rw [hk, hk]
    exact typed?_append front hb type
  · rw [hk, hk]
    exact operated?_append hb hfront s

end Reckoner.Buffer
