import Reckoner.Proofs.Typing.Scanning

/-!
# Typing keys

Every key can be typed: by its display text, except that the inverse functions of angles go by names. Blanks
may stand in front of a key, behind the last one, and between the name of a function and its parenthesis.

- `Stroke` is a key with such blanks, and `layout` is the text of some strokes;
- `Scans.stroke`: a stroke is scanned to its key. What comes behind could only be taken for a part of it if it
  began with an `x`, behind an `e`, and no stroke does;
- `keysOf_layout`: the text of some strokes stands for their keys.
-/

namespace Reckoner.Typing

open Reckoner.Text

/-! ## §1 Strokes -/

/-- What is typed for a key. -/
def spelling : Key → String
  | .symbol .arcsin => "asin("
  | .symbol .arccos => "acos("
  | .symbol .arctan => "atan("
  | k => k.text

/-- The keys that carry a parenthesis. -/
def opensParenthesis : Key → Bool
  | .symbol s => s.isFunction
  | _ => false

/-- Some blanks, or none. -/
abbrev Blanks := { cs : List Char // ∀ c ∈ cs, isBlank c = true }

/-- A key with the blanks in front of it, and those in front of its parenthesis if it has one. -/
structure Stroke where
  key : Key
  before : Blanks
  inside : Blanks

/-- The characters that are typed for a stroke, without the blanks in front. -/
def Stroke.typed (s : Stroke) : List Char :=
  let cs := (spelling s.key).toList
  if opensParenthesis s.key then cs.dropLast ++ s.inside ++ ['('] else cs

/-- The text of some strokes, with blanks behind. -/
def layout : List Stroke → Blanks → List Char
  | [], behind => behind
  | s :: strokes, behind => s.before ++ s.typed ++ layout strokes behind

/-! ## §2 Spellings -/

/-- A function is spelled by its name and a parenthesis. -/
theorem spelling_function (s : Symbol) : s.isFunction = true → ∃ entry ∈ names, entry.2 = s
    ∧ (spelling (.symbol s)).toList = entry.1.toList ++ ['('] := by
  cases s <;> decide

/-- Every other key is spelled by one character. No name begins with it, except with the `e`. -/
theorem spelling_character (k : Key) (h : opensParenthesis k = false) : ∃ c, (spelling k).toList = [c]
    ∧ isBlank c = false ∧ characterKey? c = some k ∧ c ≠ 'x'
    ∧ (c = 'e' ∨ ∀ entry ∈ names, entry.1.toList.head? ≠ some c) := by
  refine ⟨(spelling k).toList.headD ' ', ?_⟩
  -- Digits, the point and all other operators are looked through one by one.
  cases k with
  | digit d =>
    clear h
    revert d
    decide
  | point => decide
  | symbol s =>
    revert h
    cases s <;> decide

theorem Stroke.typed_character {s : Stroke} (h : opensParenthesis s.key = false) :
    s.typed = (spelling s.key).toList := by
  rw [typed, h, if_neg nofun]

/-- A function is typed as its name, some blanks and a parenthesis. -/
theorem Stroke.typed_function {s : Stroke} (h : opensParenthesis s.key = true) :
    ∃ name f, (name, f) ∈ names ∧ s.key = .symbol f ∧ f.isFunction = true
      ∧ s.typed = name.toList ++ s.inside ++ ['('] := by
  cases hkey : s.key with
  | digit d =>
    rw [hkey] at h
    cases h
  | point =>
    rw [hkey] at h
    cases h
  | symbol f =>
    have hf : f.isFunction = true := by
      rw [hkey] at h
      exact h
    obtain ⟨⟨name, g⟩, hmem, hfunction, hspelling⟩ := spelling_function f hf
    obtain rfl : g = f := hfunction
    refine ⟨name, g, hmem, rfl, hf, ?_⟩
    rw [typed, h, if_pos rfl, hkey, hspelling, List.dropLast_concat]

/-- Behind an `e` a name would have to go on with an `x`. -/
theorem nameAt?_character {c : Char} {cs : List Char}
    (hc : c = 'e' ∨ ∀ entry ∈ names, entry.1.toList.head? ≠ some c) (hcs : cs.head? ≠ some 'x') :
    nameAt? (c :: cs) = none := by
  -- The only name that begins with an `e` goes on with an `x`.
  have hexp : ∀ entry ∈ names, entry.1.toList.head? = some 'e' →
      entry.1.toList.tail.head? = some 'x' := by
    decide
  refine nameAt?_eq_none_iff.mpr fun entry hentry hprefix => ?_
  obtain ⟨d, name, hname⟩ := List.exists_cons_of_ne_nil (letters_of_mem entry hentry).1
  rw [hname] at hprefix
  obtain ⟨rfl, more, rfl⟩ := List.cons_prefix_cons.mp hprefix
  -- A name here would begin with the character, or the `x` would stand behind it.
  rcases hc with rfl | hc
  · have hx := hexp entry hentry (by rw [hname]; rfl)
    rw [hname, List.tail_cons] at hx
    rw [List.head?_append, hx] at hcs
    exact hcs rfl
  · exact hc entry hentry (by rw [hname]; rfl)

/-! ## §3 Scanning strokes -/

variable {front rest : List Char} {ks : List Key}

/-- Blanks in front are scanned over. By induction on the blanks. -/
theorem Scans.blanks (h : Scans rest front ks) (bs : Blanks) : Scans rest (bs ++ front) ks := by
  obtain ⟨bs, hbs⟩ := bs
  dsimp only
  induction bs with
  | nil => exact h
  | cons b bs ih =>
    exact .blank (hbs b List.mem_cons_self) (ih fun c hc => hbs c (List.mem_cons_of_mem b hc))

/-- The parenthesis of a function, behind some blanks. -/
theorem parenthesisLength_blanks (bs : Blanks) (cs : List Char) :
    parenthesisLength (bs ++ '(' :: cs) = bs.val.length + 1 := by
  have hblank : ¬isBlank '(' = true := by decide
  rw [parenthesisLength, List.dropWhile_append_of_pos bs.property, List.takeWhile_append_of_pos bs.property,
    List.dropWhile_cons_of_neg hblank, List.takeWhile_cons_of_neg hblank, List.append_nil]
  rfl

/-- A stroke is scanned to its key, unless what comes behind begins with an `x`. -/
theorem Scans.stroke (h : Scans rest front ks) (hx : (front ++ rest).head? ≠ some 'x') (s : Stroke) :
    Scans rest (s.typed ++ front) (s.key :: ks) := by
  -- A character is a key of its own unless it begins a name; a name reaches up to its parenthesis.
  cases hopens : opensParenthesis s.key with
  | false =>
    obtain ⟨c, hspelling, hblank, hkey, -, hname⟩ := spelling_character s.key hopens
    rw [Stroke.typed_character hopens, hspelling]
    exact .single hblank (nameAt?_character hname hx) hkey h
  | true =>
    obtain ⟨name, f, hmem, hkey, hf, htyped⟩ := Stroke.typed_function hopens
    have htext : name.toList ++ s.inside ++ ['('] ++ front ++ rest
        = name.toList ++ (s.inside ++ '(' :: (front ++ rest)) := by
      simp only [List.append_assoc, List.cons_append, List.nil_append]
    have hname : nameAt? (name.toList ++ s.inside ++ ['('] ++ front ++ rest) = some (name, f) := by
      rw [htext]
      exact nameAt?_eq_some_iff.mpr ⟨hmem, List.prefix_append _ _⟩
    -- The name takes its blanks and its parenthesis along, however many blanks there are.
    have hlength : (name.toList ++ s.inside ++ ['(']).length
        = nameLength name f (name.toList ++ s.inside ++ ['('] ++ front ++ rest) := by
      rw [htext, nameLength, if_pos hf, ← String.length_toList, List.drop_left, parenthesisLength_blanks]
      simp only [List.length_append, List.length_singleton, Nat.add_assoc]
    rw [htyped, hkey]
    exact .named hname hlength h

/-! ## §4 Texts -/

/-- No blank is an `x`. -/
theorem Blanks.head?_ne (bs : Blanks) {cs : List Char} (h : cs.head? ≠ some 'x') :
    (bs ++ cs).head? ≠ some 'x' := by
  obtain ⟨bs, hbs⟩ := bs
  cases bs with
  | nil => exact h
  | cons b bs =>
    rintro hx
    cases hx
    cases hbs 'x' List.mem_cons_self

/-- No stroke begins with an `x`. -/
theorem Stroke.head?_typed_ne (s : Stroke) (cs : List Char) : (s.typed ++ cs).head? ≠ some 'x' := by
  cases hopens : opensParenthesis s.key with
  | false =>
    obtain ⟨c, hspelling, -, -, hx, -⟩ := spelling_character s.key hopens
    rw [typed_character hopens, hspelling]
    exact fun h => hx (Option.some.inj h)
  | true =>
    have hfirst : ∀ entry ∈ names, entry.1.toList ≠ [] ∧ entry.1.toList.head? ≠ some 'x' := by decide
    obtain ⟨name, f, hmem, -, -, htyped⟩ := typed_function hopens
    obtain ⟨hne, hx⟩ := hfirst _ hmem
    rw [htyped, List.append_assoc, List.append_assoc, List.head?_append_of_ne_nil _ hne]
    exact hx

theorem head?_layout_ne (strokes : List Stroke) (behind : Blanks) :
    (layout strokes behind).head? ≠ some 'x' := by
  -- Only blanks are left behind the last stroke.
  cases strokes with
  | nil =>
    rw [layout, ← List.append_nil behind.val]
    exact behind.head?_ne nofun
  | cons s strokes =>
    rw [layout, List.append_assoc]
    exact s.before.head?_ne (s.head?_typed_ne _)

/-- By induction on the strokes. -/
theorem scans_layout (strokes : List Stroke) (behind : Blanks) :
    Scans [] (layout strokes behind) (strokes.map Stroke.key) := by
  induction strokes with
  | nil =>
    rw [layout, ← List.append_nil behind.val]
    exact Scans.done.blanks behind
  | cons s strokes ih =>
    -- What comes behind a stroke is blank or begins the next one, and no stroke begins with an `x`.
    have hx : (layout strokes behind ++ []).head? ≠ some 'x' := by
      rw [List.append_nil]
      exact head?_layout_ne strokes behind
    rw [layout, List.append_assoc]
    exact (ih.stroke hx s).blanks s.before

/-- However keys are typed, the text stands for these keys, unless it is too long. -/
theorem keysOf_layout (strokes : List Stroke) (behind : Blanks) :
    keysOf (String.ofList (layout strokes behind))
      = if longestText < (layout strokes behind).length then .error .tooLong
        else .ok (strokes.map fun s => (s.key.code : Int)) := by
  split
  -- Too long a text is refused before it is scanned.
  · next hlong =>
    rw [keysOf, scan, String.length_ofList, if_pos hlong]
    rfl
  · next hlength =>
    have hscans := scans_layout strokes behind
    rw [← String.toList_ofList (l := layout strokes behind)] at hscans
    rw [keysOf_of_scan_ok (hscans.scan_ok (by rw [String.length_ofList]; omega)), List.map_map]
    rfl

end Reckoner.Typing
