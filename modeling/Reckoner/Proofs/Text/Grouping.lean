import Reckoner.Proofs.Numeral

/-!
# Groups of digits

Digits are grouped from the right, so all groups but the first are full. Since only the commas between
them are new, the groups can be told from the grouped text, and so can the digits.

- `grouped_eq_intercalate`: grouped digits are groups with commas between them;
- `splitOn_addCommas`: between the commas stand these groups, if there was no comma before;
- `addCommas_regular`: what the groups are like, and that taking the commas out undoes the grouping.
-/

namespace Reckoner.Text

variable {cs g : List Char}

/-! ## §1 Threes -/

/-- A list in threes; what does not fill a three is left out. -/
def threes : List Char → List (List Char)
  | a :: b :: c :: rest => [a, b, c] :: threes rest
  | _ => []

/-- Every three has three elements. -/
theorem length_of_mem_threes (hg : g ∈ threes cs) : g.length = 3 := by
  induction cs using threes.induct with
  | case1 a b c rest ih =>
    rw [threes, List.mem_cons] at hg
    rcases hg with rfl | hg
    · rfl
    · exact ih hg
  | case2 rest hshort =>
    rw [threes.eq_2 rest hshort] at hg
    cases hg

/-- What is in a three is in the list. -/
theorem mem_of_mem_threes {c : Char} (hg : g ∈ threes cs) (hc : c ∈ g) : c ∈ cs := by
  induction cs using threes.induct with
  | case1 x y z rest ih =>
    rw [threes, List.mem_cons] at hg
    rcases hg with rfl | hg
    · exact List.mem_append_left rest hc
    · exact List.mem_append_right [x, y, z] (ih hg)
  | case2 rest hshort =>
    rw [threes.eq_2 rest hshort] at hg
    cases hg

/-- Behind a first group, each three gets a comma in front. -/
theorem append_commaGroups (hfull : cs.length % 3 = 0) (head : List Char) :
    head ++ commaGroups cs = [','].intercalate (head :: threes cs) := by
  induction cs using commaGroups.induct generalizing head with
  | case1 a b c rest ih =>
    have hrest : rest.length % 3 = 0 := by
      simp only [List.length_cons] at hfull
      omega
    -- The three goes behind the first group, with its comma, and the others are behind it.
    rw [commaGroups, threes, List.intercalate_cons_cons, ← ih hrest]
    simp
  | case2 rest hshort =>
    -- Fewer than three elements that make up full threes are none.
    have hnil : rest = [] := by
      rcases rest with _ | ⟨a, _ | ⟨b, _ | ⟨c, rest⟩⟩⟩
      · rfl
      · cases hfull
      · cases hfull
      · exact absurd rfl (hshort a b c rest)
    have hend : commaGroups [] = [] ∧ threes [] = [] := ⟨rfl, rfl⟩
    rw [hnil, hend.1, hend.2, List.append_nil, List.intercalate_singleton]

/-! ## §2 Groups -/

/-- The groups that digits are put in: a first one, and full ones behind it. -/
def groups (cs : List Char) : List (List Char) :=
  cs.take (headLength cs) :: threes (cs.drop (headLength cs))

theorem headLength_bounds (cs : List Char) : 1 ≤ headLength cs ∧ headLength cs ≤ 3 := by
  unfold headLength
  split <;> omega

/-- Behind the first group the digits make up full threes. -/
theorem length_drop_headLength (cs : List Char) : (cs.drop (headLength cs)).length % 3 = 0 := by
  rw [List.length_drop, headLength]
  split <;> omega

/-- Grouped digits are groups with commas between them. -/
theorem grouped_eq_intercalate (cs : List Char) : grouped cs = [','].intercalate (groups cs) :=
  append_commaGroups (length_drop_headLength cs) _

theorem mem_of_mem_groups {c : Char} (hg : g ∈ groups cs) (hc : c ∈ g) : c ∈ cs := by
  rcases List.mem_cons.mp hg with rfl | hg
  · exact List.mem_of_mem_take hc
  · exact List.mem_of_mem_drop (mem_of_mem_threes hg hc)

/-- Only no digits at all make an empty group. -/
theorem ne_nil_of_mem_groups (hcs : cs ≠ []) (hg : g ∈ groups cs) : g ≠ [] := by
  apply List.ne_nil_of_length_pos
  rcases List.mem_cons.mp hg with rfl | hg
  · have hpos := List.length_pos_of_ne_nil hcs
    have hhead := headLength_bounds cs
    rw [List.length_take]
    omega
  · rw [length_of_mem_threes hg]
    decide

/-- Between the commas of grouped digits stand the groups. -/
theorem splitOn_addCommas {digits : String} (h : ',' ∉ digits.toList) :
    (addCommas digits).toList.splitOn ',' = groups digits.toList := by
  -- The digits were without commas, so the only ones are those between the groups.
  have hgroups : ∀ g ∈ groups digits.toList, ',' ∉ g := fun g hg hc => h (mem_of_mem_groups hg hc)
  rw [addCommas, String.toList_ofList, grouped_eq_intercalate,
    List.splitOn_intercalate ',' hgroups (List.cons_ne_nil _ _)]

/-! ## §3 Both ends -/

variable {c : Char} {sep : List Char} {gs : List (List Char)}

theorem intercalate_ne_nil (hg : g ≠ []) : sep.intercalate (g :: gs) ≠ [] := by
  cases gs with
  | nil => simpa using hg
  | cons g' gs => simp [List.intercalate_cons_cons, hg]

/-- What is put together of parts that are not empty begins within a part. -/
theorem of_head?_intercalate (hne : ∀ g ∈ gs, g ≠ []) (hc : (sep.intercalate gs).head? = some c) :
    ∃ g ∈ gs, c ∈ g := by
  cases gs with
  | nil => cases hc
  | cons g gs =>
    refine ⟨g, List.mem_cons_self, List.mem_of_mem_head? ?_⟩
    have hg := hne g List.mem_cons_self
    cases gs with
    | nil => simpa using hc
    | cons g' gs => simpa [List.intercalate_cons_cons, List.head?_append_of_ne_nil _ hg] using hc

/-- It ends within a part too. By induction on the parts. -/
theorem of_getLast?_intercalate (hne : ∀ g ∈ gs, g ≠ [])
    (hc : (sep.intercalate gs).getLast? = some c) : ∃ g ∈ gs, c ∈ g := by
  induction gs with
  | nil => cases hc
  | cons g gs ih =>
    cases gs with
    | nil =>
      rw [List.intercalate_singleton] at hc
      exact ⟨g, List.mem_cons_self, List.mem_of_getLast? hc⟩
    | cons g' gs =>
      have hrest : sep.intercalate (g' :: gs) ≠ [] := intercalate_ne_nil (hne g' (by simp))
      rw [List.intercalate_cons_cons, List.getLast?_append_of_ne_nil _ hrest] at hc
      obtain ⟨p, hp, hcp⟩ := ih (fun p hp => hne p (List.mem_cons_of_mem _ hp)) hc
      exact ⟨p, List.mem_cons_of_mem _ hp, hcp⟩

/-! ## §4 Grouped digits -/

/-- Grouping can be undone by taking the commas out. All groups but the first have three digits, the first
has one to three, or none if there is no digit at all, and no comma stands at either end. -/
theorem addCommas_regular {digits : String} (h : ',' ∉ digits.toList) :
    withoutCommas (addCommas digits) = digits
    ∧ (∃ first others, (addCommas digits).toList.splitOn ',' = first :: others
      ∧ first.length ≤ 3 ∧ (first = [] ↔ digits = "") ∧ ∀ g ∈ others, g.length = 3)
    ∧ (addCommas digits).toList.head? ≠ some ',' ∧ (addCommas digits).toList.getLast? ≠ some ',' := by
  have hundone : withoutCommas (addCommas digits) = digits := by
    rw [withoutCommas_addCommas, withoutCommas_eq_self h]
  -- Only without digits is the first group empty.
  rcases eq_or_ne digits "" with rfl | hne
  · exact ⟨hundone, ⟨[], [], rfl, by decide, by decide, by simp⟩, nofun, nofun⟩
  have hnil : digits.toList ≠ [] := fun hnil => hne (String.toList_eq_nil_iff.mp hnil)
  have hgroups (g : List Char) (hg : g ∈ groups digits.toList) := ne_nil_of_mem_groups hnil hg
  -- A comma at an end would stand within a group, where there are only digits.
  have hinside : ¬∃ g ∈ groups digits.toList, ',' ∈ g := fun ⟨_, hg, hc⟩ => h (mem_of_mem_groups hg hc)
  refine ⟨hundone, ⟨_, _, splitOn_addCommas h, ?_, ?_, fun g hg => length_of_mem_threes hg⟩, ?_, ?_⟩
  · rw [List.length_take]
    exact Nat.le_trans (Nat.min_le_left _ _) (headLength_bounds _).2
  · exact iff_of_false (hgroups _ List.mem_cons_self) hne
  · rw [addCommas, String.toList_ofList, grouped_eq_intercalate]
    exact fun hc => hinside (of_head?_intercalate hgroups hc)
  · rw [addCommas, String.toList_ofList, grouped_eq_intercalate]
    exact fun hc => hinside (of_getLast?_intercalate hgroups hc)

/-- Seven digits, so that the first group is short and two full ones follow. -/
theorem addCommas_regular_sevenDigits :
    ',' ∉ "1234567".toList ∧ addCommas "1234567" = "1,234,567"
    ∧ withoutCommas "1,234,567" = "1234567"
    ∧ (∃ first others, "1,234,567".toList.splitOn ',' = first :: others
      ∧ first.length ≤ 3 ∧ (first = [] ↔ "1234567" = "") ∧ ∀ g ∈ others, g.length = 3)
    ∧ "1,234,567".toList.head? ≠ some ',' ∧ "1,234,567".toList.getLast? ≠ some ',' := by
  have hcomma : ',' ∉ "1234567".toList := by decide
  have hgrouped : addCommas "1234567" = "1,234,567" := by decide
  have hregular := addCommas_regular hcomma
  rw [hgrouped] at hregular
  exact ⟨hcomma, hgrouped, hregular⟩

end Reckoner.Text
