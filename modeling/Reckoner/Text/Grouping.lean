/-!
# Digit grouping

Digits in groups of three, counted from the right and separated by commas.
-/

namespace Reckoner.Text

/-- Split a list into threes, each but the first with a comma in front. -/
def commaGroups : List Char → List Char
  | a :: b :: c :: rest => ',' :: a :: b :: c :: commaGroups rest
  | rest => rest

/-- Length of the first group: one to three, none for no digits. -/
def headLength (cs : List Char) : Nat :=
  if cs.length % 3 = 0 then 3 else cs.length % 3

/-- Group digits by thousands. -/
def grouped (cs : List Char) : List Char :=
  cs.take (headLength cs) ++ commaGroups (cs.drop (headLength cs))

/-- Group a run of digits by thousands. -/
def addCommas (digits : String) : String :=
  String.ofList (grouped digits.toList)

end Reckoner.Text
