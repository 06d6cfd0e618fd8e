import ProcessChain.Text.Blank

/-!
# Comma lists

API calls and subscribed topics are written as one payload, separated by commas. Items are trimmed,
and an item that is blank is no item: `a, , b` lists two.
-/

namespace ProcessChain.Text

/-- The items of a comma list, trimmed, without the blank ones. -/
def items (text : List Char) : List (List Char) :=
  ((text.splitOn ',').map trim).filter (· ≠ [])

/-- The items of a comma list as strings. -/
def itemStrings (text : String) : List String :=
  (items text.toList).map String.ofList

@[simp]
theorem items_nil : items [] = [] := by
  simp [items]

end ProcessChain.Text
