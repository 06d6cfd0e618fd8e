/-!
# Lines of a text

A line ends at a newline, and a carriage return directly before that newline belongs to the line
end. Text after the last newline is a line of its own unless it is empty, and keeps a carriage
return that it ends with. Faults are reported by line number, so the cut is exact.
-/

namespace ProcessChain.Text

/-- The lines of a text, without their line ends. -/
def lines : List Char → List (List Char)
  | [] => []
  | '\n' :: rest => [] :: lines rest
  | '\r' :: '\n' :: rest => [] :: lines rest
  | character :: rest =>
    match lines rest with
    | [] => [[character]]
    | line :: others => (character :: line) :: others

@[simp]
theorem lines_nil : lines [] = [] := rfl

@[simp]
theorem lines_newline (rest : List Char) : lines ('\n' :: rest) = [] :: lines rest := by
  rw [lines]

end ProcessChain.Text
