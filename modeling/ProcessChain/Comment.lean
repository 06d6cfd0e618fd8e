import ProcessChain.Text.Blank
import ProcessChain.Text.Lines

/-!
# Comments and tokens

Annotations live in the line comments of a source text. A comment style is a list of markers, each
of which may open a comment anywhere in a line. Of the first occurrences of all markers the one that
ends earliest counts, the comment is what follows it, and a line whose comment is not blank yields a
token with the comment's text and the number of the line.
-/

namespace ProcessChain

/-- An annotated comment and the line it stands on, counted from one. -/
structure Token where
  /-- The comment after its marker, trimmed. -/
  text : String
  line : Nat
deriving DecidableEq, Repr

/-- What reads the tokens of a source text. -/
abbrev Tokenizer := String → List Token

/-- The markers that open a line comment. -/
structure CommentStyle where
  markers : List (List Char)
  /-- An empty marker would open a comment everywhere. -/
  nonempty : ∀ marker ∈ markers, marker ≠ [] := by decide

namespace CommentStyle

/-- The style with the markers `#` and `//`. -/
def standard : CommentStyle where
  markers := [['#'], ['/', '/']]

/-- The style with the given markers, the empty ones left out. -/
def ofMarkers (markers : List String) : CommentStyle where
  markers := (markers.map String.toList).filter (· ≠ [])
  nonempty := by simp

/-- What follows the first occurrence of a marker in a line. -/
def after? (marker : List Char) : List Char → Option (List Char)
  | [] => none
  | character :: rest =>
    if marker.isPrefixOf (character :: rest) then
      some ((character :: rest).drop marker.length)
    else
      after? marker rest

/-- The comment of a line: what follows the first occurrence that ends earliest, which is the
longest of the texts that follow. -/
def comment? (style : CommentStyle) (line : List Char) : Option (List Char) :=
  ((style.markers.filterMap fun marker => after? marker line).maxOn? List.length).map Text.trim

/-- The token of a line, if it has a comment that is not blank. -/
def token? (style : CommentStyle) (line : List Char) (number : Nat) : Option Token :=
  match style.comment? line with
  | none => none
  | some [] => none
  | some comment => some ⟨String.ofList comment, number⟩

/-- The tokens of lines that are counted from a given number. -/
def tokensFrom (style : CommentStyle) : (number : Nat) → List (List Char) → List Token
  | _, [] => []
  | number, line :: rest =>
    (style.token? line number).toList ++ style.tokensFrom (number + 1) rest

/-- The tokens of a source text. -/
def tokens (style : CommentStyle) (source : String) : List Token :=
  style.tokensFrom 1 (Text.lines source.toList)

instance : Coe CommentStyle Tokenizer := ⟨tokens⟩

end CommentStyle

end ProcessChain
