import ProcessChain.Proofs.Comment.Markers

/-!
# Tokens of texts in sequence

A line ends at a newline. Whether a carriage return comes before it makes no difference to the token
of the line, and a line without text has no token, so that the tokens of a text are those of what
stands between its newlines (`CommentStyle.tokens_eq_tokensFrom_splitOn`). A text that is cut at one
of its newlines, whichever it is, therefore has the tokens of the two parts, those of the second
counted on from the lines of the first. Of each line there is at most one token, and it has the
number of the line.
-/

namespace ProcessChain

/-- The token when its line has been moved down by some lines. -/
def Token.moveDown (token : Token) (lines : Nat) : Token :=
  { token with line := token.line + lines }

/-- Tokens on different lines, in the order of the lines, counted from one, each with a text that is
trimmed and not empty. -/
structure Token.Orderly (tokens : List Token) : Prop where
  ascending : tokens.Pairwise fun token later => token.line < later.line
  line_pos : ∀ token ∈ tokens, 1 ≤ token.line
  trimmed : ∀ token ∈ tokens, Text.trimmed token.text = token.text
  filled : ∀ token ∈ tokens, token.text ≠ ""

namespace CommentStyle

variable {style : CommentStyle} {line : List Char} {lines : List (List Char)} {number : Nat}
  {token : Token}

/-! ## The token of a line -/

theorem token?_nil (style : CommentStyle) (number : Nat) : style.token? [] number = none := by
  have absent : style.comment? [] = none := by
    rw [comment?_eq_none_iff]
    intro marker listed found
    exact style.nonempty marker listed (List.eq_nil_of_infix_nil found)
  rw [token?, absent]

theorem line_of_token? (found : style.token? line number = some token) : token.line = number := by
  rcases token?_eq_some_iff.1 found with ⟨_, _, _, rfl⟩
  rfl

theorem trimmed_of_token? (found : style.token? line number = some token) :
    Text.trimmed token.text = token.text ∧ token.text ≠ "" := by
  rcases token?_eq_some_iff.1 found with ⟨comment, commentFound, filled, rfl⟩
  rw [comment?_eq, Option.map_eq_some_iff] at commentFound
  rcases commentFound with ⟨text, _, rfl⟩
  constructor
  · rw [Text.trimmed, String.toList_ofList, Text.trim_trim]
  · simpa using filled

theorem token?_moveDown (style : CommentStyle) (line : List Char) (number further : Nat) :
    style.token? line (number + further) =
      (style.token? line number).map (·.moveDown further) := by
  rw [token?_eq_map number]
  cases found : style.token? line number with
  | none => rfl
  | some token =>
      rw [Option.map_some, Option.map_some, Token.moveDown, line_of_token? found]

/-! ## The tokens of lines -/

theorem tokensFrom_append (style : CommentStyle) (number : Nat) (first second : List (List Char)) :
    style.tokensFrom number (first ++ second) =
      style.tokensFrom number first ++ style.tokensFrom (number + first.length) second := by
  induction first generalizing number with
  | nil => rfl
  | cons line rest ih =>
      rw [List.cons_append, tokensFrom, tokensFrom, ih, List.append_assoc, List.length_cons,
        Nat.add_right_comm, Nat.add_assoc]

theorem tokensFrom_moveDown (style : CommentStyle) (number further : Nat)
    (lines : List (List Char)) :
    style.tokensFrom (number + further) lines =
      (style.tokensFrom number lines).map (·.moveDown further) := by
  induction lines generalizing number with
  | nil => rfl
  | cons line rest ih =>
      rw [tokensFrom, tokensFrom, List.map_append, token?_moveDown, Option.toList_map,
        Nat.add_right_comm, ih]

/-- A token of some lines is that of one of them, with its number. -/
theorem exists_of_mem_tokensFrom (listed : token ∈ style.tokensFrom number lines) :
    ∃ line ∈ lines, style.token? line token.line = some token ∧ number ≤ token.line := by
  induction lines generalizing number with
  | nil => cases listed
  | cons line rest ih =>
      rw [tokensFrom, List.mem_append, Option.mem_toList] at listed
      rcases listed with first | later
      · rw [line_of_token? first]
        exact ⟨line, List.mem_cons_self, first, le_rfl⟩
      · rcases ih later with ⟨other, otherListed, found, atLeast⟩
        exact ⟨other, List.mem_cons_of_mem _ otherListed, found, by omega⟩

theorem pairwise_tokensFrom (style : CommentStyle) (number : Nat) (lines : List (List Char)) :
    (style.tokensFrom number lines).Pairwise fun token later => token.line < later.line := by
  induction lines generalizing number with
  | nil => exact .nil
  | cons line rest ih =>
      rw [tokensFrom, List.pairwise_append]
      refine ⟨?_, ih (number + 1), ?_⟩
      · cases style.token? line number with
        | none => exact .nil
        | some token => exact List.pairwise_singleton _ token
      · intro token first later listed
        rcases exists_of_mem_tokensFrom listed with ⟨_, _, _, atLeast⟩
        rw [line_of_token? (Option.mem_toList.1 first)]
        omega

theorem orderly_tokens (style : CommentStyle) (source : String) :
    Token.Orderly (style.tokens source) where
  ascending := pairwise_tokensFrom style 1 _
  line_pos := by
    intro token listed
    rcases exists_of_mem_tokensFrom listed with ⟨_, _, _, atLeast⟩
    exact atLeast
  trimmed := by
    intro token listed
    rcases exists_of_mem_tokensFrom listed with ⟨_, _, found, _⟩
    exact (trimmed_of_token? found).1
  filled := by
    intro token listed
    rcases exists_of_mem_tokensFrom listed with ⟨_, _, found, _⟩
    exact (trimmed_of_token? found).2

/-! ## The tokens of a text -/

/-- A text has the tokens of what stands between its newlines. -/
theorem tokens_eq_tokensFrom_splitOn (style : CommentStyle) (source : String) :
    style.tokens source = style.tokensFrom 1 (source.toList.splitOn '\n') := by
  rcases Text.exists_spells_withCarriageReturns source.toList with
    ⟨written, same | withLast, spells, _⟩
  · rw [same, tokens_of_spells spells]
  · rw [withLast, tokens_of_spells spells, tokensFrom_append, tokensFrom, token?_nil, tokensFrom]
    exact (List.append_nil _).symm

/-- A text that is cut at a newline has the tokens of the two parts. -/
theorem tokens_append (style : CommentStyle) (first second : String) :
    style.tokens (first ++ "\n" ++ second) =
      style.tokens first
        ++ (style.tokens second).map (·.moveDown (first.toList.count '\n' + 1)) := by
  have pieces : (first ++ "\n" ++ second).toList.splitOn '\n' =
      first.toList.splitOn '\n' ++ second.toList.splitOn '\n' := by
    have cut : (first ++ "\n" ++ second).toList = first.toList ++ '\n' :: second.toList := by
      simp
    rw [cut, List.splitOn_append_cons_self]
  simp only [tokens_eq_tokensFrom_splitOn]
  rw [pieces, tokensFrom_append, Text.length_splitOn, tokensFrom_moveDown]

theorem tokens_withCarriageReturns (style : CommentStyle) (source : String) :
    style.tokens (String.ofList (Text.withCarriageReturns source.toList)) =
      style.tokens source := by
  rcases Text.exists_spells_withCarriageReturns source.toList with
    ⟨written, _, spells, spellsToo⟩
  rw [tokens_of_spells spells]
  apply tokens_of_spells
  rwa [String.toList_ofList]

/-- Whatever the markers are: a text that is cut at a newline has the tokens of the two parts, those
of the second further down by the newlines up to there; tokens come line by line from the first line
on, trimmed and not empty; and a carriage return before every newline makes no difference to them.
-/
theorem tokens_append_and_orderly_and_withCarriageReturns (markers : List String) :
    (∀ first second,
      (ofMarkers markers).tokens (first ++ "\n" ++ second) =
        (ofMarkers markers).tokens first
          ++ ((ofMarkers markers).tokens second).map
            (·.moveDown (first.toList.count '\n' + 1))) ∧
      (∀ source, Token.Orderly ((ofMarkers markers).tokens source)) ∧
      ∀ source, (ofMarkers markers).tokens
        (String.ofList (Text.withCarriageReturns source.toList)) =
          (ofMarkers markers).tokens source :=
  ⟨tokens_append _, orderly_tokens _, tokens_withCarriageReturns _⟩

end CommentStyle

end ProcessChain
