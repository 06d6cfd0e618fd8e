import Mathlib.Data.List.Infix
import ProcessChain.Comment
import ProcessChain.Proofs.Text.LineEnds
import ProcessChain.Proofs.Text.Trimming

/-!
# Comments and their markers

What follows the first occurrence of a marker is a suffix of the line, so the longest of these texts
is unique and the comment does not depend on the order of the markers. A line without a marker has
no comment. A blank character at the end of a line changes its comment only if a marker ends in that
character, and then the comment is empty; the token of the line is the same either way
(`CommentStyle.token?_concat_of_isBlank`).
-/

namespace ProcessChain.CommentStyle

variable {style : CommentStyle} {marker line rest text : List Char} {last : Char}

theorem exists_eq_of_after? (found : after? marker line = some text) :
    ∃ before, line = before ++ marker ++ text := by
  induction line with
  | nil => simp [after?] at found
  | cons character others ih =>
      unfold after? at found
      split at found
      · next begins =>
          rcases List.isPrefixOf_iff_prefix.1 begins with ⟨after, split⟩
          cases found
          exact ⟨[], by simp [← split]⟩
      · rcases ih found with ⟨before, rfl⟩
        exact ⟨character :: before, rfl⟩

theorem after?_eq_none_iff (filled : marker ≠ []) :
    after? marker line = none ↔ ¬ marker <:+: line := by
  induction line with
  | nil => simp [after?, filled]
  | cons character others ih =>
      unfold after?
      rw [List.infix_cons_iff, not_or, ← ih]
      split
      · next found => simp [List.isPrefixOf_iff_prefix.1 found]
      · next notFound =>
          rw [List.isPrefixOf_iff_prefix] at notFound
          simp [notFound]

/-- The first occurrence of a marker stays the first one when a line goes on. -/
theorem after?_append_of_some (found : after? marker line = some text) :
    after? marker (line ++ rest) = some (text ++ rest) := by
  induction line with
  | nil => simp [after?] at found
  | cons character others ih =>
      rw [List.cons_append]
      unfold after? at found ⊢
      split at found
      · next begins =>
          rw [List.isPrefixOf_iff_prefix] at begins
          cases found
          rw [if_pos, ← List.cons_append, List.drop_append_of_le_length begins.length_le]
          rw [List.isPrefixOf_iff_prefix]
          exact begins.trans (List.prefix_append _ rest)
      · next notFound =>
          rw [if_neg, ih found]
          rcases exists_eq_of_after? found with ⟨before, rfl⟩
          rw [List.isPrefixOf_iff_prefix] at notFound ⊢
          intro begins
          apply notFound
          rw [← List.cons_append] at begins
          apply List.prefix_of_prefix_length_le begins (List.prefix_append _ rest)
          simp only [List.length_cons, List.length_append]
          omega

/-- A marker that occurs only once a line has gone on by a character ends with that character. -/
theorem after?_concat_of_none (last : Char) (filled : marker ≠ [])
    (absent : after? marker line = none) :
    after? marker (line ++ [last]) = none ∨ after? marker (line ++ [last]) = some [] := by
  cases found : after? marker (line ++ [last]) with
  | none => exact .inl rfl
  | some text =>
      right
      rcases exists_eq_of_after? found with ⟨before, split⟩
      rcases List.eq_nil_or_concat' text with rfl | ⟨front, character, rfl⟩
      · rfl
      · rw [← List.append_assoc] at split
        have shorter : line = before ++ marker ++ front := (List.append_inj' split rfl).1
        rw [after?_eq_none_iff filled] at absent
        exact absurd ⟨before, front, shorter.symm⟩ absent

/-- Of suffixes of one line, the longest is unique. -/
theorem maxOn?_length_eq_some {texts : List (List Char)}
    (suffixes : ∀ other ∈ texts, other <:+ line) (listed : text ∈ texts)
    (longest : ∀ other ∈ texts, other.length ≤ text.length) :
    texts.maxOn? List.length = some text := by
  have isSome := List.isSome_maxOn?_of_mem (f := List.length) listed
  rcases Option.isSome_iff_exists.1 isSome with ⟨other, chosen⟩
  have greatest := List.le_apply_get_maxOn?_of_mem (f := List.length) listed
  simp only [chosen, Option.get_some] at greatest
  have otherListed := List.maxOn?_mem chosen
  have sameLength := Nat.le_antisymm (longest other otherListed) greatest
  have same := (List.suffix_of_suffix_length_le (suffixes other otherListed)
    (suffixes text listed) sameLength.le).eq_of_length sameLength
  rw [chosen, same]

/-- The texts that follow the markers in a line. -/
def following (style : CommentStyle) (line : List Char) : List (List Char) :=
  style.markers.filterMap fun marker => after? marker line

theorem comment?_eq (style : CommentStyle) (line : List Char) :
    style.comment? line = ((style.following line).maxOn? List.length).map Text.trim := rfl

theorem suffix_of_mem_following (listed : text ∈ style.following line) : text <:+ line := by
  rcases List.mem_filterMap.1 listed with ⟨marker, _, found⟩
  rcases exists_eq_of_after? found with ⟨before, rfl⟩
  exact List.suffix_append _ _

theorem following_eq_nil_iff :
    style.following line = [] ↔ ∀ marker ∈ style.markers, ¬ marker <:+: line := by
  unfold following
  rw [List.filterMap_eq_nil_iff]
  exact forall₂_congr fun marker listed => after?_eq_none_iff (style.nonempty marker listed)

/-- A line has no comment exactly if no marker occurs in it. -/
theorem comment?_eq_none_iff :
    style.comment? line = none ↔ ∀ marker ∈ style.markers, ¬ marker <:+: line := by
  rw [comment?_eq, Option.map_eq_none_iff, ← Option.not_isSome_iff_eq_none,
    List.isSome_maxOn?_iff, not_not, following_eq_nil_iff]

theorem mem_following_concat (listed : text ∈ style.following (line ++ [last])) :
    text = [] ∨ ∃ front ∈ style.following line, text = front ++ [last] := by
  rcases List.mem_filterMap.1 listed with ⟨marker, markerListed, found⟩
  cases before : after? marker line with
  | none =>
      rcases after?_concat_of_none last (style.nonempty marker markerListed) before with
        absent | empty
      · simp [absent] at found
      · exact .inl (Option.some.inj (found.symm.trans empty))
  | some front =>
      rw [after?_append_of_some before] at found
      exact .inr ⟨front, List.mem_filterMap.2 ⟨marker, markerListed, before⟩,
        (Option.some.inj found).symm⟩

theorem comment?_concat_of_none (last : Char) (absent : style.comment? line = none) :
    style.comment? (line ++ [last]) = none ∨ style.comment? (line ++ [last]) = some [] := by
  cases chosen : (style.following (line ++ [last])).maxOn? List.length with
  | none => exact .inl (by simp [comment?_eq, chosen])
  | some text =>
      rw [comment?_eq_none_iff, ← following_eq_nil_iff] at absent
      rcases mem_following_concat (List.maxOn?_mem chosen) with rfl | ⟨front, listed, _⟩
      · exact .inr (by simp [comment?_eq, chosen])
      · simp [absent] at listed

theorem comment?_concat_of_some {comment : List Char} (found : style.comment? line = some comment)
    (blank : Text.isBlank last) : style.comment? (line ++ [last]) = some comment := by
  rw [comment?_eq, Option.map_eq_some_iff] at found
  rcases found with ⟨text, chosen, rfl⟩
  rcases List.mem_filterMap.1 (List.maxOn?_mem chosen) with ⟨marker, markerListed, textFound⟩
  have listed : text ++ [last] ∈ style.following (line ++ [last]) :=
    List.mem_filterMap.2 ⟨marker, markerListed, after?_append_of_some textFound⟩
  have longest : ∀ other ∈ style.following (line ++ [last]),
      other.length ≤ (text ++ [last]).length := by
    intro other otherListed
    rcases mem_following_concat otherListed with rfl | ⟨front, frontListed, rfl⟩
    · exact Nat.zero_le _
    · have greatest := List.le_apply_get_maxOn?_of_mem (f := List.length) frontListed
      simp only [chosen, Option.get_some] at greatest
      simpa using greatest
  rw [comment?_eq, maxOn?_length_eq_some (fun _ => suffix_of_mem_following) listed longest]
  simp [Text.trim_concat_of_isBlank blank]

/-- A blank character at its end does not change the token of a line. -/
theorem token?_concat_of_isBlank (blank : Text.isBlank last) (number : Nat) :
    style.token? (line ++ [last]) number = style.token? line number := by
  unfold token?
  cases found : style.comment? line with
  | some comment => rw [comment?_concat_of_some found blank]
  | none =>
      rcases comment?_concat_of_none last found with none | empty
      · rw [none]
      · rw [empty]

/-- A text has the tokens of the lines that it is written from, however they end. -/
theorem tokens_of_spells {source : String} {written : List (List Char)}
    (spells : Text.Spells source.toList written) :
    style.tokens source = style.tokensFrom 1 written := by
  have sameTokens {lines : List (List Char)} (number : Nat)
      (related : List.Forall₂ (fun line read => line = read ∨ line = read ++ ['\r'])
        written lines) :
      style.tokensFrom number lines = style.tokensFrom number written := by
    clear spells
    induction related generalizing number with
    | nil => rfl
    | cons first _ ih =>
        unfold tokensFrom
        rw [ih (number + 1)]
        rcases first with rfl | rfl
        · rfl
        · rw [token?_concat_of_isBlank (by decide)]
  exact sameTokens 1 (Text.forall₂_lines_of_spells spells)

/-- The text of a token is the comment of its line. -/
theorem token?_eq_some_iff {number : Nat} {token : Token} :
    style.token? line number = some token ↔
      ∃ comment, style.comment? line = some comment ∧ comment ≠ [] ∧
        token = ⟨String.ofList comment, number⟩ := by
  unfold token?
  split
  · next none => simp [none]
  · next empty => simp [empty]
  · next comment filled found =>
      simp only [found, Option.some.injEq, exists_eq_left', ne_eq]
      constructor
      · rintro rfl
        exact ⟨filled, rfl⟩
      · rintro ⟨_, rfl⟩
        rfl

/-- The token of a line is the same on another line of that text. -/
theorem token?_eq_map (number other : Nat) :
    style.token? line other = (style.token? line number).map ({ · with line := other }) := by
  unfold token?
  split <;> rfl

end ProcessChain.CommentStyle
