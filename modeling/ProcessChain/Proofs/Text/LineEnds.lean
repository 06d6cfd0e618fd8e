import Mathlib.Data.List.Forall2
import ProcessChain.Proofs.Outcome
import ProcessChain.Proofs.Text.Trimming
import ProcessChain.Text.Lines

/-!
# Lines written with a newline after each

A line without a newline in it, and without a carriage return at its end, is read back as it was
written. A carriage return at its end is taken for a part of the line end, so of lines that are
written anyhow, each is read back up to that character: `Spells` says what it is to write some
lines, and `forall₂_lines_of_spells` what is read. What stands between the newlines of a text spells
the text, and it still does if a carriage return is put before every newline
(`exists_spells_withCarriageReturns`).
-/

namespace ProcessChain.Text

theorem lines_append_newline {line rest : List Char} (inside : '\n' ∉ line)
    (atEnd : line.getLast? ≠ some '\r') : lines (line ++ '\n' :: rest) = line :: lines rest := by
  induction line with
  | nil => rw [List.nil_append, lines_newline]
  | cons character others ih =>
      have read : lines (others ++ '\n' :: rest) = others :: lines rest := by
        apply ih
        · intro member
          exact inside (List.mem_cons_of_mem _ member)
        · intro last
          apply atEnd
          rw [List.getLast?_cons, last]
          rfl
      rw [List.cons_append, lines, read]
      · rintro rfl
        exact inside List.mem_cons_self
      · intro following carriage begins
        cases others with
        | nil =>
            subst carriage
            exact atEnd rfl
        | cons next more =>
            rw [List.cons_append, List.cons.injEq] at begins
            apply inside
            rw [begins.1]
            exact List.mem_cons_of_mem _ List.mem_cons_self

theorem lines_append_carriageReturn {line rest : List Char} (inside : '\n' ∉ line) :
    lines (line ++ '\r' :: '\n' :: rest) = line :: lines rest := by
  induction line with
  | nil =>
      rw [List.nil_append, lines]
  | cons character others ih =>
      rw [List.mem_cons, not_or] at inside
      rw [List.cons_append, lines, ih inside.2]
      · exact fun newline => inside.1 newline.symm
      · intro following carriage begins
        cases others with
        | nil => simp at begins
        | cons next more =>
            rw [List.cons_append, List.cons.injEq] at begins
            exact inside.2 (begins.1 ▸ List.mem_cons_self)

theorem lines_of_unended {line : List Char} (filled : line ≠ []) (inside : '\n' ∉ line) :
    lines line = [line] := by
  induction line with
  | nil => exact absurd rfl filled
  | cons character others ih =>
      rw [List.mem_cons, not_or] at inside
      rw [lines]
      · cases others with
        | nil => rfl
        | cons next more => rw [ih (List.cons_ne_nil _ _) inside.2]
      · exact fun newline => inside.1 newline.symm
      · intro following carriage begins
        exact inside.2 (begins ▸ List.mem_cons_self)

/-- A text is some lines, written one after the other. Each has a line end after it, one way or the
other; only the last one may go without, if it is not empty. -/
inductive Spells : List Char → List (List Char) → Prop where
  | done : Spells [] []
  | unended {line : List Char} (filled : line ≠ []) (inside : '\n' ∉ line) : Spells line [line]
  | ended {line lineEnd text : List Char} {others : List (List Char)} (inside : '\n' ∉ line)
      (ends : lineEnd = ['\n'] ∨ lineEnd = ['\r', '\n']) (rest : Spells text others) :
      Spells (line ++ lineEnd ++ text) (line :: others)

theorem Spells.newline_notMem {text line : List Char} {written : List (List Char)}
    (spells : Spells text written) (listed : line ∈ written) : '\n' ∉ line := by
  induction spells with
  | done => cases listed
  | unended _ inside =>
      obtain rfl := List.mem_singleton.1 listed
      exact inside
  | ended inside _ _ ih =>
      rcases List.mem_cons.1 listed with rfl | later
      · exact inside
      · exact ih later

/-- Each line is read back as it was written, or up to a carriage return at its end. -/
theorem forall₂_lines_of_spells {text : List Char} {written : List (List Char)}
    (spells : Spells text written) :
    List.Forall₂ (fun line read => line = read ∨ line = read ++ ['\r']) written (lines text) := by
  induction spells with
  | done => exact .nil
  | unended filled inside =>
      rw [lines_of_unended filled inside]
      exact .cons (.inl rfl) .nil
  | @ended line lineEnd text others inside ends _ ih =>
      rcases ends with rfl | rfl
      · rw [List.append_assoc, List.singleton_append]
        by_cases atEnd : line.getLast? = some '\r'
        · rcases List.getLast?_eq_some_iff.1 atEnd with ⟨front, rfl⟩
          rw [List.mem_append, not_or] at inside
          rw [List.append_assoc, List.singleton_append, lines_append_carriageReturn inside.1]
          exact .cons (.inr rfl) ih
        · rw [lines_append_newline inside atEnd]
          exact .cons (.inl rfl) ih
      · rw [List.append_assoc, List.cons_append, List.singleton_append,
          lines_append_carriageReturn inside]
        exact .cons (.inl rfl) ih

/-- A text with a carriage return before every newline. -/
def withCarriageReturns (text : List Char) : List Char :=
  text.flatMap fun character => if character = '\n' then ['\r', '\n'] else [character]

theorem withCarriageReturns_append (first second : List Char) :
    withCarriageReturns (first ++ second) =
      withCarriageReturns first ++ withCarriageReturns second := by
  simp [withCarriageReturns]

theorem withCarriageReturns_of_notMem {text : List Char} (inside : '\n' ∉ text) :
    withCarriageReturns text = text := by
  have same : ∀ character ∈ text,
      (if character = '\n' then ['\r', '\n'] else [character]) = [character] := by
    intro character listed
    rw [if_neg]
    rintro rfl
    exact inside listed
  rw [withCarriageReturns, List.flatMap_congr same, List.flatMap_singleton']

theorem exists_spells_intercalate {pieces : List (List Char)}
    (bare : ∀ piece ∈ pieces, '\n' ∉ piece) :
    ∃ written, (pieces = written ∨ pieces = written ++ [[]]) ∧
      Spells (['\n'].intercalate pieces) written ∧
        Spells (withCarriageReturns (['\n'].intercalate pieces)) written := by
  induction pieces with
  | nil => exact ⟨[], .inl rfl, .done, .done⟩
  | cons piece others ih =>
      have inside := bare piece List.mem_cons_self
      by_cases last : others = []
      · subst last
        rw [List.intercalate_singleton, withCarriageReturns_of_notMem inside]
        by_cases empty : piece = []
        · exact ⟨[], .inr (by rw [empty, List.nil_append]), empty ▸ .done, empty ▸ .done⟩
        · exact ⟨[piece], .inl rfl, .unended empty inside, .unended empty inside⟩
      · rcases ih fun other listed => bare other (List.mem_cons_of_mem _ listed) with
          ⟨written, pieces_eq, spells, spellsToo⟩
        rw [List.intercalate_cons_of_ne_nil last, withCarriageReturns_append,
          withCarriageReturns_append, withCarriageReturns_of_notMem inside]
        refine ⟨piece :: written, ?_, .ended inside (.inl rfl) spells,
          .ended inside (.inr rfl) spellsToo⟩
        rcases pieces_eq with same | more
        · exact .inl (by rw [same])
        · exact .inr (by rw [more, List.cons_append])

/-- A text is spelled by what stands between its newlines, an empty last piece apart, and so is the
text with a carriage return before every newline. -/
theorem exists_spells_withCarriageReturns (text : List Char) :
    ∃ written, (text.splitOn '\n' = written ∨ text.splitOn '\n' = written ++ [[]]) ∧
      Spells text written ∧ Spells (withCarriageReturns text) written := by
  have bare : ∀ piece ∈ text.splitOn '\n', '\n' ∉ piece := fun _ => notMem_of_mem_splitOn
  have spelled := exists_spells_intercalate bare
  rwa [List.intercalate_splitOn] at spelled

theorem newline_notMem_of_mem_lines {text line : List Char} (listed : line ∈ lines text) :
    '\n' ∉ line := by
  rcases exists_spells_withCarriageReturns text with ⟨written, _, spells, _⟩
  rcases exists_of_forall₂ (forall₂_lines_of_spells spells) listed with ⟨other, otherListed, same⟩
  have inside := spells.newline_notMem otherListed
  rcases same with rfl | rfl
  · exact inside
  · exact fun newline => inside (List.mem_append_left _ newline)

theorem length_splitOn (separator : Char) (text : List Char) :
    (text.splitOn separator).length = text.count separator + 1 := by
  induction text with
  | nil => rfl
  | cons character rest ih =>
      rw [List.splitOn_cons_eq_if_modifyHead, List.count_cons]
      split
      · rw [List.length_cons, ih]
      · rw [List.length_modifyHead, ih, Nat.add_zero]

/-- Texts with a newline after each are the lines of what is written. -/
theorem lines_flatMap_newline {texts : List (List Char)}
    (bare : ∀ text ∈ texts, '\n' ∉ text ∧ text.getLast? ≠ some '\r') :
    lines (texts.flatMap (· ++ ['\n'])) = texts := by
  induction texts with
  | nil => rfl
  | cons text others ih =>
      have ⟨inside, atEnd⟩ := bare text List.mem_cons_self
      rw [List.flatMap_cons, List.append_assoc, List.singleton_append,
        lines_append_newline inside atEnd]
      rw [ih fun other listed => bare other (List.mem_cons_of_mem _ listed)]

end ProcessChain.Text
