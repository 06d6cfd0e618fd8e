import Mathlib.Data.List.Basic

/-!
# Writing that shows where it ends

Texts are written piece after piece without a length in front, so a text can be read back only if
each piece shows where it ends. `PrefixFree` says that of a way of writing, for the values of some
domain and up to a view of them: a piece is then told apart from what follows it, whatever that is.
Pieces in a row are read back too if what follows the last one does not begin like a piece.
-/

namespace ProcessChain.Text

variable {α β σ : Type}

/-- A piece is told apart from what follows it, and shows a view of the value it was written for. -/
def PrefixFree (domain : α → Prop) (write : α → List σ) (view : α → β) : Prop :=
  ∀ ⦃first second : α⦄ ⦃rest other : List σ⦄, domain first → domain second →
    write first ++ rest = write second ++ other → view first = view second ∧ rest = other

namespace PrefixFree

variable {domain : α → Prop} {write : α → List σ} {view : α → β}

theorem of_read (read : List σ → Option (β × List σ))
    (reads : ∀ value rest, read (write value ++ rest) = some (view value, rest)) :
    PrefixFree domain write view := by
  intro first second rest other _ _ same
  have found := congrArg read same
  rw [reads, reads] at found
  simpa using found

/-- A piece of one symbol is told apart from what follows it. -/
theorem singleton {write : α → σ}
    (shows : ∀ first second, write first = write second → view first = view second) :
    PrefixFree domain (fun value => [write value]) view := by
  intro first second rest other _ _ same
  rw [List.singleton_append, List.singleton_append, List.cons.injEq] at same
  exact ⟨shows first second same.1, same.2⟩

/-- Pieces in a row are told apart from what follows them, if that does not begin like a piece. -/
theorem flatMap (free : PrefixFree domain write view) (Ends : List σ → Prop)
    (goesOn : ∀ value rest, domain value → ¬ Ends (write value ++ rest)) {first second : List α}
    {rest other : List σ} (within : ∀ value ∈ first, domain value)
    (otherWithin : ∀ value ∈ second, domain value) (ends : Ends rest) (otherEnds : Ends other)
    (same : first.flatMap write ++ rest = second.flatMap write ++ other) :
    first.map view = second.map view ∧ rest = other := by
  induction first generalizing second with
  | nil =>
      cases second with
      | nil => exact ⟨rfl, same⟩
      | cons value others =>
          simp only [List.flatMap_nil, List.nil_append, List.flatMap_cons,
            List.append_assoc] at same
          exact absurd (same ▸ ends) (goesOn value _ (otherWithin value List.mem_cons_self))
  | cons value others ih =>
      cases second with
      | nil =>
          simp only [List.flatMap_nil, List.nil_append, List.flatMap_cons,
            List.append_assoc] at same
          exact absurd (same ▸ otherEnds) (goesOn value _ (within value List.mem_cons_self))
      | cons value' others' =>
          simp only [List.flatMap_cons, List.append_assoc] at same
          rcases free (within value List.mem_cons_self) (otherWithin value' List.mem_cons_self) same
            with ⟨views, left⟩
          rcases ih (fun later listed => within later (List.mem_cons_of_mem _ listed))
            (fun later listed => otherWithin later (List.mem_cons_of_mem _ listed)) left with
            ⟨otherViews, rests⟩
          exact ⟨by simp [views, otherViews], rests⟩

theorem flatMap_all (free : PrefixFree (fun _ => True) write view) (Ends : List σ → Prop)
    (goesOn : ∀ value rest, ¬ Ends (write value ++ rest)) {first second : List α}
    {rest other : List σ} (ends : Ends rest) (otherEnds : Ends other)
    (same : first.flatMap write ++ rest = second.flatMap write ++ other) :
    first.map view = second.map view ∧ rest = other :=
  free.flatMap Ends (fun value rest _ => goesOn value rest) (fun _ _ => trivial)
    (fun _ _ => trivial) ends otherEnds same

end PrefixFree

/-- A run of characters of some kind is told apart from what follows it, if that does not go on with
a character of the kind. -/
theorem run_unique {kind : Char → Bool} {first second rest other : List Char}
    (within : ∀ character ∈ first, kind character)
    (otherWithin : ∀ character ∈ second, kind character)
    (ends : ∀ character ∈ rest.head?, ¬ kind character)
    (otherEnds : ∀ character ∈ other.head?, ¬ kind character)
    (same : first ++ rest = second ++ other) : first = second ∧ rest = other := by
  have characters : PrefixFree (fun character => kind character = true)
      (fun character => [character]) id := .singleton fun _ _ same => same
  have goesOn (character : Char) (after : List Char) (isKind : kind character = true) :
      ¬ ∀ next ∈ ([character] ++ after).head?, ¬ kind next :=
    fun none => none character rfl isKind
  rw [← List.flatMap_singleton' first, ← List.flatMap_singleton' second] at same
  simpa using characters.flatMap (fun rest => ∀ character ∈ rest.head?, ¬ kind character) goesOn
    within otherWithin ends otherEnds same

end ProcessChain.Text
