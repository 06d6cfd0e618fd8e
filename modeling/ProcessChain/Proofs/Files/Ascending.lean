import Mathlib.Data.List.Lex
import Mathlib.Data.List.Sort
import ProcessChain.Proofs.Files.Visible

/-!
# The order of sources

Locations are ordered name by name, and paths by their components, each of which is a step. What
comes before a folder's own slash counts before what comes after it, so this is not the order of
spellings: `a/x` comes before `a.x`. Below one folder the order of paths is that of locations, and
the sources in a folder, which are sorted by their locations, are in ascending order of their paths
(`Entry.ascending_below`).

Both orders are strict. So a list in ascending order is known by its members, and searches that find
the same files list them alike (`Entry.sources_eq_of_mem_iff`).
-/

namespace ProcessChain.Files

/-- The order of steps: staying before going up, and this before going down, by name. -/
inductive Step.Before : Step → Step → Prop where
  | stay_up : Before .stay .up
  | stay_down (name : String) : Before .stay (.down name)
  | up_down (name : String) : Before .up (.down name)
  | down {name other : String} (less : name < other) : Before (.down name) (.down other)

instance : Std.Asymm Step.Before where
  asymm := by
    rintro _ _ (_ | _ | _ | less) later
    · cases later
    · cases later
    · cases later
    · cases later with
      | down greater => exact String.lt_asymm less greater

namespace Path

/-- The steps that paths are ordered by. Of those that stay where they are only one at the beginning
counts. -/
def components (path : Path) : List Step :=
  (path.steps.take 1).filter (· = .stay) ++ path.moves

/-- A path comes before another one, component by component. -/
def Precedes (first second : Path) : Prop :=
  List.Lex Step.Before first.components second.components

instance : Std.Asymm Precedes where
  asymm := fun _ _ earlier later => Std.Asymm.asymm (r := List.Lex Step.Before) _ _ earlier later

theorem not_precedes_self (path : Path) : ¬ path.Precedes path :=
  fun before => Std.Asymm.asymm (r := Precedes) _ _ before before

theorem components_below {folder : Path} {location : Location}
    (proper : ∀ name ∈ location, FileName.IsProper name) :
    (folder.below location).components = folder.components ++ location.map .down := by
  have downs : (location.map Step.down).filter (· ≠ .stay) = location.map .down := by
    apply List.filter_eq_self.2
    simp
  unfold components moves
  rw [steps_below proper, List.filter_append, downs]
  cases folder.steps with
  | nil => cases location <;> simp
  | cons first rest => simp

end Path

namespace Location

variable {first second third : Location}

theorem precedes_iff :
    precedes first second = true ↔ first = second ∨ List.Lex (· < ·) first second := by
  induction first generalizing second with
  | nil => cases second <;> simp [precedes]
  | cons name rest ih =>
      cases second with
      | nil => simp [precedes]
      | cons other others =>
          simp only [precedes, Bool.or_eq_true, Bool.and_eq_true, decide_eq_true_eq, ih,
            List.cons_lex_cons_iff, List.cons.injEq]
          tauto

theorem precedes_trans (earlier : precedes first second = true)
    (later : precedes second third = true) : precedes first third = true := by
  rcases precedes_iff.1 earlier with rfl | less
  · exact later
  · rcases precedes_iff.1 later with rfl | lessAgain
    · exact earlier
    · exact precedes_iff.2 (.inr (List.lex_trans String.lt_trans less lessAgain))

theorem precedes_total (first second : Location) :
    (precedes first second || precedes second first) = true := by
  rw [Bool.or_eq_true, precedes_iff, precedes_iff]
  rcases trichotomous_of (List.Lex fun name other : String => name < other) first second with
    less | same | greater
  · exact .inl (.inr less)
  · exact .inl (.inl same)
  · exact .inr (.inr greater)

/-- Below one folder, paths are ordered as locations are. -/
theorem precedes_below (folder : Path) (less : List.Lex (· < ·) first second)
    (firstProper : ∀ name ∈ first, FileName.IsProper name)
    (secondProper : ∀ name ∈ second, FileName.IsProper name) :
    (folder.below first).Precedes (folder.below second) := by
  have steps : List.Lex Step.Before (first.map .down) (second.map .down) := by
    clear firstProper secondProper
    induction less with
    | nil => exact .nil
    | cons _ ih => exact .cons ih
    | rel less => exact .rel (.down less)
  unfold Path.Precedes
  rw [Path.components_below firstProper, Path.components_below secondProper]
  exact steps.append_left Step.Before folder.components

end Location

namespace Entry

variable {tree other : Entry} {extensions : List String}

theorem ascending_sources (wellFormed : tree.WellFormed) :
    (tree.sources extensions).Pairwise (List.Lex (· < ·)) := by
  have sorted : (tree.sources extensions).Pairwise (Location.precedes · ·) := by
    apply List.pairwise_mergeSort
    · exact fun _ _ _ => Location.precedes_trans
    · exact Location.precedes_total
  apply (sorted.and (nodup_sources wellFormed)).imp
  rintro first second ⟨precedes, different⟩
  exact (Location.precedes_iff.1 precedes).resolve_left different

/-- The sources in a folder are in ascending order of their paths. -/
theorem ascending_below (folder : Path) (wellFormed : tree.WellFormed) :
    ((tree.sources extensions).map (SourceFile.below folder)).Pairwise
      fun first second => first.path.Precedes second.path := by
  have proper : ∀ location ∈ tree.sources extensions,
      ∀ name ∈ location, FileName.IsProper name := by
    intro location listed
    have isFile := (mem_sources_iff.1 listed).1
    rcases (mem_visibleFiles_iff wellFormed).1 isFile with ⟨⟨contents, reached⟩, _⟩
    exact wellFormed.proper reached
  apply List.pairwise_map.2
  apply (ascending_sources wellFormed).imp_of_mem
  intro first second firstListed secondListed less
  exact Location.precedes_below folder less (proper first firstListed) (proper second secondListed)

/-- Searches that find the same files list them alike. -/
theorem sources_eq_of_mem_iff (wellFormed : tree.WellFormed) (otherWellFormed : other.WellFormed)
    (same : ∀ location, location ∈ other.sources extensions ↔ location ∈ tree.sources extensions) :
    other.sources extensions = tree.sources extensions :=
  (ascending_sources otherWellFormed).eq_of_mem_iff (ascending_sources wellFormed) same

end Entry

end ProcessChain.Files
