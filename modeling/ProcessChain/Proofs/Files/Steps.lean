import ProcessChain.Files.Sources
import ProcessChain.Proofs.Text.Trimming

/-!
# The steps of a path

The parts of a path stand between its slashes, so the steps of two texts with a slash between them
are those of the first and then those of the second. A proper name is a part that is a step down:
joined to a path it adds this step (`Path.steps_join`), and the path of what is below a folder has
one more step for each name that leads to it. All names that a path goes through are proper.
-/

namespace ProcessChain.Files

namespace Step

variable {part name : String}

theorem ofPart?_eq_down_iff :
    ofPart? part = some (.down name) ↔ part = name ∧ name ≠ "" ∧ name ≠ "." ∧ name ≠ ".." := by
  constructor
  · intro goesDown
    unfold ofPart? at goesDown
    split at goesDown
    · cases goesDown
    · cases goesDown
    · cases goesDown
    · next notEmpty notStay notUp =>
        cases goesDown
        exact ⟨rfl, notEmpty, notStay, notUp⟩
  · rintro ⟨rfl, notEmpty, notStay, notUp⟩
    unfold ofPart?
    split
    · exact absurd rfl notEmpty
    · exact absurd rfl notStay
    · exact absurd rfl notUp
    · rfl

theorem ofPart?_eq_none_iff : ofPart? part = none ↔ part = "" := by
  constructor
  · intro none
    unfold ofPart? at none
    split at none
    · rfl
    · cases none
    · cases none
    · cases none
  · rintro rfl
    rfl

end Step

namespace FileName

/-- A name that an entry of a folder can have: a part of a path that is a step down. -/
structure IsProper (name : String) : Prop where
  slashless : '/' ∉ name.toList
  goesDown : Step.ofPart? name = some (.down name)

variable {name : String}

instance : Decidable (IsProper name) :=
  decidable_of_iff ('/' ∉ name.toList ∧ Step.ofPart? name = some (.down name))
    ⟨fun ⟨slashless, goesDown⟩ => ⟨slashless, goesDown⟩,
      fun ⟨slashless, goesDown⟩ => ⟨slashless, goesDown⟩⟩

theorem IsProper.ne_empty (proper : IsProper name) : name ≠ "" :=
  (Step.ofPart?_eq_down_iff.1 proper.goesDown).2.1

theorem IsProper.toList_ne_nil (proper : IsProper name) : name.toList ≠ [] := by
  simpa using proper.ne_empty

theorem IsProper.not_isAbsolute (proper : IsProper name) : Path.isAbsolute ⟨name⟩ = false := by
  apply decide_eq_false
  intro first
  exact proper.slashless (List.mem_of_head? first)

end FileName

namespace Path

/-- The steps between the slashes of a text. -/
def stepsOf (text : List Char) : List Step :=
  (text.splitOn '/').filterMap fun part => Step.ofPart? (String.ofList part)

theorem steps_eq (path : Path) : path.steps = stepsOf path.text.toList := by
  simp only [steps, parts, stepsOf, List.filterMap_map, Function.comp_def]

theorem stepsOf_append (first rest : List Char) :
    stepsOf (first ++ '/' :: rest) = stepsOf first ++ stepsOf rest := by
  unfold stepsOf
  rw [List.splitOn_append_cons_self, List.filterMap_append]

@[simp]
theorem stepsOf_nil : stepsOf [] = [] := by
  simp [stepsOf, Step.ofPart?]

theorem stepsOf_name {name : String} (proper : FileName.IsProper name) :
    stepsOf name.toList = [.down name] := by
  unfold stepsOf
  rw [List.splitOn_eq_singleton proper.slashless]
  simp [proper.goesDown]

variable {path folder : Path} {name : String} {location : Location}

/-- A path that starts in the working folder and is not empty has a step. -/
theorem steps_ne_nil (nonempty : path.text ≠ "") (here : path.isAbsolute = false) :
    path.steps ≠ [] := by
  have spelled : path.text.toList ≠ [] := by simpa using nonempty
  rcases List.exists_cons_of_ne_nil spelled with ⟨first, rest, spelled⟩
  have notSlash : first ≠ '/' := by simpa [isAbsolute, spelled] using here
  rcases split : rest.splitOn '/' with _ | ⟨part, others⟩
  · exact absurd split (List.splitOn_ne_nil _ _)
  · have parts : (first :: rest).splitOn '/' = (first :: part) :: others := by
      rw [List.splitOn_cons_eq_if_modifyHead, if_neg (by simpa using notSlash), split]
      rfl
    have filled : String.ofList (first :: part) ≠ "" := by simp
    rw [steps_eq, spelled, stepsOf, parts]
    cases step : Step.ofPart? (String.ofList (first :: part)) with
    | none => exact absurd (Step.ofPart?_eq_none_iff.1 step) filled
    | some next =>
        intro none
        have skipped := List.filterMap_eq_nil_iff.1 none (first :: part) List.mem_cons_self
        rw [step] at skipped
        cases skipped

theorem isProper_of_mem_steps (passed : .down name ∈ path.steps) : FileName.IsProper name := by
  rcases List.mem_filterMap.1 passed with ⟨part, listed, goesDown⟩
  have same := (Step.ofPart?_eq_down_iff.1 goesDown).1
  subst same
  rcases List.mem_map.1 listed with ⟨characters, split, rfl⟩
  refine ⟨?_, goesDown⟩
  rw [String.toList_ofList]
  exact Text.notMem_of_mem_splitOn split

theorem isProper_of_mem_names (listed : name ∈ path.names) : FileName.IsProper name := by
  rcases List.mem_filterMap.1 listed with ⟨step, passed, named⟩
  cases step with
  | down other =>
      cases named
      exact isProper_of_mem_steps passed
  | stay => cases named
  | up => cases named

theorem isProper_of_fileName? (named : path.fileName? = some name) : FileName.IsProper name := by
  rcases Option.bind_eq_some_iff.1 named with ⟨step, last, named⟩
  have passed : step ∈ path.steps := (List.mem_filter.1 (List.mem_of_getLast? last)).1
  cases step with
  | down other =>
      cases named
      exact isProper_of_mem_steps passed
  | stay => cases named
  | up => cases named

/-! ## Joining -/

theorem steps_join (proper : FileName.IsProper name) :
    (folder.join name).steps = folder.steps ++ [.down name] := by
  have notElsewhere : ¬ isAbsolute ⟨name⟩ = true := by simp [proper.not_isAbsolute]
  unfold join
  rw [if_neg notElsewhere, steps_eq folder]
  split
  · next noSlashNeeded =>
      rcases noSlashNeeded with empty | ended
      · simp [steps_eq, empty, stepsOf_name proper]
      · -- The slash at the end of the folder's path comes before the name.
        have last : folder.text.toList.getLast? = some '/' := of_decide_eq_true ended
        rcases List.getLast?_eq_some_iff.1 last with ⟨before, spelled⟩
        simp [steps_eq, spelled, stepsOf_append, stepsOf_name proper]
  · simp [steps_eq, stepsOf_append, stepsOf_name proper]

theorem endsInSlash_join (proper : FileName.IsProper name) :
    (folder.join name).endsInSlash = false := by
  rcases List.eq_nil_or_concat name.toList with empty | ⟨before, last, spelled⟩
  · exact absurd empty proper.toList_ne_nil
  · have ended : (folder.join name).text.toList.getLast? = some last := by
      unfold join
      split
      · simp [spelled]
      · split <;> simp [spelled, List.getLast?_cons]
    apply decide_eq_false
    rw [ended, Option.some.injEq]
    rintro rfl
    exact proper.slashless (by simp [spelled])

theorem fullSteps_join (proper : FileName.IsProper name) :
    (folder.join name).fullSteps = folder.steps ++ [.down name] := by
  unfold fullSteps
  rw [endsInSlash_join proper, if_neg Bool.false_ne_true, steps_join proper]

theorem fileName?_of_steps {first : List Step} (spelled : path.steps = first ++ [.down name]) :
    path.fileName? = some name := by
  simp [fileName?, moves, spelled, Step.name?]

/-- The path of an entry below a folder goes down by its names. -/
theorem steps_below (proper : ∀ name ∈ location, FileName.IsProper name) :
    (folder.below location).steps = folder.steps ++ location.map .down := by
  induction location generalizing folder with
  | nil => simp [below]
  | cons name rest ih =>
      have later (start : Path) : (start.below rest).steps = start.steps ++ rest.map .down :=
        ih fun other listed => proper other (List.mem_cons_of_mem _ listed)
      have joined : (folder.join name).steps = folder.steps ++ [.down name] :=
        steps_join (proper name List.mem_cons_self)
      calc (folder.below (name :: rest)).steps
          = ((folder.join name).below rest).steps := rfl
        _ = (folder.steps ++ [.down name]) ++ rest.map .down := by rw [later, joined]
        _ = folder.steps ++ (name :: rest).map .down := by simp

theorem fileName?_below (proper : ∀ name ∈ location, FileName.IsProper name)
    (last : location.getLast? = some name) : (folder.below location).fileName? = some name := by
  rcases List.getLast?_eq_some_iff.1 last with ⟨before, rfl⟩
  apply fileName?_of_steps
  rw [steps_below proper, List.map_append, List.map_singleton, ← List.append_assoc]

end Path

end ProcessChain.Files
