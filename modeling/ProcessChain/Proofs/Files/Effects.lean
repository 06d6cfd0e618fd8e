import ProcessChain.Proofs.Files.Actions
import ProcessChain.Proofs.Files.Steps
import ProcessChain.Proofs.Files.View

/-!
# Making folders and writing drawings

To make a folder changes nothing but that there are folders where there was nothing, at locations
that the path of the folder or the paths around it lead to (`Entry.MakesFolders`). To write drawings
into a folder changes nothing but the files of their names in this folder, and each of these holds
the last drawing of its name (`Receives`). Both are shown for one step first, and for many by
induction on the list of steps: a tree only grows on the way, so what was reached in it before is
reached afterwards.
-/

namespace ProcessChain.Files

namespace Entry

/-- Steps lead to a folder. -/
structure Enters (tree : Entry) (steps : List Step) (location : Location) : Prop where
  led : tree.follow steps = .ok location
  isFolder : tree.at? location = some .folder

/-- A tree becomes another one by making folders where some steps lead. -/
def MakesFolders (ways : List (List Step)) (before after : Entry) : Prop :=
  ∀ location, after.at? location = before.at? location ∨
    before.at? location = none ∧ ∃ way ∈ ways, after.Enters way location

variable {tree before middle after : Entry} {steps : List Step} {next : Step}
  {ways more : List (List Step)} {location reached : Location}

theorem Grows.enters (grows : before.Grows after) (enters : before.Enters steps location) :
    after.Enters steps location :=
  ⟨grows.follow enters.led, grows location enters.isFolder⟩

theorem Enters.moves {path : Path} (enters : tree.Enters path.steps location) :
    tree.Enters path.moves location :=
  ⟨follow_filter_ne_stay enters.led, enters.isFolder⟩

/-- On the way to a folder, each step starts in a folder. -/
theorem Enters.of_take {count : Nat} (enters : tree.Enters steps location) :
    ∃ passed, tree.Enters (steps.take count) passed := by
  by_cases whole : steps.length ≤ count
  · exact ⟨location, by rwa [List.take_of_length_le whole]⟩
  · have inside : count < steps.length := by omega
    have cut : steps = steps.take count ++ steps[count] :: steps.drop (count + 1) := by
      rw [List.getElem_cons_drop, List.take_append_drop]
    have led := enters.led
    rw [cut] at led
    rcases follow_of_append led with ⟨passed, ledFirst, isFolder⟩
    exact ⟨passed, ledFirst, isFolder⟩

namespace MakesFolders

theorem refl (ways : List (List Step)) (tree : Entry) : MakesFolders ways tree tree :=
  fun _ => .inl rfl

theorem grows (makes : MakesFolders ways before after) : before.Grows after := by
  intro location isFolder
  rcases makes location with same | ⟨absent, _⟩
  · rw [same, isFolder]
  · rw [isFolder] at absent
    cases absent

theorem mono (makes : MakesFolders ways before after) (subset : ways ⊆ more) :
    MakesFolders more before after := by
  intro location
  apply (makes location).imp_right
  rintro ⟨absent, way, listed, enters⟩
  exact ⟨absent, way, subset listed, enters⟩

theorem trans (first : MakesFolders ways before middle) (second : MakesFolders ways middle after) :
    MakesFolders ways before after := by
  intro location
  rcases second location with same | ⟨absent, made⟩
  · rcases first location with earlier | ⟨absent, way, listed, enters⟩
    · exact .inl (same.trans earlier)
    · exact .inr ⟨absent, way, listed, second.grows.enters enters⟩
  · rcases first location with earlier | ⟨_, _, _, enters⟩
    · exact .inr ⟨earlier ▸ absent, made⟩
    · rw [enters.isFolder] at absent
      cases absent

end MakesFolders

/-! ## Folders -/

/-- A step that leads to nothing leads into an existing folder. -/
theorem around_of_leads (isFolder : tree.at? location = some .folder)
    (leads : next.Leads location reached) (absent : tree.at? reached = none) :
    reached ≠ [] ∧ tree.at? reached.dropLast = some .folder := by
  constructor
  · rintro rfl
    simp [at?] at absent
  · cases next with
    | down name =>
        rcases leads with ⟨_, rfl⟩
        rwa [List.dropLast_concat]
    | stay =>
        have same : reached = location := leads
        rw [same, isFolder] at absent
        cases absent
    | up =>
        rcases leads with ⟨inside, rfl⟩
        have present : tree.at? location ≠ none := by simp [isFolder]
        rw [at?_dropLast present inside] at absent
        cases absent

theorem makeFolder_eq_ok_iff :
    tree.makeFolder steps = .ok after ↔
      steps ≠ [] ∧ ∃ location, tree.follow steps = .ok location ∧ tree.find? location = none ∧
        after = tree.put emptyFolder location := by
  rcases List.eq_nil_or_concat' steps with rfl | ⟨first, last, rfl⟩
  · simp [makeFolder]
  · unfold makeFolder
    rw [List.getLast?_concat, List.dropLast_concat]
    simp only [bind_eq_ok_iff, follow_concat_eq_ok_iff, step_eq_ok_iff]
    constructor
    · rintro ⟨parent, led, location, stepped, made⟩
      refine ⟨List.concat_ne_nil _ _, location, ⟨parent, led, stepped⟩, ?_⟩
      cases there : tree.find? location with
      | some entry => simp [there] at made
      | none => simpa [there, eq_comm] using made
    · rintro ⟨_, location, ⟨parent, led, stepped⟩, there, rfl⟩
      exact ⟨parent, led, location, stepped, by simp [there]⟩

theorem makesFolders_of_makeFolder (made : tree.makeFolder steps = .ok after) :
    MakesFolders [steps] tree after := by
  rcases makeFolder_eq_ok_iff.1 made with ⟨inside, location, led, there, rfl⟩
  rcases List.eq_nil_or_concat' steps with rfl | ⟨first, last, rfl⟩
  · exact absurd rfl inside
  · rcases follow_concat_eq_ok_iff.1 led with ⟨parent, _, isFolder, leads⟩
    have absent : tree.at? location = none := by simp [at?, there]
    rcases around_of_leads isFolder leads absent with ⟨nonempty, around⟩
    have vacant : tree.at? location ≠ some .folder := by simp [absent]
    have view := at?_put isBare_emptyFolder nonempty around vacant
    have grows := grows_put isBare_emptyFolder nonempty around vacant
    intro other
    rw [view]
    split
    · next same =>
        subst same
        refine .inr ⟨absent, _, List.mem_singleton_self _, grows.follow led, ?_⟩
        rw [view, if_pos rfl]
        rfl
    · exact .inl rfl

theorem any_isFolder_iff :
    (tree.find? location).any isFolder = true ↔ tree.at? location = some .folder := by
  unfold at?
  cases tree.find? location with
  | none => simp
  | some entry => cases entry <;> simp [isFolder, kind]

theorem leadsToFolder_iff :
    tree.leadsToFolder steps = true ↔ ∃ location, tree.Enters steps location := by
  unfold leadsToFolder
  cases led : tree.follow steps with
  | error fault =>
      apply iff_of_false Bool.false_ne_true
      rintro ⟨location, enters⟩
      simp [enters.led] at led
  | ok location =>
      rw [any_isFolder_iff]
      constructor
      · exact fun isFolder => ⟨location, led, isFolder⟩
      · rintro ⟨other, enters⟩
        cases Except.ok.inj (led.symm.trans enters.led)
        exact enters.isFolder

/-- A folder is made only where there is nothing, so it is there already or it is made. -/
theorem ensureFolder_eq_ok_iff :
    tree.ensureFolder steps = .ok after ↔
      tree.makeFolder steps = .ok after ∨
        after = tree ∧ ∃ location, tree.Enters steps location := by
  have apart {location : Location} (enters : tree.Enters steps location) (made : Entry) :
      tree.makeFolder steps ≠ .ok made := by
    intro makes
    rcases makeFolder_eq_ok_iff.1 makes with ⟨_, other, led, there, _⟩
    cases Except.ok.inj (enters.led.symm.trans led)
    have isFolder := enters.isFolder
    simp [at?, there] at isFolder
  unfold ensureFolder
  cases made : tree.makeFolder steps with
  | ok updated =>
      apply (or_iff_left ?_).symm
      rintro ⟨_, location, enters⟩
      exact apart enters updated made
  | error fault =>
      simp only [reduceCtorEq, false_or, ← leadsToFolder_iff]
      cases tree.leadsToFolder steps <;> simp [eq_comm]

theorem makesFolders_of_ensureFolder (ensured : tree.ensureFolder steps = .ok after) :
    MakesFolders [steps] tree after := by
  rcases ensureFolder_eq_ok_iff.1 ensured with made | ⟨rfl, _⟩
  · exact makesFolders_of_makeFolder made
  · exact .refl _ _

end Entry

open Entry

namespace Action

variable {tree after : Entry} {ways : List (List Step)} {path : Path}

theorem makesFolders_of_makeFolderIn (made : makeFolderIn ways tree = .ok () after) :
    MakesFolders ways tree after := by
  induction ways generalizing after with
  | nil =>
      cases made
      exact .refl _ _
  | cons steps outer ih =>
      have first : [steps] ⊆ steps :: outer := by simp
      unfold makeFolderIn at made
      split at made
      · next ensured =>
          cases made
          exact (makesFolders_of_ensureFolder ensured).mono first
      · rcases bind_eq_ok_iff.1 made with ⟨_, middle, madeOuter, madeLast⟩
        have ensured := change_eq_ok_iff.1 madeLast
        have around := (ih madeOuter).mono (List.subset_cons_self steps outer)
        exact around.trans ((makesFolders_of_ensureFolder ensured).mono first)
      · cases made

theorem makesFolders_of_makeFolder (made : makeFolder path tree = .ok () after) :
    MakesFolders (path.steps :: path.ancestors) tree after := by
  unfold makeFolder at made
  split at made
  · cases made
    exact .refl _ _
  · rcases bind_eq_ok_iff.1 made with ⟨_, _, checked, madeIn⟩
    rcases look_eq_ok_iff.1 checked with ⟨_, rfl⟩
    exact makesFolders_of_makeFolderIn madeIn

end Action

/-! ## Drawings -/

/-- Drawings are written into the folder at a path. -/
structure Receives (output : Path) (home : Location) (drawings : List Drawing)
    (before after : Entry) : Prop where
  grows : before.Grows after
  reached : ∀ drawing ∈ drawings, (output.join drawing.fileName).check = .ok () ∧
    after.follow (output.join drawing.fileName).fullSteps = .ok (home ++ [drawing.fileName])
  holds : ∀ earlier last later, drawings = earlier ++ last :: later →
    (∀ other ∈ later, other.fileName ≠ last.fileName) →
      after.at? (home ++ [last.fileName]) = some (.file last.contents.toUTF8)
  frame : ∀ location, (∀ drawing ∈ drawings, location ≠ home ++ [drawing.fileName]) →
    after.at? location = before.at? location

variable {output path : Path} {home : Location} {drawing : Drawing} {drawings : List Drawing}
  {tree before middle after : Entry} {paths : List Path}

namespace Receives

theorem nil (output : Path) (home : Location) (tree : Entry) :
    Receives output home [] tree tree where
  grows := .refl tree
  reached := by simp
  holds := by simp
  frame := fun _ _ => rfl

theorem cons (first : Receives output home [drawing] before middle)
    (rest : Receives output home drawings middle after) :
    Receives output home (drawing :: drawings) before after where
  grows := first.grows.trans rest.grows
  reached := by
    intro other listed
    rcases List.mem_cons.1 listed with rfl | later
    · rcases first.reached other List.mem_cons_self with ⟨checked, led⟩
      exact ⟨checked, rest.grows.follow led⟩
    · exact rest.reached other later
  holds := by
    intro earlier last later split unlike
    cases earlier with
    | nil =>
        cases split
        rw [rest.frame]
        · exact first.holds [] drawing [] rfl (by simp)
        · intro other listed same
          exact unlike other listed (by simpa using same.symm)
    | cons _ earlier =>
        cases split
        exact rest.holds earlier last later rfl unlike
  frame := by
    intro location elsewhere
    rcases List.forall_mem_cons.1 elsewhere with ⟨notFirst, notRest⟩
    rw [rest.frame location notRest]
    exact first.frame location (by simpa using notFirst)

end Receives

theorem receives_of_write (proper : FileName.IsProper drawing.fileName)
    (written : drawing.write output tree = .ok path after) :
    path = output.join drawing.fileName ∧
      ∃ home, tree.Enters output.steps home ∧ Receives output home [drawing] tree after := by
  rcases Action.bind_eq_ok_iff.1 written with ⟨_, _, changed, returned⟩
  rcases Action.pure_eq_ok_iff.1 returned with ⟨named, same⟩
  rw [same] at changed
  refine ⟨named.symm, ?_⟩
  have updated := Action.change_eq_ok_iff.1 changed
  rcases Path.write_eq_ok_iff.1 updated with ⟨checked, location, led, vacant, rfl⟩
  have ledDown := led
  rw [Path.fullSteps_join proper] at ledDown
  rcases follow_concat_down ledDown with ⟨home, ledHome, isFolder, rfl⟩
  have bare := isBare_file drawing.contents.toUTF8
  have nonempty : home ++ [drawing.fileName] ≠ [] := List.concat_ne_nil _ _
  have around : tree.at? (home ++ [drawing.fileName]).dropLast = some .folder := by
    rwa [List.dropLast_concat]
  have view := at?_put bare nonempty around vacant
  have grows := grows_put bare nonempty around vacant
  refine ⟨home, ⟨ledHome, isFolder⟩, grows, ?_, ?_, ?_⟩
  · intro other listed
    rw [List.mem_singleton.1 listed]
    exact ⟨checked, grows.follow led⟩
  · intro earlier last later split _
    have same : last = drawing := by
      have listed : last ∈ [drawing] := by simp [split]
      exact List.mem_singleton.1 listed
    rw [same, view, if_pos rfl]
    rfl
  · intro other elsewhere
    rw [view, if_neg (elsewhere drawing List.mem_cons_self)]

theorem enters_of_writes (proper : ∀ drawing ∈ drawings, FileName.IsProper drawing.fileName)
    (nonempty : drawings ≠ []) (written : drawings.mapM (·.write output) tree = .ok paths after) :
    ∃ home, tree.Enters output.steps home := by
  rcases List.exists_cons_of_ne_nil nonempty with ⟨drawing, rest, rfl⟩
  rw [List.mapM_cons] at written
  rcases Action.bind_eq_ok_iff.1 written with ⟨path, _, writtenFirst, _⟩
  have firstProper := proper drawing List.mem_cons_self
  rcases receives_of_write firstProper writtenFirst with ⟨_, home, enters, _⟩
  exact ⟨home, enters⟩

theorem receives_of_writes (proper : ∀ drawing ∈ drawings, FileName.IsProper drawing.fileName)
    (enters : tree.Enters output.steps home)
    (written : drawings.mapM (·.write output) tree = .ok paths after) :
    paths = drawings.map (fun drawing => output.join drawing.fileName) ∧
      Receives output home drawings tree after := by
  induction drawings generalizing tree paths with
  | nil =>
      cases written
      exact ⟨rfl, .nil _ _ _⟩
  | cons drawing rest ih =>
      rcases List.forall_mem_cons.1 proper with ⟨firstProper, restProper⟩
      rw [List.mapM_cons] at written
      rcases Action.bind_eq_ok_iff.1 written with ⟨path, middle, writtenFirst, written⟩
      rcases Action.bind_eq_ok_iff.1 written with ⟨others, _, writtenRest, returned⟩
      rcases Action.pure_eq_ok_iff.1 returned with ⟨rfl, rfl⟩
      rcases receives_of_write firstProper writtenFirst with ⟨rfl, found, entersFound, first⟩
      cases Except.ok.inj (enters.led.symm.trans entersFound.led)
      rcases ih restProper (first.grows.enters enters) writtenRest with ⟨rfl, ofRest⟩
      exact ⟨rfl, first.cons ofRest⟩

end ProcessChain.Files
