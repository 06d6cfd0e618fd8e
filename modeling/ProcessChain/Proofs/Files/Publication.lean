import ProcessChain.Proofs.Files.Effects
import ProcessChain.Proofs.Files.FlowNames
import ProcessChain.Proofs.Run.FileNames

/-!
# The publication of drawings

A file that can be read has a name, and no slash stands in the names that lead to it, so none stands
in the name of its flow, whatever its path looks like. The file name of a drawing is therefore a
proper name: joined to the path of the output folder it leads to an entry of this folder and nowhere
else. A run that succeeds leaves its drawings there, made from what the files were before, and
changes nothing else but that the output folder and the folders around it exist
(`Settings.published_of_run`).
-/

namespace ProcessChain

open Files

/-! ## Names without slashes -/

theorem Format.isProper_fileName (format : Format) {name : String} (slashless : '/' ∉ name.toList) :
    FileName.IsProper (format.fileName name) := by
  have spelled : (format.fileName name).toList =
      name.toList ++ '.' :: format.extension.toList := by
    simp [Format.fileName]
  have extension : '/' ∉ format.extension.toList ∧ 2 ≤ format.extension.toList.length := by
    cases format <;> decide
  have long : 2 < (format.fileName name).toList.length := by
    rw [spelled, List.length_append, List.length_cons]
    omega
  constructor
  · simp [spelled, slashless, extension.1]
  · apply Step.ofPart?_eq_down_iff.2
    refine ⟨rfl, ?_, ?_, ?_⟩ <;> intro same <;> simp [same] at long

namespace Files

theorem notMem_intercalate {label : List String} (slashless : ∀ name ∈ label, '/' ∉ name.toList) :
    '/' ∉ (".".intercalate label).toList := by
  induction label with
  | nil => simp
  | cons name rest ih =>
      rcases List.forall_mem_cons.1 slashless with ⟨first, others⟩
      by_cases last : rest = []
      · simpa [last] using first
      · have later := ih others
        rw [toList_intercalate_cons last, List.mem_append, List.mem_cons]
        rintro (inFirst | same | inRest)
        · exact first inFirst
        · cases same
        · exact later inRest

/-- A path that leads to a file ends with a name. -/
theorem Path.exists_fileName?_of_find {path : Path} {tree : Entry} {contents : ByteArray}
    (found : path.find tree = .ok (.file contents)) : ∃ name, path.fileName? = some name := by
  rcases find_eq_ok_iff.1 found with ⟨checked, location, led, there⟩
  have isFile := Entry.at?_eq_file_iff.2 there
  rcases usable_of_check checked with ⟨here, nonempty⟩
  have moves : path.fullSteps ≠ [] := by
    unfold fullSteps
    split
    · exact List.concat_ne_nil _ _
    · exact steps_ne_nil nonempty here
  rcases Entry.exists_down_of_follow led (by simp [isFile]) (by simp [isFile]) moves with
    ⟨first, name, spelled⟩
  unfold fullSteps at spelled
  split at spelled
  · cases (List.append_inj' spelled rfl).2
  · exact ⟨name, fileName?_of_steps spelled⟩

namespace SourceFile

/-- A file has a name, and no slash stands in the names that lead to it. -/
structure IsNamed (file : SourceFile) : Prop where
  fileName : ∃ name, file.path.fileName? = some name
  route : ∀ name ∈ file.route, '/' ∉ name.toList

variable {file : SourceFile} {files : List SourceFile} {folder path : Path} {tree : Entry}
  {text : String}

theorem IsBelow.isNamed (below : file.IsBelow folder) : file.IsNamed where
  fileName := ⟨_, below.fileName?_eq⟩
  route := fun name listed => (below.proper name listed).slashless

theorem isNamed_ofPath (readable : path.readText tree = .ok text) : (ofPath path).IsNamed where
  fileName := Path.exists_fileName?_of_find (Path.readText_eq_ok_iff.1 readable)
  route := fun _ listed => (Path.isProper_of_mem_names listed).slashless

theorem notMem_stem {name : String} (slashless : '/' ∉ name.toList) :
    '/' ∉ (FileName.stem name).toList := by
  intro inside
  have begins := FileName.split_prefix name.toList
  exact slashless (begins.subset (by simpa [FileName.stem] using inside))

theorem IsNamed.notMem_flowName (named : file.IsNamed) :
    '/' ∉ (file.flowName files).toList := by
  unfold flowName
  split
  · unfold qualifiedName
    apply notMem_intercalate
    intro name listed
    rcases List.mem_append.1 listed with before | isStem
    · exact named.route name (List.dropLast_subset _ before)
    · have spelled := Option.mem_toList.1 isStem
      rcases Option.bind_eq_some_iff.1 spelled with ⟨step, isStep, isName⟩
      rcases Option.bind_eq_some_iff.1 isStep with ⟨part, isPart, parsed⟩
      rcases Option.map_eq_some_iff.1 isPart with ⟨last, isLast, rfl⟩
      cases step with
      | down goal =>
          cases isName
          rw [← (Step.ofPart?_eq_down_iff.1 parsed).1]
          exact notMem_stem (named.route last (List.mem_of_getLast? isLast))
      | stay => cases isName
      | up => cases isName
  · rcases named.fileName with ⟨name, isName⟩
    unfold stem
    rw [isName]
    exact notMem_stem (Path.isProper_of_fileName? isName).slashless

end SourceFile

end Files

/-! ## Drawings in a folder -/

/-- Drawings are published in the folder at a path, which is made if it is missing. -/
structure Published (output : Path) (drawings : List Drawing) (paths : List Path)
    (before after : Entry) : Prop where
  paths_eq : paths = drawings.map fun drawing => output.join drawing.fileName
  /-- Each path leads into the output folder. -/
  directly : ∃ home, after.Enters output.steps home ∧
    ∀ path ∈ paths, ∃ name, FileName.IsProper name ∧ path = output.join name ∧
      after.follow path.fullSteps = .ok (home ++ [name])
  around : ∀ way ∈ output.ancestors, ∃ location, after.Enters way location
  /-- At each path is the last drawing for this path. -/
  contents : ∀ path ∈ paths, ∃ earlier last later, drawings = earlier ++ last :: later ∧
    path = output.join last.fileName ∧
    (∀ other ∈ later, output.join other.fileName ≠ path) ∧
    path.find after = .ok (.file last.contents.toUTF8)
  frame : ∀ location, (∀ path ∈ paths, after.follow path.fullSteps ≠ .ok location) →
    after.at? location = before.at? location ∨
      before.at? location = none ∧
        ∃ way ∈ output.steps :: output.ancestors, after.Enters way location

variable {output : Path} {drawings : List Drawing} {paths : List Path} {tree after : Entry}

theorem exists_last_of_mem_map {α β : Type} {view : α → β} {members : List α} {value : β}
    (listed : value ∈ members.map view) :
    ∃ earlier last later, members = earlier ++ last :: later ∧ view last = value ∧
      ∀ other ∈ later, view other ≠ value := by
  induction members with
  | nil => simp at listed
  | cons first rest ih =>
      by_cases again : value ∈ rest.map view
      · rcases ih again with ⟨earlier, last, later, rfl, viewed, unlike⟩
        exact ⟨first :: earlier, last, later, rfl, viewed, unlike⟩
      · rcases List.mem_cons.1 listed with isFirst | inRest
        · refine ⟨[], first, rest, rfl, isFirst.symm, ?_⟩
          intro other inRest same
          exact again (List.mem_map.2 ⟨other, inRest, same⟩)
        · exact absurd inRest again

/-- Drawings whose file names are proper are published if nothing fails. -/
theorem published_of_publish (proper : ∀ drawing ∈ drawings, FileName.IsProper drawing.fileName)
    (nonempty : drawings ≠ []) (succeeds : publish output drawings tree = .ok paths after) :
    Published output drawings paths tree after := by
  rcases Action.bind_eq_ok_iff.1 succeeds with ⟨_, prepared, made, written⟩
  have makes := Action.makesFolders_of_makeFolder made
  rcases enters_of_writes proper nonempty written with ⟨home, enters⟩
  rcases receives_of_writes proper enters written with ⟨rfl, receives⟩
  have entersAfter := receives.grows.enters enters
  refine ⟨rfl, ⟨home, entersAfter, ?_⟩, ?_, ?_, ?_⟩
  · intro path listed
    rcases List.mem_map.1 listed with ⟨drawing, member, rfl⟩
    exact ⟨_, proper drawing member, rfl, (receives.reached drawing member).2⟩
  · intro way listed
    rcases List.mem_map.1 listed with ⟨count, _, rfl⟩
    exact entersAfter.moves.of_take
  · intro path listed
    rcases exists_last_of_mem_map listed with ⟨earlier, last, later, split, lastNamed, unlike⟩
    have lastMember : last ∈ drawings := by simp [split]
    rcases receives.reached last lastMember with ⟨checked, led⟩
    have holds := receives.holds earlier last later split fun other inLater same =>
      unlike other inLater (by rw [same]; exact lastNamed)
    rw [lastNamed] at checked led
    refine ⟨earlier, last, later, split, lastNamed.symm, unlike, ?_⟩
    exact Path.find_eq_ok_iff.2 ⟨checked, _, led, Entry.at?_eq_file_iff.1 holds⟩
  · intro location elsewhere
    have same : after.at? location = prepared.at? location := by
      apply receives.frame
      rintro drawing member rfl
      exact elsewhere _ (List.mem_map.2 ⟨drawing, member, rfl⟩) (receives.reached drawing member).2
    rw [same]
    apply (makes location).imp_right
    rintro ⟨absent, way, listed, entersWay⟩
    exact ⟨absent, way, listed, receives.grows.enters entersWay⟩

namespace Settings

variable {settings : Settings} {request : Request} {files : List SourceFile}
  {sources : List (String × String)}

/-- The files that are read have names. -/
theorem isNamed_of_read (wellFormed : tree.WellFormed)
    (found : settings.filesOf tree request = .ok files) (read : ReadAs tree files sources) :
    ∀ file ∈ files, file.IsNamed := by
  intro file listed
  cases request with
  | files paths =>
      cases found
      rcases exists_of_forall₂ read.flip listed with ⟨source, _, _, readable⟩
      rcases List.mem_map.1 listed with ⟨path, _, rfl⟩
      exact SourceFile.isNamed_ofPath readable
  | folder input => exact ((sourcesIn_found wellFormed found).2 file listed).isNamed

theorem isProper_fileName_of_drawsFrom (wellFormed : tree.WellFormed)
    (drawn : settings.DrawsFrom tree request drawings) :
    ∀ drawing ∈ drawings, FileName.IsProper drawing.fileName := by
  rcases drawn with ⟨files, sources, found, read, drawn⟩
  have named := isNamed_of_read wellFormed found read
  intro drawing member
  have listed : drawing.fileName ∈ drawings.map Drawing.fileName := List.mem_map.2 ⟨_, member, rfl⟩
  rw [fileNames_eq drawn, read.map_fst] at listed
  rcases List.mem_map.1 listed with ⟨name, isName, spelled⟩
  rw [← spelled]
  apply settings.format.isProper_fileName
  rcases List.mem_append.1 isName with ofFile | ofOverview
  · rcases List.mem_map.1 ofFile with ⟨file, fileListed, rfl⟩
    exact (named file fileListed).notMem_flowName
  · rw [List.mem_singleton.1 ofOverview]
    decide

/-- A run that succeeds publishes what is drawn from the files as they were before it. -/
theorem published_of_run (wellFormed : tree.WellFormed)
    (succeeds : settings.run output request tree = .ok paths after) :
    ∃ drawings, settings.DrawsFrom tree request drawings ∧
      Published output drawings paths tree after := by
  rcases run_eq_ok_iff.1 succeeds with ⟨drawings, drawn, published⟩
  refine ⟨drawings, drawn, ?_⟩
  have nonempty : drawings ≠ [] := by
    rcases drawn with ⟨_, _, _, _, drawn⟩
    rcases draw_eq_ok_iff.1 drawn with ⟨_, _, _, _, rfl⟩
    simp
  exact published_of_publish (isProper_fileName_of_drawsFrom wellFormed drawn) nonempty published

def detour : Entry :=
  .folder [("x", .folder []), ("a.py", .file "# act: order".toUTF8)]

theorem published_detour :
    ∃ paths after drawings, detour.WellFormed ∧
      run {} ⟨"out/new"⟩ (.files [⟨"x/../a.py"⟩]) detour = .ok paths after ∧
      DrawsFrom {} detour (.files [⟨"x/../a.py"⟩]) drawings ∧
      Published ⟨"out/new"⟩ drawings paths detour after := by
  have proper : ∀ name ∈ ["x", "a.py"], FileName.IsProper name := by decide +kernel
  have wellFormed : detour.WellFormed := by
    simp [detour, Entry.wellFormed_folder_iff, Entry.wellFormed_file, proper]
  have succeeds : (match run {} ⟨"out/new"⟩ (.files [⟨"x/../a.py"⟩]) detour with
      | .ok _ _ => true
      | .error _ _ => false) = true := by
    decide +kernel
  cases outcome : run {} ⟨"out/new"⟩ (.files [⟨"x/../a.py"⟩]) detour with
  | error fault after => simp [outcome] at succeeds
  | ok paths after =>
      rcases published_of_run wellFormed outcome with ⟨drawings, drawn, published⟩
      exact ⟨paths, after, drawings, wellFormed, rfl, drawn, published⟩

end Settings

end ProcessChain
