import ProcessChain.Proofs.Files.Overwriting
import ProcessChain.Proofs.Files.Search

/-!
# Runs that are repeated

A run may write its drawings into the folder that it reads, where they may even replace sources. If
none of them is among the sources that are found afterwards, nothing that the run wrote is read when
it is repeated: a file that is found where no drawing was written was there before, and a file that
was there before is found unless a drawing replaced it, which would then be found itself. So the
same files are found in the same order, they have the same texts, and the same drawings are made.
These are published where they are already (`Settings.drawFolder_again`).

Folders that the run made in the folder that it reads have to be entered by the search as well. Only
if the path of one of them is too long for that, the run cannot be repeated.
-/

namespace ProcessChain

open Files

namespace Files

/-- Two paths lead to the same place. -/
def Path.MeetsIn (tree : Entry) (path other : Path) : Prop :=
  ∃ location, tree.follow path.fullSteps = .ok location ∧
    tree.follow other.fullSteps = .ok location

instance (tree : Entry) (path other : Path) : Decidable (path.MeetsIn tree other) :=
  match led : tree.follow path.fullSteps with
  | .ok location => decidable_of_iff (tree.follow other.fullSteps = .ok location) (by
      unfold Path.MeetsIn
      simp [led])
  | .error fault => isFalse (by
      unfold Path.MeetsIn
      simp [led])

variable {tree after found foundAfter : Entry} {input output path : Path}
  {start location : Location} {steps : List Step} {drawings : List Drawing} {paths : List Path}
  {extensions : List String} {files : List SourceFile} {contents : ByteArray}

/-! ## The path of what is below a folder -/

theorem Path.fullSteps_below (proper : ∀ name ∈ location, FileName.IsProper name)
    (nonempty : location ≠ []) :
    (input.below location).fullSteps = input.steps ++ location.map .down := by
  rcases List.eq_nil_or_concat' location with rfl | ⟨around, name, rfl⟩
  · exact absurd rfl nonempty
  · have aroundProper : ∀ name ∈ around, FileName.IsProper name :=
      fun name listed => proper name (List.mem_append_left _ listed)
    have joined : input.below (around ++ [name]) = (input.below around).join name := by
      simp [below]
    rw [joined, fullSteps_join (proper name (by simp)), steps_below aroundProper]
    simp

theorem Entry.follow_steps_of_fullSteps (led : tree.follow path.fullSteps = .ok location) :
    tree.follow path.steps = .ok location := by
  unfold Path.fullSteps at led
  split at led
  · rcases follow_concat_eq_ok_iff.1 led with ⟨_, ledEarlier, _, same⟩
    have stays : location = _ := same
    rwa [stays]
  · exact led

/-- The names of what is there lead to it. -/
theorem Entry.follow_append_downs (led : tree.follow steps = .ok start)
    (short : ∀ name ∈ location, name.utf8ByteSize ≤ nameLimit)
    (there : tree.at? (start ++ location) ≠ none) :
    tree.follow (steps ++ location.map .down) = .ok (start ++ location) := by
  induction location using List.reverseRecOn with
  | nil => simpa using led
  | append_singleton around name ih =>
      rcases List.forall_mem_append.1 short with ⟨aroundShort, last⟩
      rw [← List.append_assoc] at there
      have isFolder : tree.at? (start ++ around) = some .folder :=
        at?_of_append (List.cons_ne_nil name []) there
      have ledAround := ih aroundShort (by simp [isFolder])
      rw [List.map_append, List.map_singleton, ← List.append_assoc, ← List.append_assoc]
      apply follow_concat_eq_ok_iff.2
      exact ⟨_, ledAround, isFolder, last name (by simp), rfl⟩

theorem Entry.follow_below (wellFormed : found.WellFormed) (nonempty : location ≠ [])
    (led : tree.follow input.fullSteps = .ok start) (there : tree.find? start = some found)
    (inside : found.find? location = some (.file contents))
    (short : ∀ name ∈ location, name.utf8ByteSize ≤ nameLimit) :
    tree.follow (input.below location).fullSteps = .ok (start ++ location) := by
  have isFile : tree.at? (start ++ location) = some (.file contents) := by
    rw [at?_eq_file_iff, find?_append, there]
    exact inside
  rw [Path.fullSteps_below (wellFormed.proper inside) nonempty]
  exact follow_append_downs (follow_steps_of_fullSteps led) short (by simp [isFile])

end Files

/-! ## What a run leaves as it was -/

variable {tree after found foundAfter : Entry} {input output path : Path}
  {start location : Location} {drawings : List Drawing} {paths : List Path}
  {extensions : List String} {files : List SourceFile} {contents : ByteArray}

namespace Published

/-- Where no drawing was written, a file is there afterwards if it was there before. -/
theorem find?_eq_file_iff (published : Published output drawings paths tree after)
    (unwritten : ∀ path ∈ paths, after.follow path.fullSteps ≠ .ok location) :
    after.find? location = some (.file contents) ↔
      tree.find? location = some (.file contents) := by
  rw [← Entry.at?_eq_file_iff, ← Entry.at?_eq_file_iff]
  rcases published.frame location unwritten with same | ⟨absent, way, _, enters⟩
  · rw [same]
  · simp [absent, enters.isFolder]

theorem exists_file (published : Published output drawings paths tree after) (listed : path ∈ paths)
    (led : after.follow path.fullSteps = .ok location) :
    ∃ contents, after.find? location = some (.file contents) := by
  rcases published.contents path listed with ⟨_, last, _, _, _, _, there⟩
  rcases Path.find_eq_ok_iff.1 there with ⟨_, reached, ledThere, isFile⟩
  cases Except.ok.inj (led.symm.trans ledThere)
  exact ⟨_, isFile⟩

/-- If no drawing is a source, the sources are those that were there before. -/
theorem isSource_iff (published : Published output drawings paths tree after)
    (wellFormed : foundAfter.WellFormed) (there : tree.find? start = some found)
    (led : after.follow input.fullSteps = .ok start)
    (thereAfter : after.find? start = some foundAfter)
    (apart : ∀ path ∈ paths, ∀ location, foundAfter.IsSource extensions location →
      ¬ path.MeetsIn after (input.below location)) :
    foundAfter.IsSource extensions location ↔ found.IsSource extensions location := by
  have inside : tree.find? (start ++ location) = found.find? location := by
    rw [Entry.find?_append, there]
    rfl
  have insideAfter : after.find? (start ++ location) = foundAfter.find? location := by
    rw [Entry.find?_append, thereAfter]
    rfl
  constructor
  · rintro ⟨⟨contents, isFile⟩, shown, name, last, wanted⟩
    have unwritten : ∀ path ∈ paths, after.follow path.fullSteps ≠ .ok (start ++ location) := by
      intro path listed ledPath
      have nonempty : location ≠ [] := by
        rintro rfl
        cases last
      have short : ∀ name ∈ start ++ location, name.utf8ByteSize ≤ nameLimit :=
        Entry.forall_mem_of_follow ledPath fun _ _ short => short
      have ledSource := Entry.follow_below wellFormed nonempty led thereAfter isFile
        fun name listed => short name (List.mem_append_right _ listed)
      exact apart path listed location ⟨⟨contents, isFile⟩, shown, name, last, wanted⟩
        ⟨_, ledPath, ledSource⟩
    rw [← insideAfter, published.find?_eq_file_iff unwritten, inside] at isFile
    exact ⟨⟨contents, isFile⟩, shown, name, last, wanted⟩
  · rintro ⟨⟨contents, isFile⟩, shown, wanted⟩
    have isFileAfter : ∃ contents, foundAfter.find? location = some (.file contents) := by
      rw [← insideAfter]
      by_cases written : ∃ path ∈ paths, after.follow path.fullSteps = .ok (start ++ location)
      · rcases written with ⟨path, listed, ledPath⟩
        exact published.exists_file listed ledPath
      · refine ⟨contents, (published.find?_eq_file_iff ?_).2 (inside.trans isFile)⟩
        exact fun path listed ledPath => written ⟨path, listed, ledPath⟩
    exact ⟨isFileAfter, shown, wanted⟩

/-- The files that are found afterwards are those that were found before. -/
theorem sourcesIn_eq (published : Published output drawings paths tree after)
    (wellFormed : tree.WellFormed) (wellFormedAfter : after.WellFormed) (grows : tree.Grows after)
    {filesAfter : List SourceFile} (searched : sourcesIn extensions input tree = .ok files)
    (searchedAfter : sourcesIn extensions input after = .ok filesAfter)
    (apart : ∀ path ∈ paths, ∀ file ∈ filesAfter, ¬ path.MeetsIn after file.path) :
    filesAfter = files := by
  rcases sourcesIn_eq_ok_iff.1 searched with ⟨entries, present, _, rfl⟩
  rcases sourcesIn_eq_ok_iff.1 searchedAfter with ⟨entriesAfter, presentAfter, _, rfl⟩
  have inside := wellFormed.of_find present
  have insideAfter := wellFormedAfter.of_find presentAfter
  rcases Path.find_eq_ok_iff.1 present with ⟨_, start, led, there⟩
  rcases Path.find_eq_ok_iff.1 presentAfter with ⟨_, _, ledAfter, thereAfter⟩
  cases Except.ok.inj ((grows.follow led).symm.trans ledAfter)
  have apartSources : ∀ path ∈ paths, ∀ location,
      (Entry.folder entriesAfter).IsSource extensions location →
        ¬ path.MeetsIn after (input.below location) := by
    intro path listed location isSource
    have found := (Entry.mem_sources_iff_isSource insideAfter).2 isSource
    exact apart path listed (.below input location) (List.mem_map.2 ⟨location, found, rfl⟩)
  congr 1
  apply Entry.sources_eq_of_mem_iff inside insideAfter
  intro location
  rw [Entry.mem_sources_iff_isSource inside, Entry.mem_sources_iff_isSource insideAfter]
  exact published.isSource_iff insideAfter there ledAfter thereAfter apartSources

/-- The files that are not among the drawings are read as before. -/
theorem readAs {sources : List (String × String)}
    (published : Published output drawings paths tree after) (grows : tree.Grows after)
    (apart : ∀ path ∈ paths, ∀ file ∈ files, ¬ path.MeetsIn after file.path)
    (read : ReadAs tree files sources) : ReadAs after files sources := by
  have unwritten : ∀ file ∈ files, ∀ path ∈ paths, ¬ path.MeetsIn after file.path :=
    fun file found path listed => apart path listed file found
  have apartRead := (List.forall₂_and_left files sources).2 ⟨unwritten, read⟩
  apply apartRead.imp
  rintro file source ⟨apartFile, named, readable⟩
  have present := Path.readText_eq_ok_iff.1 readable
  rcases Path.find_eq_ok_iff.1 present with ⟨checked, place, led, there⟩
  have ledAfter := grows.follow led
  have thereAfter := (published.find?_eq_file_iff fun path listed ledPath =>
    apartFile path listed ⟨place, ledPath, ledAfter⟩).2 there
  refine ⟨named, Path.readText_eq_ok_iff.2 ?_⟩
  exact Path.find_eq_ok_iff.2 ⟨checked, place, ledAfter, thereAfter⟩

/-- A search is possible afterwards if the folders that were made can be entered by their paths. -/
theorem exists_sourcesIn (published : Published output drawings paths tree after)
    (wellFormed : tree.WellFormed) (wellFormedAfter : after.WellFormed) (grows : tree.Grows after)
    (searched : sourcesIn extensions input tree = .ok files)
    (enterable : ∀ location place, (∀ name ∈ location, FileName.IsProper name) →
      after.Enters (input.below location).steps place → tree.at? place = none →
        (input.below location).check = .ok ()) :
    ∃ filesAfter, sourcesIn extensions input after = .ok filesAfter := by
  rcases sourcesIn_eq_ok_iff.1 searched with ⟨entries, present, checked, _⟩
  have inside := wellFormed.of_find present
  rcases Path.find_eq_ok_iff.1 present with ⟨checkedInput, start, led, there⟩
  have isFolder := grows start (Entry.at?_eq_folder_iff.2 ⟨entries, there⟩)
  rcases Entry.at?_eq_folder_iff.1 isFolder with ⟨entriesAfter, thereAfter⟩
  have ledAfter := grows.follow led
  have presentAfter : input.find after = .ok (.folder entriesAfter) :=
    Path.find_eq_ok_iff.2 ⟨checkedInput, start, ledAfter, thereAfter⟩
  have insideAfter := wellFormedAfter.of_find presentAfter
  refine ⟨_, sourcesIn_eq_ok_iff.2 ⟨entriesAfter, presentAfter, ?_, rfl⟩⟩
  intro location listed
  rcases (Entry.mem_visibleFolders_iff insideAfter).1 listed with ⟨visited, shown⟩
  have folderAfter : after.at? (start ++ location) = some .folder := by
    rw [Entry.at?_append, thereAfter]
    exact visited
  have unwritten : ∀ path ∈ paths, after.follow path.fullSteps ≠ .ok (start ++ location) := by
    intro path listed ledPath
    rcases published.exists_file listed ledPath with ⟨contents, isFile⟩
    simp [Entry.at?_eq_file_iff.2 isFile] at folderAfter
  rcases published.frame _ unwritten with same | ⟨absent, way, _, enters⟩
  · rw [folderAfter, Entry.at?_append, there] at same
    exact checked location ((Entry.mem_visibleFolders_iff inside).2 ⟨same.symm, shown⟩)
  · have short : ∀ name ∈ start ++ location, name.utf8ByteSize ≤ nameLimit :=
      Entry.forall_mem_of_follow enters.led fun _ _ short => short
    rcases Entry.at?_eq_folder_iff.1 visited with ⟨_, found⟩
    have proper := insideAfter.proper found
    have ledBelow : after.follow (input.below location).steps = .ok (start ++ location) := by
      rw [Path.steps_below proper]
      apply Entry.follow_append_downs (Entry.follow_steps_of_fullSteps ledAfter)
      · exact fun name listed => short name (List.mem_append_right _ listed)
      · simp [folderAfter]
    exact enterable location _ proper ⟨ledBelow, folderAfter⟩ absent

end Published

namespace Settings

variable {settings : Settings}

/-- What a run on a folder leaves behind, and what it comes to if its drawings are published once
more. -/
theorem exists_published_of_drawFolder (wellFormed : tree.WellFormed)
    (succeeds : settings.drawFolder input output tree = .ok paths after) :
    ∃ files sources drawings, sourcesIn settings.extensions input tree = .ok files ∧
      ReadAs tree files sources ∧ settings.draw sources = .ok drawings ∧
      Published output drawings paths tree after ∧ tree.Grows after ∧ after.WellFormed ∧
      publish output drawings after = .ok paths after := by
  have ran : settings.run output (.folder input) tree = .ok paths after := succeeds
  rcases run_eq_ok_iff.1 ran with ⟨drawings, drawn, published⟩
  have proper := isProper_fileName_of_drawsFrom wellFormed drawn
  have wellFormedAfter := wellFormed_of_run wellFormed ran
  rcases drawn with ⟨files, sources, searched, read, drawn⟩
  have nonempty : drawings ≠ [] := by
    rcases draw_eq_ok_iff.1 drawn with ⟨_, _, _, _, rfl⟩
    simp
  exact ⟨files, sources, drawings, searched, read, drawn,
    published_of_publish proper nonempty published, grows_of_publish proper nonempty published,
    wellFormedAfter, publish_again wellFormedAfter proper nonempty published⟩

/-- After a run on a folder its sources can be found again, if the folders that the run made can be
entered by their paths. -/
theorem exists_sources_of_drawFolder (wellFormed : tree.WellFormed)
    (succeeds : settings.drawFolder input output tree = .ok paths after)
    (enterable : ∀ location place, (∀ name ∈ location, FileName.IsProper name) →
      after.Enters (input.below location).steps place → tree.at? place = none →
        (input.below location).check = .ok ()) :
    ∃ files, settings.sources input after = .ok files after := by
  rcases exists_published_of_drawFolder wellFormed succeeds with
    ⟨files, _, _, searched, _, _, published, grows, wellFormedAfter, _⟩
  rcases published.exists_sourcesIn wellFormed wellFormedAfter grows searched enterable with
    ⟨filesAfter, searchedAfter⟩
  exact ⟨filesAfter, Action.look_eq_ok_iff.2 ⟨searchedAfter, rfl⟩⟩

/-- To draw a folder once more changes nothing, if none of the drawings is among the sources that
are found in it afterwards. -/
theorem drawFolder_again (wellFormed : tree.WellFormed)
    (succeeds : settings.drawFolder input output tree = .ok paths after)
    (searched : settings.sources input after = .ok files after)
    (apart : ∀ path ∈ paths, ∀ file ∈ files, ¬ path.MeetsIn after file.path) :
    settings.sources input tree = .ok files tree ∧
      settings.drawFolder input output after = .ok paths after := by
  rcases exists_published_of_drawFolder wellFormed succeeds with
    ⟨earlier, sources, drawings, searchedBefore, read, drawn, published, grows, wellFormedAfter,
      publishedAgain⟩
  have searchedAfter := (Action.look_eq_ok_iff.1 searched).1
  have same : files = earlier :=
    published.sourcesIn_eq wellFormed wellFormedAfter grows searchedBefore searchedAfter apart
  subst same
  have readAgain := published.readAs grows apart read
  have drawnAgain : settings.DrawsFrom after (.folder input) drawings :=
    ⟨files, sources, searchedAfter, readAgain, drawn⟩
  have ranAgain : settings.run output (.folder input) after = .ok paths after :=
    run_eq_ok_iff.2 ⟨drawings, drawnAgain, publishedAgain⟩
  exact ⟨Action.look_eq_ok_iff.2 ⟨searchedBefore, rfl⟩, ranAgain⟩

def workshop : Entry :=
  .folder [("in", .folder [("a.py", .file "# act: order".toUTF8)])]

theorem drawFolder_again_workshop :
    ∃ paths after files, workshop.WellFormed ∧
      drawFolder { extensions := ["py"] } ⟨"in"⟩ ⟨"in/out"⟩ workshop = .ok paths after ∧
      sources { extensions := ["py"] } ⟨"in"⟩ after = .ok files after ∧
      (∀ path ∈ paths, ∀ file ∈ files, ¬ path.MeetsIn after file.path) ∧
      drawFolder { extensions := ["py"] } ⟨"in"⟩ ⟨"in/out"⟩ after = .ok paths after := by
  have proper : ∀ name ∈ ["in", "a.py"], FileName.IsProper name := by decide +kernel
  have wellFormed : workshop.WellFormed := by
    simp [workshop, Entry.wellFormed_folder_iff, Entry.wellFormed_file, proper]
  have searched : sourcesIn ["py"] ⟨"in"⟩ workshop = .ok [.below ⟨"in"⟩ ["a.py"]] := by
    apply sourcesIn_eq_ok_iff.2
    refine ⟨_, Path.find_eq_ok_iff.2 ⟨by decide +kernel, ["in"], by decide +kernel, rfl⟩, ?_, ?_⟩
    · decide +kernel
    · rw [Entry.sources_of_ascending (by decide +kernel)]
      decide +kernel
  have read : ReadAs workshop [.below ⟨"in"⟩ ["a.py"]] [("a", "# act: order")] :=
    .cons (by decide +kernel) .nil
  -- The drawings are made and published, and of them and the source only the source is found.
  have test : EStateM.run' (do
      let drawings ← Action.content (draw { extensions := ["py"] } [("a", "# act: order")])
      let paths ← publish ⟨"in/out"⟩ drawings
      let folder ← Action.look (Path.find ⟨"in"⟩)
      let after ← Action.look .ok
      return decide
        (folder.isFolder ∧
          (∀ location ∈ folder.visibleFolders, (Path.below ⟨"in"⟩ location).check = .ok ()) ∧
          folder.visibleFiles.filter
            (fun location => location.getLast?.any (isWanted ["py"])) = [["a.py"]] ∧
          ∀ path ∈ paths, ¬ path.MeetsIn after (Path.below ⟨"in"⟩ ["a.py"]))) workshop =
        some true := by
    decide +kernel
  have outcome : ∃ drawings paths after entries,
      draw { extensions := ["py"] } [("a", "# act: order")] = .ok drawings ∧
      publish ⟨"in/out"⟩ drawings workshop = .ok paths after ∧
      Path.find ⟨"in"⟩ after = .ok (.folder entries) ∧
      (∀ location ∈ (Entry.folder entries).visibleFolders,
        (Path.below ⟨"in"⟩ location).check = .ok ()) ∧
      (Entry.folder entries).visibleFiles.filter
        (fun location => location.getLast?.any (isWanted ["py"])) = [["a.py"]] ∧
      ∀ path ∈ paths, ¬ path.MeetsIn after (Path.below ⟨"in"⟩ ["a.py"]) := by
    rcases Action.run'_eq_some_iff.1 test with ⟨_, ran⟩
    simp only [Action.bind_eq_ok_iff, Action.content_eq_ok_iff, Action.look_eq_ok_iff,
      Action.pure_eq_ok_iff, Except.ok.injEq] at ran
    rcases ran with ⟨drawings, _, ⟨drawn, rfl⟩, paths, after, published, folder, _, ⟨found, rfl⟩, _,
      _, ⟨rfl, rfl⟩, decided, _⟩
    rcases of_decide_eq_true decided with ⟨isFolder, rest⟩
    cases folder with
    | file contents => cases isFolder
    | folder entries => exact ⟨drawings, paths, _, entries, drawn, published, found, rest⟩
  rcases outcome with
    ⟨drawings, paths, after, entries, drawn, published, found, checked, listed, apart⟩
  have drawsFrom : DrawsFrom { extensions := ["py"] } workshop (.folder ⟨"in"⟩) drawings :=
    ⟨_, _, searched, read, drawn⟩
  have ran : drawFolder { extensions := ["py"] } ⟨"in"⟩ ⟨"in/out"⟩ workshop = .ok paths after :=
    run_eq_ok_iff.2 ⟨drawings, drawsFrom, published⟩
  have again : sourcesIn ["py"] ⟨"in"⟩ after = .ok [.below ⟨"in"⟩ ["a.py"]] := by
    apply sourcesIn_eq_ok_iff.2
    refine ⟨entries, found, checked, ?_⟩
    rw [Entry.sources_of_ascending (by rw [listed]; simp), listed]
    rfl
  have searchedAgain : sources { extensions := ["py"] } ⟨"in"⟩ after =
      .ok [.below ⟨"in"⟩ ["a.py"]] after :=
    Action.look_eq_ok_iff.2 ⟨again, rfl⟩
  have apartAgain : ∀ path ∈ paths, ∀ file ∈ [SourceFile.below ⟨"in"⟩ ["a.py"]],
      ¬ path.MeetsIn after file.path := by
    intro path written file source
    rw [List.mem_singleton.1 source]
    exact apart path written
  refine ⟨paths, after, _, wellFormed, ran, searchedAgain, apartAgain, ?_⟩
  exact (drawFolder_again wellFormed ran searchedAgain apartAgain).2

end Settings

end ProcessChain
