import Mathlib.Data.List.Count
import Mathlib.Data.List.Nodup
import ProcessChain.Proofs.Files.Steps
import ProcessChain.Proofs.Files.View

/-!
# What can be found in a folder

In a well-formed tree every folder has proper names, and none twice. A walk through such a tree
comes to each location that no hidden name leads to exactly once, and to nothing else
(`Entry.mem_visible_iff`, `Entry.nodup_visible`). So the sources in a folder are distinct files,
each known by the names that lead to it from there.
-/

namespace ProcessChain.Files

namespace Entry

/-- The names in every folder are proper and distinct. -/
def WellFormed (tree : Entry) : Prop :=
  ∀ location entries, tree.find? location = some (folder entries) →
    (entries.map Prod.fst).Nodup ∧ ∀ name ∈ entries.map Prod.fst, FileName.IsProper name

variable {tree entry found : Entry} {entries : List (String × Entry)} {location : Location}
  {name : String} {extensions : List String}

theorem WellFormed.find? (wellFormed : tree.WellFormed) (there : tree.find? location = some entry) :
    entry.WellFormed := by
  intro further inside reached
  apply wellFormed (location ++ further)
  rw [find?_append, there]
  exact reached

theorem lookup_eq_some_iff (distinct : (entries.map Prod.fst).Nodup) :
    entries.lookup name = some entry ↔ (name, entry) ∈ entries := by
  induction entries with
  | nil => simp
  | cons first rest ih =>
      rcases first with ⟨other, old⟩
      rcases List.nodup_cons.1 distinct with ⟨absent, restDistinct⟩
      rw [List.lookup_cons, List.mem_cons, ← ih restDistinct]
      by_cases same : name = other
      · subst same
        have notLater : rest.lookup name ≠ some entry := by
          intro later
          exact absent (List.mem_map.2 ⟨(name, entry), (ih restDistinct).1 later, rfl⟩)
        simp [notLater, eq_comm]
      · have differs : (name == other) = false := beq_eq_false_iff_ne.2 same
        simp [differs, same]

theorem wellFormed_file (contents : ByteArray) : (file contents).WellFormed := by
  intro location entries reached
  cases location <;> simp [Entry.find?] at reached

theorem wellFormed_folder_iff :
    (folder entries).WellFormed ↔
      (entries.map Prod.fst).Nodup ∧
        ∀ item ∈ entries, FileName.IsProper item.1 ∧ item.2.WellFormed := by
  constructor
  · intro wellFormed
    rcases wellFormed [] entries rfl with ⟨distinct, proper⟩
    refine ⟨distinct, ?_⟩
    rintro ⟨name, entry⟩ listed
    refine ⟨proper name (List.mem_map.2 ⟨_, listed, rfl⟩), ?_⟩
    have there : (folder entries).find? [name] = some entry := by
      simp [Entry.find?, (lookup_eq_some_iff distinct).2 listed]
    exact wellFormed.find? there
  · rintro ⟨distinct, parts⟩ location inside reached
    cases location with
    | nil =>
        cases reached
        refine ⟨distinct, ?_⟩
        intro name listed
        rcases List.mem_map.1 listed with ⟨item, present, rfl⟩
        exact (parts item present).1
    | cons name rest =>
        simp only [Entry.find?] at reached
        cases there : entries.lookup name with
        | none => simp [there] at reached
        | some entry =>
            rw [there] at reached
            have listed := (lookup_eq_some_iff distinct).1 there
            exact (parts _ listed).2 rest inside reached

/-- Only proper names lead to what is in a well-formed tree. -/
theorem WellFormed.proper (wellFormed : tree.WellFormed)
    (there : tree.find? location = some entry) : ∀ name ∈ location, FileName.IsProper name := by
  induction location generalizing tree with
  | nil => simp
  | cons first rest ih =>
      cases tree with
      | file contents => simp [Entry.find?] at there
      | folder entries =>
          rcases wellFormed_folder_iff.1 wellFormed with ⟨distinct, parts⟩
          simp only [Entry.find?] at there
          cases inside : entries.lookup first with
          | none => simp [inside] at there
          | some item =>
              rw [inside] at there
              rcases parts _ ((lookup_eq_some_iff distinct).1 inside) with ⟨proper, itemWellFormed⟩
              exact List.forall_mem_cons.2 ⟨proper, ih itemWellFormed there⟩

/-! ## The walk through a tree -/

theorem mem_visibleOf_iff :
    (location, found) ∈ visibleOf entries ↔
      ∃ name entry rest, (name, entry) ∈ entries ∧ FileName.isHidden name = false ∧
        (rest, found) ∈ entry.visible ∧ location = name :: rest := by
  induction entries with
  | nil => simp [visibleOf]
  | cons first others ih =>
      rcases first with ⟨name, entry⟩
      unfold visibleOf
      by_cases hidden : FileName.isHidden name
      · rw [if_pos hidden, ih]
        constructor
        · rintro ⟨other, item, rest, listed, shown, inside, rfl⟩
          exact ⟨other, item, rest, List.mem_cons_of_mem _ listed, shown, inside, rfl⟩
        · rintro ⟨other, item, rest, listed, shown, inside, rfl⟩
          rcases List.mem_cons.1 listed with same | later
          · cases same
            rw [hidden] at shown
            cases shown
          · exact ⟨other, item, rest, later, shown, inside, rfl⟩
      · rw [if_neg hidden, List.mem_append, ih]
        constructor
        · rintro (ofFirst | ⟨other, item, rest, listed, shown, inside, rfl⟩)
          · rcases List.mem_map.1 ofFirst with ⟨⟨rest, reached⟩, inside, same⟩
            cases same
            exact ⟨name, entry, rest, List.mem_cons_self, by simpa using hidden, inside, rfl⟩
          · exact ⟨other, item, rest, List.mem_cons_of_mem _ listed, shown, inside, rfl⟩
        · rintro ⟨other, item, rest, listed, shown, inside, rfl⟩
          rcases List.mem_cons.1 listed with same | later
          · cases same
            exact .inl (List.mem_map.2 ⟨(rest, found), inside, rfl⟩)
          · exact .inr ⟨other, item, rest, later, shown, inside, rfl⟩

/-- A walk comes to what is at a location exactly if no hidden name leads there. -/
theorem mem_visible_iff (wellFormed : tree.WellFormed) :
    (location, found) ∈ tree.visible ↔
      tree.find? location = some found ∧ ∀ name ∈ location, FileName.isHidden name = false := by
  induction location generalizing tree with
  | nil =>
      have whole : ([], found) ∈ tree.visible ↔ found = tree := by
        cases tree with
        | file contents => simp [visible]
        | folder entries => simp [visible, mem_visibleOf_iff]
      rw [whole, find?_nil, Option.some.injEq, eq_comm]
      simp
  | cons name rest ih =>
      cases tree with
      | file contents => simp [visible, Entry.find?]
      | folder entries =>
          rcases wellFormed_folder_iff.1 wellFormed with ⟨distinct, parts⟩
          have inside : (name :: rest, found) ∈ (folder entries).visible ↔
              ∃ entry, (name, entry) ∈ entries ∧ FileName.isHidden name = false ∧
                (rest, found) ∈ entry.visible := by
            simp [visible, mem_visibleOf_iff]
          rw [inside, List.forall_mem_cons]
          constructor
          · rintro ⟨entry, listed, shown, later⟩
            rcases (ih (parts _ listed).2).1 later with ⟨reached, othersShown⟩
            have there := (lookup_eq_some_iff distinct).2 listed
            exact ⟨by simpa [Entry.find?, there] using reached, shown, othersShown⟩
          · rintro ⟨reached, shown, othersShown⟩
            simp only [Entry.find?] at reached
            cases there : entries.lookup name with
            | none => simp [there] at reached
            | some entry =>
                rw [there] at reached
                have listed := (lookup_eq_some_iff distinct).1 there
                exact ⟨entry, listed, shown, (ih (parts _ listed).2).2 ⟨reached, othersShown⟩⟩

theorem count_visibleOf_le_one {rest : Location} (distinct : (entries.map Prod.fst).Nodup)
    (once : ∀ item ∈ entries, (item.2.visible.map Prod.fst).count rest ≤ 1) :
    ((visibleOf entries).map Prod.fst).count (name :: rest) ≤ 1 := by
  induction entries with
  | nil => simp [visibleOf]
  | cons first others ih =>
      rcases first with ⟨other, entry⟩
      rcases List.nodup_cons.1 distinct with ⟨absent, othersDistinct⟩
      have ofOthers := ih othersDistinct fun item listed =>
        once item (List.mem_cons_of_mem _ listed)
      have ofFirst := once (other, entry) List.mem_cons_self
      unfold visibleOf
      split
      · exact ofOthers
      · have named : (entry.visible.map fun item => (other :: item.1, item.2)).map Prod.fst =
            (entry.visible.map Prod.fst).map (other :: ·) := by
          simp [Function.comp_def]
        change (((entry.visible.map fun item => (other :: item.1, item.2)) ++
          visibleOf others).map Prod.fst).count (name :: rest) ≤ 1
        rw [List.map_append, List.count_append, named]
        by_cases same : other = name
        · -- The name is that of the first entry only.
          subst same
          have notLater : (other :: rest) ∉ (visibleOf others).map Prod.fst := by
            intro listed
            rcases List.mem_map.1 listed with ⟨⟨location, reached⟩, present, rfl⟩
            rcases mem_visibleOf_iff.1 present with ⟨_, item, _, inside, _, _, spelled⟩
            cases spelled
            exact absent (List.mem_map.2 ⟨_, inside, rfl⟩)
          have injective : Function.Injective (other :: · : Location → Location) :=
            fun _ _ same => (List.cons.inj same).2
          rw [List.count_map_of_injective _ _ injective, List.count_eq_zero.2 notLater]
          exact ofFirst
        · have none : ((entry.visible.map Prod.fst).map (other :: ·)).count (name :: rest) = 0 := by
            apply List.count_eq_zero.2
            intro listed
            rcases List.mem_map.1 listed with ⟨location, _, spelled⟩
            exact same (List.cons.inj spelled).1
          omega

/-- A walk comes to no location twice. -/
theorem nodup_visible (wellFormed : tree.WellFormed) : (tree.visible.map Prod.fst).Nodup := by
  apply List.nodup_iff_count_le_one.2
  intro location
  induction location generalizing tree with
  | nil =>
      cases tree with
      | file contents => simp [visible]
      | folder entries =>
          have notInside : [] ∉ (visibleOf entries).map Prod.fst := by
            intro listed
            rcases List.mem_map.1 listed with ⟨⟨location, reached⟩, present, rfl⟩
            rcases mem_visibleOf_iff.1 present with ⟨_, _, _, _, _, _, spelled⟩
            cases spelled
          simp [visible, List.count_eq_zero.2 notInside]
  | cons name rest ih =>
      cases tree with
      | file contents => simp [visible]
      | folder entries =>
          rcases wellFormed_folder_iff.1 wellFormed with ⟨distinct, parts⟩
          have ofEntries : ((visibleOf entries).map Prod.fst).count (name :: rest) ≤ 1 :=
            count_visibleOf_le_one distinct fun item listed => ih (parts item listed).2
          simpa [visible] using ofEntries

/-- The files that a walk comes to. -/
theorem mem_visibleFiles_iff (wellFormed : tree.WellFormed) :
    location ∈ tree.visibleFiles ↔
      (∃ contents, tree.find? location = some (file contents)) ∧
        ∀ name ∈ location, FileName.isHidden name = false := by
  unfold visibleFiles
  rw [List.mem_map]
  constructor
  · rintro ⟨⟨_, found⟩, listed, rfl⟩
    rcases List.mem_filter.1 listed with ⟨present, isFile⟩
    rcases (mem_visible_iff wellFormed).1 present with ⟨reached, shown⟩
    cases found with
    | file contents => exact ⟨⟨contents, reached⟩, shown⟩
    | folder entries => simp [isFolder] at isFile
  · rintro ⟨⟨contents, reached⟩, shown⟩
    refine ⟨(location, file contents), ?_, rfl⟩
    exact List.mem_filter.2 ⟨(mem_visible_iff wellFormed).2 ⟨reached, shown⟩, rfl⟩

/-- The folders that a walk comes to. -/
theorem mem_visibleFolders_iff (wellFormed : tree.WellFormed) :
    location ∈ tree.visibleFolders ↔
      tree.at? location = some .folder ∧ ∀ name ∈ location, FileName.isHidden name = false := by
  unfold visibleFolders
  rw [List.mem_map, at?_eq_folder_iff]
  constructor
  · rintro ⟨⟨_, found⟩, listed, rfl⟩
    rcases List.mem_filter.1 listed with ⟨present, folds⟩
    rcases (mem_visible_iff wellFormed).1 present with ⟨reached, shown⟩
    cases found with
    | file contents => simp [isFolder] at folds
    | folder entries => exact ⟨⟨entries, reached⟩, shown⟩
  · rintro ⟨⟨entries, reached⟩, shown⟩
    refine ⟨(location, folder entries), ?_, rfl⟩
    exact List.mem_filter.2 ⟨(mem_visible_iff wellFormed).2 ⟨reached, shown⟩, rfl⟩

theorem mem_sources_iff :
    location ∈ tree.sources extensions ↔
      location ∈ tree.visibleFiles ∧ location.getLast?.any (isWanted extensions) = true := by
  unfold sources
  rw [List.mem_mergeSort, List.mem_filter]

theorem sources_of_ascending
    (ascending : (tree.visibleFiles.filter fun location =>
      location.getLast?.any (isWanted extensions)).Pairwise (Location.precedes · ·)) :
    tree.sources extensions =
      tree.visibleFiles.filter fun location => location.getLast?.any (isWanted extensions) :=
  List.mergeSort_of_pairwise ascending

theorem nodup_sources (wellFormed : tree.WellFormed) : (tree.sources extensions).Nodup := by
  have files : tree.visibleFiles.Nodup :=
    (List.filter_sublist.map Prod.fst).nodup (nodup_visible wellFormed)
  exact (List.mergeSort_perm _ _).nodup_iff.2 (files.filter _)

end Entry

theorem sourcesIn_eq_ok_iff {extensions : List String} {folder : Path} {tree : Entry}
    {files : List SourceFile} :
    sourcesIn extensions folder tree = .ok files ↔
      ∃ entries, folder.find tree = .ok (.folder entries) ∧
        (∀ location ∈ (Entry.folder entries).visibleFolders,
          (folder.below location).check = .ok ()) ∧
        files = ((Entry.folder entries).sources extensions).map (.below folder) := by
  unfold sourcesIn
  rw [bind_eq_ok_iff]
  constructor
  · rintro ⟨entry, present, found⟩
    cases entry with
    | file contents => cases found
    | folder entries =>
        rcases bind_eq_ok_iff.1 found with ⟨_, checked, listed⟩
        exact ⟨entries, present, forM_eq_ok_iff.1 checked, (Except.ok.inj listed).symm⟩
  · rintro ⟨entries, present, checked, rfl⟩
    exact ⟨_, present, bind_eq_ok_iff.2 ⟨(), forM_eq_ok_iff.2 checked, rfl⟩⟩

/-- A file is below a folder, and only proper names that are not hidden lead to it from there. -/
structure SourceFile.IsBelow (file : SourceFile) (folder : Path) : Prop where
  eq_below : file = .below folder file.route
  nonempty : file.route ≠ []
  proper : ∀ name ∈ file.route, FileName.IsProper name
  shown : ∀ name ∈ file.route, FileName.isHidden name = false

/-- The sources in a folder of a well-formed tree are distinct files below the folder. -/
theorem sourcesIn_found {extensions : List String} {folder : Path} {tree : Entry}
    {files : List SourceFile} (wellFormed : tree.WellFormed)
    (found : sourcesIn extensions folder tree = .ok files) :
    files.Nodup ∧ ∀ file ∈ files, file.IsBelow folder := by
  rcases sourcesIn_eq_ok_iff.1 found with ⟨entries, present, _, rfl⟩
  rcases Path.find_eq_ok_iff.1 present with ⟨_, start, _, there⟩
  have inside := wellFormed.find? there
  constructor
  · apply (Entry.nodup_sources inside).map
    intro location other same
    exact congrArg SourceFile.route same
  · intro file member
    rcases List.mem_map.1 member with ⟨location, isSource, rfl⟩
    have isFile := (Entry.mem_sources_iff.1 isSource).1
    rcases (Entry.mem_visibleFiles_iff inside).1 isFile with ⟨⟨contents, reached⟩, shown⟩
    refine ⟨rfl, ?_, inside.proper reached, shown⟩
    rintro rfl
    simp at reached

end ProcessChain.Files
