import ProcessChain.Proofs.Files.Preservation

/-!
# Drawings written once more

A file that is overwritten changes nothing but what it holds: the same files and folders are there
afterwards, listed in the same order (`Entry.SameShape`). A tree is known by its shape and its view
(`Entry.SameShape.eq`). When drawings are written once more, each of them overwrites a file, and in
the end each file holds the last drawing of its name, as it did before. So the tree is the same
again (`publish_again`).
-/

namespace ProcessChain

open Files

namespace Files

/-- What an entry is, whatever the files in it hold. -/
inductive Shape where
  | file
  | folder (names : List String)

namespace Entry

def shape : Entry → Shape
  | .file _ => .file
  | .folder entries => .folder (entries.map Prod.fst)

/-- Trees have the same files and folders, listed in the same order. -/
def SameShape (tree other : Entry) : Prop :=
  ∀ location, (other.find? location).map shape = (tree.find? location).map shape

variable {tree middle other placed old : Entry} {entries : List (String × Entry)}
  {location : Location} {name : String} {contents : ByteArray}

theorem sizeOf_lt_folder {item : String × Entry} (listed : item ∈ entries) :
    sizeOf item.2 < sizeOf (folder entries) := by
  have inList := List.sizeOf_lt_of_mem listed
  rcases item with ⟨name, entry⟩
  simp only [Prod.mk.sizeOf_spec] at inList
  simp only [folder.sizeOf_spec]
  omega

namespace SameShape

theorem refl (tree : Entry) : tree.SameShape tree :=
  fun _ => rfl

theorem trans (first : tree.SameShape middle) (second : middle.SameShape other) :
    tree.SameShape other :=
  fun location => (second location).trans (first location)

theorem exists_file (same : tree.SameShape other)
    (isFile : tree.find? location = some (file contents)) :
    ∃ held, other.find? location = some (file held) := by
  have there := same location
  rw [isFile] at there
  cases found : other.find? location with
  | none => simp [found] at there
  | some entry =>
      cases entry with
      | file held => exact ⟨held, rfl⟩
      | folder entries => simp [found, shape] at there

theorem exists_folder (same : tree.SameShape other)
    (isFolder : tree.find? location = some (folder entries)) :
    ∃ others, other.find? location = some (folder others) ∧
      others.map Prod.fst = entries.map Prod.fst := by
  have there := same location
  rw [isFolder] at there
  cases found : other.find? location with
  | none => simp [found] at there
  | some entry =>
      cases entry with
      | file held => simp [found, shape] at there
      | folder others => exact ⟨others, rfl, by simpa [found, shape] using there⟩

theorem grows (same : tree.SameShape other) : tree.Grows other := by
  intro location isFolder
  rcases at?_eq_folder_iff.1 isFolder with ⟨entries, found⟩
  rcases same.exists_folder found with ⟨others, otherFound, _⟩
  exact at?_eq_folder_iff.2 ⟨others, otherFound⟩

theorem assign (present : entries.lookup name = some old) (same : old.SameShape placed) :
    (folder entries).SameShape (folder (assign name placed entries)) := by
  intro location
  cases location with
  | nil =>
      have listed : name ∈ entries.map Prod.fst := by
        rcases List.lookup_eq_some_iff.1 present with ⟨earlier, later, rfl, _⟩
        simp
      simp [shape, map_fst_assign, listed]
  | cons first rest =>
      simp only [Entry.find?, lookup_assign]
      by_cases named : first = name
      · simpa [named, present] using same rest
      · simp [named]

/-- An entry takes the place of one of the same shape. -/
theorem put (present : tree.find? location = some old) (same : old.SameShape placed) :
    tree.SameShape (tree.put placed location) := by
  fun_induction Entry.put tree placed location with
  | case1 tree placed =>
      rw [find?_nil, Option.some.injEq] at present
      rwa [present]
  | case2 => exact refl _
  | case3 entries placed name =>
      have there : entries.lookup name = some old := by
        cases found : entries.lookup name with
        | none => simp [Entry.find?, found] at present
        | some entry => simpa [Entry.find?, found] using present
      exact assign there same
  | case4 => exact refl _
  | case5 entries placed name next rest entry there ih =>
      apply assign there
      apply ih _ same
      simpa [Entry.find?, there] using present

/-- A tree is known by its shape and by what there is at each location. -/
theorem eq : ∀ {tree other : Entry}, tree.WellFormed → tree.SameShape other →
    (∀ location, other.at? location = tree.at? location) → other = tree
  | file contents, other, _, _, view => by
      have there : other.at? [] = some (.file contents) := view []
      simpa using at?_eq_file_iff.1 there
  | folder entries, other, wellFormed, same, view => by
      rcases same.exists_folder (find?_nil _) with ⟨others, there, names⟩
      rw [find?_nil, Option.some.injEq] at there
      subst there
      rcases wellFormed_folder_iff.1 wellFormed with ⟨distinct, parts⟩
      have otherDistinct : (others.map Prod.fst).Nodup := by rwa [names]
      have sameLength : others.length = entries.length := by
        simpa using congrArg List.length names
      congr 1
      apply List.ext_getElem sameLength
      intro position inOthers inEntries
      have listed := List.getElem_mem inEntries
      have sameName : others[position].1 = entries[position].1 := by
        have sameNames : (others.map Prod.fst)[position]? = (entries.map Prod.fst)[position]? := by
          rw [names]
        simpa [inOthers, inEntries] using sameNames
      have found : entries.lookup entries[position].1 = some entries[position].2 :=
        (lookup_eq_some_iff distinct).2 listed
      have otherFound : others.lookup entries[position].1 = some others[position].2 := by
        rw [← sameName]
        exact (lookup_eq_some_iff otherDistinct).2 (List.getElem_mem inOthers)
      apply Prod.ext sameName
      apply SameShape.eq (parts _ listed).2
      · intro location
        simpa [Entry.find?, found, otherFound] using same (entries[position].1 :: location)
      · intro location
        simpa [at?_cons, found, otherFound] using view (entries[position].1 :: location)
termination_by tree => tree
decreasing_by exact sizeOf_lt_folder listed

end SameShape

end Entry

/-! ## Folders that are there already -/

variable {output path : Path} {home : Location} {drawing : Drawing} {drawings : List Drawing}
  {tree before after later : Entry} {paths : List Path} {held : ByteArray}

theorem Action.makeFolder_again (made : makeFolder path tree = .ok () after)
    (enters : later.Enters path.steps home) : makeFolder path later = .ok () later := by
  have ensured : later.ensureFolder path.steps = .ok later :=
    Entry.ensureFolder_eq_ok_iff.2 (.inr ⟨rfl, home, enters⟩)
  unfold makeFolder at made ⊢
  by_cases here : path.text = ""
  · rw [if_pos here]
    rfl
  · rw [if_neg here] at made ⊢
    rcases bind_eq_ok_iff.1 made with ⟨_, _, looked, _⟩
    have checked := (look_eq_ok_iff.1 looked).1
    apply bind_eq_ok_iff.2
    refine ⟨(), later, look_eq_ok_iff.2 ⟨checked, rfl⟩, ?_⟩
    simp only [makeFolderIn, ensured]

/-! ## Files that are there already -/

theorem Path.exists_find_of_sameShape (same : tree.SameShape after)
    (found : path.find tree = .ok (.file held)) :
    ∃ contents, path.find after = .ok (.file contents) := by
  rcases find_eq_ok_iff.1 found with ⟨checked, location, led, isFile⟩
  rcases same.exists_file isFile with ⟨contents, isFileAfter⟩
  exact ⟨contents, find_eq_ok_iff.2 ⟨checked, location, same.grows.follow led, isFileAfter⟩⟩

theorem exists_write_again
    (found : (output.join drawing.fileName).find tree = .ok (.file held)) :
    ∃ after, drawing.write output tree = .ok (output.join drawing.fileName) after ∧
      tree.SameShape after := by
  rcases Path.find_eq_ok_iff.1 found with ⟨checked, location, led, isFile⟩
  have vacant : tree.at? location ≠ some .folder := by
    rw [Entry.at?_eq_file_iff.2 isFile]
    simp
  have files : (Entry.file held).SameShape (.file drawing.contents.toUTF8) := by
    intro location
    cases location <;> rfl
  have updated : (output.join drawing.fileName).write drawing.contents.toUTF8 tree = .ok _ :=
    Path.write_eq_ok_iff.2 ⟨checked, location, led, vacant, rfl⟩
  refine ⟨_, Action.bind_eq_ok_iff.2 ⟨(), _, Action.change_eq_ok_iff.2 updated, rfl⟩, ?_⟩
  exact .put isFile files

theorem exists_writes_again
    (found : ∀ drawing ∈ drawings,
      ∃ held, (output.join drawing.fileName).find tree = .ok (.file held)) :
    ∃ paths after, drawings.mapM (·.write output) tree = .ok paths after ∧
      tree.SameShape after := by
  induction drawings generalizing tree with
  | nil => exact ⟨[], tree, rfl, .refl tree⟩
  | cons drawing rest ih =>
      rcases List.forall_mem_cons.1 found with ⟨⟨held, first⟩, others⟩
      rcases exists_write_again first with ⟨middle, written, same⟩
      have othersFound : ∀ drawing ∈ rest,
          ∃ held, (output.join drawing.fileName).find middle = .ok (.file held) := by
        intro other listed
        rcases others other listed with ⟨_, there⟩
        exact Path.exists_find_of_sameShape same there
      rcases ih othersFound with ⟨paths, after, writtenRest, sameRest⟩
      refine ⟨output.join drawing.fileName :: paths, after, ?_, same.trans sameRest⟩
      rw [List.mapM_cons]
      apply Action.bind_eq_ok_iff.2
      refine ⟨_, middle, written, ?_⟩
      exact Action.bind_eq_ok_iff.2 ⟨paths, after, writtenRest, rfl⟩

/-- Where drawings were received, they are there if they are received once more. -/
theorem Receives.at?_again (first : Receives output home drawings before after)
    (again : Receives output home drawings after later) (location : Location) :
    later.at? location = after.at? location := by
  by_cases written : location ∈ drawings.map fun drawing => home ++ [drawing.fileName]
  · rcases exists_last_of_mem_map written with ⟨earlier, last, rest, split, rfl, unlike⟩
    have lastOfName : ∀ other ∈ rest, other.fileName ≠ last.fileName := by
      intro other listed same
      exact unlike other listed (by rw [same])
    rw [first.holds earlier last rest split lastOfName,
      again.holds earlier last rest split lastOfName]
  · apply again.frame
    rintro drawing listed rfl
    exact written (List.mem_map.2 ⟨drawing, listed, rfl⟩)

theorem Receives.exists_find (receives : Receives output home drawings before after)
    (listed : drawing ∈ drawings) :
    ∃ held, (output.join drawing.fileName).find after = .ok (.file held) := by
  have named : drawing.fileName ∈ drawings.map Drawing.fileName := List.mem_map.2 ⟨_, listed, rfl⟩
  rcases exists_last_of_mem_map named with ⟨earlier, last, rest, split, same, unlike⟩
  rcases receives.reached drawing listed with ⟨checked, led⟩
  have holds := receives.holds earlier last rest split (by rwa [same])
  rw [same] at holds
  exact ⟨_, Path.find_eq_ok_iff.2 ⟨checked, _, led, Entry.at?_eq_file_iff.1 holds⟩⟩

theorem writes_again (wellFormed : after.WellFormed)
    (proper : ∀ drawing ∈ drawings, FileName.IsProper drawing.fileName)
    (enters : before.Enters output.steps home)
    (written : drawings.mapM (·.write output) before = .ok paths after) :
    drawings.mapM (·.write output) after = .ok paths after := by
  rcases receives_of_writes proper enters written with ⟨rfl, receives⟩
  rcases exists_writes_again fun _ => receives.exists_find with ⟨_, later, writtenAgain, sameShape⟩
  have entersAfter := receives.grows.enters enters
  rcases receives_of_writes proper entersAfter writtenAgain with ⟨rfl, receivesAgain⟩
  have same : later = after := sameShape.eq wellFormed (receives.at?_again receivesAgain)
  rwa [same] at writtenAgain

end Files

variable {output : Path} {drawings : List Drawing} {tree after : Entry} {paths : List Path}

theorem grows_of_publish (proper : ∀ drawing ∈ drawings, FileName.IsProper drawing.fileName)
    (nonempty : drawings ≠ []) (published : publish output drawings tree = .ok paths after) :
    tree.Grows after := by
  rcases Action.bind_eq_ok_iff.1 published with ⟨_, prepared, made, written⟩
  rcases enters_of_writes proper nonempty written with ⟨home, enters⟩
  rcases receives_of_writes proper enters written with ⟨_, receives⟩
  exact (Action.makesFolders_of_makeFolder made).grows.trans receives.grows

/-- To publish drawings where they are published already changes nothing. -/
theorem publish_again (wellFormed : after.WellFormed)
    (proper : ∀ drawing ∈ drawings, FileName.IsProper drawing.fileName) (nonempty : drawings ≠ [])
    (published : publish output drawings tree = .ok paths after) :
    publish output drawings after = .ok paths after := by
  rcases Action.bind_eq_ok_iff.1 published with ⟨_, prepared, made, written⟩
  rcases enters_of_writes proper nonempty written with ⟨home, enters⟩
  rcases receives_of_writes proper enters written with ⟨_, receives⟩
  apply Action.bind_eq_ok_iff.2
  refine ⟨(), after, Action.makeFolder_again made (receives.grows.enters enters), ?_⟩
  exact writes_again wellFormed proper enters written

end ProcessChain
