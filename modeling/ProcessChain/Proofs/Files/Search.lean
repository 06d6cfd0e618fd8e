import ProcessChain.Proofs.Files.Actions
import ProcessChain.Proofs.Files.Ascending

/-!
# The search for sources

What a search has to find is told by what there is in the folder: the files at any depth that no
hidden name leads to and whose names end in a wanted extension (`Entry.IsSource`). A search finds
each of them once, in ascending order of the paths, and nothing else. It does so whenever the folder
can be read and every folder that it comes to can be entered by its path (`Path.Reads`).

The entries of a folder come in no particular order. Trees that differ only in the order of entries,
in any folder and at any depth (`Entry.Rearranged`), have the same view, and a search depends on
nothing else. So it comes to the same in both (`Settings.sources_iff_and_of_rearranged`).
-/

namespace ProcessChain

namespace Files

namespace FileName

/-- An extension is the text after the last dot of a name. -/
def EndsIn (name : String) (extension : List Char) : Prop :=
  '.' ∉ extension ∧ ∃ before, name.toList = before ++ '.' :: extension

variable {name : String} {before extension : List Char}

theorem split_of_notMem {name : List Char} (dotless : '.' ∉ name) : split name = (name, none) := by
  have dropped : name.reverse.dropWhile (· ≠ '.') = [] := by
    apply List.dropWhile_eq_nil_iff.2
    intro character listed
    apply decide_eq_true
    rintro rfl
    exact dotless (List.mem_reverse.1 listed)
  simp only [split, dropped]

theorem split_append_dot (nonempty : before ≠ []) (dotless : '.' ∉ extension) :
    split (before ++ '.' :: extension) = (before, some extension) := by
  have reversed : (before ++ '.' :: extension).reverse =
      extension.reverse ++ '.' :: before.reverse := by
    simp
  have others : ∀ character ∈ extension.reverse, decide (character ≠ '.') = true := by
    intro character listed
    apply decide_eq_true
    rintro rfl
    exact dotless (List.mem_reverse.1 listed)
  have dropped : (before ++ '.' :: extension).reverse.dropWhile (· ≠ '.') =
      '.' :: before.reverse := by
    rw [reversed, List.dropWhile_append_of_pos others]
    rfl
  have taken : (before ++ '.' :: extension).reverse.takeWhile (· ≠ '.') = extension.reverse := by
    rw [reversed, List.takeWhile_append_of_pos others]
    simp
  have filled : before.reverse ≠ [] := mt List.reverse_eq_nil_iff.1 nonempty
  rcases List.exists_cons_of_ne_nil filled with ⟨first, rest, spelled⟩
  simp only [split, dropped, taken, spelled]
  rw [← spelled, List.reverse_reverse, List.reverse_reverse]

/-- The extension of a name that is not hidden is the text after its last dot. -/
theorem extension?_eq_some_iff {extension : String} (shown : isHidden name = false) :
    extension? name = some extension ↔ EndsIn name extension.toList := by
  have notFirst : name.toList.head? ≠ some '.' := of_decide_eq_false shown
  have cut {before extension : List Char} (spelled : name.toList = before ++ '.' :: extension)
      (dotless : '.' ∉ extension) : extension? name = some (String.ofList extension) := by
    have nonempty : before ≠ [] := by
      rintro rfl
      simp [spelled] at notFirst
    rw [extension?, spelled, split_append_dot nonempty dotless]
    rfl
  constructor
  · intro found
    by_cases dotted : '.' ∈ name.toList
    · rcases List.eq_append_cons_of_mem (List.mem_reverse.2 dotted) with
        ⟨after, before, reversed, dotless⟩
      have spelled : name.toList = before.reverse ++ '.' :: after.reverse := by
        rw [← List.reverse_reverse name.toList, reversed]
        simp
      have dotlessAfter : '.' ∉ after.reverse := mt List.mem_reverse.1 dotless
      rw [cut spelled dotlessAfter, Option.some.injEq] at found
      rw [← found, String.toList_ofList]
      exact ⟨dotlessAfter, _, spelled⟩
    · rw [extension?, split_of_notMem dotted] at found
      cases found
  · rintro ⟨dotless, before, spelled⟩
    rw [cut spelled dotless, String.ofList_toList]

end FileName

/-- A file of a name is wanted: there are no wanted extensions, or its own is one of them, but for
the dots that they are written with. -/
def Wanted (extensions : List String) (name : String) : Prop :=
  extensions = [] ∨ ∃ wanted ∈ extensions, FileName.EndsIn name (bareExtension wanted)

theorem isWanted_iff {extensions : List String} {name : String}
    (shown : FileName.isHidden name = false) :
    isWanted extensions name = true ↔ Wanted extensions name := by
  unfold isWanted Wanted
  rw [Bool.or_eq_true, List.isEmpty_iff]
  apply or_congr_right
  cases found : FileName.extension? name with
  | none =>
      have extensionless (extension : List Char) : ¬ FileName.EndsIn name extension := by
        intro ends
        rw [← String.toList_ofList (l := extension), ← FileName.extension?_eq_some_iff shown,
          found] at ends
        cases ends
      simp [extensionless]
  | some extension =>
      have ends (wanted : String) : FileName.EndsIn name (bareExtension wanted) ↔
          bareExtension wanted = extension.toList := by
        rw [← String.toList_ofList (l := bareExtension wanted),
          ← FileName.extension?_eq_some_iff shown, found, Option.some.injEq, eq_comm,
          String.toList_inj]
      simp [ends]

namespace Entry

/-- A wanted file is at a location below a folder, and no hidden name leads to it. -/
structure IsSource (extensions : List String) (found : Entry) (location : Location) : Prop where
  isFile : ∃ contents, found.find? location = some (.file contents)
  shown : ∀ name ∈ location, FileName.isHidden name = false
  wanted : ∃ name, location.getLast? = some name ∧ Wanted extensions name

variable {tree other found : Entry} {location : Location} {extensions : List String}

theorem mem_sources_iff_isSource (wellFormed : tree.WellFormed) :
    location ∈ tree.sources extensions ↔ tree.IsSource extensions location := by
  rw [mem_sources_iff, mem_visibleFiles_iff wellFormed, Option.any_eq_true]
  constructor
  · rintro ⟨⟨isFile, shown⟩, name, last, wanted⟩
    exact ⟨isFile, shown, name, last,
      (isWanted_iff (shown name (List.mem_of_getLast? last))).1 wanted⟩
  · rintro ⟨isFile, shown, name, last, wanted⟩
    exact ⟨⟨isFile, shown⟩, name, last,
      (isWanted_iff (shown name (List.mem_of_getLast? last))).2 wanted⟩

/-! ## Trees with the same view -/

theorem at?_append (first rest : Location) (tree : Entry) :
    tree.at? (first ++ rest) = (tree.find? first).bind (·.at? rest) := by
  unfold at?
  rw [find?_append]
  cases tree.find? first <;> rfl

theorem step_eq_of_at?_eq (same : ∀ location, other.at? location = tree.at? location)
    (location : Location) (next : Step) : other.step location next = tree.step location next := by
  have there := same location
  unfold at? at there
  unfold step
  cases ofTree : tree.find? location with
  | none =>
      cases ofOther : other.find? location with
      | none => rfl
      | some entry => simp [ofTree, ofOther] at there
  | some entry =>
      cases ofOther : other.find? location with
      | none => simp [ofTree, ofOther] at there
      | some otherEntry =>
          rw [ofTree, ofOther] at there
          cases entry <;> cases otherEntry <;> simp [kind] at there ⊢

theorem follow_eq_of_at?_eq (same : ∀ location, other.at? location = tree.at? location)
    (steps : List Step) : other.follow steps = tree.follow steps := by
  have sameStep : other.step = tree.step := by
    funext location next
    exact step_eq_of_at?_eq same location next
  unfold follow
  rw [sameStep]

theorem isSource_iff_of_at?_eq (same : ∀ location, other.at? location = tree.at? location) :
    other.IsSource extensions location ↔ tree.IsSource extensions location := by
  have sameFile (contents : ByteArray) :
      other.find? location = some (file contents) ↔ tree.find? location = some (file contents) := by
    rw [← at?_eq_file_iff, ← at?_eq_file_iff, same]
  constructor
  · rintro ⟨⟨contents, isFile⟩, shown, wanted⟩
    exact ⟨⟨contents, (sameFile contents).1 isFile⟩, shown, wanted⟩
  · rintro ⟨⟨contents, isFile⟩, shown, wanted⟩
    exact ⟨⟨contents, (sameFile contents).2 isFile⟩, shown, wanted⟩

theorem sources_eq_of_at?_eq (wellFormed : tree.WellFormed) (otherWellFormed : other.WellFormed)
    (same : ∀ location, other.at? location = tree.at? location) :
    other.sources extensions = tree.sources extensions := by
  apply sources_eq_of_mem_iff wellFormed otherWellFormed
  intro location
  rw [mem_sources_iff_isSource wellFormed, mem_sources_iff_isSource otherWellFormed,
    isSource_iff_of_at?_eq same]

/-! ## The order of entries -/

/-- Trees differ only in the order in which the entries of folders are listed. -/
inductive Rearranged : Entry → Entry → Prop where
  | refl (tree : Entry) : Rearranged tree tree
  | listed {entries others : List (String × Entry)} (perm : entries.Perm others) :
      Rearranged (folder entries) (folder others)
  | inside {before after : List (String × Entry)} {name : String} {entry other : Entry}
      (deeper : Rearranged entry other) :
      Rearranged (folder (before ++ (name, entry) :: after))
        (folder (before ++ (name, other) :: after))
  | trans {tree middle other : Entry} (first : Rearranged tree middle)
      (second : Rearranged middle other) : Rearranged tree other

theorem lookup_append_cons {before after : List (String × Entry)} {name sought : String}
    {entry : Entry} :
    (before ++ (name, entry) :: after).lookup sought =
      (before.lookup sought).or (if sought = name then some entry else after.lookup sought) := by
  induction before with
  | nil =>
      rw [List.nil_append, List.lookup_cons]
      by_cases same : sought = name
      · simp [same]
      · have differs : (sought == name) = false := beq_eq_false_iff_ne.2 same
        simp [same, differs]
  | cons first rest ih =>
      rw [List.cons_append, List.lookup_cons, List.lookup_cons, ih]
      cases sought == first.1 <;> rfl

/-- The order of entries makes no difference to the view of a tree. -/
theorem Rearranged.wellFormed_and_at?_eq (rearranged : Rearranged tree other)
    (wellFormed : tree.WellFormed) :
    other.WellFormed ∧ ∀ location, other.at? location = tree.at? location := by
  induction rearranged with
  | refl => exact ⟨wellFormed, fun _ => rfl⟩
  | @listed entries others perm =>
      rcases wellFormed_folder_iff.1 wellFormed with ⟨distinct, parts⟩
      have otherDistinct : (others.map Prod.fst).Nodup :=
        (perm.map Prod.fst).nodup_iff.1 distinct
      refine ⟨wellFormed_folder_iff.2 ⟨otherDistinct, ?_⟩, ?_⟩
      · exact fun item listed => parts item (perm.mem_iff.2 listed)
      · intro location
        cases location with
        | nil => simp [at?, kind]
        | cons name rest =>
            have sameEntry : others.lookup name = entries.lookup name := by
              apply Option.ext
              intro entry
              rw [lookup_eq_some_iff distinct, lookup_eq_some_iff otherDistinct, perm.mem_iff]
            rw [at?_cons, at?_cons, sameEntry]
  | @inside before after name entry other _ ih =>
      rcases wellFormed_folder_iff.1 wellFormed with ⟨distinct, parts⟩
      rcases ih (parts (name, entry) (by simp)).2 with ⟨otherWellFormed, same⟩
      constructor
      · apply wellFormed_folder_iff.2
        refine ⟨by simpa using distinct, ?_⟩
        intro item listed
        rcases List.mem_append.1 listed with earlier | later
        · exact parts item (List.mem_append_left _ earlier)
        · rcases List.mem_cons.1 later with rfl | later
          · exact ⟨(parts (name, entry) (by simp)).1, otherWellFormed⟩
          · exact parts item (List.mem_append_right _ (List.mem_cons_of_mem _ later))
      · intro location
        cases location with
        | nil => simp [at?, kind]
        | cons sought rest =>
            rw [at?_cons, at?_cons, lookup_append_cons, lookup_append_cons]
            cases before.lookup sought with
            | some found => rfl
            | none => by_cases named : sought = name <;> simp [named, same]
  | trans _ _ first second =>
      rcases first wellFormed with ⟨middleWellFormed, sameFirst⟩
      rcases second middleWellFormed with ⟨otherWellFormed, sameSecond⟩
      exact ⟨otherWellFormed, fun location => (sameSecond location).trans (sameFirst location)⟩

end Entry

/-! ## Paths below a folder -/

namespace Path

variable {folder : Path} {tree found : Entry} {location : Location} {fault : PathFault}

theorem text_below_ne (nonempty : folder.text ≠ "") (location : Location) :
    (folder.below location).text ≠ "" := by
  induction location generalizing folder with
  | nil => exact nonempty
  | cons name rest ih =>
      apply ih
      unfold join
      split
      · next elsewhere =>
          rintro rfl
          simp [isAbsolute] at elsewhere
      · split <;> simp [nonempty]

theorem eq_unusable_of_check (nonempty : folder.text ≠ "") (failed : folder.check = .error fault) :
    fault = .unusable := by
  unfold check at failed
  rw [if_neg nonempty] at failed
  split at failed <;> cases failed
  rfl

/-- A folder can be read, and so can every folder in it that no hidden name leads to: its path can
be used to enter it. -/
structure Reads (folder : Path) (tree found : Entry) : Prop where
  find_eq : folder.find tree = .ok found
  isFolder : found.at? [] = some .folder
  enters : ∀ location, found.at? location = some .folder →
    (∀ name ∈ location, FileName.isHidden name = false) → (folder.below location).check = .ok ()

end Path

/-- Some files are the wanted files in a folder, each of them once and in ascending order. -/
structure AreSources (extensions : List String) (folder : Path) (found : Entry)
    (files : List SourceFile) : Prop where
  mem_iff : ∀ file, file ∈ files ↔
    ∃ location, found.IsSource extensions location ∧ file = .below folder location
  ascending : files.Pairwise fun first second => first.path.Precedes second.path

variable {folder : Path} {tree other found : Entry} {files : List SourceFile}
  {extensions : List String}

theorem Entry.WellFormed.of_find (wellFormed : tree.WellFormed)
    (there : folder.find tree = .ok found) : found.WellFormed := by
  rcases Path.find_eq_ok_iff.1 there with ⟨_, _, _, present⟩
  exact wellFormed.find? present

theorem AreSources.unique {others : List SourceFile}
    (first : AreSources extensions folder found files)
    (second : AreSources extensions folder found others) : files = others := by
  have sameMembers (file : SourceFile) : file ∈ files ↔ file ∈ others := by
    rw [first.mem_iff, second.mem_iff]
  have : Std.Irrefl fun first second : SourceFile => first.path.Precedes second.path :=
    ⟨fun file => file.path.not_precedes_self⟩
  exact first.ascending.eq_of_mem_iff second.ascending sameMembers

theorem AreSources.nodup_paths
    (areSources : AreSources extensions folder found files) :
    (files.map (·.path)).Nodup := by
  apply List.pairwise_map.2
  apply areSources.ascending.imp
  intro first second before same
  rw [same] at before
  exact second.path.not_precedes_self before

theorem areSources_sources (wellFormed : found.WellFormed) :
    AreSources extensions folder found
      ((found.sources extensions).map (SourceFile.below folder)) where
  mem_iff := by
    intro file
    simp only [List.mem_map, Entry.mem_sources_iff_isSource wellFormed, eq_comm]
  ascending := Entry.ascending_below folder wellFormed

/-- A search succeeds exactly if the folder and those in it can be read, and then it finds its
sources. -/
theorem sourcesIn_eq_ok_iff_reads (wellFormed : tree.WellFormed) :
    sourcesIn extensions folder tree = .ok files ↔
      ∃ found, folder.Reads tree found ∧ AreSources extensions folder found files := by
  rw [sourcesIn_eq_ok_iff]
  constructor
  · rintro ⟨entries, there, checked, rfl⟩
    have inside := wellFormed.of_find there
    refine ⟨_, ⟨there, by simp [Entry.at?, Entry.kind], ?_⟩, areSources_sources inside⟩
    intro location isFolder shown
    exact checked location ((Entry.mem_visibleFolders_iff inside).2 ⟨isFolder, shown⟩)
  · rintro ⟨found, reads, areSources⟩
    rcases Entry.at?_eq_folder_iff.1 reads.isFolder with ⟨entries, same⟩
    rw [Entry.find?_nil, Option.some.injEq] at same
    subst same
    have inside := wellFormed.of_find reads.find_eq
    refine ⟨entries, reads.find_eq, ?_, areSources.unique (areSources_sources inside)⟩
    intro location listed
    rcases (Entry.mem_visibleFolders_iff inside).1 listed with ⟨isFolder, shown⟩
    exact reads.enters location isFolder shown

/-- In trees with the same view a path leads to entries with the same view, or nowhere. -/
theorem Path.find_of_at?_eq (folder : Path)
    (same : ∀ location, other.at? location = tree.at? location) :
    (∃ fault, folder.find tree = .error fault ∧ folder.find other = .error fault) ∨
      ∃ found otherFound, folder.find tree = .ok found ∧ folder.find other = .ok otherFound ∧
        ∀ location, otherFound.at? location = found.at? location := by
  unfold find
  rw [Entry.follow_eq_of_at?_eq same]
  cases folder.check with
  | error fault => exact .inl ⟨fault, rfl, rfl⟩
  | ok _ =>
      cases tree.follow folder.fullSteps with
      | error fault => exact .inl ⟨fault, rfl, rfl⟩
      | ok start =>
          have inside (rest : Location) :
              (other.find? start).bind (·.at? rest) = (tree.find? start).bind (·.at? rest) := by
            rw [← Entry.at?_append, ← Entry.at?_append, same]
          cases ofTree : tree.find? start with
          | none =>
              cases ofOther : other.find? start with
              | none => exact .inl ⟨.missing, by simp [bind, Except.bind, ofTree],
                  by simp [bind, Except.bind, ofOther]⟩
              | some otherFound => simpa [ofTree, ofOther, Entry.at?] using inside []
          | some found =>
              cases ofOther : other.find? start with
              | none => simpa [ofTree, ofOther, Entry.at?] using inside []
              | some otherFound =>
                  refine .inr ⟨found, otherFound, by simp [bind, Except.bind, ofTree],
                    by simp [bind, Except.bind, ofOther], ?_⟩
                  simpa [ofTree, ofOther] using inside

/-- A search depends on nothing but the view of a tree. -/
theorem sourcesIn_eq_of_at?_eq (wellFormed : tree.WellFormed)
    (otherWellFormed : other.WellFormed)
    (same : ∀ location, other.at? location = tree.at? location) :
    sourcesIn extensions folder other = sourcesIn extensions folder tree := by
  rcases folder.find_of_at?_eq same with
    ⟨fault, failed, otherFailed⟩ | ⟨found, otherFound, there, otherThere, sameInside⟩
  · unfold sourcesIn
    rw [failed, otherFailed]
  · have foundWellFormed := wellFormed.of_find there
    have otherFoundWellFormed := otherWellFormed.of_find otherThere
    have sameFolders (location : Location) :
        location ∈ otherFound.visibleFolders ↔ location ∈ found.visibleFolders := by
      rw [Entry.mem_visibleFolders_iff foundWellFormed,
        Entry.mem_visibleFolders_iff otherFoundWellFormed, sameInside]
    have sameSources : otherFound.sources extensions = found.sources extensions :=
      Entry.sources_eq_of_at?_eq foundWellFormed otherFoundWellFormed sameInside
    have nonempty : folder.text ≠ "" := by
      rcases Path.find_eq_ok_iff.1 there with ⟨checked, _⟩
      exact (Path.usable_of_check checked).2
    have unusable (location : Location) (fault : PathFault)
        (failed : (folder.below location).check = .error fault) : fault = .unusable :=
      Path.eq_unusable_of_check (Path.text_below_ne nonempty location) failed
    have sameChecks := forM_eq_of_mem_iff unusable sameFolders
    have sameKind := sameInside []
    unfold sourcesIn
    rw [there, otherThere]
    cases found with
    | file contents =>
        cases otherFound with
        | file _ => rfl
        | folder _ => simp [Entry.at?, Entry.kind] at sameKind
    | folder entries =>
        cases otherFound with
        | file _ => simp [Entry.at?, Entry.kind] at sameKind
        | folder others =>
            simp only [bind, Except.bind]
            rw [sameChecks, sameSources]

end Files

open Files

namespace Settings

/-- A search comes to the wanted files of a folder, each of them once and in ascending order,
exactly if the folder can be read with those in it. The order in which entries are listed makes no
difference to what it comes to. -/
theorem sources_iff_and_of_rearranged (settings : Settings) (folder : Path) {tree : Entry}
    (wellFormed : tree.WellFormed) :
    (∀ files after, settings.sources folder tree = .ok files after ↔
      after = tree ∧ ∃ found, folder.Reads tree found ∧
        AreSources settings.extensions folder found files) ∧
    (∀ found, folder.Reads tree found →
      ∃ files, settings.sources folder tree = .ok files tree ∧ (files.map (·.path)).Nodup) ∧
    ∀ other, tree.Rearranged other →
      sourcesIn settings.extensions folder other = sourcesIn settings.extensions folder tree := by
  have outcome (files : List SourceFile) (after : Entry) :
      settings.sources folder tree = .ok files after ↔
        after = tree ∧ ∃ found, folder.Reads tree found ∧
          AreSources settings.extensions folder found files := by
    unfold sources
    rw [Action.look_eq_ok_iff, sourcesIn_eq_ok_iff_reads wellFormed, and_comm]
  refine ⟨outcome, ?_, ?_⟩
  · intro found reads
    have areSources : AreSources settings.extensions folder found _ :=
      areSources_sources (wellFormed.of_find reads.find_eq)
    exact ⟨_, (outcome _ tree).2 ⟨rfl, found, reads, areSources⟩, areSources.nodup_paths⟩
  · intro other rearranged
    rcases rearranged.wellFormed_and_at?_eq wellFormed with ⟨otherWellFormed, same⟩
    exact sourcesIn_eq_of_at?_eq wellFormed otherWellFormed same

def thicket : Entry :=
  .folder [("in", .folder [(".git", .folder [("hook.py", .file "# act: lint".toUTF8)]),
    ("a", .folder [("x.py", .file "# act: order".toUTF8)]), ("a-b.py", .file "".toUTF8),
    ("a.py", .file "# act: bill".toUTF8), ("notes", .file "".toUTF8)])]

def thicketReversed : Entry :=
  .folder [("in", .folder [("notes", .file "".toUTF8), ("a.py", .file "# act: bill".toUTF8),
    ("a-b.py", .file "".toUTF8), ("a", .folder [("x.py", .file "# act: order".toUTF8)]),
    (".git", .folder [("hook.py", .file "# act: lint".toUTF8)])])]

theorem sources_thicket :
    thicket.WellFormed ∧ thicket.Rearranged thicketReversed ∧
      ∃ files found, files.map (·.path.text) = ["in/a/x.py", "in/a-b.py", "in/a.py"] ∧
        Path.Reads ⟨"in"⟩ thicket found ∧ AreSources ["..py"] ⟨"in"⟩ found files ∧
        (files.map (·.path)).Nodup ∧ sourcesIn ["..py"] ⟨"in"⟩ thicketReversed = .ok files := by
  have proper : ∀ name ∈ ["in", ".git", "hook.py", "a", "x.py", "a-b.py", "a.py", "notes"],
      FileName.IsProper name := by
    decide +kernel
  have wellFormed : thicket.WellFormed := by
    simp [thicket, Entry.wellFormed_folder_iff, Entry.wellFormed_file, proper]
  have rearranged : thicket.Rearranged thicketReversed :=
    @Entry.Rearranged.inside [] [] "in" _ _ (.listed (List.reverse_perm _).symm)
  have searched : sourcesIn ["..py"] ⟨"in"⟩ thicket = .ok
      [.below ⟨"in"⟩ ["a", "x.py"], .below ⟨"in"⟩ ["a-b.py"], .below ⟨"in"⟩ ["a.py"]] := by
    apply sourcesIn_eq_ok_iff.2
    refine ⟨_, Path.find_eq_ok_iff.2 ⟨by decide +kernel, ["in"], by decide +kernel, rfl⟩, ?_, ?_⟩
    · decide +kernel
    · rw [Entry.sources_of_ascending (by decide +kernel)]
      decide +kernel
  rcases sources_iff_and_of_rearranged { extensions := ["..py"] } ⟨"in"⟩ wellFormed with
    ⟨outcome, complete, same⟩
  rcases (outcome _ thicket).1 (Action.look_eq_ok_iff.2 ⟨searched, rfl⟩) with
    ⟨_, found, reads, areSources⟩
  refine ⟨wellFormed, rearranged, _, found, ?_, reads, areSources, areSources.nodup_paths, ?_⟩
  · decide +kernel
  · rw [same thicketReversed rearranged]
    exact searched

end Settings

end ProcessChain
