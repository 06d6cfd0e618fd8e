import ProcessChain.Proofs.Files.Preparation
import ProcessChain.Proofs.Files.Visible
import ProcessChain.Proofs.Run.Faults

/-!
# Names of the flows of a folder

The flow of a file is named after a label: the stem of the file or, if another file has the same
stem, all names that lead to the file. The names of a label are written with dots between them, so
the name of a flow shows the pieces between dots and no more (`intercalate_eq_iff`): where one name
ends and the next begins cannot be told from dots in the names, and the extension is not shown.

Hence two files of a folder get flows of the same name in two cases: they differ in nothing but
their extensions, or their labels differ and have the same pieces
(`Settings.nodup_flowNames_iff_and_refused_iff`). Then the run refuses to draw the folder. Where no
name has a dot besides that of the extension, only the first case is left.
-/

namespace ProcessChain

namespace Files

namespace FileName

variable {name : String}

theorem split_prefix (name : List Char) : (split name).1 <+: name := by
  unfold split
  dsimp only
  split
  · exact List.prefix_refl name
  · exact List.prefix_refl name
  · next dot stem _ cut =>
      apply List.reverse_suffix.1
      rw [List.reverse_reverse]
      have rest := List.dropWhile_suffix (l := name.reverse) fun character => character ≠ '.'
      rw [cut] at rest
      exact (List.suffix_cons dot stem).trans rest

theorem split_ne_nil {name : List Char} (nonempty : name ≠ []) : (split name).1 ≠ [] := by
  unfold split
  dsimp only
  split
  · exact nonempty
  · exact nonempty
  · next dot stem notLeading cut =>
      intro none
      exact notLeading (List.reverse_eq_nil_iff.1 none)

/-- The stem of a name that is not hidden could be a name itself. -/
theorem isProper_stem (proper : IsProper name) (shown : isHidden name = false) :
    IsProper (stem name) := by
  have begins : (stem name).toList <+: name.toList := by
    simpa [stem] using split_prefix name.toList
  have filled : (stem name).toList ≠ [] := by
    simpa [stem] using split_ne_nil proper.toList_ne_nil
  have first : (stem name).toList.head? ≠ some '.' := by
    intro dot
    rcases List.head?_eq_some_iff.1 dot with ⟨rest, spelled⟩
    rcases begins with ⟨after, same⟩
    rw [spelled] at same
    simp [isHidden, ← same] at shown
  refine ⟨fun slash => proper.slashless (begins.subset slash), ?_⟩
  apply Step.ofPart?_eq_down_iff.2
  refine ⟨rfl, ?_, ?_, ?_⟩
  · intro same
    exact filled (by rw [same]; rfl)
  · intro same
    exact first (by rw [same]; rfl)
  · intro same
    exact first (by rw [same]; rfl)

end FileName

/-! ## Labels -/

/-- What stands between the dots of some names. -/
def pieces (label : List String) : List (List Char) :=
  label.flatMap fun name => name.toList.splitOn '.'

theorem toList_intercalate_cons {name : String} {rest : List String} (more : rest ≠ []) :
    (".".intercalate (name :: rest)).toList =
      name.toList ++ '.' :: (".".intercalate rest).toList := by
  rw [String.intercalate_cons_of_ne_nil more]
  simp

theorem splitOn_intercalate_eq_pieces {label : List String} (nonempty : label ≠ []) :
    (".".intercalate label).toList.splitOn '.' = pieces label := by
  induction label with
  | nil => exact absurd rfl nonempty
  | cons name rest ih =>
      by_cases last : rest = []
      · simp [last, pieces]
      · rw [toList_intercalate_cons last, List.splitOn_append_cons_self, ih last]
        rfl

/-- Of names with dots between them only the pieces can be told. -/
theorem intercalate_eq_iff {label other : List String} (nonempty : label ≠ [])
    (otherNonempty : other ≠ []) :
    ".".intercalate label = ".".intercalate other ↔ pieces label = pieces other := by
  rw [← splitOn_intercalate_eq_pieces nonempty, ← splitOn_intercalate_eq_pieces otherNonempty]
  constructor
  · intro same
    rw [same]
  · intro same
    have joined := congrArg (List.intercalate ['.']) same
    rw [List.intercalate_splitOn, List.intercalate_splitOn] at joined
    exact String.toList_inj.1 joined

theorem pieces_of_dotless {label : List String} (dotless : ∀ name ∈ label, '.' ∉ name.toList) :
    pieces label = label.map String.toList := by
  induction label with
  | nil => rfl
  | cons name rest ih =>
      rcases List.forall_mem_cons.1 dotless with ⟨first, others⟩
      have ofRest := ih others
      unfold pieces at ofRest ⊢
      rw [List.flatMap_cons, List.splitOn_eq_singleton first, ofRest]
      rfl

namespace SourceFile

/-- The names that lead to the folder of a file. -/
def around (file : SourceFile) : List String :=
  file.route.dropLast

/-- Another one of some files has the same stem. -/
def SharesStem (files : List SourceFile) (file : SourceFile) : Prop :=
  ∃ other ∈ files, other ≠ file ∧ other.stem = file.stem

instance (files : List SourceFile) (file : SourceFile) : Decidable (file.SharesStem files) :=
  inferInstanceAs (Decidable (∃ other ∈ files, other ≠ file ∧ other.stem = file.stem))

/-- The names that the flow of a file is named after. -/
def label (files : List SourceFile) (file : SourceFile) : List String :=
  if file.SharesStem files then file.around ++ [file.stem] else [file.stem]

/-- Two files differ in nothing but their extensions. -/
structure Twins (first second : SourceFile) : Prop where
  ne : first ≠ second
  around_eq : first.around = second.around
  stem_eq : first.stem = second.stem

instance (first second : SourceFile) : Decidable (first.Twins second) :=
  decidable_of_iff (first ≠ second ∧ first.around = second.around ∧ first.stem = second.stem)
    ⟨fun ⟨ne, around_eq, stem_eq⟩ => ⟨ne, around_eq, stem_eq⟩,
      fun ⟨ne, around_eq, stem_eq⟩ => ⟨ne, around_eq, stem_eq⟩⟩

variable {files : List SourceFile} {file first second : SourceFile} {folder : Path}

theorem IsBelow.fileName?_eq (below : file.IsBelow folder) :
    file.path.fileName? = some (file.route.getLast below.nonempty) := by
  have spelled : file.path = folder.below file.route := congrArg SourceFile.path below.eq_below
  rw [spelled]
  exact Path.fileName?_below below.proper (List.getLast?_eq_some_getLast below.nonempty)

theorem IsBelow.exists_stem (below : file.IsBelow folder) :
    ∃ name, file.route.getLast? = some name ∧ file.stem = FileName.stem name ∧
      FileName.IsProper file.stem := by
  have last := List.getLast?_eq_some_getLast below.nonempty
  have listed := List.mem_of_getLast? last
  have stem : file.stem = FileName.stem (file.route.getLast below.nonempty) := by
    simp [SourceFile.stem, below.fileName?_eq]
  refine ⟨_, last, stem, ?_⟩
  rw [stem]
  exact FileName.isProper_stem (below.proper _ listed) (below.shown _ listed)

theorem one_lt_countP_iff (distinct : files.Nodup) (listed : file ∈ files) :
    1 < files.countP (·.stem = file.stem) ↔ file.SharesStem files := by
  have counted : files.countP (·.stem = file.stem) =
      (files.erase file).countP (·.stem = file.stem) + 1 := by
    rw [(List.perm_cons_erase listed).countP_eq, List.countP_cons_of_pos (by simp)]
  have others : 0 < (files.erase file).countP (·.stem = file.stem) ↔ file.SharesStem files := by
    rw [List.countP_pos_iff]
    simp only [SharesStem, distinct.mem_erase_iff, decide_eq_true_eq]
    constructor
    · rintro ⟨other, ⟨different, member⟩, same⟩
      exact ⟨other, member, different, same⟩
    · rintro ⟨other, member, different, same⟩
      exact ⟨other, ⟨different, member⟩, same⟩
  rw [← others]
  omega

theorem label_ne_nil : file.label files ≠ [] := by
  unfold label
  split <;> simp

theorem IsBelow.flowName_eq (below : file.IsBelow folder) (distinct : files.Nodup)
    (listed : file ∈ files) : file.flowName files = ".".intercalate (file.label files) := by
  rcases below.exists_stem with ⟨name, last, stem, proper⟩
  rw [stem] at proper
  have qualified : file.qualifiedName = ".".intercalate (file.around ++ [file.stem]) := by
    simp [qualifiedName, around, last, stem, proper.goesDown, Step.name?]
  unfold flowName label
  simp only [one_lt_countP_iff distinct listed]
  split
  · exact qualified
  · simp

/-- Different files have the same label only if they are twins. -/
theorem label_eq_iff (firstListed : first ∈ files) (secondListed : second ∈ files)
    (different : first ≠ second) :
    first.label files = second.label files ↔ first.Twins second := by
  have share (same : first.stem = second.stem) :
      first.SharesStem files ∧ second.SharesStem files :=
    ⟨⟨second, secondListed, different.symm, same.symm⟩, ⟨first, firstListed, different, same⟩⟩
  constructor
  · intro same
    have stems : first.stem = second.stem := by
      have lasts := congrArg List.getLast? same
      unfold label at lasts
      split at lasts <;> split at lasts <;> simpa using lasts
    rcases share stems with ⟨firstShares, secondShares⟩
    simp only [label, firstShares, secondShares, if_true, stems] at same
    exact ⟨different, List.append_cancel_right same, stems⟩
  · intro twins
    rcases share twins.stem_eq with ⟨firstShares, secondShares⟩
    simp only [label, firstShares, secondShares, if_true, twins.around_eq, twins.stem_eq]

/-- The names of flows tell some files apart. -/
structure ToldApart (files : List SourceFile) : Prop where
  not_twins : ∀ first ∈ files, ∀ second ∈ files, ¬ first.Twins second
  pieces_ne : ∀ first ∈ files, ∀ second ∈ files, first.label files ≠ second.label files →
    pieces (first.label files) ≠ pieces (second.label files)

theorem nodup_flowNames_iff (distinct : files.Nodup)
    (below : ∀ file ∈ files, file.IsBelow folder) :
    (files.map (·.flowName files)).Nodup ↔ ToldApart files := by
  have sameName (first : SourceFile) (firstListed : first ∈ files) (second : SourceFile)
      (secondListed : second ∈ files) : first.flowName files = second.flowName files ↔
        pieces (first.label files) = pieces (second.label files) := by
    rw [(below first firstListed).flowName_eq distinct firstListed,
      (below second secondListed).flowName_eq distinct secondListed,
      intercalate_eq_iff label_ne_nil label_ne_nil]
  rw [List.nodup_map_iff_inj_on distinct]
  constructor
  · intro injective
    constructor
    · intro first firstListed second secondListed twins
      have labels := (label_eq_iff firstListed secondListed twins.ne).2 twins
      apply twins.ne
      apply injective first firstListed second secondListed
      exact (sameName first firstListed second secondListed).2 (by rw [labels])
    · intro first firstListed second secondListed different same
      apply different
      have names := (sameName first firstListed second secondListed).2 same
      rw [injective first firstListed second secondListed names]
  · rintro ⟨notTwins, apart⟩ first firstListed second secondListed names
    by_contra different
    have same := (sameName first firstListed second secondListed).1 names
    have labels : first.label files = second.label files := by
      by_contra labelsDiffer
      exact apart first firstListed second secondListed labelsDiffer same
    exact notTwins first firstListed second secondListed
      ((label_eq_iff firstListed secondListed different).1 labels)

/-- Without dots in names and stems, only twins are not told apart. -/
theorem toldApart_iff_of_dotless
    (dotless : ∀ file ∈ files, ∀ name ∈ file.around ++ [file.stem], '.' ∉ name.toList) :
    ToldApart files ↔ ∀ first ∈ files, ∀ second ∈ files, ¬ first.Twins second := by
  have labelDotless (file : SourceFile) (listed : file ∈ files) :
      ∀ name ∈ file.label files, '.' ∉ name.toList := by
    intro name inLabel
    apply dotless file listed name
    unfold label at inLabel
    split at inLabel
    · exact inLabel
    · exact List.mem_append_right _ inLabel
  constructor
  · exact ToldApart.not_twins
  · intro notTwins
    refine ⟨notTwins, ?_⟩
    intro first firstListed second secondListed different same
    rw [pieces_of_dotless (labelDotless first firstListed),
      pieces_of_dotless (labelDotless second secondListed)] at same
    have injective : Function.Injective String.toList := fun _ _ => String.toList_injective
    exact different (List.map_injective_iff.2 injective same)

end SourceFile

end Files

open Files

namespace Settings

variable {settings : Settings} {input output : Path} {tree after : Entry}
  {files : List SourceFile} {sources : List (String × String)} {name : String}

/-- A folder is refused for a name only if two flows have it. -/
theorem one_lt_count_of_refused (found : sourcesIn settings.extensions input tree = .ok files)
    (refused : settings.drawFolder input output tree =
      .error (.content (.duplicateFlow name)) after) :
    1 < (files.map (·.flowName files)).count name := by
  have failed : settings.run output (.folder input) tree =
      .error (.content (.duplicateFlow name)) after := refused
  rcases content_fails_iff.1 failed with ⟨cannot, _⟩
  cases cannot with
  | draw foundAgain read failed =>
      cases Except.ok.inj (found.symm.trans foundAgain)
      rw [← read.map_fst]
      exact one_lt_count_of_draw_error failed

/-- If the regions of all files are bracketed, the folder is refused exactly if two flows have the
same name. -/
theorem refused_iff (found : sourcesIn settings.extensions input tree = .ok files)
    (read : ReadAs tree files sources)
    (bracketed : ∀ source ∈ sources,
      settings.language.Bracketed false (settings.comments source.2)) :
    (∃ name, settings.drawFolder input output tree =
        .error (.content (.duplicateFlow name)) tree) ↔
      ¬ (files.map (·.flowName files)).Nodup := by
  constructor
  · rintro ⟨name, refused⟩ distinct
    have repeated := one_lt_count_of_refused found refused
    have once := List.nodup_iff_count_le_one.1 distinct name
    omega
  · intro notDistinct
    rw [← read.map_fst] at notDistinct
    rcases (exists_draw_error_duplicateFlow_iff bracketed).2 notDistinct with ⟨name, failed⟩
    have cannot : settings.CannotDraw tree (.folder input) (.content (.duplicateFlow name)) :=
      .draw found read failed
    exact ⟨name, run_fails_iff.2 (.inl ⟨cannot, rfl⟩)⟩

/-- The sources in a folder are distinct files, but their flows have different names only if the
files are told apart by them. Otherwise the folder is refused, whatever the files have in them. -/
theorem nodup_flowNames_iff_and_refused_iff (wellFormed : tree.WellFormed)
    (found : sourcesIn settings.extensions input tree = .ok files) :
    files.Nodup ∧ ((files.map (·.flowName files)).Nodup ↔ SourceFile.ToldApart files) ∧
      ((∀ file ∈ files, ∀ name ∈ file.around ++ [file.stem], '.' ∉ name.toList) →
        ((files.map (·.flowName files)).Nodup ↔
          ∀ first ∈ files, ∀ second ∈ files, ¬ first.Twins second)) ∧
      (∀ name after,
        settings.drawFolder input output tree = .error (.content (.duplicateFlow name)) after →
          1 < (files.map (·.flowName files)).count name) ∧
      ∀ sources, ReadAs tree files sources →
        (∀ source ∈ sources,
          settings.language.Bracketed false (settings.comments source.2)) →
        ((∃ name, settings.drawFolder input output tree =
            .error (.content (.duplicateFlow name)) tree) ↔ ¬ SourceFile.ToldApart files) := by
  rcases sourcesIn_found wellFormed found with ⟨distinct, below⟩
  have named := SourceFile.nodup_flowNames_iff distinct below
  refine ⟨distinct, named, ?_, ?_, ?_⟩
  · intro dotless
    rw [named, SourceFile.toldApart_iff_of_dotless dotless]
  · intro name after refused
    exact one_lt_count_of_refused found refused
  · intro sources read bracketed
    rw [refused_iff found read bracketed, named]

def stemTwice : Entry :=
  .folder [("in", .folder [("a.py", .file "# act: order".toUTF8),
    ("x", .folder [("a.py", .file "# act: bill".toUTF8)])])]

theorem nodup_flowNames_stemTwice :
    ∃ files, stemTwice.WellFormed ∧ sourcesIn [] ⟨"in"⟩ stemTwice = .ok files ∧
      files.map (·.stem) = ["a", "a"] ∧ (files.map (·.flowName files)).Nodup ∧
      ∀ name after, drawFolder {} ⟨"in"⟩ ⟨"out"⟩ stemTwice ≠
        .error (.content (.duplicateFlow name)) after := by
  have proper : ∀ name ∈ ["in", "a.py", "x"], FileName.IsProper name := by decide +kernel
  have wellFormed : stemTwice.WellFormed := by
    simp [stemTwice, Entry.wellFormed_folder_iff, Entry.wellFormed_file, proper]
  have found : sourcesIn [] ⟨"in"⟩ stemTwice =
      .ok [.below ⟨"in"⟩ ["a.py"], .below ⟨"in"⟩ ["x", "a.py"]] := by
    apply sourcesIn_eq_ok_iff.2
    refine ⟨_, Path.find_eq_ok_iff.2 ⟨by decide +kernel, ["in"], by decide +kernel, rfl⟩, ?_, ?_⟩
    · decide +kernel
    · rw [Entry.sources_of_ascending (by decide +kernel)]
      decide +kernel
  rcases @nodup_flowNames_iff_and_refused_iff {} ⟨"in"⟩ ⟨"out"⟩ stemTwice _ wellFormed found with
    ⟨_, _, dotless, refused, _⟩
  have distinct := (dotless (by decide +kernel)).2 (by decide +kernel)
  refine ⟨_, wellFormed, found, by decide +kernel, distinct, ?_⟩
  intro name after failed
  have repeated := refused name after failed
  have once := List.nodup_iff_count_le_one.1 distinct name
  omega

def twins : Entry :=
  .folder [("in", .folder [("a.py", .file "# act: order".toUTF8),
    ("a.rs", .file "// act: bill".toUTF8)])]

/-- Two files that differ in their extensions become flows of the same name. -/
theorem not_nodup_flowNames_twins :
    ∃ files, twins.WellFormed ∧ sourcesIn [] ⟨"in"⟩ twins = .ok files ∧ files.Nodup ∧
      files.map (·.flowName files) = ["a", "a"] ∧
      ¬ (files.map (·.flowName files)).Nodup ∧
      drawFolder {} ⟨"in"⟩ ⟨"out"⟩ twins = .error (.content (.duplicateFlow "a")) twins := by
  have proper : ∀ name ∈ ["in", "a.py", "a.rs"], FileName.IsProper name := by decide +kernel
  have wellFormed : twins.WellFormed := by
    simp [twins, Entry.wellFormed_folder_iff, Entry.wellFormed_file, proper]
  have found : sourcesIn [] ⟨"in"⟩ twins =
      .ok [.below ⟨"in"⟩ ["a.py"], .below ⟨"in"⟩ ["a.rs"]] := by
    apply sourcesIn_eq_ok_iff.2
    refine ⟨_, Path.find_eq_ok_iff.2 ⟨by decide +kernel, ["in"], by decide +kernel, rfl⟩, ?_, ?_⟩
    · decide +kernel
    · rw [Entry.sources_of_ascending (by decide +kernel)]
      decide +kernel
  have read : ReadAs twins [.below ⟨"in"⟩ ["a.py"], .below ⟨"in"⟩ ["a.rs"]]
      [("a", "# act: order"), ("a", "// act: bill")] := by
    exact .cons (by decide +kernel) (.cons (by decide +kernel) .nil)
  have failed : draw {} [("a", "# act: order"), ("a", "// act: bill")] =
      .error (.duplicateFlow "a") := by
    decide +kernel
  have cannot : CannotDraw {} twins (.folder ⟨"in"⟩) (.content (.duplicateFlow "a")) :=
    .draw found read failed
  refine ⟨_, wellFormed, found, by decide +kernel, by decide +kernel, by decide +kernel, ?_⟩
  exact run_fails_iff.2 (.inl ⟨cannot, rfl⟩)

end Settings

end ProcessChain
