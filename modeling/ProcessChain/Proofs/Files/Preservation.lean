import ProcessChain.Proofs.Files.Publication

/-!
# Well-formed trees stay well-formed

Following a path from the first folder of a tree only adds names that the path goes through, and
these are proper. So an entry that is put where a path leads keeps the names in every folder proper
and distinct, and so does everything that a run changes: the folders that it makes and the drawings
that it writes (`Settings.wellFormed_of_run`).
-/

namespace ProcessChain

open Files

namespace Files

namespace Entry

variable {tree placed entry after : Entry} {entries : List (String × Entry)} {location : Location}
  {steps : List Step} {name : String}

/-! ## Putting an entry at a location -/

theorem wellFormed_emptyFolder : emptyFolder.WellFormed :=
  wellFormed_folder_iff.2 ⟨List.nodup_nil, by simp⟩

theorem eq_or_mem_of_mem_assign {item : String × Entry}
    (listed : item ∈ assign name entry entries) : item = (name, entry) ∨ item ∈ entries := by
  induction entries with
  | nil => exact .inl (List.mem_singleton.1 listed)
  | cons first rest ih =>
      unfold assign at listed
      split at listed
      · rcases List.mem_cons.1 listed with same | later
        · exact .inl same
        · exact .inr (List.mem_cons_of_mem _ later)
      · rcases List.mem_cons.1 listed with same | later
        · exact .inr (List.mem_cons.2 (.inl same))
        · exact (ih later).imp_right (List.mem_cons_of_mem _)

/-- The names of a folder stay as they are, or one comes after them. -/
theorem map_fst_assign (name : String) (entry : Entry) (entries : List (String × Entry)) :
    (assign name entry entries).map Prod.fst =
      if name ∈ entries.map Prod.fst then entries.map Prod.fst
      else entries.map Prod.fst ++ [name] := by
  induction entries with
  | nil => rfl
  | cons first rest ih =>
      rcases first with ⟨other, old⟩
      unfold assign
      by_cases same : other = name
      · simp [same]
      · rw [if_neg same, List.map_cons, ih]
        by_cases later : name ∈ rest.map Prod.fst
        · simp [later]
        · simp [later, Ne.symm same]

theorem WellFormed.assign (wellFormed : (folder entries).WellFormed)
    (proper : FileName.IsProper name) (entryWellFormed : entry.WellFormed) :
    (folder (assign name entry entries)).WellFormed := by
  rcases wellFormed_folder_iff.1 wellFormed with ⟨distinct, parts⟩
  apply wellFormed_folder_iff.2
  constructor
  · rw [map_fst_assign]
    split
    · exact distinct
    · next absent =>
        rw [← List.concat_eq_append]
        exact (List.nodup_concat _ _).2 ⟨absent, distinct⟩
  · intro item listed
    rcases eq_or_mem_of_mem_assign listed with rfl | earlier
    · exact ⟨proper, entryWellFormed⟩
    · exact parts item earlier

theorem WellFormed.put (wellFormed : tree.WellFormed) (placedWellFormed : placed.WellFormed)
    (proper : ∀ name ∈ location, FileName.IsProper name) :
    (tree.put placed location).WellFormed := by
  fun_induction Entry.put tree placed location with
  | case1 => exact placedWellFormed
  | case2 => exact wellFormed
  | case3 entries placed name => exact wellFormed.assign (proper name (by simp)) placedWellFormed
  | case4 => exact wellFormed
  | case5 entries placed name next rest entry present ih =>
      rcases List.forall_mem_cons.1 proper with ⟨first, others⟩
      rcases wellFormed_folder_iff.1 wellFormed with ⟨distinct, parts⟩
      have inside := (parts _ ((lookup_eq_some_iff distinct).1 present)).2
      exact wellFormed.assign first (ih inside placedWellFormed others)

/-! ## Following steps -/

/-- What holds of each name that steps can go down to holds of every name that leads to where they
lead. -/
theorem forall_mem_of_follow {holds : String → Prop} (led : tree.follow steps = .ok location)
    (downs : ∀ name, .down name ∈ steps → name.utf8ByteSize ≤ nameLimit → holds name) :
    ∀ name ∈ location, holds name := by
  induction steps using List.reverseRecOn generalizing location with
  | nil =>
      cases led
      simp
  | append_singleton earlier last ih =>
      rcases follow_concat_eq_ok_iff.1 led with ⟨start, ledEarlier, _, leads⟩
      have before := ih ledEarlier fun name passed => downs name (List.mem_append_left _ passed)
      cases last with
      | stay =>
          have same : location = start := leads
          rwa [same]
      | up =>
          rcases leads with ⟨_, rfl⟩
          exact fun name listed => before name (List.dropLast_subset _ listed)
      | down name =>
          rcases leads with ⟨short, rfl⟩
          have last := downs name (by simp) short
          exact List.forall_mem_append.2 ⟨before, List.forall_mem_singleton.2 last⟩

/-- Only proper names lead to where steps lead that go down to proper names. -/
theorem proper_of_follow (led : tree.follow steps = .ok location)
    (proper : ∀ name, .down name ∈ steps → FileName.IsProper name) :
    ∀ name ∈ location, FileName.IsProper name :=
  forall_mem_of_follow led fun name passed _ => proper name passed

theorem WellFormed.ensureFolder (wellFormed : tree.WellFormed)
    (proper : ∀ name, .down name ∈ steps → FileName.IsProper name)
    (ensured : tree.ensureFolder steps = .ok after) : after.WellFormed := by
  rcases ensureFolder_eq_ok_iff.1 ensured with made | ⟨rfl, _⟩
  · rcases makeFolder_eq_ok_iff.1 made with ⟨_, location, led, _, rfl⟩
    exact wellFormed.put wellFormed_emptyFolder (proper_of_follow led proper)
  · exact wellFormed

end Entry

/-! ## Paths -/

namespace Path

variable {path : Path} {name : String} {tree after : Entry} {contents : ByteArray}

theorem isProper_of_mem_ancestors {way : List Step} (listed : way ∈ path.ancestors)
    (passed : .down name ∈ way) : FileName.IsProper name := by
  rcases List.mem_map.1 listed with ⟨count, _, rfl⟩
  have inMoves : .down name ∈ path.moves := List.mem_of_mem_take passed
  exact isProper_of_mem_steps (List.mem_filter.1 inMoves).1

theorem isProper_of_mem_fullSteps (passed : .down name ∈ path.fullSteps) :
    FileName.IsProper name := by
  apply isProper_of_mem_steps
  unfold fullSteps at passed
  split at passed
  · simpa using passed
  · exact passed

theorem wellFormed_of_write (wellFormed : tree.WellFormed)
    (written : path.write contents tree = .ok after) : after.WellFormed := by
  rcases write_eq_ok_iff.1 written with ⟨_, location, led, _, rfl⟩
  apply wellFormed.put (Entry.wellFormed_file contents)
  exact Entry.proper_of_follow led fun _ => isProper_of_mem_fullSteps

end Path

/-! ## Actions -/

namespace Action

variable {α β : Type} {property : Entry → Prop}

/-- If an action succeeds on a tree with a property, the tree that it leaves has the property. -/
def Keeps (property : Entry → Prop) (action : Action α) : Prop :=
  ∀ tree value after, property tree → action tree = .ok value after → property after

namespace Keeps

theorem pure (returned : α) : Keeps property (pure returned : Action α) := by
  intro tree value after holds succeeds
  rcases pure_eq_ok_iff.1 succeeds with ⟨_, rfl⟩
  exact holds

theorem bind {first : Action α} {next : α → Action β} (firstKeeps : Keeps property first)
    (nextKeeps : ∀ value, Keeps property (next value)) : Keeps property (first >>= next) := by
  intro tree result after holds succeeds
  rcases bind_eq_ok_iff.1 succeeds with ⟨value, reached, ofFirst, ofNext⟩
  exact nextKeeps value reached result after (firstKeeps tree value reached holds ofFirst) ofNext

theorem look (view : Entry → Except PathFault α) : Keeps property (look view) := by
  intro tree value after holds succeeds
  rcases look_eq_ok_iff.1 succeeds with ⟨_, rfl⟩
  exact holds

theorem change {update : Entry → Except PathFault Entry}
    (keeps : ∀ tree after, property tree → update tree = .ok after → property after) :
    Keeps property (change update) :=
  fun tree _ after holds succeeds => keeps tree after holds (change_eq_ok_iff.1 succeeds)

theorem mapM {step : α → Action β} (keeps : ∀ member, Keeps property (step member))
    (members : List α) : Keeps property (members.mapM step) := by
  induction members with
  | nil => exact pure []
  | cons member rest ih =>
      rw [List.mapM_cons]
      apply bind (keeps member)
      intro first
      apply bind ih
      intro others
      exact pure (first :: others)

theorem makeFolderIn {ways : List (List Step)}
    (proper : ∀ way ∈ ways, ∀ name, .down name ∈ way → FileName.IsProper name) :
    Keeps Entry.WellFormed (makeFolderIn ways) := by
  induction ways with
  | nil => exact pure ()
  | cons steps outer ih =>
      rcases List.forall_mem_cons.1 proper with ⟨stepsProper, outerProper⟩
      have ensure : Keeps Entry.WellFormed (Action.change (·.ensureFolder steps)) :=
        change fun _ _ wellFormed => wellFormed.ensureFolder stepsProper
      intro tree value after wellFormed succeeds
      unfold Action.makeFolderIn at succeeds
      split at succeeds
      · next ensured =>
          cases succeeds
          exact wellFormed.ensureFolder stepsProper ensured
      · exact bind (ih outerProper) (fun _ => ensure) tree value after wellFormed succeeds
      · cases succeeds

theorem makeFolder (path : Path) : Keeps Entry.WellFormed (makeFolder path) := by
  unfold Action.makeFolder
  split
  · exact pure ()
  · have proper : ∀ way ∈ path.steps :: path.ancestors, ∀ name, .down name ∈ way →
        FileName.IsProper name := by
      intro way listed name passed
      rcases List.mem_cons.1 listed with rfl | around
      · exact Path.isProper_of_mem_steps passed
      · exact Path.isProper_of_mem_ancestors around passed
    exact bind (look _) fun _ => makeFolderIn proper

theorem write (drawing : Drawing) (folder : Path) :
    Keeps Entry.WellFormed (drawing.write folder) := by
  have writeText : Keeps Entry.WellFormed
      (Action.writeText (folder.join drawing.fileName) drawing.contents) :=
    change fun _ _ => Path.wellFormed_of_write
  exact bind writeText fun _ => pure _

end Keeps

end Action

end Files

namespace Settings

variable {settings : Settings} {output : Path} {request : Request} {tree after : Entry}
  {paths : List Path}

/-- A run that succeeds leaves a well-formed tree well-formed. -/
theorem wellFormed_of_run (wellFormed : tree.WellFormed)
    (succeeds : settings.run output request tree = .ok paths after) : after.WellFormed := by
  rcases run_eq_ok_iff.1 succeeds with ⟨drawings, _, published⟩
  have keeps : Action.Keeps Entry.WellFormed (publish output drawings) :=
    .bind (.makeFolder output) fun _ => .mapM (fun drawing => .write drawing output) drawings
  exact keeps tree paths after wellFormed published

end Settings

end ProcessChain
