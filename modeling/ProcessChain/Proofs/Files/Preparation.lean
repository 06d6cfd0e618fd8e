import ProcessChain.Proofs.Files.Actions

/-!
# The preparation of a run on files

A run on files finds its sources, reads them all and draws them all in memory before it changes
anything. This preparation looks at the tree as it was before the run, and the tree is changed only
by what comes after it: the output folder is made and the drawings are written. So a run fails
either in its preparation, and leaves the tree as it was, or while it publishes drawings that were
all made, and then because of a path (`Settings.run_eq_error_iff`).
-/

namespace ProcessChain

open Files

/-- What a run on files is asked to draw. -/
inductive Request where
  /-- The files at some paths. -/
  | files (paths : List Path)
  /-- The wanted files in a folder. -/
  | folder (input : Path)

/-- The files are read as sources: each gets the name of its flow and the text it has in a tree. -/
def Files.ReadAs (tree : Entry) (files : List SourceFile) (sources : List (String × String)) :
    Prop :=
  List.Forall₂
    (fun file source => source.1 = file.flowName files ∧ file.path.readText tree = .ok source.2)
    files sources

theorem Files.ReadAs.map_fst {tree : Entry} {files : List SourceFile}
    {sources : List (String × String)} (read : ReadAs tree files sources) :
    sources.map Prod.fst = files.map (·.flowName files) := by
  have same : List.Forall₂ Eq (sources.map Prod.fst) (files.map (·.flowName files)) := by
    rw [List.forall₂_map_left_iff, List.forall₂_map_right_iff]
    exact read.flip.imp fun _ _ named => named.1
  rwa [List.forall₂_eq_eq_eq] at same

/-- Makes the output folder and writes drawings into it. -/
def publish (output : Path) (drawings : List Drawing) : Action (List Path) := do
  Action.makeFolder output
  drawings.mapM (·.write output)

namespace Settings

/-- Draws what is asked for. -/
def run (settings : Settings) (output : Path) : Request → Action (List Path)
  | .files paths => settings.drawFiles output paths
  | .folder input => settings.drawFolder input output

/-- The files that are asked for. -/
def filesOf (settings : Settings) (tree : Entry) : Request → Except PathFault (List SourceFile)
  | .files paths => .ok (paths.map .ofPath)
  | .folder input => sourcesIn settings.extensions input tree

/-- What is asked for can be drawn from the files of a tree. -/
def DrawsFrom (settings : Settings) (tree : Entry) (request : Request)
    (drawings : List Drawing) : Prop :=
  ∃ files sources, settings.filesOf tree request = .ok files ∧ ReadAs tree files sources ∧
    settings.draw sources = .ok drawings

/-- What keeps a run from drawing: the files cannot be found, one of them is the first that cannot
be read, or the sources have a fault. -/
inductive CannotDraw (settings : Settings) (tree : Entry) (request : Request) : FileFault → Prop
  | search {fault : PathFault} (failed : settings.filesOf tree request = .error fault) :
      CannotDraw settings tree request (.path fault)
  | read {before after : List SourceFile} {file : SourceFile} {fault : PathFault}
      (found : settings.filesOf tree request = .ok (before ++ file :: after))
      (readable : ∀ earlier ∈ before, ∃ text, earlier.path.readText tree = .ok text)
      (failed : file.path.readText tree = .error fault) :
      CannotDraw settings tree request (.path fault)
  | draw {files : List SourceFile} {sources : List (String × String)} {fault : Fault}
      (found : settings.filesOf tree request = .ok files) (read : ReadAs tree files sources)
      (failed : settings.draw sources = .error fault) :
      CannotDraw settings tree request (.content fault)

variable {settings : Settings} {output : Path} {request : Request} {tree after : Entry}
  {fault : FileFault} {paths : List Path} {files : List SourceFile}

/-- The texts of all files are read from one tree. -/
theorem reading_eq (files : List SourceFile) :
    (files.mapM fun file => do
        return (file.flowName files, ← Action.readText file.path) : Action (List (String × String)))
      = Action.look fun tree => files.mapM fun file => do
          return (file.flowName files, ← file.path.readText tree) := by
  have look (file : SourceFile) :
      (do return (file.flowName files, ← Action.readText file.path) : Action (String × String)) =
        Action.look fun tree => do return (file.flowName files, ← file.path.readText tree) := by
    funext tree
    simp only [bind, EStateM.bind, Action.readText, Action.look]
    cases file.path.readText tree <;> rfl
  simp only [look, Action.mapM_look]

theorem readAs_iff {sources : List (String × String)} :
    (files.mapM fun file => do return (file.flowName files, ← file.path.readText tree)) =
        .ok sources ↔ ReadAs tree files sources := by
  have source (file : SourceFile) (source : String × String) :
      (do return (file.flowName files, ← file.path.readText tree)) = Except.ok source ↔
        source.1 = file.flowName files ∧ file.path.readText tree = .ok source.2 := by
    rcases source with ⟨name, text⟩
    cases file.path.readText tree with
    | error fault => simp [bind, Except.bind]
    | ok read => simp [bind, Except.bind, pure, Except.pure, eq_comm]
  rw [mapM_eq_ok_iff]
  unfold ReadAs
  simp only [source]

theorem run_eq (settings : Settings) (output : Path) (request : Request) :
    settings.run output request =
      Action.look (settings.filesOf · request) >>= settings.drawSources output := by
  cases request <;> rfl

theorem drawSources_eq (settings : Settings) (output : Path) (files : List SourceFile) :
    settings.drawSources output files = (do
      let sources ← Action.look fun tree => files.mapM fun file => do
        return (file.flowName files, ← file.path.readText tree)
      let drawings ← Action.content (settings.draw sources)
      publish output drawings) := by
  rw [← reading_eq]
  rfl

theorem run_eq_ok_iff :
    settings.run output request tree = .ok paths after ↔
      ∃ drawings, settings.DrawsFrom tree request drawings ∧
        publish output drawings tree = .ok paths after := by
  simp only [run_eq, drawSources_eq, Action.bind_eq_ok_iff, Action.look_eq_ok_iff,
    Action.content_eq_ok_iff, readAs_iff]
  constructor
  · rintro ⟨files, _, ⟨found, rfl⟩, sources, _, ⟨read, rfl⟩, drawings, _, ⟨drawn, rfl⟩, published⟩
    exact ⟨drawings, ⟨files, sources, found, read, drawn⟩, published⟩
  · rintro ⟨drawings, ⟨files, sources, found, read, drawn⟩, published⟩
    exact ⟨files, tree, ⟨found, rfl⟩, sources, tree, ⟨read, rfl⟩, drawings, tree, ⟨drawn, rfl⟩,
      published⟩

theorem not_readable_iff {pathFault : PathFault} :
    (files.mapM fun file => do return (file.flowName files, ← file.path.readText tree)) =
        .error pathFault ↔
      ∃ before file later, files = before ++ file :: later ∧
        (∀ earlier ∈ before, ∃ text, earlier.path.readText tree = .ok text) ∧
        file.path.readText tree = .error pathFault := by
  rw [mapM_eq_error_iff]
  have source (file : SourceFile) :
      (∃ source, (do return (file.flowName files, ← file.path.readText tree)) = Except.ok source) ↔
        ∃ text, file.path.readText tree = .ok text := by
    cases file.path.readText tree <;> simp [bind, Except.bind, pure, Except.pure]
  have failure (file : SourceFile) :
      (do return (file.flowName files, ← file.path.readText tree)) =
          (.error pathFault : Except PathFault (String × String)) ↔
        file.path.readText tree = .error pathFault := by
    cases file.path.readText tree <;> simp [bind, Except.bind, pure, Except.pure]
  simp only [source, failure]

/-- A run fails if its preparation does, or else if its drawings cannot be published. -/
theorem run_fails_iff :
    settings.run output request tree = .error fault after ↔
      settings.CannotDraw tree request fault ∧ after = tree ∨
        ∃ drawings, settings.DrawsFrom tree request drawings ∧
          publish output drawings tree = .error fault after := by
  simp only [run_eq, drawSources_eq, Action.bind_eq_error_iff, Action.look_eq_error_iff,
    Action.look_eq_ok_iff, Action.content_eq_error_iff, Action.content_eq_ok_iff, readAs_iff,
    not_readable_iff]
  constructor
  · rintro (⟨⟨pathFault, failed, rfl⟩, rfl⟩ | ⟨files, _, ⟨found, rfl⟩, later⟩)
    · exact .inl ⟨.search failed, rfl⟩
    · rcases later with
        ⟨⟨pathFault, ⟨before, file, rest, rfl, readable, failed⟩, rfl⟩, rfl⟩ |
        ⟨sources, _, ⟨read, rfl⟩, later⟩
      · exact .inl ⟨.read found readable failed, rfl⟩
      · rcases later with ⟨⟨contentFault, failed, rfl⟩, rfl⟩ | ⟨drawings, _, ⟨drawn, rfl⟩, failed⟩
        · exact .inl ⟨.draw found read failed, rfl⟩
        · exact .inr ⟨drawings, ⟨files, sources, found, read, drawn⟩, failed⟩
  · rintro (⟨cannot, rfl⟩ | ⟨drawings, ⟨files, sources, found, read, drawn⟩, failed⟩)
    · cases cannot with
      | search failed => exact .inl ⟨⟨_, failed, rfl⟩, rfl⟩
      | read found readable failed =>
          exact .inr ⟨_, _, ⟨found, rfl⟩,
            .inl ⟨⟨_, ⟨_, _, _, rfl, readable, failed⟩, rfl⟩, rfl⟩⟩
      | draw found read failed =>
          exact .inr ⟨_, _, ⟨found, rfl⟩,
            .inr ⟨_, _, ⟨read, rfl⟩, .inl ⟨⟨_, failed, rfl⟩, rfl⟩⟩⟩
    · exact .inr ⟨_, _, ⟨found, rfl⟩,
        .inr ⟨_, _, ⟨read, rfl⟩, .inr ⟨_, _, ⟨drawn, rfl⟩, failed⟩⟩⟩

theorem failsByPath_publish (output : Path) (drawings : List Drawing) :
    Action.FailsByPath (publish output drawings) :=
  .bind (.makeFolder output) fun _ => .mapM (fun drawing => .write drawing output) drawings

/-- Only the preparation fails because of what the sources are. -/
theorem content_fails_iff {contentFault : Fault} :
    settings.run output request tree = .error (.content contentFault) after ↔
      settings.CannotDraw tree request (.content contentFault) ∧ after = tree := by
  rw [run_fails_iff]
  apply or_iff_left
  rintro ⟨drawings, _, failed⟩
  rcases failsByPath_publish output drawings tree _ after failed with ⟨_, byPath⟩
  cases byPath

/-- A run that fails leaves the tree as it was if it cannot draw what it is asked for. Otherwise all
drawings were made, and the output folder or one of their files could not be used. -/
theorem run_eq_error_iff (settings : Settings) (output : Path) (request : Request)
    (tree after : Entry) :
    (∀ fault, settings.run output request tree = .error fault after ↔
      settings.CannotDraw tree request fault ∧ after = tree ∨
        ∃ drawings pathFault, settings.DrawsFrom tree request drawings ∧
          publish output drawings tree = .error fault after ∧ fault = .path pathFault) ∧
    ∀ contentFault, settings.run output request tree = .error (.content contentFault) after ↔
      settings.CannotDraw tree request (.content contentFault) ∧ after = tree := by
  refine ⟨fun fault => ?_, fun _ => content_fails_iff⟩
  rw [run_fails_iff]
  apply or_congr_right
  constructor
  · rintro ⟨drawings, drawn, failed⟩
    rcases failsByPath_publish output drawings tree fault after failed with ⟨pathFault, byPath⟩
    exact ⟨drawings, pathFault, drawn, failed, byPath⟩
  · rintro ⟨drawings, _, drawn, failed, _⟩
    exact ⟨drawings, drawn, failed⟩

end Settings

end ProcessChain
