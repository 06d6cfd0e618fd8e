import ProcessChain.Fault
import ProcessChain.Files.Entry
import ProcessChain.Files.Path

/-!
# Reading and writing files

A path is followed step by step from the working folder: each step starts in a folder that exists.
Reading, making a folder and writing a file follow a path to a location and look at, or change, what
is there; each either succeeds or says why not. Folders are made together with the missing ones
around them.

An `Action` is a sequence of such steps on one tree. When a step fails, the action ends, and what
was changed before stays changed.
-/

namespace ProcessChain.Files

/-- Why a path cannot be used. -/
inductive PathFault where
  /-- There is nothing at the path, or on the way to it. -/
  | missing
  /-- There is something at the path already. -/
  | occupied
  /-- What is at the path, or on the way to it, is of the wrong kind, or there can be nothing. -/
  | unusable
deriving DecidableEq, Repr

/-- The number of bytes that a name may have. -/
def nameLimit : Nat := 255

/-- The number of bytes that a path must stay below. -/
def pathLimit : Nat := 4096

namespace Entry

/-- The location after one more step, from a location that has to be a folder. The tree has no
outside, so no step leads above its first folder. -/
def step (tree : Entry) (location : Location) (next : Step) : Except PathFault Location :=
  match tree.find? location with
  | none => .error .missing
  | some (.file _) => .error .unusable
  | some (.folder _) =>
    match next with
    | .stay => .ok location
    | .up => if location = [] then .error .unusable else .ok location.dropLast
    | .down name =>
      if nameLimit < name.utf8ByteSize then .error .unusable else .ok (location ++ [name])

/-- The location that some steps lead to. -/
def follow (tree : Entry) (steps : List Step) : Except PathFault Location :=
  steps.foldlM tree.step []

/-- Makes a folder where some steps lead, in a folder that exists. -/
def makeFolder (tree : Entry) (steps : List Step) : Except PathFault Entry := do
  match steps.getLast? with
  | none => .error .occupied
  | some last =>
    let parent ← tree.follow steps.dropLast
    let location ← tree.step parent last
    match tree.find? location with
    | some _ => .error .occupied
    | none => .ok (tree.put emptyFolder location)

/-- Whether some steps lead to a folder. -/
def leadsToFolder (tree : Entry) (steps : List Step) : Bool :=
  match tree.follow steps with
  | .error _ => false
  | .ok location => (tree.find? location).any isFolder

/-- The tree with a folder where some steps lead, made unless there is one already. -/
def ensureFolder (tree : Entry) (steps : List Step) : Except PathFault Entry :=
  match tree.makeFolder steps with
  | .ok updated => .ok updated
  | .error fault => if tree.leadsToFolder steps then .ok tree else .error fault

end Entry

namespace Path

/-- Refuses the paths that no entry can have: those that start outside the tree, hold a null
character, or are too long. The empty path leads nowhere. The tree is what is in the working folder,
so a path from the root of the disk starts outside it, even if it leads back in. -/
def check (path : Path) : Except PathFault Unit :=
  if path.isAbsolute ∨ '\x00' ∈ path.text.toList ∨ pathLimit ≤ path.text.utf8ByteSize then
    .error .unusable
  else if path.text = "" then
    .error .missing
  else
    .ok ()

/-- The entry at a path. -/
def find (path : Path) (tree : Entry) : Except PathFault Entry := do
  path.check
  match tree.find? (← tree.follow path.fullSteps) with
  | none => .error .missing
  | some entry => .ok entry

/-- The text of the file at a path. -/
def readText (path : Path) (tree : Entry) : Except PathFault String := do
  match ← path.find tree with
  | .folder _ => .error .unusable
  | .file contents =>
    match String.fromUTF8? contents with
    | none => .error .unusable
    | some text => .ok text

/-- Writes a file at a path, in a folder that exists. -/
def write (path : Path) (contents : ByteArray) (tree : Entry) : Except PathFault Entry := do
  path.check
  let location ← tree.follow path.fullSteps
  match tree.find? location with
  | some (.folder _) => .error .unusable
  | _ => .ok (tree.put (.file contents) location)

/-- The ways to the folders around a path, the innermost first. -/
def ancestors (path : Path) : List (List Step) :=
  (List.range' 1 (path.moves.length - 1)).reverse.map path.moves.take

end Path

/-- Why files cannot be drawn. -/
inductive FileFault where
  | path (fault : PathFault)
  | content (fault : Fault)
deriving DecidableEq, Repr

/-- What is done to a file tree, step by step. -/
abbrev Action := EStateM FileFault Entry

namespace Action

/-- Looks at the tree. -/
def look {α : Type} (view : Entry → Except PathFault α) : Action α := fun tree =>
  match view tree with
  | .error fault => .error (.path fault) tree
  | .ok value => .ok value tree

/-- Changes the tree. -/
def change (update : Entry → Except PathFault Entry) : Action Unit := fun tree =>
  match update tree with
  | .error fault => .error (.path fault) tree
  | .ok updated => .ok () updated

/-- What the sources come to. -/
def content {α : Type} (outcome : Except Fault α) : Action α := fun tree =>
  match outcome with
  | .error fault => .error (.content fault) tree
  | .ok value => .ok value tree

/-- Makes sure that there is a folder where the first of some steps lead, the others leading to the
folders around it. These are made first if something on the way is missing. -/
def makeFolderIn : List (List Step) → Action Unit
  | [] => pure ()
  | steps :: outer => fun tree =>
    match tree.ensureFolder steps with
    | .ok updated => .ok () updated
    | .error .missing => (do makeFolderIn outer; change (·.ensureFolder steps)) tree
    | .error fault => .error (.path fault) tree

/-- Makes sure that there is a folder at a path. The empty path stands for the working folder. -/
def makeFolder (path : Path) : Action Unit :=
  if path.text = "" then
    pure ()
  else do
    look fun _ => path.check
    makeFolderIn (path.steps :: path.ancestors)

/-- Writes a text to a file. -/
def writeText (path : Path) (text : String) : Action Unit :=
  change (path.write text.toUTF8)

/-- Puts a file at a path, in a folder that is made if it is missing. -/
def place (path : Path) (contents : ByteArray) : Action Unit := do
  makeFolder path.parent
  change (path.write contents)

/-- Reads the text of a file. -/
def readText (path : Path) : Action String :=
  look path.readText

end Action

end ProcessChain.Files
