/-!
# Paths and file names

A path is kept as it is spelled, since results repeat the spelling. What it means is a list of steps
from the working folder: to a name, to the folder above, or nowhere. The name of a file is split at
its last dot into stem and extension, but a dot at its beginning does not count: `.hidden` has no
extension, and `archive.tar.gz` has the stem `archive.tar`.
-/

namespace ProcessChain.Files

/-- A path as it is spelled. -/
structure Path where
  text : String
deriving DecidableEq, Repr

/-- One step on the way that a path describes. -/
inductive Step where
  /-- To stay in the folder. -/
  | stay
  /-- To go to the folder above. -/
  | up
  /-- To go to an entry of the folder. -/
  | down (name : String)
deriving DecidableEq, Repr

namespace Step

/-- The step that a part of a path between slashes describes; between two slashes without anything
in between there is none. -/
def ofPart? : String → Option Step
  | "" => none
  | "." => some .stay
  | ".." => some .up
  | name => some (.down name)

/-- The name that a step goes to. -/
def name? : Step → Option String
  | .down name => some name
  | _ => none

end Step

namespace Path

/-- The parts of a path between its slashes. -/
def parts (path : Path) : List String :=
  (path.text.toList.splitOn '/').map String.ofList

/-- The steps of a path. -/
def steps (path : Path) : List Step :=
  path.parts.filterMap Step.ofPart?

/-- The steps of a path without those that stay where they are. -/
def moves (path : Path) : List Step :=
  path.steps.filter (· ≠ .stay)

/-- Whether a path starts elsewhere than in the working folder. -/
def isAbsolute (path : Path) : Bool :=
  path.text.toList.head? = some '/'

/-- Whether a path is spelled with a slash at its end. -/
def endsInSlash (path : Path) : Bool :=
  path.text.toList.getLast? = some '/'

/-- The steps of a path to something that exists. A slash at its end is a step as well, one that
stays in the folder that the path leads to. -/
def fullSteps (path : Path) : List Step :=
  if path.endsInSlash then path.steps ++ [.stay] else path.steps

/-- The path of an entry in the folder at a path. A name that is a path of its own and starts
elsewhere takes the place of the folder's path. -/
def join (folder : Path) (name : String) : Path :=
  if isAbsolute ⟨name⟩ then ⟨name⟩
  else if folder.text = "" ∨ folder.endsInSlash then ⟨folder.text ++ name⟩
  else ⟨folder.text ++ "/" ++ name⟩

/-- The path up to its last move, without that move and what follows it. It leads to the folder
around what the path leads to. -/
def parent (path : Path) : Path :=
  let goesNowhere := fun part => part = "" ∨ part = "."
  let before := (path.parts.reverse.dropWhile goesNowhere).tail.dropWhile goesNowhere
  ⟨"/".intercalate before.reverse⟩

/-- The names that a path goes through. -/
def names (path : Path) : List String :=
  path.steps.filterMap Step.name?

/-- The name of the entry that a path leads to, unless its last move goes up. -/
def fileName? (path : Path) : Option String :=
  path.moves.getLast?.bind Step.name?

end Path

namespace FileName

/-- A name cut at its last dot, with the extension left out if there is none. -/
def split (name : List Char) : List Char × Option (List Char) :=
  let reversed := name.reverse
  match reversed.dropWhile (· ≠ '.') with
  | [] => (name, none)
  | [_] => (name, none)
  | _ :: stem => (stem.reverse, some (reversed.takeWhile (· ≠ '.')).reverse)

/-- The name without its extension. -/
def stem (name : String) : String :=
  String.ofList (split name.toList).1

/-- The extension of a name. -/
def extension? (name : String) : Option String :=
  (split name.toList).2.map String.ofList

/-- Whether a name is hidden, that is, starts with a dot. -/
def isHidden (name : String) : Bool :=
  name.toList.head? = some '.'

end FileName

end ProcessChain.Files
