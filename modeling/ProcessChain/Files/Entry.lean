import ProcessChain.Files.Path

/-!
# Entries of a file tree

An entry is a file with its bytes or a folder of named entries. Names are texts, every entry can be
read and written, and none stands for another one somewhere else. A location is the list of names
that leads to an entry from the folder where the tree starts. `Entry.find?` is the view of a tree
that everything is said about: what there is at a location.
-/

namespace ProcessChain.Files

/-- A file or a folder. -/
inductive Entry where
  | file (contents : ByteArray)
  | folder (entries : List (String × Entry))

/-- The names that lead to an entry. -/
abbrev Location := List String

/-- The order of locations: name by name, and what leads to an entry before the entry. -/
def Location.precedes : Location → Location → Bool
  | [], _ => true
  | _ :: _, [] => false
  | first :: rest, other :: others =>
    first < other || first = other && Location.precedes rest others

namespace Entry

/-- The folder without entries. -/
def emptyFolder : Entry := .folder []

/-- Whether an entry is a folder. -/
def isFolder : Entry → Bool
  | .file _ => false
  | .folder _ => true

/-- The entry at a location. -/
def find? : Location → Entry → Option Entry
  | [], entry => some entry
  | _ :: _, .file _ => none
  | name :: rest, .folder entries =>
    match entries.lookup name with
    | none => none
    | some entry => entry.find? rest

/-- The entries of a folder with one of them set: replaced where there is one of this name, added
otherwise. -/
def assign (name : String) (entry : Entry) : List (String × Entry) → List (String × Entry)
  | [] => [(name, entry)]
  | (other, old) :: rest =>
    if other = name then (name, entry) :: rest else (other, old) :: assign name entry rest

/-- The tree with an entry put at a location, in folders that are there already. -/
def put : (tree placed : Entry) → Location → Entry
  | _, placed, [] => placed
  | .file contents, _, _ :: _ => .file contents
  | .folder entries, placed, [name] => .folder (assign name placed entries)
  | .folder entries, placed, name :: next :: rest =>
    match entries.lookup name with
    | none => .folder entries
    | some entry => .folder (assign name (entry.put placed (next :: rest)) entries)

mutual

/-- A tree and everything in it that no hidden name leads to, with the locations. -/
def visible : Entry → List (Location × Entry)
  | .file contents => [([], .file contents)]
  | .folder entries => ([], .folder entries) :: visibleOf entries

/-- Everything in some entries that no hidden name leads to, with the locations. -/
def visibleOf : List (String × Entry) → List (Location × Entry)
  | [] => []
  | (name, entry) :: rest =>
    if FileName.isHidden name then visibleOf rest
    else entry.visible.map (fun (location, found) => (name :: location, found)) ++ visibleOf rest

end

/-- The locations of all files of a tree that no hidden name leads to. -/
def visibleFiles (tree : Entry) : List Location :=
  (tree.visible.filter fun (_, entry) => !entry.isFolder).map Prod.fst

/-- The locations of all folders of a tree that no hidden name leads to. -/
def visibleFolders (tree : Entry) : List Location :=
  (tree.visible.filter fun (_, entry) => entry.isFolder).map Prod.fst

mutual

/-- The paths of an entry of a given name and of everything in it, folders with a slash at the
end. -/
def paths (path : String) : Entry → List String
  | .file _ => [path]
  | .folder entries => (path ++ "/") :: pathsOf (path ++ "/") entries

/-- The paths of some entries and of everything in them, after what leads to them. -/
def pathsOf (before : String) : List (String × Entry) → List String
  | [] => []
  | (name, entry) :: rest => entry.paths (before ++ name) ++ pathsOf before rest

end

/-- The paths of everything in a tree, in ascending order. -/
def listing : Entry → List String
  | .file _ => []
  | .folder entries => (pathsOf "" entries).mergeSort fun first second => decide (first ≤ second)

end Entry

end ProcessChain.Files
