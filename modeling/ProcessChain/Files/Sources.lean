import ProcessChain.Files.Disk

/-!
# Source files and the names of their flows

The sources in a folder are the files in it at any depth that no hidden name leads to and that have
one of the wanted extensions, in ascending order of their locations. To find them, every folder that
no hidden name leads to is entered by its path, so all these paths have to be usable. A flow is
named after its file's stem. Files that share a stem get qualified names instead, made from all the
names that lead to them.
-/

namespace ProcessChain.Files

/-- The path of the entry at a location below the folder at a path. -/
def Path.below (folder : Path) (location : Location) : Path :=
  location.foldl Path.join folder

/-- A source file. -/
structure SourceFile where
  path : Path
  /-- The names that lead to it, from the folder that was walked or as they were given. -/
  route : Location
deriving DecidableEq, Repr

namespace SourceFile

/-- The file at a path that was given as such. -/
def ofPath (path : Path) : SourceFile where
  path := path
  route := path.names

/-- The file at a location below the folder at a path. -/
def below (folder : Path) (location : Location) : SourceFile where
  path := folder.below location
  route := location

/-- The stem of the file's name. -/
def stem (file : SourceFile) : String :=
  match file.path.fileName? with
  | none => file.path.text
  | some name => FileName.stem name

/-- The names that lead to the file with dots between them, the last one without its extension. A
stem that is no name, because as a step it stays or goes up, is left out. -/
def qualifiedName (file : SourceFile) : String :=
  let stem := (file.route.getLast?.map FileName.stem).bind Step.ofPart? |>.bind Step.name?
  ".".intercalate (file.route.dropLast ++ stem.toList)

/-- The name of the flow of one of some files. -/
def flowName (files : List SourceFile) (file : SourceFile) : String :=
  if 1 < files.countP (·.stem = file.stem) then file.qualifiedName else file.stem

end SourceFile

/-- An extension without the dots that it may be written with. -/
def bareExtension (extension : String) : List Char :=
  extension.toList.dropWhile (· = '.')

/-- Whether a file of some name is wanted. Without wanted extensions every file is. -/
def isWanted (extensions : List String) (name : String) : Bool :=
  extensions.isEmpty ||
    match FileName.extension? name with
    | none => false
    | some extension => extensions.any fun wanted => bareExtension wanted = extension.toList

namespace Entry

/-- The locations of the wanted files of a tree, in ascending order. -/
def sources (extensions : List String) (tree : Entry) : List Location :=
  (tree.visibleFiles.filter fun location => location.getLast?.any (isWanted extensions)).mergeSort
    Location.precedes

end Entry

/-- The wanted files in the folder at a path. There are none to be had if the path of a visible
folder in it cannot be used. -/
def sourcesIn (extensions : List String) (folder : Path) (tree : Entry) :
    Except PathFault (List SourceFile) := do
  match ← folder.find tree with
  | .file _ => .error .unusable
  | .folder entries =>
    let found := Entry.folder entries
    found.visibleFolders.forM fun location => (folder.below location).check
    return (found.sources extensions).map (SourceFile.below folder)

end ProcessChain.Files
