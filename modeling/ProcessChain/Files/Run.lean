import ProcessChain.Files.Sources
import ProcessChain.Run

/-!
# Runs on files

A run on files reads all sources before it draws any, and draws all of them before it makes the
output folder and writes the drawings into it, one after the other. So a run that cannot read or
draw its sources leaves the files as they were.
-/

namespace ProcessChain

open Files

/-- Writes a drawing into the folder at a path, and returns the path of its file. -/
def Drawing.write (drawing : Drawing) (folder : Path) : Action Path := do
  let path := folder.join drawing.fileName
  Action.writeText path drawing.contents
  return path

namespace Settings

/-- The wanted source files in the folder at a path. -/
def sources (settings : Settings) (folder : Path) : Action (List SourceFile) :=
  Action.look (sourcesIn settings.extensions folder)

/-- Draws source files into the folder at a path, and returns the paths of the drawings. -/
def drawSources (settings : Settings) (output : Path) (files : List SourceFile) :
    Action (List Path) := do
  let texts ← files.mapM fun file => do
    return (file.flowName files, ← Action.readText file.path)
  let drawings ← Action.content (settings.draw texts)
  Action.makeFolder output
  drawings.mapM (·.write output)

/-- Draws the files at some paths. Flows whose files share a stem are named after the whole path. -/
def drawFiles (settings : Settings) (output : Path) (paths : List Path) : Action (List Path) :=
  settings.drawSources output (paths.map .ofPath)

/-- Draws the wanted source files in a folder. Flows whose files share a stem are named after the
path from that folder. -/
def drawFolder (settings : Settings) (input output : Path) : Action (List Path) := do
  settings.drawSources output (← settings.sources input)

end Settings

end ProcessChain
