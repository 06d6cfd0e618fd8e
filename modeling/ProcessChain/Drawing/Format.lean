import ProcessChain.Drawing.Dot
import ProcessChain.Drawing.GraphMl

/-!
# Formats and drawings

A format turns declarations into text, and a drawing is such a text with its name. The file that a
drawing is kept in is named after the drawing and the format.
-/

namespace ProcessChain

/-- The output formats. -/
inductive Format where
  | dot
  | graphMl
deriving DecidableEq, Repr

namespace Format

/-- All formats. -/
def all : List Format := [.dot, .graphMl]

/-- The format in use unless another is given. -/
def standard : Format := .dot

instance : Inhabited Format := ⟨standard⟩

/-- The extension of files in a format, which is also its name. -/
def extension : Format → String
  | .dot => "dot"
  | .graphMl => "graphml"

/-- The format of a given extension. -/
def ofExtension? (extension : String) : Option Format :=
  all.find? (·.extension = extension)

@[simp]
theorem ofExtension?_extension (format : Format) :
    ofExtension? format.extension = some format := by
  cases format <;> decide

/-- The text of the drawing that some declarations describe. -/
def render (format : Format) (name : String) (declarations : List Declaration) : String :=
  match format with
  | .dot => (Dot.Graph.ofDeclarations name declarations).render
  | .graphMl => (GraphMl.Graph.ofDeclarations name declarations).render

end Format

/-- A drawing as text. -/
structure Drawing where
  name : String
  format : Format
  contents : String
deriving DecidableEq, Repr

namespace Drawing

/-- The name of the file for a drawing. -/
def fileName (drawing : Drawing) : String :=
  drawing.name ++ "." ++ drawing.format.extension

/-- The drawing that some declarations describe. -/
def ofDeclarations (format : Format) (name : String) (declarations : List Declaration) : Drawing :=
  ⟨name, format, format.render name declarations⟩

end Drawing

end ProcessChain
