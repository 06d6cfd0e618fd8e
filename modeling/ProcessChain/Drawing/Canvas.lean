import Mathlib.Data.List.Induction
import ProcessChain.Drawing.Dot
import ProcessChain.Drawing.GraphMl

/-!
# Canvases

A canvas is a drawing in the making. Beside the drawing so far it keeps what it takes to find a node
without a search: in DOT the identities that are declared, in GraphML the position of each among the
nodes. A group of a GraphML drawing is written into the nodes at the positions of its members, one
after the other.
-/

namespace ProcessChain

instance : Hashable NodeId where
  hash id := hash id.text

namespace Dot

/-- A drawing in the making, with the identities that it has nodes for. -/
structure Canvas extends Graph where
  declared : Std.HashSet NodeId := ∅

namespace Canvas

/-- Takes in a declaration. A node that is there already stays as it is. -/
def declare (canvas : Canvas) : Declaration → Canvas
  | .node id label shape =>
    if canvas.declared.contains id then canvas
    else
      { canvas with
        nodes := canvas.nodes ++ [⟨id, label, shape⟩]
        declared := canvas.declared.insert id }
  | .edge edge => { canvas with edges := canvas.edges ++ [edge] }
  | .group name label members =>
    { canvas with clusters := canvas.clusters ++ [⟨name, label, members⟩] }

/-- The canvas after some declarations. -/
def ofDeclarations (name : String) (declarations : List Declaration) : Canvas :=
  declarations.foldl declare { name }

end Canvas

end Dot

namespace GraphMl

/-- A drawing in the making, with the positions of its nodes. -/
structure Canvas extends Graph where
  index : Std.HashMap NodeId Nat := ∅

namespace Canvas

/-- Writes the name of a group into the node of a member, if there is one. -/
def assign (group : String) (canvas : Canvas) (member : NodeId) : Canvas :=
  match canvas.index[member]? with
  | none => canvas
  | some position =>
    { canvas with nodes := canvas.nodes.modify position ({ · with group := some group }) }

/-- Takes in a declaration. A node that is there already stays as it is, and a group takes in the
nodes that are there. -/
def declare (canvas : Canvas) : Declaration → Canvas
  | .node id label shape =>
    if canvas.index.contains id then canvas
    else
      { canvas with
        index := canvas.index.insert id canvas.nodes.length
        nodes := canvas.nodes ++ [{ id, label, shape }] }
  | .edge edge => { canvas with edges := canvas.edges ++ [edge] }
  | .group name _ members => members.foldl (assign name) canvas

/-- The canvas after some declarations. -/
def ofDeclarations (name : String) (declarations : List Declaration) : Canvas :=
  declarations.foldl declare { name }

end Canvas

end GraphMl

end ProcessChain
