import ProcessChain.Drawing.Declaration
import ProcessChain.Drawing.Xml

/-!
# Drawings in GraphML

A GraphML drawing keeps the first declaration of every node and every edge, in the order of
declaration. It has no element for a group: a node carries the name of its group, which is the last
one that lists it after it was declared. Label, shape and group of a node and kind of an edge are
data elements, and edges are numbered from zero.
-/

namespace ProcessChain.GraphMl

/-- A node of a drawing. -/
structure GraphNode where
  id : NodeId
  label : String
  shape : Shape
  /-- The name of the group that it is in. -/
  group : Option String := none
deriving DecidableEq, Repr

/-- A drawing as nodes and edges. -/
structure Graph where
  name : String
  /-- The nodes, in the order of their first declarations. -/
  nodes : List GraphNode := []
  edges : List Edge := []
deriving DecidableEq, Repr

/-- The node in a group, if the group lists it. -/
def GraphNode.enter (node : GraphNode) (group : String) (members : List NodeId) : GraphNode :=
  if node.id ∈ members then { node with group := some group } else node

namespace Graph

/-- Takes in a declaration. A node that is there already stays as it is, and a group takes in the
nodes that are there. -/
def declare (graph : Graph) : Declaration → Graph
  | .node id label shape =>
    if graph.nodes.any (·.id = id) then graph
    else { graph with nodes := graph.nodes ++ [{ id, label, shape }] }
  | .edge edge => { graph with edges := graph.edges ++ [edge] }
  | .group name _ members =>
    { graph with nodes := graph.nodes.map (·.enter name members) }

/-- The drawing that some declarations describe. -/
def ofDeclarations (name : String) (declarations : List Declaration) : Graph :=
  declarations.foldl declare { name }

end Graph

/-- The declaration of a kind of data. -/
def key (name domain : String) : Xml.Element :=
  .empty "key" [⟨"id", name⟩, ⟨"for", domain⟩, ⟨"attr.name", name⟩, ⟨"attr.type", "string"⟩]

/-- The kinds of data that nodes and edges carry. -/
def keys : List Xml.Element :=
  [key "label" "node", key "shape" "node", key "group" "node", key "kind" "edge"]

/-- A piece of data of a node or an edge. -/
def data (key value : String) : Xml.Element :=
  .text "data" [⟨"key", key⟩] value

/-- The element of a node. -/
def GraphNode.element (node : GraphNode) : Xml.Element :=
  .nest "node" [⟨"id", node.id.text⟩]
    ([data "label" node.label, data "shape" node.shape.name]
      ++ (node.group.map (data "group")).toList)

/-- The element of an edge with a number. -/
def edgeElement (edge : Edge) (number : Nat) : Xml.Element :=
  .nest "edge"
    [⟨"id", "e" ++ number.repr⟩, ⟨"source", edge.source.text⟩, ⟨"target", edge.target.text⟩]
    [data "kind" edge.kind.name]

namespace Graph

/-- The element of a drawing. -/
def element (graph : Graph) : Xml.Element :=
  .nest "graph" [⟨"id", graph.name⟩, ⟨"edgedefault", "directed"⟩]
    (graph.nodes.map GraphNode.element
      ++ graph.edges.zipIdx.map fun (edge, number) => edgeElement edge number)

/-- A drawing as text. -/
def render (graph : Graph) : String :=
  Xml.document
    (.nest "graphml" [⟨"xmlns", "http://graphml.graphdrawing.org/xmlns"⟩]
      (keys ++ [graph.element]))

end Graph

end ProcessChain.GraphMl
