import ProcessChain.Drawing.Declaration

/-!
# Drawings in DOT

A DOT drawing keeps the first declaration of every node, every group and every edge, each in the
order of declaration, and writes them one statement a line: nodes, then groups as clusters, then
edges. Names, labels and identities are quoted. Inside quotes the quote, the backslash and the
newline are escaped, so that a quoted text neither ends early nor runs over its line.
-/

namespace ProcessChain.Dot

/-- A node of a drawing. -/
structure DotNode where
  id : NodeId
  label : String
  shape : Shape
deriving DecidableEq, Repr

/-- A group of nodes. -/
structure Cluster where
  name : String
  label : String
  members : List NodeId
deriving DecidableEq, Repr

/-- A drawing as a list of statements of each kind. -/
structure Graph where
  name : String
  /-- The nodes, in the order of their first declarations. -/
  nodes : List DotNode := []
  clusters : List Cluster := []
  edges : List Edge := []
deriving DecidableEq, Repr

namespace Graph

/-- Takes in a declaration. A node that is there already stays as it is. -/
def declare (graph : Graph) : Declaration → Graph
  | .node id label shape =>
    if graph.nodes.any (·.id = id) then graph
    else { graph with nodes := graph.nodes ++ [⟨id, label, shape⟩] }
  | .edge edge => { graph with edges := graph.edges ++ [edge] }
  | .group name label members =>
    { graph with clusters := graph.clusters ++ [⟨name, label, members⟩] }

/-- The drawing that some declarations describe. -/
def ofDeclarations (name : String) (declarations : List Declaration) : Graph :=
  declarations.foldl declare { name }

end Graph

/-- A character inside quotes. -/
def escape : Char → List Char
  | '"' => ['\\', '"']
  | '\\' => ['\\', '\\']
  | '\n' => ['\\', 'n']
  | character => [character]

/-- A text in quotes. -/
def quote (text : String) : String :=
  "\"" ++ String.ofList (text.toList.flatMap escape) ++ "\""

/-- How a node of each shape is drawn. -/
def nodeAttributes : Shape → String
  | .activity =>
    ", shape=polygon, style=filled, color=palegoldenrod, fontcolor=black, fontsize=16, width=2"
  | .event =>
    ", shape=octagon, style=filled, color=darkred, fontcolor=white, fontsize=16, width=2"
  | .process => ", shape=box3d, style=filled, color=lightblue, fontsize=16"
  | .gateway | .join => ", color=gray, height=0.2, width=0.2"
  | .database => ", shape=cylinder, style=filled, color=lightgray"
  | .api => ", shape=cds, style=filled, color=lightsteelblue"
  | .flow => ", shape=box, style=\"rounded,filled\", color=palegoldenrod, fontsize=16"
  | .topic => ", shape=parallelogram, style=filled, color=darkred, fontcolor=white"

/-- How an edge of each kind is drawn. -/
def edgeAttributes : EdgeKind → String
  | .flow => ""
  | .data => " [style=dashed, arrowhead=none]"
  | .call => " [style=dotted, color=blue]"
  | .publish => " [color=darkgreen]"
  | .subscribe => " [color=darkorange]"

/-- The statement of a node. -/
def DotNode.line (node : DotNode) : String :=
  "    " ++ quote node.id.text
    ++ " [label=" ++ quote node.label ++ nodeAttributes node.shape ++ "];"

/-- The lines of a group. -/
def Cluster.lines (cluster : Cluster) : List String :=
  ["    subgraph " ++ quote ("cluster_" ++ cluster.name) ++ " \x7b",
    "        label=" ++ quote cluster.label ++ "; labelloc=\"t\"; fontcolor=\"blue\";"]
    ++ cluster.members.map (fun member => "        " ++ quote member.text ++ ";")
    ++ ["    \x7d"]

/-- The statement of an edge. -/
def edgeLine (edge : Edge) : String :=
  "    " ++ quote edge.source.text ++ " -> " ++ quote edge.target.text ++ edgeAttributes edge.kind
    ++ ";"

namespace Graph

/-- The lines of a drawing. -/
def lines (graph : Graph) : List String :=
  ["digraph " ++ quote graph.name ++ " \x7b",
    "    graph [compound=true, fontname=\"Arial\"];",
    "    node [fontname=\"Arial\"];"]
    ++ graph.nodes.map DotNode.line
    ++ graph.clusters.flatMap Cluster.lines
    ++ graph.edges.map edgeLine
    ++ ["\x7d"]

/-- A drawing as text, each line with a newline after it. -/
def render (graph : Graph) : String :=
  String.join (graph.lines.map (· ++ "\n"))

end Graph

end ProcessChain.Dot
