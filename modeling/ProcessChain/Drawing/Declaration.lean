import ProcessChain.Diagram.Node

/-!
# Declarations of a drawing

A drawing is described by declarations, in order: nodes with their label and shape, edges of some
kind, and groups of nodes under a label. The output formats are built from such a list; what a
diagram or an overview looks like is decided before, and the same for all formats.
-/

namespace ProcessChain

/-- What a drawn node stands for. -/
inductive Shape where
  | activity
  | event
  | process
  /-- Where a conditional parts into its branches. -/
  | gateway
  /-- Where the branches meet again. -/
  | join
  | database
  | api
  | flow
  | topic
deriving DecidableEq, Repr

namespace Shape

/-- All shapes. -/
def all : List Shape :=
  [.activity, .event, .process, .gateway, .join, .database, .api, .flow, .topic]

/-- The name of a shape in a drawing. -/
def name : Shape → String
  | .activity => "activity"
  | .event => "event"
  | .process => "process"
  | .gateway => "gateway"
  | .join => "join"
  | .database => "database"
  | .api => "api"
  | .flow => "flow"
  | .topic => "topic"

/-- The shape of a given name. -/
def ofName? (name : String) : Option Shape :=
  all.find? (·.name = name)

@[simp]
theorem ofName?_name (shape : Shape) : ofName? shape.name = some shape := by
  cases shape <;> decide

end Shape

/-- What a drawn edge stands for. -/
inductive EdgeKind where
  | flow
  | data
  | call
  | publish
  | subscribe
deriving DecidableEq, Repr

namespace EdgeKind

/-- All kinds of edges. -/
def all : List EdgeKind :=
  [.flow, .data, .call, .publish, .subscribe]

/-- The name of a kind of edges in a drawing. -/
def name : EdgeKind → String
  | .flow => "flow"
  | .data => "data"
  | .call => "call"
  | .publish => "publish"
  | .subscribe => "subscribe"

/-- The kind of a given name. -/
def ofName? (name : String) : Option EdgeKind :=
  all.find? (·.name = name)

@[simp]
theorem ofName?_name (kind : EdgeKind) : ofName? kind.name = some kind := by
  cases kind <;> decide

end EdgeKind

/-- An edge between two nodes. -/
structure Edge where
  source : NodeId
  target : NodeId
  kind : EdgeKind
deriving DecidableEq, Repr

/-- One step in the description of a drawing. -/
inductive Declaration where
  /-- There is a node with a label and a shape. -/
  | node (id : NodeId) (label : String) (shape : Shape)
  | edge (edge : Edge)
  /-- Some nodes belong together under a label. -/
  | group (name label : String) (members : List NodeId)
deriving DecidableEq, Repr

end ProcessChain
