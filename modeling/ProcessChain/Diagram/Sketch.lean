import ProcessChain.Diagram.Basic
import ProcessChain.Drawing.Declaration

/-!
# Sketch of a diagram

A sketch turns a chain into declarations, depth first. Every node is declared and then linked, from
where the chain leaves it to the node that comes next. A conditional with branches is left through a
join that the end of every branch is linked to: a chain inside a branch ends at the join of its
conditional, so the joins of nested conditionals lead on to what follows them. A chain that is not
inside a branch ends at its last node.

Databases and calls are declared beside the activity that touches them. They are not part of the
chain, and `Sketch.declared` lists the nodes of the chain and the joins only.
-/

namespace ProcessChain

/-- The declarations made for some part of a diagram. -/
@[ext]
structure Sketch where
  /-- The declarations, in order. -/
  declarations : List Declaration := []
  /-- The nodes of the chain and the joins among them, in order. -/
  declared : List NodeId := []
deriving DecidableEq

namespace Sketch

instance : Append Sketch where
  append first second :=
    ⟨first.declarations ++ second.declarations, first.declared ++ second.declared⟩

@[simp]
theorem declarations_append (first second : Sketch) :
    (first ++ second).declarations = first.declarations ++ second.declarations := rfl

@[simp]
theorem declared_append (first second : Sketch) :
    (first ++ second).declared = first.declared ++ second.declared := rfl

/-- A node of the chain, or a join. -/
def node (id : NodeId) (label : String) (shape : Shape) : Sketch :=
  ⟨[.node id label shape], [id]⟩

/-- The edge from where the chain leaves a node to what comes next, if anything does. -/
def link (source : NodeId) : Option NodeId → Sketch
  | none => {}
  | some target => ⟨[.edge ⟨source, target, .flow⟩], []⟩

/-- The database of an activity. -/
def database (activity : NodeId) (name : String) : Sketch :=
  let id : NodeId := ⟨"db:" ++ name⟩
  ⟨[.node id name .database, .edge ⟨activity, id, .data⟩], []⟩

/-- A call made by an activity. -/
def outgoing (activity : NodeId) (name : String) : Sketch :=
  let id : NodeId := ⟨"api:" ++ name⟩
  ⟨[.node id name .api, .edge ⟨activity, id, .call⟩], []⟩

/-- A call received by an activity. -/
def incoming (activity : NodeId) (name : String) : Sketch :=
  let id : NodeId := ⟨"api:" ++ name⟩
  ⟨[.node id name .api, .edge ⟨id, activity, .call⟩], []⟩

/-- Several sketches, one after the other. -/
def concat (sketches : List Sketch) : Sketch :=
  sketches.foldr (· ++ ·) {}

/-- An activity with what it touches: its database, the calls made, the calls received. -/
def activity (activity : Activity) : Sketch :=
  node activity.id activity.description .activity
    ++ concat (activity.database.toList.map (database activity.id))
    ++ concat (activity.outgoing.map (outgoing activity.id))
    ++ concat (activity.incoming.map (incoming activity.id))

end Sketch

/-- Where a chain is entered, given where it is left: an empty chain is passed by. -/
def Chain.entry? (chain : Chain) (ending : Option NodeId) : Option NodeId :=
  match chain with
  | [] => ending
  | node :: _ => some node.id

namespace Node

mutual

/-- The sketch of a node with everything that hangs off it. -/
def sketch : Node → Sketch
  | .activity body => .activity body
  | .event body => .node body.id body.description .event
  | .process body => .node body.id body.flow .process
  | .conditional id branches =>
    if branches.isEmpty then
      .node id "X" .gateway
    else
      .node id "X" .gateway ++ .node id.join "X" .join ++ branchesSketch id branches

/-- The sketch of the branches of a conditional. -/
def branchesSketch (id : NodeId) : List Chain → Sketch
  | [] => {}
  | branch :: rest =>
    .link id (Chain.entry? branch (some id.join)) ++ chainSketch (some id.join) branch
      ++ branchesSketch id rest

/-- The sketch of a chain that is left for `ending`, if it is left at all. -/
def chainSketch (ending : Option NodeId) : Chain → Sketch
  | [] => {}
  | node :: rest =>
    node.sketch ++ .link node.exit (Chain.entry? rest ending) ++ chainSketch ending rest

end

end Node

/-- The sketch of a diagram. -/
def Diagram.sketch (diagram : Diagram) : Sketch :=
  Node.chainSketch none diagram.chain

end ProcessChain
