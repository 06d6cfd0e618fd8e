/-!
# Nodes and chains

A diagram is a chain of nodes: each node is followed by the next one of its list. A conditional
holds one chain for each of its branches, and what follows the conditional is reached from the end
of whichever branch was taken.
-/

namespace ProcessChain

/-- The identity of a node in a drawing. -/
structure NodeId where
  /-- The identity as it is written in a drawing. -/
  text : String
deriving DecidableEq, Repr

namespace NodeId

/-- The identity with a number in a scope. -/
def numbered (scope : String) (number : Nat) : NodeId :=
  ⟨scope ++ ":" ++ number.repr⟩

/-- The point where the branches of a conditional meet again. -/
def join (id : NodeId) : NodeId :=
  ⟨id.text ++ ".join"⟩

end NodeId

/-- A step of the process with what it touches. -/
structure Activity where
  id : NodeId
  description : String
  database : Option String := none
  outgoing : List String := []
  incoming : List String := []
deriving DecidableEq, Repr

/-- Something that has happened. -/
structure Event where
  id : NodeId
  description : String
  publishes : Option String := none
deriving DecidableEq, Repr

/-- A reference to an inner flow. -/
structure Process where
  id : NodeId
  flow : String
deriving DecidableEq, Repr

/-- A node of a chain. -/
inductive Node where
  | activity (activity : Activity)
  | event (event : Event)
  | process (process : Process)
  /-- A choice between branches, each a chain of its own. -/
  | conditional (id : NodeId) (branches : List (List Node))
deriving Repr

/-- Nodes that follow one another. -/
abbrev Chain := List Node

namespace Node

/-- The identity of a node, where the chain enters it. -/
def id : Node → NodeId
  | .activity body => body.id
  | .event body => body.id
  | .process body => body.id
  | .conditional id _ => id

/-- Where the chain leaves a node: a conditional with branches at their common end, any other node
where it was entered. -/
def exit : Node → NodeId
  | .conditional id (_ :: _) => id.join
  | node => node.id

/-- The text shown on a node. -/
def label : Node → String
  | .activity body => body.description
  | .event body => body.description
  | .process body => body.flow
  | .conditional _ _ => "X"

/-- A node in words. -/
def summary : Node → String
  | .activity body => "Activity(" ++ body.description ++ ")"
  | .event body => "Event(" ++ body.description ++ ")"
  | .process body => "Process(" ++ body.flow ++ ")"
  | .conditional _ branches => "Conditional(" ++ branches.length.repr ++ " branches)"

mutual

/-- A node followed by the nodes inside it, in the order of the branches. -/
def preorder : Node → List Node
  | .conditional id branches => .conditional id branches :: branchesPreorder branches
  | node => [node]

/-- All nodes of a chain, each before the nodes inside it. -/
def chainPreorder : Chain → List Node
  | [] => []
  | node :: rest => node.preorder ++ chainPreorder rest

/-- All nodes of some branches, branch by branch. -/
def branchesPreorder : List Chain → List Node
  | [] => []
  | branch :: rest => chainPreorder branch ++ branchesPreorder rest

end

end Node

end ProcessChain
