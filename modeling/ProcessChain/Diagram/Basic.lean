import ProcessChain.Diagram.Node
import ProcessChain.Diagram.Topics

/-!
# Diagrams

A diagram is what a flow amounts to: its chain of nodes, the inner flows that the chain refers to,
and the topics of the flow.
-/

namespace ProcessChain

/-- A flow as a chain of nodes. -/
structure Diagram where
  name : String := ""
  chain : Chain := []
  /-- The names of the inner flows referred to, in the order of the references. -/
  references : List String := []
  topics : Topics := {}

namespace Diagram

/-- The diagram with one more node at the end of its chain. -/
def push (diagram : Diagram) (node : Node) : Diagram :=
  { diagram with chain := diagram.chain ++ [node] }

/-- The first node. -/
def head? (diagram : Diagram) : Option Node :=
  diagram.chain.head?

/-- The last node. -/
def tail? (diagram : Diagram) : Option Node :=
  diagram.chain.getLast?

/-- The number of nodes of the chain, those inside branches not counted. -/
def length (diagram : Diagram) : Nat :=
  diagram.chain.length

/-- Whether the chain has no node. -/
def isEmpty (diagram : Diagram) : Bool :=
  diagram.chain.isEmpty

end Diagram

end ProcessChain
