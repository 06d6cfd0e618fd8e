import ProcessChain.Diagram.Topics
import ProcessChain.Drawing.Declaration

/-!
# Overview of the topics

The overview of a run shows which flows publish to which topics and which flows listen to them. A
topic is one node however many flows it connects: its identity is made from its text, in a scope
that flows do not share.
-/

namespace ProcessChain

namespace Overview

/-- The name of the drawing that holds the overview. -/
def name : String := "architecture"

/-- The node of a flow. -/
def flowId (flow : String) : NodeId := ⟨"flow:" ++ flow⟩

/-- The node of a topic. -/
def topicId (topic : String) : NodeId := ⟨"topic:" ++ topic⟩

/-- A topic that a flow publishes to. -/
def publication (flow topic : String) : List Declaration :=
  [.node (topicId topic) topic .topic, .edge ⟨flowId flow, topicId topic, .publish⟩]

/-- A topic that a flow subscribes to. -/
def subscription (flow topic : String) : List Declaration :=
  [.node (topicId topic) topic .topic, .edge ⟨topicId topic, flowId flow, .subscribe⟩]

/-- A flow with its topics: those published to, then those subscribed to. -/
def flow (name : String) (topics : Topics) : List Declaration :=
  .node (flowId name) name .flow
    :: topics.published.toList.flatMap (publication name)
    ++ topics.subscribed.toList.flatMap (subscription name)

/-- The overview of flows with their topics. -/
def declarations (flows : List (String × Topics)) : List Declaration :=
  flows.flatMap fun (name, topics) => flow name topics

end Overview

end ProcessChain
