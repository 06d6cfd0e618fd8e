import ProcessChain.Proofs.Diagram.Sequence
import ProcessChain.Proofs.Run.Topics

/-!
# The graph of an overview

The topics of a flow are recorded one after the other, on either side, in any order and any number
of times; what counts is which ones are recorded. An overview of flows with different names is then
a graph that can be read off what is recorded: a node for each flow, a node for each topic that any
flow has on either side, an edge for each topic of each side of each flow, and nothing twice. That a
topic is declared again for every flow that has it does not show, since its node is the same each
time, and a flow is never taken for a topic, whatever they are called
(`Overview.flowId_ne_topicId`).
-/

namespace ProcessChain

namespace Topics

/-- A topic that is recorded for a flow, on one of the two sides. -/
inductive Recording where
  | publish (topic : String)
  | subscribe (topic : String)
deriving DecidableEq, Repr

def record (topics : Topics) : Recording → Topics
  | .publish topic => topics.publish topic
  | .subscribe topic => topics.subscribe topic

/-- The topics of a flow once they are recorded one after the other. -/
def ofRecordings (recordings : List Recording) : Topics :=
  recordings.foldl record {}

variable {topics : Topics} {recording : Recording} {recordings others : List Recording}
  {topic : String}

theorem mem_published_record :
    topic ∈ (topics.record recording).published ↔
      topic ∈ topics.published ∨ recording = .publish topic := by
  cases recording with
  | publish other =>
      have inserted : topic ∈ topics.published.insert other ↔
          topic = other ∨ topic ∈ topics.published :=
        TopicSet.mem_insert
      rw [record, publish, inserted, or_comm, Recording.publish.injEq, eq_comm]
  | subscribe other => simp [record, subscribe]

theorem mem_subscribed_record :
    topic ∈ (topics.record recording).subscribed ↔
      topic ∈ topics.subscribed ∨ recording = .subscribe topic := by
  cases recording with
  | publish other => simp [record, publish]
  | subscribe other =>
      have inserted : topic ∈ topics.subscribed.insert other ↔
          topic = other ∨ topic ∈ topics.subscribed :=
        TopicSet.mem_insert
      rw [record, subscribe, inserted, or_comm, Recording.subscribe.injEq, eq_comm]

theorem ofRecordings_concat (recordings : List Recording) (recording : Recording) :
    ofRecordings (recordings ++ [recording]) = (ofRecordings recordings).record recording := by
  simp [ofRecordings]

theorem mem_published_ofRecordings :
    topic ∈ (ofRecordings recordings).published ↔ .publish topic ∈ recordings := by
  induction recordings using List.reverseRecOn with
  | nil => simp [ofRecordings]
  | append_singleton before last ih =>
      rw [ofRecordings_concat, mem_published_record, ih, List.mem_append, List.mem_singleton,
        eq_comm (a := last)]

theorem mem_subscribed_ofRecordings :
    topic ∈ (ofRecordings recordings).subscribed ↔ .subscribe topic ∈ recordings := by
  induction recordings using List.reverseRecOn with
  | nil => simp [ofRecordings]
  | append_singleton before last ih =>
      rw [ofRecordings_concat, mem_subscribed_record, ih, List.mem_append, List.mem_singleton,
        eq_comm (a := last)]

/-- Neither the order nor the number of recordings matters. -/
theorem ofRecordings_eq_of_mem_iff
    (same : ∀ recording, recording ∈ recordings ↔ recording ∈ others) :
    ofRecordings recordings = ofRecordings others := by
  apply Topics.ext
  · apply TopicSet.eq_of_mem_iff
    intro topic
    rw [mem_published_ofRecordings, mem_published_ofRecordings, same]
  · apply TopicSet.eq_of_mem_iff
    intro topic
    rw [mem_subscribed_ofRecordings, mem_subscribed_ofRecordings, same]

end Topics

namespace Overview

open Declaration

variable {flows : List (String × Topics)} {flow other topic : String} {topics : Topics}
  {edge : Edge}

theorem flowId_inj : flowId flow = flowId other ↔ flow = other := by
  rw [flowId, flowId, NodeId.mk.injEq, String.append_right_inj]

/-! ## Edges -/

/-- The edges of a flow in an overview. -/
def flowEdges (flow : String) (topics : Topics) : List Edge :=
  topics.published.toList.map (fun topic => ⟨flowId flow, topicId topic, .publish⟩)
    ++ topics.subscribed.toList.map fun topic => ⟨topicId topic, flowId flow, .subscribe⟩

theorem mem_flowEdges_iff :
    edge ∈ flowEdges flow topics ↔
      (∃ topic ∈ topics.published, edge = ⟨flowId flow, topicId topic, .publish⟩) ∨
        ∃ topic ∈ topics.subscribed, edge = ⟨topicId topic, flowId flow, .subscribe⟩ := by
  rw [flowEdges, List.mem_append, List.mem_map, List.mem_map]
  simp only [eq_comm (b := edge)]
  rfl

theorem edges_flow (flow : String) (topics : Topics) :
    edges (Overview.flow flow topics) = flowEdges flow topics := by
  have published : edges (topics.published.toList.flatMap (publication flow)) =
      topics.published.toList.map fun topic => ⟨flowId flow, topicId topic, .publish⟩ := by
    rw [edges, List.filterMap_flatMap, List.map_eq_flatMap]
    rfl
  have subscribed : edges (topics.subscribed.toList.flatMap (subscription flow)) =
      topics.subscribed.toList.map fun topic => ⟨topicId topic, flowId flow, .subscribe⟩ := by
    rw [edges, List.filterMap_flatMap, List.map_eq_flatMap]
    rfl
  rw [flowEdges, ← published, ← subscribed]
  exact List.filterMap_append

theorem edges_declarations (flows : List (String × Topics)) :
    edges (declarations flows) = flows.flatMap fun (flow, topics) => flowEdges flow topics := by
  rw [declarations, edges, List.filterMap_flatMap]
  exact List.flatMap_congr fun entry _ => edges_flow entry.1 entry.2

theorem nodup_flowEdges (flow : String) (topics : Topics) : (flowEdges flow topics).Nodup := by
  have publishedDistinct := topics.published.ascending.imp fun less => String.ne_of_lt less
  have subscribedDistinct := topics.subscribed.ascending.imp fun less => String.ne_of_lt less
  rw [flowEdges, List.nodup_append]
  refine ⟨?_, ?_, ?_⟩
  · apply List.Nodup.map _ publishedDistinct
    intro first second same
    exact topicId_inj.1 (Edge.mk.inj same).2.1
  · apply List.Nodup.map _ subscribedDistinct
    intro first second same
    exact topicId_inj.1 (Edge.mk.inj same).1
  · intro first firstListed second secondListed
    rcases List.mem_map.1 firstListed with ⟨_, _, rfl⟩
    rcases List.mem_map.1 secondListed with ⟨_, _, rfl⟩
    intro same
    cases (Edge.mk.inj same).2.2

/-- An edge of an overview shows which flow it is an edge of. -/
theorem eq_of_mem_flowEdges {otherTopics : Topics} (first : edge ∈ flowEdges flow topics)
    (second : edge ∈ flowEdges other otherTopics) : flow = other := by
  rcases mem_flowEdges_iff.1 first with ⟨_, _, rfl⟩ | ⟨_, _, rfl⟩
  · rcases mem_flowEdges_iff.1 second with ⟨_, _, same⟩ | ⟨_, _, same⟩
    · exact flowId_inj.1 (Edge.mk.inj same).1
    · cases (Edge.mk.inj same).2.2
  · rcases mem_flowEdges_iff.1 second with ⟨_, _, same⟩ | ⟨_, _, same⟩
    · cases (Edge.mk.inj same).2.2
    · exact flowId_inj.1 (Edge.mk.inj same).2.1

theorem nodup_edges_declarations (distinct : (flows.map (·.1)).Nodup) :
    (edges (declarations flows)).Nodup := by
  rw [edges_declarations, List.nodup_flatMap]
  refine ⟨fun entry _ => nodup_flowEdges entry.1 entry.2, ?_⟩
  refine (List.pairwise_map.1 distinct).imp fun different edge first second => ?_
  exact different (eq_of_mem_flowEdges first second)

/-! ## Nodes -/

theorem eq_of_flow_mem {label : String} {shape : Shape}
    (member : .node (flowId flow) label shape ∈ declarations flows) :
    label = flow ∧ shape = .flow := by
  rcases mem_declarations_iff.1 member with ⟨name, topics, _, declared | published | subscribed⟩
  · have same : flowId flow = flowId name ∧ label = name ∧ shape = .flow := by
      simpa using declared
    rw [flowId_inj] at same
    exact ⟨same.2.1.trans same.1.symm, same.2.2⟩
  · rcases published with ⟨topic, _, declared⟩
    simp [publication, flowId_ne_topicId] at declared
  · rcases subscribed with ⟨topic, _, declared⟩
    simp [subscription, flowId_ne_topicId] at declared

theorem mem_shown_iff_flow_or_topic {node : ShownNode} :
    node ∈ shown (declarations flows) ↔
      (∃ flow topics, (flow, topics) ∈ flows ∧ node = (flowId flow, flow, .flow)) ∨
        ∃ flow topics, (flow, topics) ∈ flows ∧ ∃ topic,
          (topic ∈ topics.published ∨ topic ∈ topics.subscribed) ∧
            node = (topicId topic, topic, .topic) := by
  constructor
  · intro listed
    rcases node with ⟨id, label, shape⟩
    have declared := List.mem_of_find?_eq_some (mem_shown_iff.1 listed)
    rcases mem_declarations_iff.1 declared with ⟨flow, topics, present, own | published | subscribed⟩
    · cases own
      exact .inl ⟨_, topics, present, rfl⟩
    · rcases published with ⟨topic, recorded, node⟩
      have same : id = topicId topic ∧ label = topic ∧ shape = .topic := by
        simpa [publication] using node
      rcases same with ⟨rfl, rfl, rfl⟩
      exact .inr ⟨flow, topics, present, label, .inl recorded, rfl⟩
    · rcases subscribed with ⟨topic, recorded, node⟩
      have same : id = topicId topic ∧ label = topic ∧ shape = .topic := by
        simpa [subscription] using node
      rcases same with ⟨rfl, rfl, rfl⟩
      exact .inr ⟨flow, topics, present, label, .inr recorded, rfl⟩
  · rintro (⟨flow, topics, present, rfl⟩ | ⟨flow, topics, present, topic, recorded, rfl⟩)
    · refine mem_shown_of_unique ?_ fun _ _ other => eq_of_flow_mem other
      exact mem_declarations_iff.2 ⟨flow, topics, present, .inl rfl⟩
    -- A topic is declared by every flow that has it, in the same way each time.
    · have inDot := mem_nodes_of_topic .dot present recorded
      rwa [Format.nodes_eq] at inDot

/-! ## Recorded flows -/

/-- The overview of flows for which topics are recorded one after the other. -/
def ofRecorded (recorded : List (String × List Topics.Recording)) : List Declaration :=
  declarations (recorded.map fun (flow, recordings) => (flow, .ofRecordings recordings))

/-- A node for each flow, and one for each topic that is recorded for a flow. -/
inductive IsNode (recorded : List (String × List Topics.Recording)) : ShownNode → Prop where
  | flow {flow : String} {recordings : List Topics.Recording}
      (present : (flow, recordings) ∈ recorded) : IsNode recorded (flowId flow, flow, .flow)
  | topic {flow topic : String} {recordings : List Topics.Recording}
      (present : (flow, recordings) ∈ recorded)
      (listed : .publish topic ∈ recordings ∨ .subscribe topic ∈ recordings) :
      IsNode recorded (topicId topic, topic, .topic)

/-- An edge for each flow to each topic that it publishes to, and from each topic that it subscribes
to. -/
inductive IsEdge (recorded : List (String × List Topics.Recording)) : Edge → Prop where
  | publish {flow topic : String} {recordings : List Topics.Recording}
      (present : (flow, recordings) ∈ recorded) (listed : .publish topic ∈ recordings) :
      IsEdge recorded ⟨flowId flow, topicId topic, .publish⟩
  | subscribe {flow topic : String} {recordings : List Topics.Recording}
      (present : (flow, recordings) ∈ recorded) (listed : .subscribe topic ∈ recordings) :
      IsEdge recorded ⟨topicId topic, flowId flow, .subscribe⟩

variable {recorded others : List (String × List Topics.Recording)}

theorem exists_mem_map_iff {holds : String → Topics → Prop} :
    (∃ flow topics, (flow, topics) ∈ recorded.map (fun (flow, recordings) =>
        (flow, Topics.ofRecordings recordings)) ∧ holds flow topics) ↔
      ∃ flow recordings, (flow, recordings) ∈ recorded ∧ holds flow (.ofRecordings recordings) := by
  constructor
  · rintro ⟨flow, topics, listed, held⟩
    rcases List.mem_map.1 listed with ⟨⟨_, recordings⟩, present, same⟩
    cases same
    exact ⟨flow, recordings, present, held⟩
  · rintro ⟨flow, recordings, present, held⟩
    exact ⟨flow, _, List.mem_map_of_mem present, held⟩

theorem mem_shown_ofRecorded_iff {node : ShownNode} :
    node ∈ shown (ofRecorded recorded) ↔ IsNode recorded node := by
  rw [ofRecorded, mem_shown_iff_flow_or_topic, exists_mem_map_iff, exists_mem_map_iff]
  simp only [Topics.mem_published_ofRecordings, Topics.mem_subscribed_ofRecordings]
  constructor
  · rintro (⟨flow, recordings, present, rfl⟩ | ⟨flow, recordings, present, topic, listed, rfl⟩)
    · exact .flow present
    · exact .topic present listed
  · intro isNode
    cases isNode with
    | flow present => exact .inl ⟨_, _, present, rfl⟩
    | topic present listed => exact .inr ⟨_, _, present, _, listed, rfl⟩

theorem mem_edges_ofRecorded_iff :
    edge ∈ edges (ofRecorded recorded) ↔ IsEdge recorded edge := by
  rw [ofRecorded, ← Format.edges_eq .dot name, mem_edges_iff, exists_mem_map_iff]
  simp only [Topics.mem_published_ofRecordings, Topics.mem_subscribed_ofRecordings]
  constructor
  · rintro ⟨flow, recordings, present, ⟨topic, listed, rfl⟩ | ⟨topic, listed, rfl⟩⟩
    · exact .publish present listed
    · exact .subscribe present listed
  · intro isEdge
    cases isEdge with
    | publish present listed => exact ⟨_, _, present, .inl ⟨_, listed, rfl⟩⟩
    | subscribe present listed => exact ⟨_, _, present, .inr ⟨_, listed, rfl⟩⟩

/-- Flows of the same names in the same order, with the same topics on either side, have the same
overview. -/
theorem ofRecorded_eq_of_forall₂
    (same : List.Forall₂ (fun first second => first.1 = second.1 ∧
      ∀ recording, recording ∈ first.2 ↔ recording ∈ second.2) recorded others) :
    ofRecorded recorded = ofRecorded others := by
  unfold ofRecorded
  congr 1
  induction same with
  | nil => rfl
  | @cons first second _ _ alike _ ih =>
      rcases first with ⟨flow, recordings⟩
      rcases second with ⟨_, retold⟩
      rcases alike with ⟨rfl, listed⟩
      have topics : Topics.ofRecordings recordings = .ofRecordings retold :=
        Topics.ofRecordings_eq_of_mem_iff listed
      simp only [List.map_cons, ih, topics]

/-- The overview of recorded flows with different names has a node for each flow and one for each
topic, and an edge for each topic on either side of each flow; it has nothing else and nothing
twice, in every format. What is written depends on the flows, in order, and on the topics on their
two sides only. -/
theorem nodes_and_edges_and_render_ofRecorded (recorded : List (String × List Topics.Recording))
    (distinct : (recorded.map (·.1)).Nodup) (format : Format) (canvas : String) :
    (∀ flow topic, flowId flow ≠ topicId topic) ∧
      ((format.nodes canvas (ofRecorded recorded)).map (·.1)).Nodup ∧
      (∀ node, node ∈ format.nodes canvas (ofRecorded recorded) ↔ IsNode recorded node) ∧
      (format.edges canvas (ofRecorded recorded)).Nodup ∧
      (∀ edge, edge ∈ format.edges canvas (ofRecorded recorded) ↔ IsEdge recorded edge) ∧
      ∀ others, List.Forall₂ (fun first second => first.1 = second.1 ∧
          ∀ recording, recording ∈ first.2 ↔ recording ∈ second.2) recorded others →
        format.render canvas (ofRecorded others) = format.render canvas (ofRecorded recorded) := by
  rw [format.nodes_eq, format.edges_eq]
  refine ⟨flowId_ne_topicId, nodup_ids_shown _, fun node => mem_shown_ofRecorded_iff, ?_,
    fun edge => mem_edges_ofRecorded_iff, ?_⟩
  · apply nodup_edges_declarations
    rw [List.map_map]
    exact distinct
  · intro others same
    rw [ofRecorded_eq_of_forall₂ same]

/-- Two flows that topics are named after, of which one publishes to the other's topic, twice. -/
def homonyms : List (String × List Topics.Recording) :=
  [("orders", [.publish "paid", .subscribe "orders", .publish "paid"]),
    ("paid", [.subscribe "paid", .publish "orders"])]

/-- The same flows with their topics recorded in another way. -/
def homonymsRetold : List (String × List Topics.Recording) :=
  [("orders", [.subscribe "orders", .publish "paid"]),
    ("paid", [.publish "orders", .publish "orders", .subscribe "paid"])]

theorem overview_homonyms :
    (homonyms.map (·.1)).Nodup ∧
      ∀ format : Format,
        (flowId "paid", "paid", .flow) ∈ format.nodes "topics" (ofRecorded homonyms) ∧
          (topicId "paid", "paid", .topic) ∈ format.nodes "topics" (ofRecorded homonyms) ∧
          (format.edges "topics" (ofRecorded homonyms)).count
            ⟨flowId "orders", topicId "paid", .publish⟩ = 1 ∧
          format.render "topics" (ofRecorded homonymsRetold) =
            format.render "topics" (ofRecorded homonyms) := by
  have distinct : (homonyms.map (·.1)).Nodup := by decide
  refine ⟨distinct, fun format => ?_⟩
  obtain ⟨_, _, nodes, once, edges, retold⟩ :=
    nodes_and_edges_and_render_ofRecorded homonyms distinct format "topics"
  have orders : ("orders", [.publish "paid", .subscribe "orders", .publish "paid"]) ∈ homonyms :=
    List.mem_cons_self
  refine ⟨(nodes _).2 (.flow (List.mem_of_mem_getLast? rfl)), (nodes _).2 (.topic orders ?_), ?_, ?_⟩
  · exact .inl List.mem_cons_self
  · apply List.count_eq_one_of_mem once
    exact (edges _).2 (.publish orders List.mem_cons_self)
  · apply retold
    refine .cons ⟨rfl, fun recording => ?_⟩ (.cons ⟨rfl, fun recording => ?_⟩ .nil)
    · grind
    · grind

end Overview

end ProcessChain
