import ProcessChain.Proofs.Composition.Gathering
import ProcessChain.Proofs.Drawing.Shown
import ProcessChain.Proofs.Run.Parts

/-!
# Topics in the overview of a run

The overview of a run is made from the topics of its main flows. A topic is shown with an edge of
publication exactly if some main flow publishes to it, and with an edge of subscription exactly if
some main flow subscribes to it; where in a flow the event or the remark stands does not matter.

The topics of an inner flow are gathered when it is drawn, but they are not handed on to the
overview. `Settings.collects_iff` says what this amounts to: the overview collects the topics of
every main flow, and those of an inner flow only as far as they are topics of main flows as well.
-/

namespace ProcessChain

namespace Overview

theorem flowId_ne_topicId (flow topic : String) : flowId flow ≠ topicId topic := by
  intro same
  have texts := congrArg (fun id : NodeId => id.text.toList) same
  simp [flowId, topicId] at texts

theorem topicId_inj {topic other : String} : topicId topic = topicId other ↔ topic = other := by
  rw [topicId, topicId, NodeId.mk.injEq, String.append_right_inj]

variable {flows : List (String × Topics)} {topic : String}

theorem mem_declarations_iff {declaration : Declaration} :
    declaration ∈ declarations flows ↔ ∃ name topics, (name, topics) ∈ flows ∧
      (declaration = .node (flowId name) name .flow ∨
        (∃ topic ∈ topics.published, declaration ∈ publication name topic) ∨
        ∃ topic ∈ topics.subscribed, declaration ∈ subscription name topic) := by
  rw [declarations, List.mem_flatMap, Prod.exists]
  simp only [flow, List.cons_append, List.mem_cons, List.mem_append, List.mem_flatMap]
  rfl

theorem eq_of_topic_mem {label : String} {shape : Shape}
    (member : .node (topicId topic) label shape ∈ declarations flows) :
    label = topic ∧ shape = .topic := by
  rcases mem_declarations_iff.1 member with ⟨name, topics, _, declared | published | subscribed⟩
  · simp [(flowId_ne_topicId name topic).symm] at declared
  · rcases published with ⟨other, _, declared⟩
    have same : topicId topic = topicId other ∧ label = other ∧ shape = .topic := by
      simpa [publication] using declared
    rw [topicId_inj] at same
    exact ⟨same.2.1.trans same.1.symm, same.2.2⟩
  · rcases subscribed with ⟨other, _, declared⟩
    have same : topicId topic = topicId other ∧ label = other ∧ shape = .topic := by
      simpa [subscription] using declared
    rw [topicId_inj] at same
    exact ⟨same.2.1.trans same.1.symm, same.2.2⟩

/-- The drawing of an overview has the node of a topic and an edge of publication into it. -/
def ShowsPublished (format : Format) (overview : List Declaration) (topic : String) : Prop :=
  (topicId topic, topic, .topic) ∈ format.nodes name overview ∧
    ∃ source, ⟨source, topicId topic, .publish⟩ ∈ format.edges name overview

/-- The drawing of an overview has the node of a topic and an edge of subscription out of it. -/
def ShowsSubscribed (format : Format) (overview : List Declaration) (topic : String) : Prop :=
  (topicId topic, topic, .topic) ∈ format.nodes name overview ∧
    ∃ target, ⟨topicId topic, target, .subscribe⟩ ∈ format.edges name overview

/-- The edges of an overview are those of publication and subscription, one for each topic on either
side of a flow. -/
theorem mem_edges_iff (format : Format) {edge : Edge} :
    edge ∈ format.edges name (declarations flows) ↔
      ∃ flow topics, (flow, topics) ∈ flows ∧
        ((∃ topic ∈ topics.published, edge = ⟨flowId flow, topicId topic, .publish⟩) ∨
          ∃ topic ∈ topics.subscribed, edge = ⟨topicId topic, flowId flow, .subscribe⟩) := by
  rw [Format.edges_eq, Declaration.mem_edges_iff, mem_declarations_iff]
  simp [publication, subscription]

theorem mem_nodes_of_topic (format : Format) {flow : String} {topics : Topics}
    (present : (flow, topics) ∈ flows)
    (listed : topic ∈ topics.published ∨ topic ∈ topics.subscribed) :
    (topicId topic, topic, .topic) ∈ format.nodes name (declarations flows) := by
  rw [Format.nodes_eq]
  refine Declaration.mem_shown_of_unique ?_ fun _ _ other => eq_of_topic_mem other
  refine mem_declarations_iff.2 ⟨flow, topics, present, Or.inr ?_⟩
  rcases listed with published | subscribed
  · exact Or.inl ⟨topic, published, by simp [publication]⟩
  · exact Or.inr ⟨topic, subscribed, by simp [subscription]⟩

theorem showsPublished_iff (format : Format) :
    ShowsPublished format (declarations flows) topic ↔
      ∃ flow topics, (flow, topics) ∈ flows ∧ topic ∈ topics.published := by
  constructor
  · rintro ⟨_, source, edge⟩
    rcases (mem_edges_iff format).1 edge with ⟨flow, topics, present, ⟨other, published, same⟩ | sub⟩
    · rw [Edge.mk.injEq, topicId_inj] at same
      exact ⟨flow, topics, present, same.2.1 ▸ published⟩
    · simp at sub
  · rintro ⟨flow, topics, present, published⟩
    exact ⟨mem_nodes_of_topic format present (Or.inl published), flowId flow,
      (mem_edges_iff format).2 ⟨flow, topics, present, Or.inl ⟨topic, published, rfl⟩⟩⟩

theorem showsSubscribed_iff (format : Format) :
    ShowsSubscribed format (declarations flows) topic ↔
      ∃ flow topics, (flow, topics) ∈ flows ∧ topic ∈ topics.subscribed := by
  constructor
  · rintro ⟨_, target, edge⟩
    rcases (mem_edges_iff format).1 edge with ⟨flow, topics, present, pub | ⟨other, subscribed, same⟩⟩
    · simp at pub
    · rw [Edge.mk.injEq, topicId_inj] at same
      exact ⟨flow, topics, present, same.1 ▸ subscribed⟩
  · rintro ⟨flow, topics, present, subscribed⟩
    exact ⟨mem_nodes_of_topic format present (Or.inr subscribed), flowId flow,
      (mem_edges_iff format).2 ⟨flow, topics, present, Or.inr ⟨topic, subscribed, rfl⟩⟩⟩

end Overview

namespace Settings

variable {settings : Settings} {sources : List (String × String)} {drawings : List Drawing}
  {language : Language} {flows : Flows} {drawn : List DrawnFlow}

/-- A flow is drawn in a run as some part: it is a main flow, or it is drawn with one. -/
def DrawnAs (language : Language) (flows : Flows) (drawn : List DrawnFlow) (flow : Flow)
    (part : Part) : Prop :=
  ∃ main ∈ flows.main, ∃ shown ∈ drawn, ∃ inner, shown.MadeOf language flows main inner ∧
    part ∈ shown.mainPart main :: inner ∧ part.ComposedFrom language flow

def PublishedByMain (drawn : List DrawnFlow) (topic : String) : Prop :=
  ∃ shown ∈ drawn, topic ∈ shown.diagram.chain.publications

def SubscribedByMain (language : Language) (flows : Flows) (topic : String) : Prop :=
  ∃ main ∈ flows.main, topic ∈ main.subscriptions language

/-- The overview shows every topic that an event of a flow is sent to, and every topic that the flow
subscribes to. -/
def CollectsTopics (settings : Settings) (drawn : List DrawnFlow) (flow : Flow) (part : Part) :
    Prop :=
  (∀ topic ∈ part.diagram.chain.publications,
      Overview.ShowsPublished settings.format (overview drawn) topic) ∧
    ∀ topic ∈ flow.subscriptions settings.language,
      Overview.ShowsSubscribed settings.format (overview drawn) topic

theorem showsPublished_overview_iff {drawn : List DrawnFlow} {mains : List Flow} {topic : String}
    (made : List.Forall₂ (fun main flow => ∃ inner, flow.MadeOf language flows main inner)
      mains drawn) (format : Format) :
    Overview.ShowsPublished format (overview drawn) topic ↔ PublishedByMain drawn topic := by
  unfold overview PublishedByMain
  rw [Overview.showsPublished_iff]
  constructor
  · rintro ⟨name, topics, present, published⟩
    rcases List.mem_map.1 present with ⟨shown, member, same⟩
    rcases exists_of_forall₂ made member with ⟨main, _, inner, made⟩
    cases same
    exact ⟨shown, member, (Language.mem_published_of_composeIn made.composed).1 published⟩
  · rintro ⟨shown, member, published⟩
    rcases exists_of_forall₂ made member with ⟨main, _, inner, made⟩
    exact ⟨_, _, List.mem_map_of_mem member,
      (Language.mem_published_of_composeIn made.composed).2 published⟩

theorem showsSubscribed_overview_iff {topic : String}
    (made : List.Forall₂ (fun main flow => ∃ inner, flow.MadeOf language flows main inner)
      flows.main drawn) (format : Format) :
    Overview.ShowsSubscribed format (overview drawn) topic ↔
      SubscribedByMain language flows topic := by
  unfold overview SubscribedByMain
  rw [Overview.showsSubscribed_iff]
  constructor
  · rintro ⟨name, topics, present, subscribed⟩
    rcases List.mem_map.1 present with ⟨shown, member, same⟩
    rcases exists_of_forall₂ made member with ⟨main, main_mem, inner, made⟩
    cases same
    exact ⟨main, main_mem, (Language.mem_subscribed_of_composeIn made.composed).1 subscribed⟩
  · rintro ⟨main, main_mem, subscribed⟩
    rcases exists_of_forall₂ made.flip main_mem with ⟨shown, member, inner, made⟩
    exact ⟨_, _, List.mem_map_of_mem member,
      (Language.mem_subscribed_of_composeIn made.composed).2 subscribed⟩

/-- The overview collects the topics of every main flow, and those of a flow that is drawn with one
exactly as far as they are topics of main flows as well. -/
theorem collects_iff (accepted : settings.draw sources = .ok drawings) :
    ∃ flows drawn, settings.readFlows sources = .ok flows ∧
      List.Forall₂ (fun main flow => ∃ inner, flow.MadeOf settings.language flows main inner)
        flows.main drawn ∧
      drawings = drawn.map settings.drawing
        ++ [.ofDeclarations settings.format Overview.name (overview drawn)] ∧
      (∀ main ∈ flows.main, ∀ shown ∈ drawn, ∀ inner,
        shown.MadeOf settings.language flows main inner →
          settings.CollectsTopics drawn main (shown.mainPart main)) ∧
      ∀ flow part, DrawnAs settings.language flows drawn flow part →
        (settings.CollectsTopics drawn flow part ↔
          (∀ topic ∈ part.diagram.chain.publications, PublishedByMain drawn topic) ∧
            ∀ topic ∈ flow.subscriptions settings.language,
              SubscribedByMain settings.language flows topic) := by
  rcases draw_eq_ok_iff.1 accepted with ⟨flows, drawn, read, made, drawings_eq⟩
  have published_iff (topic : String) :
      Overview.ShowsPublished settings.format (overview drawn) topic ↔
        PublishedByMain drawn topic :=
    showsPublished_overview_iff made settings.format
  have subscribed_iff (topic : String) :
      Overview.ShowsSubscribed settings.format (overview drawn) topic ↔
        SubscribedByMain settings.language flows topic :=
    showsSubscribed_overview_iff made settings.format
  refine ⟨flows, drawn, read, made, drawings_eq, ?_, ?_⟩
  · intro main main_mem shown shown_mem inner _
    constructor
    · intro topic published
      exact (published_iff topic).2 ⟨shown, shown_mem, published⟩
    · intro topic subscribed
      exact (subscribed_iff topic).2 ⟨main, main_mem, subscribed⟩
  · intro flow part _
    unfold CollectsTopics
    simp only [published_iff, subscribed_iff]

/-- A flow that listens to one topic and publishes to another. -/
def outspoken : List (String × String) :=
  [("shop", "# subscribes: paid\n# event: placed publishes: ordered\n")]

theorem collects_outspoken :
    ∃ drawings flows drawn, draw {} outspoken = .ok drawings ∧
      readFlows {} outspoken = .ok flows ∧
      drawings = drawn.map (drawing {})
        ++ [.ofDeclarations .dot Overview.name (overview drawn)] ∧
      ∀ main ∈ flows.main, ∃ shown ∈ drawn,
        CollectsTopics {} drawn main (shown.mainPart main) := by
  have succeeds : (draw {} outspoken).isOk := by decide +kernel
  rcases exists_eq_ok_of_isOk succeeds with ⟨drawings, accepted⟩
  rcases collects_iff accepted with ⟨flows, drawn, read, made, drawings_eq, collects, _⟩
  refine ⟨drawings, flows, drawn, accepted, read, drawings_eq, ?_⟩
  intro main main_mem
  rcases exists_of_forall₂ made.flip main_mem with ⟨shown, member, inner, made⟩
  exact ⟨shown, member, collects main main_mem shown member inner made⟩

/-- A flow whose only topic is that of an event in an inner flow. -/
def secluded : List (String × String) :=
  [("shop",
    "# inner-flow: pay\n# inner-diagram: pay\n# event: paid publishes: settled\n# end-diagram:\n")]

def secludedMain : Flow :=
  ⟨"shop", [⟨"inner-flow: pay", 1⟩]⟩

def secludedInner : Flow :=
  ⟨"pay", [⟨"event: paid publishes: settled", 3⟩]⟩

def secludedPart : Part where
  scope := "shop/pay#1"
  diagram :=
    { name := "pay"
      chain :=
        [.event { id := ⟨"shop/pay#1:0"⟩, description := "paid", publishes := some "settled" }]
      topics := { published := (∅ : TopicSet).insert "settled" } }

def secludedFlow : DrawnFlow where
  diagram :=
    { name := "shop"
      chain := [.process { id := ⟨"shop:0"⟩, flow := "pay" }]
      references := ["pay"] }
  declarations := .node ⟨"shop:0"⟩ "pay" .process :: secludedPart.declarations

theorem composedFrom_secludedInner : secludedPart.ComposedFrom .standard secludedInner := by
  unfold Part.ComposedFrom
  cbv

theorem madeOf_secludedFlow :
    secludedFlow.MadeOf .standard ⟨[secludedMain], [secludedInner]⟩ secludedMain
      [secludedPart] := by
  refine ⟨?_, ?_, rfl⟩
  · unfold Part.ComposedFrom
    cbv
  · have scope_eq : secludedPart.scope = innerScope "shop" "pay" 1 := by decide
    exact List.Forall₂.cons ⟨scope_eq, composedFrom_secludedInner⟩ .nil

/-- The topic of the inner flow is nowhere in the overview. -/
theorem not_collects_secluded :
    draw {} secluded = .ok [drawing {} secludedFlow,
      .ofDeclarations .dot Overview.name (overview [secludedFlow])] ∧
    readFlows {} secluded = .ok ⟨[secludedMain], [secludedInner]⟩ ∧
    DrawnAs .standard ⟨[secludedMain], [secludedInner]⟩ [secludedFlow] secludedInner
      secludedPart ∧
    "settled" ∈ secludedPart.diagram.chain.publications ∧
    ¬ CollectsTopics {} [secludedFlow] secludedInner secludedPart ∧
    Format.dot.nodes Overview.name (overview [secludedFlow]) =
      [(Overview.flowId "shop", "shop", .flow)] := by
  have nodes_eq : Format.dot.nodes Overview.name (overview [secludedFlow]) =
      [(Overview.flowId "shop", "shop", .flow)] := by
    decide +kernel
  have settled : "settled" ∈ secludedPart.diagram.chain.publications := by decide
  have read : readFlows {} secluded = .ok ⟨[secludedMain], [secludedInner]⟩ := by
    decide +kernel
  refine ⟨?_, read, ?_, settled, ?_, nodes_eq⟩
  · exact draw_eq_ok_iff.2 ⟨_, [secludedFlow], read,
      List.Forall₂.cons ⟨[secludedPart], madeOf_secludedFlow⟩ .nil, rfl⟩
  · exact ⟨secludedMain, List.mem_singleton_self _, secludedFlow, List.mem_singleton_self _,
      [secludedPart], madeOf_secludedFlow, by simp, composedFrom_secludedInner⟩
  · rintro ⟨published, _⟩
    have shown := (published "settled" settled).1
    change _ ∈ Format.dot.nodes Overview.name (overview [secludedFlow]) at shown
    rw [nodes_eq] at shown
    simp at shown

end Settings

end ProcessChain
