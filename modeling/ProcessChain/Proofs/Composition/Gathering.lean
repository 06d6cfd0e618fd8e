import ProcessChain.Proofs.Composition.Numbering

/-!
# What a composition gathers

Besides its nodes, a composition gathers the inner flows that it refers to and the topics of the
flow, from every remark that it reads.

The invariant is `Draft.Gathers`. It ties what was gathered to the remarks that were read and to the
nodes that were made of them, so the topics that a composed flow publishes to are those that the
events of its chain are sent to, at any depth. In the same way the inner flows that it refers to are
those that the processes of its chain name (`Language.references_eq_processNames`).
-/

namespace ProcessChain

namespace Remarks

def references (remarks : Remarks) : List String :=
  (remarks.filter (·.keyword = .innerFlow)).map (·.payload)

def subscriptions (remarks : Remarks) : List String :=
  (remarks.filter (·.keyword = .subscribes)).flatMap fun remark => Text.itemStrings remark.payload

end Remarks

namespace Node

/-- The topic that a node is sent to, if it is an event that is sent to one. -/
def topic? : Node → Option String
  | .event body => body.publishes
  | _ => none

/-- The inner flow that a node refers to, if it is a process. -/
def reference? : Node → Option String
  | .process body => some body.flow
  | _ => none

end Node

/-- The inner flows that the processes of a chain refer to, those inside branches included. -/
def Chain.processNames (chain : Chain) : List String :=
  (Node.chainPreorder chain).filterMap Node.reference?

/-- The topics that the events of a chain are sent to, those inside branches included. -/
def Chain.publications (chain : Chain) : List String :=
  (Node.chainPreorder chain).filterMap Node.topic?

theorem Topics.mem_subscribed_foldl {topics : Topics} {topic : String} {listed : List String} :
    topic ∈ (listed.foldl subscribe topics).subscribed ↔
      topic ∈ topics.subscribed ∨ topic ∈ listed := by
  induction listed generalizing topics with
  | nil => simp
  | cons first rest ih =>
      rw [List.foldl_cons, ih, List.mem_cons, ← or_assoc]
      apply or_congr_left
      change topic ∈ topics.subscribed.insert first ↔ _
      rw [TopicSet.mem_insert]
      exact or_comm

theorem Topics.published_foldl_subscribe (topics : Topics) (listed : List String) :
    (listed.foldl subscribe topics).published = topics.published := by
  induction listed generalizing topics with
  | nil => rfl
  | cons first rest ih => exact ih (topics.subscribe first)

namespace Draft

/-- From a draft, reading some remarks and making some nodes of them leads to another draft. -/
structure Gathers (draft : Draft) (read : Remarks) (nodes : List Node) (last : Draft) : Prop where
  references_eq : last.references = draft.references ++ read.references
  mem_published_iff : ∀ topic, topic ∈ last.topics.published ↔
    topic ∈ draft.topics.published ∨ topic ∈ nodes.filterMap Node.topic?
  mem_subscribed_iff : ∀ topic, topic ∈ last.topics.subscribed ↔
    topic ∈ draft.topics.subscribed ∨ topic ∈ read.subscriptions

namespace Gathers

variable {draft middle last : Draft} {read more : Remarks} {nodes others : List Node}

theorem refl (draft : Draft) : draft.Gathers [] [] draft := by
  refine ⟨?_, ?_, ?_⟩
  · simp [Remarks.references]
  · simp
  · simp [Remarks.subscriptions]

theorem append (before : draft.Gathers read nodes middle)
    (after : middle.Gathers more others last) :
    draft.Gathers (read ++ more) (nodes ++ others) last := by
  refine ⟨?_, ?_, ?_⟩
  · rw [after.references_eq, before.references_eq, Remarks.references, Remarks.references]
    simp [Remarks.references]
  · intro topic
    rw [after.mem_published_iff, before.mem_published_iff, List.filterMap_append,
      List.mem_append, or_assoc]
  · intro topic
    rw [after.mem_subscribed_iff, before.mem_subscribed_iff, or_assoc]
    simp [Remarks.subscriptions]

theorem conditional (id : NodeId) (branches : List Chain)
    (inside : draft.issue.Gathers read nodes last) :
    draft.Gathers read (.conditional id branches :: nodes) last := by
  refine ⟨inside.references_eq, ?_, inside.mem_subscribed_iff⟩
  intro topic
  rw [inside.mem_published_iff]
  rfl

end Gathers

variable {scope : String} {draft noted : Draft} {nodes : Chain}

theorem gathers_note (scope : String) (line : Remarks) (draft : Draft) (remark : Remark) :
    draft.Gathers [remark] (Node.chainPreorder (draft.note scope line remark).2)
      (draft.note scope line remark).1 := by
  rcases remark with ⟨keyword, payload⟩
  cases keyword with
  | activity =>
      refine ⟨?_, ?_, ?_⟩ <;>
        simp [note, issue, Remarks.references, Remarks.subscriptions, Node.chainPreorder,
          Node.preorder, Node.topic?]
  | event =>
      refine ⟨?_, ?_, ?_⟩
      · simp [note, issue, Remarks.references]
      · intro topic
        cases found : line.filledPayload? .publishes with
        | none => simp [note, found, Node.chainPreorder, Node.preorder, Node.topic?]
        | some target =>
            have inserted : topic ∈ draft.topics.published.insert target ↔
                topic ∈ draft.topics.published ∨ topic = target := by
              rw [TopicSet.mem_insert]
              exact or_comm
            simpa [note, found, Topics.publish, Node.chainPreorder, Node.preorder, Node.topic?]
              using inserted
      · intro topic
        cases found : line.filledPayload? .publishes <;>
          simp [note, found, Remarks.subscriptions, Topics.publish, issue]
  | innerFlow =>
      refine ⟨?_, ?_, ?_⟩ <;>
        simp [note, issue, Remarks.references, Remarks.subscriptions, Node.chainPreorder,
          Node.preorder, Node.topic?]
  | subscribes =>
      refine ⟨?_, ?_, ?_⟩
      · simp [note, Remarks.references]
      · simp [note, Topics.published_foldl_subscribe, Node.chainPreorder]
      · simp [note, Topics.mem_subscribed_foldl, Remarks.subscriptions]
  | _ =>
      refine ⟨?_, ?_, ?_⟩ <;>
        simp [note, Remarks.references, Remarks.subscriptions, Node.chainPreorder]

/-- A remark adds a reference exactly if it adds a process. -/
theorem references_note (scope : String) (line : Remarks) (draft : Draft) (remark : Remark) :
    (draft.note scope line remark).1.references = draft.references ++
      (Node.chainPreorder (draft.note scope line remark).2).filterMap Node.reference? := by
  rcases remark with ⟨keyword, payload⟩
  cases keyword <;>
    simp [note, issue, Node.chainPreorder, Node.preorder, Node.reference?]

end Draft

theorem Composition.hereditary_gathers (scope : String) : Hereditary scope Draft.Gathers where
  nothing := .refl
  append before after := before.append after
  conditional branches inside := inside.conditional _ branches
  note := Draft.gathers_note scope

theorem Composition.hereditary_references (scope : String) :
    Hereditary scope fun draft _ nodes last =>
      last.references = draft.references ++ nodes.filterMap Node.reference? where
  nothing draft := (List.append_nil draft.references).symm
  append before after := by rw [after, before, List.filterMap_append, List.append_assoc]
  conditional _ inside := inside
  note := Draft.references_note scope

namespace Flow

def remarksRead (flow : Flow) (language : Language) : Remarks :=
  Composition.remarksRead 0 (flow.tokens.map language.line)

def references (flow : Flow) (language : Language) : List String :=
  (flow.remarksRead language).references

def subscriptions (flow : Flow) (language : Language) : List String :=
  (flow.remarksRead language).subscriptions

end Flow

namespace Language

variable {language : Language} {scope : String} {flow : Flow} {diagram : Diagram}

theorem references_of_composeIn (returned : language.composeIn scope flow = .ok diagram) :
    diagram.references = flow.references language := by
  rcases composes_of_composeIn returned with ⟨_, last, references_eq, _, derivation⟩
  rw [references_eq]
  exact ((Composition.hereditary_gathers scope).of_composes derivation).references_eq

/-- A diagram refers to the inner flows that its processes name, in their order. -/
theorem references_eq_processNames (returned : language.composeIn scope flow = .ok diagram) :
    diagram.references = diagram.chain.processNames := by
  rcases composes_of_composeIn returned with ⟨_, last, references_eq, _, derivation⟩
  have named := (Composition.hereditary_references scope).of_composes derivation
  rw [references_eq, named]
  rfl

theorem mem_published_of_composeIn (returned : language.composeIn scope flow = .ok diagram)
    {topic : String} :
    topic ∈ diagram.topics.published ↔ topic ∈ diagram.chain.publications := by
  rcases composes_of_composeIn returned with ⟨_, last, _, topics_eq, derivation⟩
  rw [topics_eq, ((Composition.hereditary_gathers scope).of_composes derivation).mem_published_iff]
  exact or_iff_right (TopicSet.not_mem_empty topic)

theorem mem_subscribed_of_composeIn (returned : language.composeIn scope flow = .ok diagram)
    {topic : String} :
    topic ∈ diagram.topics.subscribed ↔ topic ∈ flow.subscriptions language := by
  rcases composes_of_composeIn returned with ⟨_, last, _, topics_eq, derivation⟩
  rw [topics_eq, ((Composition.hereditary_gathers scope).of_composes derivation).mem_subscribed_iff]
  exact or_iff_right (TopicSet.not_mem_empty topic)

end Language

end ProcessChain
