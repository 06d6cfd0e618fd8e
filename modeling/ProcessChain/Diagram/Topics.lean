/-!
# Topics of a flow

A flow publishes to topics and subscribes to topics. What counts is the set of topics on either
side, so `TopicSet` keeps them in strictly ascending order: recording a topic twice changes nothing,
neither does the order of recording, and the topics are always listed in one order, that of their
code points.
-/

namespace ProcessChain

/-- A set of topics, listed in strictly ascending order. -/
@[ext]
structure TopicSet where
  toList : List String
  /-- No topic is listed twice, and each comes before the greater ones. -/
  ascending : toList.Pairwise (· < ·)
deriving DecidableEq

namespace TopicSet

/-- A list in ascending order with one more topic at its place. -/
def place (topic : String) : List String → List String
  | [] => [topic]
  | first :: rest =>
    if topic < first then topic :: first :: rest
    else if topic = first then first :: rest
    else first :: place topic rest

theorem mem_place {topic other : String} {topics : List String} :
    other ∈ place topic topics ↔ other = topic ∨ other ∈ topics := by
  induction topics with
  | nil => simp [place]
  | cons first rest ih => grind [place]

theorem lt_of_not_lt_of_ne {first topic : String} (notLess : ¬topic < first)
    (different : topic ≠ first) : first < topic :=
  Decidable.byContradiction fun notGreater =>
    different (String.le_antisymm (String.not_lt.1 notGreater) (String.not_lt.1 notLess))

theorem ascending_place {topic : String} {topics : List String}
    (ascending : topics.Pairwise (· < ·)) : (place topic topics).Pairwise (· < ·) := by
  induction topics with
  | nil => simp [place]
  | cons first rest ih =>
    have ⟨least, restAscending⟩ := List.pairwise_cons.1 ascending
    unfold place
    split
    case isTrue less =>
      refine List.pairwise_cons.2 ⟨fun other member => ?_, ascending⟩
      rcases List.mem_cons.1 member with rfl | member
      · exact less
      · exact String.lt_trans less (least other member)
    case isFalse notLess =>
      split
      · exact ascending
      · rename_i different
        refine List.pairwise_cons.2 ⟨fun other member => ?_, ih restAscending⟩
        rcases mem_place.1 member with rfl | member
        · exact lt_of_not_lt_of_ne notLess different
        · exact least other member

/-- The set without topics. -/
def empty : TopicSet where
  toList := []
  ascending := .nil

instance : EmptyCollection TopicSet := ⟨empty⟩

instance : Membership String TopicSet where
  mem topics topic := topic ∈ topics.toList

/-- The set with one more topic. -/
def insert (topics : TopicSet) (topic : String) : TopicSet where
  toList := place topic topics.toList
  ascending := ascending_place topics.ascending

@[simp]
theorem not_mem_empty (topic : String) : topic ∉ (∅ : TopicSet) :=
  List.not_mem_nil

@[simp]
theorem mem_insert {topics : TopicSet} {topic other : String} :
    other ∈ topics.insert topic ↔ other = topic ∨ other ∈ topics :=
  mem_place

/-- Whether no topic is recorded. -/
def isEmpty (topics : TopicSet) : Bool :=
  topics.toList.isEmpty

end TopicSet

/-- The topics that a flow publishes to and subscribes to. -/
@[ext]
structure Topics where
  /-- The topics that some event of the flow is sent to. -/
  published : TopicSet := ∅
  /-- The topics that the flow listens to. -/
  subscribed : TopicSet := ∅
deriving DecidableEq

namespace Topics

/-- Records a topic that the flow publishes to. -/
def publish (topics : Topics) (topic : String) : Topics :=
  { topics with published := topics.published.insert topic }

/-- Records a topic that the flow subscribes to. -/
def subscribe (topics : Topics) (topic : String) : Topics :=
  { topics with subscribed := topics.subscribed.insert topic }

/-- Whether no topic is recorded on either side. -/
def isEmpty (topics : Topics) : Bool :=
  topics.published.isEmpty && topics.subscribed.isEmpty

end Topics

end ProcessChain
