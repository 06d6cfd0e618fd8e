import Mathlib.Data.List.Sort
import ProcessChain.Diagram.Basic
import ProcessChain.Proofs.Diagram.Identity

/-!
# Diagrams in sequence

A diagram is moved to another scope, or to higher numbers, by renaming the nodes of its chain at
every depth; everything else about it stays. Of two diagrams in sequence the second is moved beyond
the numbers of the first. Its nodes and references then come after those of the first, and the
topics are those of either.
-/

namespace ProcessChain

namespace NodeId

/-- The number that an identity has in a scope. -/
def number? (scope : String) (id : NodeId) : Option Nat :=
  let number := Nat.ofDigitChars 10 (id.text.toList.drop (scope.length + 1)) 0
  if id = numbered scope number then some number else none

theorem number?_eq_some_iff {scope : String} {id : NodeId} {number : Nat} :
    id.number? scope = some number ↔ id = numbered scope number := by
  constructor
  · intro found
    simp only [number?, Option.ite_none_right_eq_some, Option.some.injEq] at found
    rcases found with ⟨same, rfl⟩
    exact same
  · rintro rfl
    have digits : (numbered scope number).text.toList.drop (scope.length + 1) =
        Nat.toDigits 10 number := by
      rw [toList_numbered, ← String.length_toList, List.drop_append]
      simp
    simp [number?, digits]

/-- The identities of a scope are moved to another one and their numbers are raised; all other
identities stay. -/
def move (scope other : String) (raise : Nat) (id : NodeId) : NodeId :=
  match id.number? scope with
  | some number => numbered other (raise + number)
  | none => id

@[simp]
theorem move_numbered (scope other : String) (raise number : Nat) :
    move scope other raise (numbered scope number) = numbered other (raise + number) := by
  unfold move
  rw [number?_eq_some_iff.2 rfl]

end NodeId

namespace Node

mutual

/-- A node with all identities in it renamed. -/
def mapIds (rename : NodeId → NodeId) : Node → Node
  | .activity body => .activity { body with id := rename body.id }
  | .event body => .event { body with id := rename body.id }
  | .process body => .process { body with id := rename body.id }
  | .conditional id branches => .conditional (rename id) (branchesMapIds rename branches)

def branchesMapIds (rename : NodeId → NodeId) : List Chain → List Chain
  | [] => []
  | branch :: rest => chainMapIds rename branch :: branchesMapIds rename rest

def chainMapIds (rename : NodeId → NodeId) : Chain → Chain
  | [] => []
  | node :: rest => node.mapIds rename :: chainMapIds rename rest

end

@[simp]
theorem chainMapIds_append (rename : NodeId → NodeId) (first second : Chain) :
    chainMapIds rename (first ++ second) =
      chainMapIds rename first ++ chainMapIds rename second := by
  induction first with
  | nil => rfl
  | cons node rest ih => simp [chainMapIds, ih]

end Node

namespace TopicSet

variable {first second : TopicSet} {topic : String}

theorem eq_of_mem_iff (same : ∀ topic, topic ∈ first ↔ topic ∈ second) : first = second := by
  apply TopicSet.ext
  exact first.ascending.eq_of_mem_iff second.ascending same

instance : Union TopicSet where
  union first second := second.toList.foldl insert first

theorem mem_foldl_insert {listed : List String} :
    topic ∈ listed.foldl insert first ↔ topic ∈ first ∨ topic ∈ listed := by
  induction listed generalizing first with
  | nil => simp
  | cons other rest ih =>
      rw [List.foldl_cons, ih, mem_insert, List.mem_cons]
      grind

@[simp]
theorem mem_union : topic ∈ first ∪ second ↔ topic ∈ first ∨ topic ∈ second :=
  mem_foldl_insert

theorem empty_union (topics : TopicSet) : ∅ ∪ topics = topics :=
  eq_of_mem_iff (by simp)

theorem union_empty (topics : TopicSet) : topics ∪ ∅ = topics := rfl

theorem union_insert (first second : TopicSet) (topic : String) :
    first ∪ second.insert topic = (first ∪ second).insert topic := by
  apply eq_of_mem_iff
  intro other
  simp only [mem_union, mem_insert]
  exact or_left_comm

end TopicSet

namespace Topics

/-- The topics of either on both sides. -/
instance : Union Topics where
  union first second :=
    ⟨first.published ∪ second.published, first.subscribed ∪ second.subscribed⟩

theorem empty_union (topics : Topics) : {} ∪ topics = topics :=
  Topics.ext (TopicSet.empty_union _) (TopicSet.empty_union _)

theorem union_empty (topics : Topics) : topics ∪ {} = topics := rfl

theorem union_publish (first second : Topics) (topic : String) :
    first ∪ second.publish topic = (first ∪ second).publish topic :=
  Topics.ext (TopicSet.union_insert _ _ topic) rfl

theorem union_foldl_subscribe (first second : Topics) (listed : List String) :
    first ∪ listed.foldl subscribe second = listed.foldl subscribe (first ∪ second) := by
  induction listed generalizing second with
  | nil => rfl
  | cons topic rest ih =>
      have one : first ∪ second.subscribe topic = (first ∪ second).subscribe topic :=
        Topics.ext rfl (TopicSet.union_insert _ _ topic)
      rw [List.foldl_cons, List.foldl_cons, ih, one]

end Topics

namespace Diagram

def mapIds (rename : NodeId → NodeId) (diagram : Diagram) : Diagram :=
  { diagram with chain := Node.chainMapIds rename diagram.chain }

/-- A diagram with another one after it, both numbered in a scope. -/
def followedBy (scope : String) (first second : Diagram) : Diagram where
  name := first.name
  chain :=
    first.chain ++
      Node.chainMapIds (.move scope scope (Node.chainPreorder first.chain).length) second.chain
  references := first.references ++ second.references
  topics := first.topics ∪ second.topics

end Diagram

end ProcessChain
