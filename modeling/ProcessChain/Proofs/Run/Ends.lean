import ProcessChain.Proofs.Diagram.Outline
import ProcessChain.Proofs.Drawing.Groups
import ProcessChain.Proofs.Run.Parts

/-!
# Ends of the edges

A format does not check where an edge leads: an edge to a node that is never declared is drawn as it
is, and the drawing then has a node that nobody asked for, or is no longer valid. What is declared
for a drawing has to have both ends of every edge among its nodes.

The sketch of a diagram does, whatever the identities of the nodes are. A drawing of a main flow is
made from such sketches and from groups, which have no edges, and in an overview a flow and a topic
are declared together with the edge between them. So every drawing of a run has the nodes that its
edges lead to and from (`Settings.sketched_ends_and_drawn_ends`).
-/

namespace ProcessChain

open Declaration

/-- Every edge of a drawing leads from a node of the drawing to a node of the drawing. -/
def Format.NoneDangling (format : Format) (name : String) (declarations : List Declaration) :
    Prop :=
  ∀ edge ∈ format.edges name declarations,
    edge.source ∈ (format.nodes name declarations).map Prod.fst ∧
      edge.target ∈ (format.nodes name declarations).map Prod.fst

theorem Format.noneDangling_iff {format : Format} {name : String}
    {declarations : List Declaration} :
    format.NoneDangling name declarations ↔ EndsDeclared declarations := by
  unfold NoneDangling EndsDeclared
  simp only [nodes_eq, edges_eq, mem_edges_iff, mem_map_shown_iff, mem_nodeIds_iff]

theorem Part.endsDeclared_declarations (part : Part) : EndsDeclared part.declarations := by
  apply (Diagram.endsDeclared_sketch part.diagram).append
  intro edge listed
  simp at listed

theorem DrawnFlow.MadeOf.endsDeclared {drawn : DrawnFlow} {language : Language} {flows : Flows}
    {main : Flow} {inner : List Part} (made : drawn.MadeOf language flows main inner) :
    EndsDeclared drawn.declarations := by
  rw [made.declarations_eq]
  apply (Diagram.endsDeclared_sketch drawn.diagram).append
  exact EndsDeclared.flatMap inner fun part _ => part.endsDeclared_declarations

namespace Overview

/-- A flow is declared first, and each of its topics right before the edge between them. -/
theorem endsDeclared_flow (name : String) (topics : Topics) : EndsDeclared (flow name topics) := by
  intro edge listed
  have itself : flowId name ∈ nodeIds (flow name topics) :=
    mem_nodeIds_iff.2 ⟨name, .flow, List.mem_cons_self⟩
  simp only [flow, List.cons_append, List.mem_cons, List.mem_append, List.mem_flatMap,
    reduceCtorEq, false_or] at listed
  rcases listed with ⟨topic, published, made⟩ | ⟨topic, subscribed, made⟩
  · obtain rfl : edge = ⟨flowId name, topicId topic, .publish⟩ := by
      simpa [publication] using made
    have declared : topicId topic ∈ nodeIds (flow name topics) := by
      refine mem_nodeIds_iff.2 ⟨topic, .topic, ?_⟩
      apply List.mem_append_left
      apply List.mem_cons_of_mem
      exact List.mem_flatMap.2 ⟨topic, published, by simp [publication]⟩
    exact ⟨itself, declared⟩
  · obtain rfl : edge = ⟨topicId topic, flowId name, .subscribe⟩ := by
      simpa [subscription] using made
    have declared : topicId topic ∈ nodeIds (flow name topics) := by
      refine mem_nodeIds_iff.2 ⟨topic, .topic, ?_⟩
      apply List.mem_append_right
      exact List.mem_flatMap.2 ⟨topic, subscribed, by simp [subscription]⟩
    exact ⟨declared, itself⟩

theorem endsDeclared_declarations (flows : List (String × Topics)) :
    EndsDeclared (declarations flows) :=
  EndsDeclared.flatMap flows fun named _ => endsDeclared_flow named.1 named.2

end Overview

namespace Settings

open Node

/-- A sketch lists the points of the nodes in preorder. It declares these and what the activities
touch, both ends of every edge among them, in every drawing of a diagram and of a run. -/
theorem sketched_ends_and_drawn_ends :
    (∀ diagram : Diagram,
      diagram.sketch.declared = (chainPreorder diagram.chain).flatMap ownPoints ∧
      (∀ id, id ∈ nodeIds diagram.sketch.declarations ↔
        id ∈ diagram.sketch.declared ∨
          ∃ body, .activity body ∈ chainPreorder diagram.chain ∧
            ((∃ name ∈ body.database, id = ⟨"db:" ++ name⟩) ∨
              ∃ call ∈ body.outgoing ++ body.incoming, id = ⟨"api:" ++ call⟩)) ∧
      (∀ edge, .edge edge ∈ diagram.sketch.declarations →
        edge.source ∈ nodeIds diagram.sketch.declarations ∧
          edge.target ∈ nodeIds diagram.sketch.declarations) ∧
      ∀ (format : Format) (name : String), format.NoneDangling name diagram.sketch.declarations) ∧
    ∀ (settings : Settings) (sources : List (String × String)) (drawings : List Drawing),
      settings.draw sources = .ok drawings →
        ∃ flows drawn, settings.readFlows sources = .ok flows ∧
          List.Forall₂ (fun main flow => ∃ inner, flow.MadeOf settings.language flows main inner)
            flows.main drawn ∧
          drawings = drawn.map settings.drawing
            ++ [.ofDeclarations settings.format Overview.name (overview drawn)] ∧
          (∀ flow ∈ drawn, settings.format.NoneDangling flow.diagram.name flow.declarations) ∧
          settings.format.NoneDangling Overview.name (overview drawn) := by
  constructor
  · intro diagram
    have ends := Diagram.endsDeclared_sketch diagram
    refine ⟨diagram.declared_sketch, ?_, ends, fun _ _ => Format.noneDangling_iff.2 ends⟩
    intro id
    rw [Diagram.mem_nodeIds_sketch_iff, diagram.declared_sketch]
    simp only [Activity.mem_touched_iff]
  · intro settings sources drawings accepted
    rcases draw_eq_ok_iff.1 accepted with ⟨flows, drawn, read, made, drawings_eq⟩
    refine ⟨flows, drawn, read, made, drawings_eq, ?_, ?_⟩
    · intro flow listed
      rcases exists_of_forall₂ made listed with ⟨main, _, inner, madeOf⟩
      exact Format.noneDangling_iff.2 madeOf.endsDeclared
    · exact Format.noneDangling_iff.2 (Overview.endsDeclared_declarations _)

/-- An activity with something on either side of it. -/
def payment : Activity :=
  { id := ⟨"a"⟩, description := "pay", database := "books", incoming := ["bank"] }

/-- Nodes that share an identity, beside a conditional without branches. -/
def tangled : Diagram where
  chain :=
    [.conditional ⟨"a"⟩ [[], [.conditional ⟨"b"⟩ [], .conditional ⟨"a"⟩ [[]]]], .activity payment]

/-- A flow that waits for a topic and asks for another flow, which is given in the same text. -/
def waiting : List (String × String) :=
  [("shop",
    "# subscribes: paid\n# inner-flow: pack\n# inner-diagram: pack\n# event: packed\n"
      ++ "# end-diagram:\n")]

theorem sketched_ends_tangled_and_drawn_ends_waiting :
    tangled.sketch.declared =
        [⟨"a"⟩, ⟨"a.join"⟩, ⟨"b"⟩, ⟨"a"⟩, ⟨"a.join"⟩, ⟨"a"⟩] ∧
      ⟨"db:books"⟩ ∈ nodeIds tangled.sketch.declarations ∧
      ⟨"api:bank"⟩ ∈ nodeIds tangled.sketch.declarations ∧
      Format.graphMl.NoneDangling "shop" tangled.sketch.declarations ∧
      ∃ drawn, draw {} waiting =
          .ok (drawn.map (drawing {}) ++ [.ofDeclarations .dot Overview.name (overview drawn)]) ∧
        (∀ flow ∈ drawn, Format.dot.NoneDangling flow.diagram.name flow.declarations) ∧
        Format.dot.NoneDangling Overview.name (overview drawn) := by
  rcases sketched_ends_and_drawn_ends with ⟨sketched, run⟩
  rcases sketched tangled with ⟨preorder, declared_iff, _, noneDangling⟩
  have points : (chainPreorder tangled.chain).flatMap ownPoints =
      [⟨"a"⟩, ⟨"a.join"⟩, ⟨"b"⟩, ⟨"a"⟩, ⟨"a.join"⟩, ⟨"a"⟩] := by decide
  have listed : .activity payment ∈ chainPreorder tangled.chain := by
    simp [tangled, chainPreorder, Node.preorder, branchesPreorder]
  have succeeds : (draw {} waiting).isOk := by decide +kernel
  rcases exists_eq_ok_of_isOk succeeds with ⟨drawings, accepted⟩
  rcases run {} waiting drawings accepted with ⟨_, drawn, _, _, rfl, inFlows, inOverview⟩
  refine ⟨preorder.trans points, ?_, ?_, noneDangling .graphMl "shop", drawn, accepted, inFlows,
    inOverview⟩
  · exact (declared_iff _).2 (.inr ⟨payment, listed, .inl ⟨"books", rfl, rfl⟩⟩)
  · exact (declared_iff _).2 (.inr ⟨payment, listed, .inr ⟨"bank", by decide, rfl⟩⟩)

end Settings

end ProcessChain
