import Mathlib.Data.List.Basic
import ProcessChain.Proofs.Diagram.Steps
import ProcessChain.Proofs.Drawing.Shown

/-!
# What nodes declare on their own

Leave the links out of a sketch, and what remains is declared by its nodes, each on its own: itself,
its join if it has branches, and the databases and calls that it touches. These are `Node.own`, and
a sketch has them node by node in preorder (`Node.unlinked_chainSketch`), so the identities that are
declared can be read off the nodes.

A link is often made before the point that it leads to is declared, and the join of a conditional is
linked to from deep inside its branches. But links lead from points to points, all points of a chain
are declared somewhere in its sketch, and every other edge is made by a node that declares both of
its ends. In the end, then, no edge is without its nodes (`Diagram.endsDeclared_sketch`).
-/

namespace ProcessChain

namespace Declaration

/-- The identities that nodes are declared with, in order. -/
def nodeIds (declarations : List Declaration) : List NodeId :=
  (declarations.filterMap node?).map Prod.fst

/-- The declarations that are no steps of the flow. -/
def unlinked (declarations : List Declaration) : List Declaration :=
  declarations.filter (·.flowStep?.isNone)

/-- Both ends of every edge are declared. -/
def EndsDeclared (declarations : List Declaration) : Prop :=
  ∀ edge, .edge edge ∈ declarations →
    edge.source ∈ nodeIds declarations ∧ edge.target ∈ nodeIds declarations

variable {declarations others : List Declaration} {id : NodeId}

theorem mem_nodeIds_iff :
    id ∈ nodeIds declarations ↔ ∃ label shape, .node id label shape ∈ declarations := by
  simp only [nodeIds, List.mem_map, List.mem_filterMap]
  constructor
  · rintro ⟨⟨_, label, shape⟩, ⟨declaration, listed, declares⟩, rfl⟩
    cases declaration with
    | node id label shape =>
        cases declares
        exact ⟨label, shape, listed⟩
    | edge edge => cases declares
    | group name label members => cases declares
  · rintro ⟨label, shape, listed⟩
    exact ⟨_, ⟨_, listed, rfl⟩, rfl⟩

@[simp]
theorem nodeIds_append (first second : List Declaration) :
    nodeIds (first ++ second) = nodeIds first ++ nodeIds second := by
  simp [nodeIds]

@[simp]
theorem nodeIds_flatMap {α : Type} (sources : List α) (declare : α → List Declaration) :
    nodeIds (sources.flatMap declare) = sources.flatMap fun source => nodeIds (declare source) := by
  simp [nodeIds, List.filterMap_flatMap, List.map_flatMap]

@[simp]
theorem unlinked_append (first second : List Declaration) :
    unlinked (first ++ second) = unlinked first ++ unlinked second := by
  simp [unlinked]

/-- A step of the flow declares no node. -/
theorem nodeIds_unlinked (declarations : List Declaration) :
    nodeIds (unlinked declarations) = nodeIds declarations := by
  unfold nodeIds unlinked
  rw [List.filterMap_filter]
  congr 1
  apply List.filterMap_congr
  intro declaration _
  cases declaration with
  | node id label shape => rfl
  | edge edge => simp [node?]
  | group name label members => rfl

theorem mem_flowSteps_or_mem_unlinked {edge : Edge} (listed : .edge edge ∈ declarations) :
    (edge.source, edge.target) ∈ flowSteps declarations ∨ .edge edge ∈ unlinked declarations := by
  rcases edge with ⟨source, target, kind⟩
  cases kind with
  | flow => exact .inl (List.mem_filterMap.2 ⟨_, listed, rfl⟩)
  | _ => exact .inr (List.mem_filter.2 ⟨listed, rfl⟩)

theorem EndsDeclared.append (first : EndsDeclared declarations) (second : EndsDeclared others) :
    EndsDeclared (declarations ++ others) := by
  intro edge listed
  rw [nodeIds_append]
  rcases List.mem_append.1 listed with inFirst | inSecond
  · rcases first edge inFirst with ⟨source, target⟩
    exact ⟨List.mem_append_left _ source, List.mem_append_left _ target⟩
  · rcases second edge inSecond with ⟨source, target⟩
    exact ⟨List.mem_append_right _ source, List.mem_append_right _ target⟩

theorem EndsDeclared.flatMap {α : Type} (sources : List α) {declare : α → List Declaration}
    (each : ∀ source ∈ sources, EndsDeclared (declare source)) :
    EndsDeclared (sources.flatMap declare) := by
  induction sources with
  | nil =>
      intro edge listed
      cases listed
  | cons source rest ih =>
      rw [List.forall_mem_cons] at each
      exact each.1.append (ih each.2)

end Declaration

namespace Sketch

open Declaration

@[simp]
theorem declarations_concat (sketches : List Sketch) :
    (concat sketches).declarations = sketches.flatMap declarations := by
  induction sketches with
  | nil => rfl
  | cons first rest ih =>
      change first.declarations ++ (concat rest).declarations = _
      rw [ih, List.flatMap_cons]

@[simp]
theorem unlinked_link (source : NodeId) (target? : Option NodeId) :
    unlinked (link source target?).declarations = [] := by
  cases target? <;> rfl

theorem unlinked_of_flowSteps_eq_nil {sketch : Sketch} (none : sketch.flowSteps = []) :
    unlinked sketch.declarations = sketch.declarations := by
  apply List.filter_eq_self.2
  intro declaration listed
  rw [List.filterMap_eq_nil_iff.1 none declaration listed]
  rfl

end Sketch

namespace Activity

variable {body : Activity} {id : NodeId}

/-- The databases and calls that an activity touches. -/
def touched (body : Activity) : List NodeId :=
  body.database.toList.map (fun name => ⟨"db:" ++ name⟩) ++
    (body.outgoing ++ body.incoming).map fun call => ⟨"api:" ++ call⟩

theorem mem_touched_iff :
    id ∈ body.touched ↔
      (∃ name ∈ body.database, id = ⟨"db:" ++ name⟩) ∨
        ∃ call ∈ body.outgoing ++ body.incoming, id = ⟨"api:" ++ call⟩ := by
  simp [touched, eq_comm, or_and_right, exists_or]

end Activity

namespace Node

open Declaration

/-- The databases and calls that a node touches, those inside it left out. -/
def touched : Node → List NodeId
  | .activity body => body.touched
  | _ => []

/-- What a node declares itself, the nodes inside it left out. -/
def own : Node → List Declaration
  | .activity body => (Sketch.activity body).declarations
  | .event body => [.node body.id body.description .event]
  | .process body => [.node body.id body.flow .process]
  | .conditional id [] => [.node id "X" .gateway]
  | .conditional id (_ :: _) => [.node id "X" .gateway, .node id.join "X" .join]

theorem nodeIds_own (node : Node) : nodeIds node.own = node.ownPoints ++ node.touched := by
  cases node with
  | activity body =>
      have itself : nodeIds (Sketch.node body.id body.description .activity).declarations =
          [body.id] := rfl
      have database (name : String) :
          nodeIds (Sketch.database body.id name).declarations = [⟨"db:" ++ name⟩] := rfl
      have outgoing (call : String) :
          nodeIds (Sketch.outgoing body.id call).declarations = [⟨"api:" ++ call⟩] := rfl
      have incoming (call : String) :
          nodeIds (Sketch.incoming body.id call).declarations = [⟨"api:" ++ call⟩] := rfl
      simp [own, ownPoints, touched, Activity.touched, Node.id, Sketch.activity, List.flatMap_map,
        itself, database, outgoing, incoming, ← List.map_eq_flatMap]
  | event body => rfl
  | process body => rfl
  | conditional id branches => cases branches <;> rfl

/-- A node declares both ends of the edges that it makes itself. -/
theorem endsDeclared_own (node : Node) : EndsDeclared node.own := by
  intro edge listed
  cases node with
  | activity body =>
      have itself : body.id ∈ nodeIds (own (.activity body)) := by
        rw [nodeIds_own]
        exact List.mem_append_left _ List.mem_cons_self
      have beside {id : NodeId} (touches : id ∈ body.touched) :
          id ∈ nodeIds (own (.activity body)) := by
        rw [nodeIds_own]
        exact List.mem_append_right _ touches
      simp only [own, Sketch.activity, Sketch.declarations_append, Sketch.declarations_concat,
        List.mem_append, List.mem_flatMap, List.mem_map] at listed
      rcases listed with
        ((alone | ⟨_, ⟨name, named, rfl⟩, made⟩) | ⟨_, ⟨call, called, rfl⟩, made⟩) |
          ⟨_, ⟨call, called, rfl⟩, made⟩
      · simp [Sketch.node] at alone
      · obtain rfl : edge = ⟨body.id, ⟨"db:" ++ name⟩, .data⟩ := by
          simpa [Sketch.database] using made
        have named : name ∈ body.database := Option.mem_toList.1 named
        exact ⟨itself, beside (Activity.mem_touched_iff.2 (.inl ⟨name, named, rfl⟩))⟩
      · obtain rfl : edge = ⟨body.id, ⟨"api:" ++ call⟩, .call⟩ := by
          simpa [Sketch.outgoing] using made
        have called := List.mem_append_left body.incoming called
        exact ⟨itself, beside (Activity.mem_touched_iff.2 (.inr ⟨call, called, rfl⟩))⟩
      · obtain rfl : edge = ⟨⟨"api:" ++ call⟩, body.id, .call⟩ := by
          simpa [Sketch.incoming] using made
        have called := List.mem_append_right body.outgoing called
        exact ⟨beside (Activity.mem_touched_iff.2 (.inr ⟨call, called, rfl⟩)), itself⟩
  | event body => simp [own] at listed
  | process body => simp [own] at listed
  | conditional id branches => cases branches <;> simp [own] at listed

mutual

theorem unlinked_sketch (node : Node) :
    unlinked node.sketch.declarations = node.preorder.flatMap own := by
  cases node with
  | activity body =>
      have all := Sketch.unlinked_of_flowSteps_eq_nil (Sketch.flowSteps_activity body)
      simpa [sketch, preorder, own] using all
  | event body => rfl
  | process body => rfl
  | conditional id branches =>
      cases branches with
      | nil => rfl
      | cons branch others =>
          have inside := unlinked_branchesSketch id (branch :: others)
          simpa [sketch, preorder, own, unlinked, Sketch.node, flowStep?] using inside

theorem unlinked_branchesSketch (id : NodeId) (branches : List Chain) :
    unlinked (branchesSketch id branches).declarations =
      (branchesPreorder branches).flatMap own := by
  cases branches with
  | nil => rfl
  | cons branch rest =>
      have first := unlinked_chainSketch (some id.join) branch
      have others := unlinked_branchesSketch id rest
      simp [branchesSketch, branchesPreorder, first, others]

/-- A sketch without its links is what its nodes declare on their own, in preorder. -/
theorem unlinked_chainSketch (ending : Option NodeId) (chain : Chain) :
    unlinked (chainSketch ending chain).declarations = (chainPreorder chain).flatMap own := by
  cases chain with
  | nil => rfl
  | cons node rest =>
      have first := unlinked_sketch node
      have others := unlinked_chainSketch ending rest
      simp [chainSketch, chainPreorder, first, others]

end

end Node

namespace Diagram

open Declaration Node

variable {diagram : Diagram} {id : NodeId}

/-- Nodes are declared with the points of each node and with what it touches, node by node. -/
theorem nodeIds_sketch (diagram : Diagram) :
    nodeIds diagram.sketch.declarations =
      (chainPreorder diagram.chain).flatMap fun node => node.ownPoints ++ node.touched := by
  have unlinked := unlinked_chainSketch none diagram.chain
  rw [sketch, ← nodeIds_unlinked, unlinked, nodeIds_flatMap]
  apply List.flatMap_congr
  intro node _
  exact node.nodeIds_own

theorem mem_nodeIds_sketch_iff :
    id ∈ nodeIds diagram.sketch.declarations ↔
      id ∈ diagram.chain.points ∨
        ∃ body, .activity body ∈ chainPreorder diagram.chain ∧ id ∈ body.touched := by
  rw [nodeIds_sketch]
  simp only [List.mem_flatMap, List.mem_append, Chain.points]
  constructor
  · rintro ⟨node, listed, own | touched⟩
    · exact .inl ⟨node, listed, own⟩
    · cases node with
      | activity body => exact .inr ⟨body, listed, touched⟩
      | _ => cases touched
  · rintro (⟨node, listed, own⟩ | ⟨body, listed, touched⟩)
    · exact ⟨node, listed, .inl own⟩
    · exact ⟨.activity body, listed, .inr touched⟩

/-- Both ends of every edge of a sketch are declared in it. -/
theorem endsDeclared_sketch (diagram : Diagram) : EndsDeclared diagram.sketch.declarations := by
  intro edge listed
  rcases mem_flowSteps_or_mem_unlinked listed with step | unlinked
  · rcases mem_points_of_step step with ⟨source, target⟩
    exact ⟨mem_nodeIds_sketch_iff.2 (.inl source), mem_nodeIds_sketch_iff.2 (.inl target)⟩
  · rw [sketch, unlinked_chainSketch, List.mem_flatMap] at unlinked
    rcases unlinked with ⟨node, nodeListed, own⟩
    rcases node.endsDeclared_own edge own with ⟨source, target⟩
    rw [nodeIds_own] at source target
    rw [nodeIds_sketch]
    exact ⟨List.mem_flatMap.2 ⟨node, nodeListed, source⟩,
      List.mem_flatMap.2 ⟨node, nodeListed, target⟩⟩

end Diagram

end ProcessChain
