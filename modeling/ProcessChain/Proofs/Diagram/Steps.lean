import ProcessChain.Proofs.Diagram.Points

/-!
# Flow steps of a sketch

The flow of a drawing is made of its edges of kind `flow`; edges to databases, calls and topics are
no part of it. This file keeps those edges of a sketch as pairs and says where they start: every
step of a chain starts at a point of the chain, and the steps inside a node start at its interior,
that is, at the points of the node other than its exit. The exit is where the chain goes on, so the
only step from there is the link that the chain around the node adds.
-/

namespace ProcessChain

/-- The step that a declaration adds to the flow, if it is an edge of the flow. -/
def Declaration.flowStep? : Declaration → Option (NodeId × NodeId)
  | .edge ⟨source, target, .flow⟩ => some (source, target)
  | _ => none

def Declaration.flowSteps (declarations : List Declaration) : List (NodeId × NodeId) :=
  declarations.filterMap flowStep?

@[simp]
theorem Declaration.flowSteps_append (first second : List Declaration) :
    flowSteps (first ++ second) = flowSteps first ++ flowSteps second := by
  simp [flowSteps]

@[simp]
theorem Declaration.flowSteps_flatMap {α : Type} (sources : List α)
    (declare : α → List Declaration) :
    flowSteps (sources.flatMap declare) =
      sources.flatMap fun source => flowSteps (declare source) :=
  List.filterMap_flatMap

namespace Sketch

def flowSteps (sketch : Sketch) : List (NodeId × NodeId) :=
  Declaration.flowSteps sketch.declarations

@[simp]
theorem flowSteps_empty : flowSteps {} = [] := rfl

@[simp]
theorem flowSteps_append (first second : Sketch) :
    (first ++ second).flowSteps = first.flowSteps ++ second.flowSteps := by
  simp [flowSteps]

@[simp]
theorem flowSteps_node (id : NodeId) (label : String) (shape : Shape) :
    (node id label shape).flowSteps = [] := rfl

@[simp]
theorem flowSteps_concat (sketches : List Sketch) :
    (concat sketches).flowSteps = sketches.flatMap flowSteps := by
  induction sketches with
  | nil => rfl
  | cons first rest ih =>
      change (first ++ concat rest).flowSteps = _
      simp [ih]

@[simp]
theorem flowSteps_activity (body : Activity) : (activity body).flowSteps = [] := by
  have database_steps (name : String) : (database body.id name).flowSteps = [] := rfl
  have outgoing_steps (name : String) : (outgoing body.id name).flowSteps = [] := rfl
  have incoming_steps (name : String) : (incoming body.id name).flowSteps = [] := rfl
  simp [activity, List.flatMap_map, database_steps, outgoing_steps, incoming_steps]

/-- A link is the one step from its source to its target, if there is a target. -/
@[simp]
theorem mem_flowSteps_link {source start target : NodeId} {target? : Option NodeId} :
    (start, target) ∈ (link source target?).flowSteps ↔ start = source ∧ target? = some target := by
  cases target? with
  | none => simp [link]
  | some only =>
      change (start, target) ∈ [(source, only)] ↔ _
      simp [eq_comm]

end Sketch

namespace Node

/-- The points of a node other than its exit. -/
def interior : Node → List NodeId
  | .conditional id (branch :: others) => id :: branchesPoints (branch :: others)
  | _ => []

theorem mem_points_iff {node : Node} {point : NodeId} :
    point ∈ node.points ↔ point = node.exit ∨ point ∈ node.interior := by
  cases node with
  | activity body => simp [exit, interior, id]
  | event body => simp [exit, interior, id]
  | process body => simp [exit, interior, id]
  | conditional id branches =>
      cases branches with
      | nil => simp [exit, interior, Node.id]
      | cons branch others =>
          simp only [points_conditional_cons, exit, interior, List.mem_cons]
          exact or_left_comm

theorem exit_mem_points (node : Node) : node.exit ∈ node.points :=
  mem_points_iff.2 (Or.inl rfl)

theorem id_mem_points (node : Node) : node.id ∈ node.points := by
  cases node with
  | activity body => simp [id]
  | event body => simp [id]
  | process body => simp [id]
  | conditional id branches => cases branches <;> simp [Node.id]

/-- A chain is entered at one of its points, or passed by. -/
theorem eq_or_mem_of_entry? {chain : Chain} {ending : Option NodeId} {target : NodeId}
    (entry : Chain.entry? chain ending = some target) :
    ending = some target ∨ target ∈ Chain.points chain := by
  cases chain with
  | nil => exact Or.inl entry
  | cons node rest =>
      have same : node.id = target := Option.some.inj entry
      right
      rw [Chain.points_cons, ← same]
      exact List.mem_append_left _ node.id_mem_points

theorem exit_notMem_interior {node : Node} (distinct : node.points.Nodup) :
    node.exit ∉ node.interior := by
  cases node with
  | activity body => simp [interior]
  | event body => simp [interior]
  | process body => simp [interior]
  | conditional id branches =>
      cases branches with
      | nil => simp [interior]
      | cons branch others =>
          simp only [points_conditional_cons, List.nodup_cons, List.mem_cons, not_or] at distinct
          rcases distinct with ⟨⟨apart, _⟩, outside, _⟩
          simp only [exit, interior, List.mem_cons, not_or]
          exact ⟨fun same => apart same.symm, outside⟩

mutual

/-- The steps of a node start inside it, and not where the node is left. -/
theorem mem_interior_of_step (node : Node) {source target : NodeId}
    (step : (source, target) ∈ node.sketch.flowSteps) : source ∈ node.interior := by
  cases node with
  | activity body => simp [sketch] at step
  | event body => simp [sketch] at step
  | process body => simp [sketch] at step
  | conditional id branches =>
      cases branches with
      | nil => simp [sketch] at step
      | cons branch others =>
          have inside : (source, target) ∈ (branchesSketch id (branch :: others)).flowSteps := by
            simpa [sketch] using step
          simpa [interior] using mem_points_of_branchesStep id (branch :: others) inside

theorem mem_points_of_branchesStep (id : NodeId) (branches : List Chain)
    {source target : NodeId} (step : (source, target) ∈ (branchesSketch id branches).flowSteps) :
    source = id ∨ source ∈ branchesPoints branches := by
  cases branches with
  | nil => simp [branchesSketch] at step
  | cons branch rest =>
      simp only [branchesSketch, Sketch.flowSteps_append, List.mem_append,
        Sketch.mem_flowSteps_link] at step
      rcases step with (⟨start, _⟩ | first) | others
      · exact Or.inl start
      · right
        simpa using Or.inl (mem_points_of_chainStep (some id.join) branch first)
      · rcases mem_points_of_branchesStep id rest others with start | inside
        · exact Or.inl start
        · right
          simpa using Or.inr inside

theorem mem_points_of_chainStep (ending : Option NodeId) (chain : Chain)
    {source target : NodeId} (step : (source, target) ∈ (chainSketch ending chain).flowSteps) :
    source ∈ Chain.points chain := by
  cases chain with
  | nil => simp [chainSketch] at step
  | cons node rest =>
      simp only [chainSketch, Sketch.flowSteps_append, List.mem_append,
        Sketch.mem_flowSteps_link] at step
      simp only [Chain.points_cons, List.mem_append]
      rcases step with (first | ⟨start, _⟩) | others
      · left
        exact mem_points_iff.2 (Or.inr (mem_interior_of_step node first))
      · left
        rw [start]
        exact node.exit_mem_points
      · right
        exact mem_points_of_chainStep ending rest others

end

mutual

theorem target_mem_points_of_step (node : Node) {source target : NodeId}
    (step : (source, target) ∈ node.sketch.flowSteps) : target ∈ node.points := by
  cases node with
  | activity body => simp [sketch] at step
  | event body => simp [sketch] at step
  | process body => simp [sketch] at step
  | conditional id branches =>
      cases branches with
      | nil => simp [sketch] at step
      | cons branch others =>
          have inside : (source, target) ∈ (branchesSketch id (branch :: others)).flowSteps := by
            simpa [sketch] using step
          rw [points_conditional_cons]
          exact List.mem_cons_of_mem id
            (List.mem_cons.2 (target_eq_or_mem_of_branchesStep id (branch :: others) inside))

theorem target_eq_or_mem_of_branchesStep (id : NodeId) (branches : List Chain)
    {source target : NodeId} (step : (source, target) ∈ (branchesSketch id branches).flowSteps) :
    target = id.join ∨ target ∈ branchesPoints branches := by
  cases branches with
  | nil => simp [branchesSketch] at step
  | cons branch rest =>
      simp only [branchesSketch, Sketch.flowSteps_append, List.mem_append,
        Sketch.mem_flowSteps_link] at step
      simp only [branchesPoints_cons, List.mem_append]
      rcases step with (⟨_, entry⟩ | first) | others
      · rcases eq_or_mem_of_entry? entry with ending | inside
        · exact Or.inl (Option.some.inj ending).symm
        · exact Or.inr (Or.inl inside)
      · rcases target_eq_or_mem_of_chainStep (some id.join) branch first with ending | inside
        · exact Or.inl (Option.some.inj ending).symm
        · exact Or.inr (Or.inl inside)
      · rcases target_eq_or_mem_of_branchesStep id rest others with ending | inside
        · exact Or.inl ending
        · exact Or.inr (Or.inr inside)

theorem target_eq_or_mem_of_chainStep (ending : Option NodeId) (chain : Chain)
    {source target : NodeId} (step : (source, target) ∈ (chainSketch ending chain).flowSteps) :
    ending = some target ∨ target ∈ Chain.points chain := by
  cases chain with
  | nil => simp [chainSketch] at step
  | cons node rest =>
      simp only [chainSketch, Sketch.flowSteps_append, List.mem_append,
        Sketch.mem_flowSteps_link] at step
      simp only [Chain.points_cons, List.mem_append]
      rcases step with (first | ⟨_, entry⟩) | others
      · exact Or.inr (Or.inl (target_mem_points_of_step node first))
      · rcases eq_or_mem_of_entry? entry with left | inside
        · exact Or.inl left
        · exact Or.inr (Or.inr inside)
      · rcases target_eq_or_mem_of_chainStep ending rest others with left | inside
        · exact Or.inl left
        · exact Or.inr (Or.inr inside)

end

end Node

theorem Diagram.mem_points_of_step {diagram : Diagram} {source target : NodeId}
    (step : (source, target) ∈ diagram.sketch.flowSteps) :
    source ∈ diagram.chain.points ∧ target ∈ diagram.chain.points := by
  refine ⟨Node.mem_points_of_chainStep none diagram.chain step, ?_⟩
  rcases Node.target_eq_or_mem_of_chainStep none diagram.chain step with left | inside
  · simp at left
  · exact inside

end ProcessChain
