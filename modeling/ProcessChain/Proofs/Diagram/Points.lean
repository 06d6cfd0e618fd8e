import ProcessChain.Diagram.Sketch

/-!
# Points of a chain

The points of a chain are the identities that its sketch declares for the chain itself: each node
where it is entered and, right after a conditional with branches, the join where it is left.
Databases and calls are declared beside the chain and are no points of it.

Points are listed in preorder. The sketch interleaves them with edges and with what activities
touch, and `Node.declared_chainSketch` says that it declares exactly the points, in this order.
-/

namespace ProcessChain

namespace Node

/-- The points of a node, those of the nodes inside it left out. -/
def ownPoints : Node → List NodeId
  | .conditional id (_ :: _) => [id, id.join]
  | node => [node.id]

def points (node : Node) : List NodeId :=
  node.preorder.flatMap ownPoints

def branchesPoints (branches : List Chain) : List NodeId :=
  (branchesPreorder branches).flatMap ownPoints

end Node

def Chain.points (chain : Chain) : List NodeId :=
  (Node.chainPreorder chain).flatMap Node.ownPoints

@[simp]
theorem Chain.points_nil : Chain.points [] = [] := rfl

@[simp]
theorem Chain.points_cons (node : Node) (rest : Chain) :
    Chain.points (node :: rest) = node.points ++ Chain.points rest := by
  simp [Chain.points, Node.points, Node.chainPreorder]

namespace Node

@[simp]
theorem branchesPoints_nil : branchesPoints [] = [] := rfl

@[simp]
theorem branchesPoints_cons (branch : Chain) (rest : List Chain) :
    branchesPoints (branch :: rest) = Chain.points branch ++ branchesPoints rest := by
  simp [branchesPoints, Chain.points, branchesPreorder]

@[simp]
theorem points_activity (body : Activity) : (activity body).points = [body.id] := rfl

@[simp]
theorem points_event (body : Event) : (event body).points = [body.id] := rfl

@[simp]
theorem points_process (body : Process) : (process body).points = [body.id] := rfl

@[simp]
theorem points_conditional_nil (id : NodeId) : (conditional id []).points = [id] := rfl

@[simp]
theorem points_conditional_cons (id : NodeId) (branch : Chain) (others : List Chain) :
    (conditional id (branch :: others)).points =
      id :: id.join :: branchesPoints (branch :: others) := by
  simp [points, ownPoints, preorder, branchesPoints]

end Node

namespace Sketch

@[simp]
theorem declared_node (id : NodeId) (label : String) (shape : Shape) :
    (node id label shape).declared = [id] := rfl

@[simp]
theorem declared_link (source : NodeId) (target? : Option NodeId) :
    (link source target?).declared = [] := by
  cases target? <;> rfl

@[simp]
theorem declared_concat (sketches : List Sketch) :
    (concat sketches).declared = sketches.flatMap declared := by
  induction sketches with
  | nil => rfl
  | cons first rest ih =>
      change first.declared ++ (concat rest).declared = _
      simp [ih]

@[simp]
theorem declared_activity (body : Activity) : (activity body).declared = [body.id] := by
  simp [activity, database, outgoing, incoming, List.flatMap_map]

end Sketch

namespace Node

mutual

theorem declared_sketch (node : Node) : node.sketch.declared = node.points := by
  cases node with
  | activity body => simp [sketch]
  | event body => simp [sketch]
  | process body => simp [sketch]
  | conditional id branches =>
      cases branches with
      | nil => simp [sketch]
      | cons branch others =>
          have inside := declared_branchesSketch id (branch :: others)
          simp [sketch, inside]

theorem declared_branchesSketch (id : NodeId) (branches : List Chain) :
    (branchesSketch id branches).declared = branchesPoints branches := by
  cases branches with
  | nil => rfl
  | cons branch rest =>
      have first := declared_chainSketch (some id.join) branch
      have others := declared_branchesSketch id rest
      simp [branchesSketch, first, others]

/-- The sketch of a chain declares the points of the chain, wherever the chain is left for. -/
theorem declared_chainSketch (ending : Option NodeId) (chain : Chain) :
    (chainSketch ending chain).declared = Chain.points chain := by
  cases chain with
  | nil => rfl
  | cons node rest =>
      have first := declared_sketch node
      have others := declared_chainSketch ending rest
      simp [chainSketch, first, others]

end

end Node

@[simp]
theorem Diagram.declared_sketch (diagram : Diagram) :
    diagram.sketch.declared = diagram.chain.points :=
  Node.declared_chainSketch none diagram.chain

end ProcessChain
