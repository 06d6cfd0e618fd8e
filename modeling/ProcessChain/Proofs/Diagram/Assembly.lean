import ProcessChain.Proofs.Diagram.Points

/-!
# Assembly of a sketch

Every sketch of a diagram is put together, one after the other, from small pieces: nodes of the
chain and joins, links, and the databases and calls that activities touch. A property that the
pieces have and that appending keeps is `Sketch.Hereditary`, and it holds of the sketch of every
diagram, whatever the shape of its chain.

Two consequences are about the declarations themselves. Those of the points of a sketch are told
from the others by their shape, and a sketch declares no group.
-/

namespace ProcessChain

/-- Whether a shape is that of a point: of a node of a chain, or of a join. -/
def Shape.isOfPoint : Shape → Bool
  | .activity | .event | .process | .gateway | .join => true
  | .database | .api | .flow | .topic => false

namespace Sketch

/-- A property that the pieces of sketches have and that appending keeps. -/
structure Hereditary (property : Sketch → Prop) : Prop where
  empty : property {}
  append : ∀ first second, property first → property second → property (first ++ second)
  node : ∀ id label shape, shape.isOfPoint → property (node id label shape)
  link : ∀ source target?, property (link source target?)
  database : ∀ id name, property (database id name)
  outgoing : ∀ id name, property (outgoing id name)
  incoming : ∀ id name, property (incoming id name)

namespace Hereditary

variable {property : Sketch → Prop} (hereditary : Hereditary property)

include hereditary

theorem concat_map (piece : String → Sketch) (holds : ∀ name, property (piece name))
    (names : List String) : property (concat (names.map piece)) := by
  induction names with
  | nil => exact hereditary.empty
  | cons name rest ih => exact hereditary.append _ _ (holds name) ih

theorem activity (body : Activity) : property (activity body) := by
  have databases := hereditary.concat_map _ (hereditary.database body.id) body.database.toList
  have made := hereditary.concat_map _ (hereditary.outgoing body.id) body.outgoing
  have received := hereditary.concat_map _ (hereditary.incoming body.id) body.incoming
  have described := hereditary.node body.id body.description .activity rfl
  exact hereditary.append _ _
    (hereditary.append _ _ (hereditary.append _ _ described databases) made) received

mutual

theorem sketch (node : Node) : property node.sketch := by
  cases node with
  | activity body => exact hereditary.activity body
  | event body => exact hereditary.node body.id body.description .event rfl
  | process body => exact hereditary.node body.id body.flow .process rfl
  | conditional id branches =>
      unfold Node.sketch
      split
      · exact hereditary.node id "X" .gateway rfl
      · apply hereditary.append
        · exact hereditary.append _ _ (hereditary.node id "X" .gateway rfl)
            (hereditary.node id.join "X" .join rfl)
        · exact branchesSketch id branches

theorem branchesSketch (id : NodeId) (branches : List Chain) :
    property (Node.branchesSketch id branches) := by
  cases branches with
  | nil => exact hereditary.empty
  | cons branch rest =>
      apply hereditary.append
      · exact hereditary.append _ _ (hereditary.link id _) (chainSketch (some id.join) branch)
      · exact branchesSketch id rest

theorem chainSketch (ending : Option NodeId) (chain : Chain) :
    property (Node.chainSketch ending chain) := by
  cases chain with
  | nil => exact hereditary.empty
  | cons node rest =>
      apply hereditary.append
      · exact hereditary.append _ _ (sketch node) (hereditary.link node.exit _)
      · exact chainSketch ending rest

end

/-- What the pieces have and appending keeps holds of the sketch of every diagram. -/
theorem diagram (diagram : Diagram) : property diagram.sketch :=
  hereditary.chainSketch none diagram.chain

end Hereditary

end Sketch

namespace Declaration

/-- The point that a declaration declares, if it declares one. -/
def point? : Declaration → Option NodeId
  | .node id _ shape => if shape.isOfPoint then some id else none
  | _ => none

def points (declarations : List Declaration) : List NodeId :=
  declarations.filterMap point?

def groupName? : Declaration → Option String
  | .group name _ _ => some name
  | _ => none

def groupNames (declarations : List Declaration) : List String :=
  declarations.filterMap groupName?

@[simp]
theorem points_append (first second : List Declaration) :
    points (first ++ second) = points first ++ points second := by
  simp [points]

@[simp]
theorem points_flatMap {α : Type} (sources : List α) (declare : α → List Declaration) :
    points (sources.flatMap declare) = sources.flatMap fun source => points (declare source) :=
  List.filterMap_flatMap

@[simp]
theorem groupNames_append (first second : List Declaration) :
    groupNames (first ++ second) = groupNames first ++ groupNames second := by
  simp [groupNames]

@[simp]
theorem groupNames_flatMap {α : Type} (sources : List α) (declare : α → List Declaration) :
    groupNames (sources.flatMap declare) =
      sources.flatMap fun source => groupNames (declare source) :=
  List.filterMap_flatMap

end Declaration

namespace Diagram

/-- The points among the declarations of a diagram's sketch are the points of the diagram. -/
@[simp]
theorem points_sketch (diagram : Diagram) :
    Declaration.points diagram.sketch.declarations = diagram.chain.points := by
  have hereditary :
      Sketch.Hereditary fun sketch =>
        Declaration.points sketch.declarations = sketch.declared := by
    constructor
    case append =>
      intro first second firstSame secondSame
      simp [firstSame, secondSame]
    case node =>
      intro id label shape ofPoint
      simp [Declaration.points, Declaration.point?, Sketch.node, ofPoint]
    case link =>
      intro source target?
      cases target? <;> rfl
    all_goals
      intros
      rfl
  rw [hereditary.diagram, declared_sketch]

/-- A sketch makes no group; groups are made around the sketches of inner flows. -/
@[simp]
theorem groupNames_sketch (diagram : Diagram) :
    Declaration.groupNames diagram.sketch.declarations = [] := by
  have hereditary :
      Sketch.Hereditary fun sketch => Declaration.groupNames sketch.declarations = [] := by
    constructor
    case append =>
      intro first second firstNone secondNone
      simp [firstNone, secondNone]
    case link =>
      intro source target?
      cases target? <;> rfl
    all_goals
      intros
      rfl
  exact hereditary.diagram diagram

end Diagram

end ProcessChain
