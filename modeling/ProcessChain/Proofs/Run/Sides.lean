import ProcessChain.Proofs.Drawing.Shown
import ProcessChain.Proofs.Run.Apart

/-!
# Databases and calls beside the chains

The databases and calls of a drawing are declared beside its chains, with identities that begin with
`db:` or `api:`. Nothing keeps the name of a flow from reading the same way, and then a number of
the flow may be written like a database or a call: the first node of a flow `db` and a database `0`
have one identity, and the drawing keeps whichever is declared first.

`Settings.sidesApart_and_showsAll_iff` says when that happens. A flow whose name does not read like
a side has its sides apart from its points; and a drawing shows all that is declared, each node with
its own label and shape, exactly if its sides are apart from its points.
-/

namespace ProcessChain

/-- The kinds of things that an activity touches. -/
inductive Side where
  | database
  | call
deriving DecidableEq, Repr

namespace Side

def tag : Side → String
  | .database => "db"
  | .call => "api"

def shape : Side → Shape
  | .database => .database
  | .call => .api

def id (side : Side) (name : String) : NodeId :=
  ⟨side.tag ++ ":" ++ name⟩

variable {side other : Side} {name otherName : String}

theorem toList_id (side : Side) (name : String) :
    (side.id name).text.toList = side.tag.toList ++ ':' :: name.toList := by
  simp [id]

theorem shape_injective : Function.Injective shape := by
  intro side other same
  cases side <;> cases other <;> simp_all [shape]

theorem notMem_tag (side : Side) : ':' ∉ side.tag.toList ∧ '/' ∉ side.tag.toList := by
  cases side <;> decide

theorem eq_of_id_eq (same : side.id name = other.id otherName) :
    side = other ∧ name = otherName := by
  have texts := congrArg (fun id : NodeId => id.text.toList) same
  simp only [toList_id] at texts
  cases side <;> cases other
  case database.database => exact ⟨rfl, String.toList_injective (by simpa [tag] using texts)⟩
  case call.call => exact ⟨rfl, String.toList_injective (by simpa [tag] using texts)⟩
  all_goals simp [tag] at texts

end Side

/-- Whether a name is the tag of a kind of sides, or begins with one and a colon. -/
def ReadsLikeSide (name : String) : Prop :=
  ∃ side : Side, name = side.tag ∨ ∃ rest, name = side.tag ++ ":" ++ rest

namespace ReadsLikeSide

variable {side : Side} {name : String}

/-- Where the identity of a side begins like a name with a separator after it, the name goes on
after the tag, or ends there and the separator is the colon: the tag does not hold the separator. -/
theorem eq_tag_or_begins_of_append_eq {separator : Char} {rest after : List Char}
    (notMem : separator ∉ side.tag.toList)
    (same : side.tag.toList ++ ':' :: rest = name.toList ++ separator :: after) :
    (name = side.tag ∧ separator = ':') ∨ ∃ rest, name = side.tag ++ ":" ++ rest := by
  rcases List.append_eq_append_iff.1 same with ⟨middle, name_eq, rest_eq⟩ | ⟨middle, tag_eq, eq⟩
  · cases middle with
    | nil =>
        left
        rw [List.append_nil] at name_eq
        rw [List.nil_append, List.cons.injEq] at rest_eq
        exact ⟨String.toList_injective name_eq, rest_eq.1.symm⟩
    | cons first others =>
        right
        rw [List.cons_append, List.cons.injEq] at rest_eq
        refine ⟨String.ofList others, String.toList_injective ?_⟩
        simp [name_eq, ← rest_eq.1]
  · cases middle with
    | nil =>
        left
        rw [List.append_nil] at tag_eq
        rw [List.nil_append, List.cons.injEq] at eq
        exact ⟨String.toList_injective tag_eq.symm, eq.1⟩
    | cons first others =>
        rw [List.cons_append, List.cons.injEq] at eq
        exact absurd (by simp [tag_eq, eq.1]) notMem

theorem of_standsFor {scope : String} {number : Nat}
    (stands : (side.id name).StandsFor scope number) : ReadsLikeSide scope := by
  rcases stands.exists_toList_eq with ⟨after, text, _, _⟩
  rw [Side.toList_id] at text
  exact ⟨side, (eq_tag_or_begins_of_append_eq side.notMem_tag.1 text).imp_left And.left⟩

end ReadsLikeSide

/-- Whether a name begins with the tag of a kind of sides and a colon. -/
def BeginsLikeSide (name : String) : Prop :=
  ∃ (side : Side) (rest : String), name = side.tag ++ ":" ++ rest

theorem BeginsLikeSide.readsLikeSide {name : String} (begins : BeginsLikeSide name) :
    ReadsLikeSide name := by
  rcases begins with ⟨side, rest, same⟩
  exact ⟨side, .inr ⟨rest, same⟩⟩

/-- The scope of an inner flow reads like a side exactly if the name of the main flow begins like
one. The tag alone is not enough, for the name has a slash after it. -/
theorem readsLikeSide_innerScope_iff {main inner : String} {ordinal : Nat} :
    ReadsLikeSide (Settings.innerScope main inner ordinal) ↔ BeginsLikeSide main := by
  constructor
  · rintro ⟨side, same | ⟨rest, same⟩⟩
    · have texts := congrArg String.toList same
      rw [Settings.toList_innerScope] at texts
      exact absurd (by simp [← texts]) side.notMem_tag.2
    · have texts := congrArg String.toList same
      rw [Settings.toList_innerScope] at texts
      have begins : side.tag.toList ++ ':' :: rest.toList =
          main.toList ++ '/' :: (inner.toList ++ '#' :: Nat.toDigits 10 ordinal) := by
        simpa using texts.symm
      rcases ReadsLikeSide.eq_tag_or_begins_of_append_eq side.notMem_tag.2 begins with
        ⟨_, slash⟩ | longer
      · exact absurd slash (by decide)
      · exact ⟨side, longer⟩
  · rintro ⟨side, rest, rfl⟩
    refine ⟨side, .inr ⟨rest ++ "/" ++ inner ++ "#" ++ ordinal.repr, ?_⟩⟩
    simp [Settings.innerScope, String.append_assoc]

/-- For every number there is a side that is written like it exactly in the scopes that read like a
side. -/
theorem readsLikeSide_iff {scope : String} (number : Nat) :
    ReadsLikeSide scope ↔ ∃ (side : Side) (name : String),
      side.id name = NodeId.numbered scope number := by
  constructor
  · rintro ⟨side, rfl | ⟨rest, rfl⟩⟩
    · exact ⟨side, number.repr, rfl⟩
    · refine ⟨side, rest ++ ":" ++ number.repr, ?_⟩
      simp [Side.id, NodeId.numbered, String.append_assoc]
  · rintro ⟨side, name, same⟩
    exact ReadsLikeSide.of_standsFor (Or.inl same)

/-- Of the members of a list whose views are distinct, no two have the same view. -/
theorem eq_of_nodup_filterMap {α β : Type} {view : α → Option β} {members : List α}
    {first second : α} {value : β} (distinct : (members.filterMap view).Nodup)
    (firstMem : first ∈ members) (secondMem : second ∈ members)
    (firstView : view first = some value) (secondView : view second = some value) :
    first = second := by
  induction members with
  | nil => cases firstMem
  | cons head rest ih =>
      have seen_later {member : α} (later : member ∈ rest) (sees : view member = some value) :
          value ∈ rest.filterMap view :=
        List.mem_filterMap.2 ⟨member, later, sees⟩
      rw [List.filterMap_cons] at distinct
      rcases List.mem_cons.1 firstMem with rfl | firstLater
      · rcases List.mem_cons.1 secondMem with rfl | secondLater
        · rfl
        · rw [firstView] at distinct
          exact absurd (seen_later secondLater secondView) (List.nodup_cons.1 distinct).1
      · rcases List.mem_cons.1 secondMem with rfl | secondLater
        · rw [secondView] at distinct
          exact absurd (seen_later firstLater firstView) (List.nodup_cons.1 distinct).1
        · refine ih ?_ firstLater secondLater
          cases headView : view head with
          | none => simpa [headView] using distinct
          | some other =>
              rw [headView] at distinct
              exact (List.nodup_cons.1 distinct).2

namespace Declaration

def side? : Declaration → Option NodeId
  | .node id _ .database => some id
  | .node id _ .api => some id
  | _ => none

def sides (declarations : List Declaration) : List NodeId :=
  declarations.filterMap side?

/-- Declarations of points, of each once, and of sides, each with the identity of its label. -/
structure Orderly (declarations : List Declaration) : Prop where
  point_or_side : ∀ id label shape, .node id label shape ∈ declarations →
    shape.isOfPoint ∨ ∃ side : Side, shape = side.shape ∧ id = side.id label
  points_nodup : (points declarations).Nodup

variable {declarations : List Declaration} {id : NodeId} {label : String} {shape : Shape}

theorem mem_points_iff :
    id ∈ points declarations ↔
      ∃ label shape, .node id label shape ∈ declarations ∧ shape.isOfPoint := by
  constructor
  · intro member
    rcases List.mem_filterMap.1 member with ⟨declaration, present, pointed⟩
    cases declaration with
    | node other label shape =>
        by_cases ofPoint : shape.isOfPoint
        · obtain rfl : other = id := by simpa [point?, ofPoint] using pointed
          exact ⟨label, shape, present, ofPoint⟩
        · simp [point?, ofPoint] at pointed
    | edge body => simp [point?] at pointed
    | group name label members => simp [point?] at pointed
  · rintro ⟨label, shape, present, ofPoint⟩
    exact List.mem_filterMap.2 ⟨_, present, by simp [point?, ofPoint]⟩

theorem mem_sides_iff :
    id ∈ sides declarations ↔
      ∃ (label : String) (side : Side), .node id label side.shape ∈ declarations := by
  constructor
  · intro member
    rcases List.mem_filterMap.1 member with ⟨declaration, present, sided⟩
    cases declaration with
    | node other label shape =>
        cases shape with
        | database =>
            obtain rfl : other = id := by simpa [side?] using sided
            exact ⟨label, .database, present⟩
        | api =>
            obtain rfl : other = id := by simpa [side?] using sided
            exact ⟨label, .call, present⟩
        | _ => simp [side?] at sided
    | edge body => simp [side?] at sided
    | group name label members => simp [side?] at sided
  · rintro ⟨label, side, present⟩
    refine List.mem_filterMap.2 ⟨_, present, ?_⟩
    cases side <;> rfl

namespace Orderly

variable (orderly : Orderly declarations)

include orderly

theorem exists_id_eq_of_mem_sides (isSide : id ∈ sides declarations) :
    ∃ (side : Side) (name : String), id = side.id name := by
  rcases mem_sides_iff.1 isSide with ⟨name, side, member⟩
  refine ⟨side, name, ?_⟩
  rcases orderly.point_or_side _ _ _ member with ofPoint | ⟨other, shape_eq, id_eq⟩
  · cases side <;> exact absurd ofPoint (by decide)
  · rw [Side.shape_injective shape_eq]
    exact id_eq

theorem eq_of_disjoint (apart : List.Disjoint (sides declarations) (points declarations))
    {otherLabel : String} {otherShape : Shape} (member : .node id label shape ∈ declarations)
    (otherMember : .node id otherLabel otherShape ∈ declarations) :
    label = otherLabel ∧ shape = otherShape := by
  rcases orderly.point_or_side id label shape member with ofPoint | ⟨side, rfl, id_eq⟩
  · rcases orderly.point_or_side id otherLabel otherShape otherMember with
      otherOfPoint | ⟨other, rfl, other_eq⟩
    · have pointed : point? (.node id label shape) = some id := by simp [point?, ofPoint]
      have otherPointed : point? (.node id otherLabel otherShape) = some id := by
        simp [point?, otherOfPoint]
      have same := eq_of_nodup_filterMap orderly.points_nodup member otherMember pointed
        otherPointed
      exact ⟨(Declaration.node.inj same).2.1, (Declaration.node.inj same).2.2⟩
    · exact absurd (mem_points_iff.2 ⟨_, _, member, ofPoint⟩)
        (apart (mem_sides_iff.2 ⟨_, _, otherMember⟩))
  · rcases orderly.point_or_side id otherLabel otherShape otherMember with
      otherOfPoint | ⟨other, rfl, other_eq⟩
    · exact absurd (mem_points_iff.2 ⟨_, _, otherMember, otherOfPoint⟩)
        (apart (mem_sides_iff.2 ⟨_, _, member⟩))
    · rcases Side.eq_of_id_eq (id_eq.symm.trans other_eq) with ⟨rfl, rfl⟩
      exact ⟨rfl, rfl⟩

/-- All nodes that are declared are shown, each as it is declared, exactly if no side is a point. -/
theorem disjoint_iff_shown :
    List.Disjoint (sides declarations) (points declarations) ↔
      ∀ id label shape, .node id label shape ∈ declarations →
        (id, label, shape) ∈ shown declarations := by
  constructor
  · intro apart id label shape member
    exact mem_shown_of_unique member fun _ _ other => orderly.eq_of_disjoint apart other member
  · intro shows id isSide isPoint
    rcases mem_sides_iff.1 isSide with ⟨label, side, member⟩
    rcases mem_points_iff.1 isPoint with ⟨otherLabel, shape, otherMember, ofPoint⟩
    have first := mem_shown_iff.1 (shows _ _ _ member)
    have also := mem_shown_iff.1 (shows _ _ _ otherMember)
    rw [first, Option.some.injEq, Declaration.node.injEq] at also
    rw [← also.2.2] at ofPoint
    cases side <;> exact absurd ofPoint (by decide)

end Orderly

end Declaration

theorem Diagram.point_or_side_of_mem {diagram : Diagram} {id : NodeId} {label : String}
    {shape : Shape} (member : .node id label shape ∈ diagram.sketch.declarations) :
    shape.isOfPoint ∨ ∃ side : Side, shape = side.shape ∧ id = side.id label := by
  have hereditary : Sketch.Hereditary fun sketch => ∀ id label shape,
      .node id label shape ∈ sketch.declarations →
        shape.isOfPoint ∨ ∃ side : Side, shape = side.shape ∧ id = side.id label := by
    constructor
    case empty => simp
    case append =>
      intro first second firstHolds secondHolds id label shape member
      rcases List.mem_append.1 member with member | member
      · exact firstHolds id label shape member
      · exact secondHolds id label shape member
    case node =>
      intro pointId pointLabel pointShape ofPoint id label shape member
      obtain ⟨rfl, rfl, rfl⟩ : id = pointId ∧ label = pointLabel ∧ shape = pointShape := by
        simpa [Sketch.node] using member
      exact Or.inl ofPoint
    case link =>
      intro source target? id label shape member
      cases target? <;> simp [Sketch.link] at member
    case database =>
      intro activity name id label shape member
      obtain ⟨rfl, rfl, rfl⟩ : id = ⟨"db:" ++ name⟩ ∧ label = name ∧ shape = .database := by
        simpa [Sketch.database] using member
      exact Or.inr ⟨.database, rfl, rfl⟩
    case outgoing =>
      intro activity name id label shape member
      obtain ⟨rfl, rfl, rfl⟩ : id = ⟨"api:" ++ name⟩ ∧ label = name ∧ shape = .api := by
        simpa [Sketch.outgoing] using member
      exact Or.inr ⟨.call, rfl, rfl⟩
    case incoming =>
      intro activity name id label shape member
      obtain ⟨rfl, rfl, rfl⟩ : id = ⟨"api:" ++ name⟩ ∧ label = name ∧ shape = .api := by
        simpa [Sketch.incoming] using member
      exact Or.inr ⟨.call, rfl, rfl⟩
  exact hereditary.diagram diagram id label shape member

namespace DrawnFlow

/-- No database or call of a drawing has the identity of a node of a chain, or of a join. -/
def SidesApart (drawn : DrawnFlow) : Prop :=
  List.Disjoint (Declaration.sides drawn.declarations) (Declaration.points drawn.declarations)

/-- Every node that is declared is in the drawing, with the label and the shape that it is declared
with. -/
def ShowsAll (drawn : DrawnFlow) (format : Format) : Prop :=
  ∀ id label shape, .node id label shape ∈ drawn.declarations →
    (id, label, shape) ∈ format.nodes drawn.diagram.name drawn.declarations

namespace MadeOf

variable {drawn : DrawnFlow} {language : Language} {flows : Flows} {main : Flow}
  {inner : List Part}

theorem exists_sketch_of_node (made : drawn.MadeOf language flows main inner) {id : NodeId}
    {label : String} {shape : Shape} (member : .node id label shape ∈ drawn.declarations) :
    ∃ part ∈ drawn.mainPart main :: inner,
      .node id label shape ∈ part.diagram.sketch.declarations := by
  rw [made.declarations_eq, List.mem_append, List.mem_flatMap] at member
  rcases member with member | ⟨part, present, member⟩
  · exact ⟨drawn.mainPart main, List.mem_cons_self, member⟩
  · refine ⟨part, List.mem_cons_of_mem _ present, ?_⟩
    rcases List.mem_append.1 member with sketched | grouped
    · exact sketched
    · simp at grouped

theorem orderly (made : drawn.MadeOf language flows main inner) :
    Declaration.Orderly drawn.declarations := by
  refine ⟨?_, made.keepsApart.points_nodup⟩
  intro id label shape member
  rcases made.exists_sketch_of_node member with ⟨part, _, sketched⟩
  exact Diagram.point_or_side_of_mem sketched

theorem readsLikeSide_of_part (made : drawn.MadeOf language flows main inner) {part : Part}
    (member : part ∈ drawn.mainPart main :: inner) (reads : ReadsLikeSide part.scope) :
    ReadsLikeSide main.name := by
  rcases List.mem_cons.1 member with rfl | inside
  · exact reads
  · rcases exists_of_forall₂ made.inner_composed inside with ⟨numbered, _, scope_eq, _⟩
    rw [scope_eq] at reads
    exact (readsLikeSide_innerScope_iff.1 reads).readsLikeSide

/-- A side of the drawing that is a point of one of its parts is written like a number there. -/
theorem readsLikeSide_scope_of_mem (made : drawn.MadeOf language flows main inner) {part : Part}
    {id : NodeId} (present : part ∈ drawn.mainPart main :: inner) (inside : id ∈ part.points)
    (isSide : id ∈ Declaration.sides drawn.declarations) : ReadsLikeSide part.scope := by
  rcases made.orderly.exists_id_eq_of_mem_sides isSide with ⟨side, label, id_eq⟩
  rcases made.exists_composedFrom present with ⟨flow, composed⟩
  rcases Language.exists_standsFor_of_composeIn composed inside with ⟨number, stands⟩
  rw [id_eq] at stands
  exact .of_standsFor stands

/-- A drawing in which a side is a point is one of a flow whose name reads like a side. -/
theorem sidesApart_of_name (made : drawn.MadeOf language flows main inner)
    (plain : ¬ ReadsLikeSide main.name) : drawn.SidesApart := by
  intro id isSide isPoint
  apply plain
  rw [made.points_eq, List.mem_flatMap] at isPoint
  rcases isPoint with ⟨part, present, inside⟩
  exact made.readsLikeSide_of_part present (made.readsLikeSide_scope_of_mem present inside isSide)

theorem showsAll_iff (made : drawn.MadeOf language flows main inner) (format : Format) :
    drawn.ShowsAll format ↔ drawn.SidesApart := by
  unfold ShowsAll
  rw [Format.nodes_eq]
  exact made.orderly.disjoint_iff_shown.symm

end MadeOf

end DrawnFlow

namespace Settings

/-- In every drawing of a run the sides are apart from the points unless the name of the main flow
reads like a side; and all that is declared is shown exactly if they are apart. In a flow of such a
name every number is written like some side. -/
theorem sidesApart_and_showsAll_iff {settings : Settings} {sources : List (String × String)}
    {drawings : List Drawing} (accepted : settings.draw sources = .ok drawings) :
    ∃ flows drawn, settings.readFlows sources = .ok flows ∧
      List.Forall₂
        (fun main flow => (∃ inner, flow.MadeOf settings.language flows main inner) ∧
          (¬ ReadsLikeSide main.name → flow.SidesApart) ∧
          (flow.ShowsAll settings.format ↔ flow.SidesApart) ∧
          ∀ number, ReadsLikeSide main.name ↔ ∃ (side : Side) (name : String),
            side.id name = NodeId.numbered main.name number)
        flows.main drawn ∧
      drawings = drawn.map settings.drawing
        ++ [.ofDeclarations settings.format Overview.name (overview drawn)] := by
  rcases draw_eq_ok_iff.1 accepted with ⟨flows, drawn, read, made, drawings_eq⟩
  refine ⟨flows, drawn, read, made.imp ?_, drawings_eq⟩
  rintro main flow ⟨inner, made⟩
  exact ⟨⟨inner, made⟩, made.sidesApart_of_name, made.showsAll_iff settings.format,
    fun number => readsLikeSide_iff number⟩

theorem sidesApart_and_showsAll_shop :
    ∃ drawings drawn, draw {} [("shop", "# act: load [=] 0\n")] = .ok drawings ∧
      drawings.dropLast = [drawing {} drawn] ∧ drawn.SidesApart ∧ drawn.ShowsAll .dot := by
  have succeeds : (draw {} [("shop", "# act: load [=] 0\n")]).isOk := by decide +kernel
  rcases exists_eq_ok_of_isOk succeeds with ⟨drawings, accepted⟩
  rcases sidesApart_and_showsAll_iff accepted with ⟨flows, drawn, read, kept, drawings_eq⟩
  have plain : ¬ ReadsLikeSide "shop" := by
    rintro ⟨side, same | ⟨rest, same⟩⟩ <;>
      · have texts := congrArg String.toList same
        cases side <;> simp [Side.tag] at texts
  have names : flows.main.map Flow.name = ["shop"] := mainNames_readFlows read
  rcases List.map_eq_singleton_iff.1 names with ⟨main, main_eq, named⟩
  rw [main_eq, List.forall₂_cons_left_iff] at kept
  rcases kept with ⟨flow, others, ⟨_, apart_of_name, shows_iff, _⟩, noMore, rfl⟩
  rw [List.forall₂_nil_left_iff] at noMore
  have apart := apart_of_name (named ▸ plain)
  exact ⟨drawings, flow, accepted, by simp [drawings_eq, noMore], apart, shows_iff.2 apart⟩

def shadowing : List (String × String) :=
  [("db", "# act: load [=] 0\n")]

def shadowingFlow : DrawnFlow where
  diagram :=
    { name := "db"
      chain := [.activity { id := ⟨"db:0"⟩, description := "load", database := some "0" }] }
  declarations :=
    [.node ⟨"db:0"⟩ "load" .activity, .node ⟨"db:0"⟩ "0" .database,
      .edge ⟨⟨"db:0"⟩, ⟨"db:0"⟩, .data⟩]

/-- The database has the identity of the activity and is not shown. -/
theorem not_sidesApart_shadowing :
    draw {} shadowing = .ok [drawing {} shadowingFlow,
      .ofDeclarations .dot Overview.name (overview [shadowingFlow])] ∧
    ¬ shadowingFlow.SidesApart ∧
    .node ⟨"db:0"⟩ "0" .database ∈ shadowingFlow.declarations ∧
    Format.dot.nodes "db" shadowingFlow.declarations = [(⟨"db:0"⟩, "load", .activity)] := by
  refine ⟨by decide +kernel, ?_, by decide, by decide⟩
  intro apart
  exact apart (a := ⟨"db:0"⟩) (by decide) (by decide)

end Settings

end ProcessChain
