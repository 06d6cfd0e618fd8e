import ProcessChain.Proofs.Composition.Numbering
import ProcessChain.Proofs.Diagram.Assembly
import ProcessChain.Proofs.Diagram.Steps
import ProcessChain.Proofs.Run.Parts

/-!
# Parts keep apart

Names of flows are arbitrary texts, and the scopes of inner flows are made from them, so it has to
be seen that two parts of one drawing never number their nodes in the same scope. The ordinal of an
inner part can be read back from its scope, since it holds only digits and stands after the last
`#`; and the scope of an inner part is longer than the name of the main flow, which is the scope of
the main part.

In different scopes there are no common points. So the points of a drawing are distinct, its groups
have distinct names, and each step of its flow stays inside one part: `DrawnFlow.KeepsApart`.
-/

namespace ProcessChain

namespace Settings

theorem toList_innerScope (main inner : String) (ordinal : Nat) :
    (innerScope main inner ordinal).toList =
      (main.toList ++ '/' :: inner.toList) ++ '#' :: Nat.toDigits 10 ordinal := by
  simp [innerScope]

/-- The ordinal can be read back from the scope of an inner flow, whatever the names are. -/
theorem ordinal_unique {main otherMain inner otherInner : String} {ordinal otherOrdinal : Nat}
    (same : innerScope main inner ordinal = innerScope otherMain otherInner otherOrdinal) :
    ordinal = otherOrdinal := by
  have noHash (number : Nat) : '#' ∉ Nat.toDigits 10 number := by
    intro member
    exact absurd (isDigit_of_mem_digits member) (by decide)
  have texts := congrArg String.toList same
  rw [toList_innerScope, toList_innerScope] at texts
  exact digits_injective (cut_unique (noHash ordinal) (noHash otherOrdinal) texts).2

theorem innerScope_ne (main inner : String) (ordinal : Nat) :
    innerScope main inner ordinal ≠ main := by
  intro same
  have lengths := congrArg (fun scope => scope.toList.length) same
  simp only [toList_innerScope, List.length_append, List.length_cons] at lengths
  omega

end Settings

namespace Part

variable (part : Part)

@[simp]
theorem points_declarations : Declaration.points part.declarations = part.points := by
  unfold declarations
  rw [Declaration.points_append, Diagram.points_sketch]
  exact List.append_nil _

@[simp]
theorem groupNames_declarations : Declaration.groupNames part.declarations = [part.scope] := by
  unfold declarations
  rw [Declaration.groupNames_append, Diagram.groupNames_sketch]
  rfl

@[simp]
theorem flowSteps_declarations :
    Declaration.flowSteps part.declarations = part.diagram.sketch.flowSteps := by
  unfold declarations
  rw [Declaration.flowSteps_append]
  exact List.append_nil _

end Part

/-- The drawing is one of parts that stay apart: its points are those of the parts and are
distinct, its groups have distinct names, and each step of its flow is from a point to a point of
one part. -/
structure DrawnFlow.KeepsApart (drawn : DrawnFlow) (parts : List Part) : Prop where
  points_eq : Declaration.points drawn.declarations = parts.flatMap Part.points
  points_nodup : (Declaration.points drawn.declarations).Nodup
  groupNames_nodup : (Declaration.groupNames drawn.declarations).Nodup
  step_inside : ∀ source target, (source, target) ∈ Declaration.flowSteps drawn.declarations →
    ∃ part ∈ parts, source ∈ part.points ∧ target ∈ part.points

namespace DrawnFlow.MadeOf

variable {drawn : DrawnFlow} {language : Language} {flows : Flows} {main : Flow}
  {inner : List Part}

theorem exists_composedFrom (made : drawn.MadeOf language flows main inner) {part : Part}
    (member : part ∈ drawn.mainPart main :: inner) : ∃ flow, part.ComposedFrom language flow := by
  rcases List.mem_cons.1 member with rfl | inside
  · exact ⟨main, made.composed⟩
  · rcases exists_of_forall₂ made.inner_composed inside with ⟨numbered, _, _, composed⟩
    exact ⟨numbered.1, composed⟩

theorem scopes_eq (made : drawn.MadeOf language flows main inner) :
    inner.map Part.scope =
      ((flows.innerNamed drawn.diagram.references).zipIdx 1).map
        fun numbered => Settings.innerScope main.name numbered.1.name numbered.2 := by
  rw [← List.forall₂_eq_eq_eq, List.forall₂_map_left_iff, List.forall₂_map_right_iff]
  exact (made.inner_composed.imp fun _ _ composed => composed.1).flip

theorem nodup_scopes (made : drawn.MadeOf language flows main inner) :
    ((drawn.mainPart main :: inner).map Part.scope).Nodup := by
  rw [List.map_cons, made.scopes_eq, List.nodup_cons]
  constructor
  · intro member
    rcases List.mem_map.1 member with ⟨numbered, _, same⟩
    exact Settings.innerScope_ne main.name numbered.1.name numbered.2 same
  · have ordinals :
        (((flows.innerNamed drawn.diagram.references).zipIdx 1).map Prod.snd).Nodup := by
      rw [List.zipIdx_map_snd]
      exact List.nodup_range'
    have different := List.pairwise_map.1 ordinals
    rw [List.nodup_iff_pairwise_ne, List.pairwise_map]
    exact different.imp fun ordinals_ne same => ordinals_ne (Settings.ordinal_unique same)

theorem nodup_points (made : drawn.MadeOf language flows main inner) :
    ((drawn.mainPart main :: inner).flatMap Part.points).Nodup := by
  rw [List.nodup_flatMap]
  constructor
  · intro part member
    rcases made.exists_composedFrom member with ⟨flow, composed⟩
    exact Language.nodup_points_of_composeIn composed
  · refine (List.pairwise_map.1 made.nodup_scopes).imp_of_mem ?_
    intro part other member otherMember different
    rcases made.exists_composedFrom member with ⟨flow, composed⟩
    rcases made.exists_composedFrom otherMember with ⟨otherFlow, otherComposed⟩
    exact Language.disjoint_points_of_composeIn composed otherComposed different

theorem points_eq (made : drawn.MadeOf language flows main inner) :
    Declaration.points drawn.declarations =
      (drawn.mainPart main :: inner).flatMap Part.points := by
  rw [made.declarations_eq]
  simp

theorem groupNames_eq (made : drawn.MadeOf language flows main inner) :
    Declaration.groupNames drawn.declarations = inner.map Part.scope := by
  rw [made.declarations_eq]
  simp [List.map_eq_flatMap]

theorem flowSteps_eq (made : drawn.MadeOf language flows main inner) :
    Declaration.flowSteps drawn.declarations =
      (drawn.mainPart main :: inner).flatMap fun part => part.diagram.sketch.flowSteps := by
  rw [made.declarations_eq]
  simp [mainPart, Sketch.flowSteps]

theorem keepsApart (made : drawn.MadeOf language flows main inner) :
    drawn.KeepsApart (drawn.mainPart main :: inner) := by
  refine ⟨made.points_eq, ?_, ?_, ?_⟩
  · rw [made.points_eq]
    exact made.nodup_points
  · rw [made.groupNames_eq]
    exact (List.nodup_cons.1 made.nodup_scopes).2
  · intro source target step
    rw [made.flowSteps_eq, List.mem_flatMap] at step
    rcases step with ⟨part, member, inside⟩
    exact ⟨part, member, Diagram.mem_points_of_step inside⟩

end DrawnFlow.MadeOf

namespace Settings

/-- The drawings are those of the main flows, each made of parts that stay apart, and the
overview. -/
def DrawnApart (settings : Settings) (sources : List (String × String))
    (drawings : List Drawing) : Prop :=
  ∃ flows drawn, settings.readFlows sources = .ok flows ∧
    List.Forall₂
      (fun main flow => ∃ inner, flow.MadeOf settings.language flows main inner ∧
        flow.KeepsApart (flow.mainPart main :: inner))
      flows.main drawn ∧
    drawings = drawn.map settings.drawing
      ++ [.ofDeclarations settings.format Overview.name (overview drawn)]

/-- Whatever the names are, the parts of a drawing stay apart; and what is composed in one scope
never meets what is composed in another. -/
theorem drawnApart_and_disjoint :
    (∀ (settings : Settings) (sources : List (String × String)) (drawings : List Drawing),
      settings.draw sources = .ok drawings → settings.DrawnApart sources drawings) ∧
    (∀ (language other : Language) (scope otherScope : String) (flow otherFlow : Flow)
      (diagram otherDiagram : Diagram), scope ≠ otherScope →
      language.composeIn scope flow = .ok diagram →
      other.composeIn otherScope otherFlow = .ok otherDiagram →
      List.Disjoint diagram.chain.points otherDiagram.chain.points) := by
  constructor
  · intro settings sources drawings accepted
    rcases draw_eq_ok_iff.1 accepted with ⟨flows, drawn, read, made, drawings_eq⟩
    refine ⟨flows, drawn, read, made.imp ?_, drawings_eq⟩
    rintro main flow ⟨inner, made⟩
    exact ⟨inner, made, made.keepsApart⟩
  · intro language other scope otherScope flow otherFlow diagram otherDiagram different composed
      otherComposed
    exact Language.disjoint_points_of_composeIn composed otherComposed different

/-- A source with an inner flow that has the name of its main flow, and another source with an
inner flow of the same name. -/
def namesakes : List (String × String) :=
  [("a", "# act: x\n# inner-flow: a\n# inner-diagram: a\n# act: y\n# end-diagram:\n"),
    ("b", "# inner-diagram: a\n# act: z\n# end-diagram:\n")]

def single (scope : String) : Diagram where
  name := "a"
  chain := [.activity { id := .numbered scope 0, description := "y" }]

theorem drawnApart_namesakes :
    (∃ drawings, draw {} namesakes = .ok drawings ∧ DrawnApart {} namesakes drawings) ∧
      (Language.standard.composeIn "a" ⟨"a", [⟨"act: y", 4⟩]⟩ = .ok (single "a") ∧
        Language.standard.composeIn "a/a#1" ⟨"a", [⟨"act: y", 4⟩]⟩ = .ok (single "a/a#1") ∧
        List.Disjoint (single "a").chain.points (single "a/a#1").chain.points) := by
  constructor
  · have succeeds : (draw {} namesakes).isOk := by decide +kernel
    rcases exists_eq_ok_of_isOk succeeds with ⟨drawings, accepted⟩
    exact ⟨drawings, accepted, drawnApart_and_disjoint.1 {} namesakes drawings accepted⟩
  · have outside : Language.standard.composeIn "a" ⟨"a", [⟨"act: y", 4⟩]⟩ = .ok (single "a") := by
      cbv
    have inside :
        Language.standard.composeIn "a/a#1" ⟨"a", [⟨"act: y", 4⟩]⟩ = .ok (single "a/a#1") := by
      cbv
    exact ⟨outside, inside,
      drawnApart_and_disjoint.2 _ _ _ _ _ _ _ _ (by decide) outside inside⟩

end Settings

end ProcessChain
