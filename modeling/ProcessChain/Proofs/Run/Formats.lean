import ProcessChain.Proofs.Drawing.Groups
import ProcessChain.Proofs.Run.Faults
import ProcessChain.Proofs.Run.Sides

/-!
# The two formats of a run

What is declared for a drawing is the same in both formats, and whether sources can be drawn does
not depend on the format. The inner flows of a drawing are declared one after the other, each with
its group at its end, and no two of them have a node in common; so the declarations are grouped, and
both formats show the same (`Settings.draw_dot_and_graphMl`).
-/

namespace ProcessChain

theorem Declaration.map_name_groups (declarations : List Declaration) :
    (groups declarations).map (·.name) = groupNames declarations := by
  unfold groups groupNames
  rw [List.map_filterMap]
  apply List.filterMap_congr
  intro declaration _
  cases declaration <;> rfl

theorem Diagram.groups_sketch (diagram : Diagram) :
    Declaration.groups diagram.sketch.declarations = [] := by
  rw [← List.map_eq_nil_iff, Declaration.map_name_groups, diagram.groupNames_sketch]

namespace Part

/-- The group that an inner part is declared as. -/
def cluster (part : Part) : Dot.Cluster :=
  ⟨part.scope, part.diagram.name, part.diagram.sketch.declared⟩

theorem groups_declarations (part : Part) :
    Declaration.groups part.declarations = [part.cluster] := by
  unfold declarations
  rw [Declaration.groups_concat_group, Diagram.groups_sketch]
  rfl

theorem members_cluster (part : Part) : part.cluster.members = part.points :=
  Diagram.declared_sketch part.diagram

/-- What an inner part groups it has declared before. -/
theorem membersFirst_append (part : Part) {before : List Declaration}
    (first : Declaration.MembersFirst before) :
    Declaration.MembersFirst (before ++ part.declarations) := by
  unfold declarations
  rw [← List.append_assoc]
  refine .group (first.append_of_groups_eq_nil part.diagram.groups_sketch) ?_
  intro id member
  rw [Diagram.declared_sketch, ← Diagram.points_sketch, Declaration.mem_points_iff] at member
  rcases member with ⟨label, shape, declared, _⟩
  exact ⟨label, shape, List.mem_append_right _ declared⟩

end Part

namespace DrawnFlow.MadeOf

variable {drawn : DrawnFlow} {language : Language} {flows : Flows} {main : Flow}
  {inner : List Part}

/-- The groups of a drawing are those of its inner parts, in order. -/
theorem groups_eq (made : drawn.MadeOf language flows main inner) :
    Declaration.groups drawn.declarations = inner.map Part.cluster := by
  have ofParts (parts : List Part) :
      Declaration.groups (parts.flatMap Part.declarations) = parts.map Part.cluster := by
    rw [Declaration.groups, List.filterMap_flatMap]
    change parts.flatMap (fun part => Declaration.groups part.declarations) = _
    simp only [Part.groups_declarations]
    exact (List.map_eq_flatMap).symm
  rw [made.declarations_eq, Declaration.groups_append, Diagram.groups_sketch, ofParts,
    List.nil_append]

theorem membersFirst (made : drawn.MadeOf language flows main inner) :
    Declaration.MembersFirst drawn.declarations := by
  have ofParts (parts : List Part) (before : List Declaration)
      (first : Declaration.MembersFirst before) :
      Declaration.MembersFirst (before ++ parts.flatMap Part.declarations) := by
    induction parts generalizing before with
    | nil => simpa using first
    | cons part rest ih =>
        rw [List.flatMap_cons, ← List.append_assoc]
        exact ih _ (part.membersFirst_append first)
  rw [made.declarations_eq]
  apply ofParts
  exact Declaration.MembersFirst.done.append_of_groups_eq_nil drawn.diagram.groups_sketch

/-- Each inner part of a drawing is a group of its own. -/
theorem grouped (made : drawn.MadeOf language flows main inner) :
    Declaration.Grouped drawn.declarations := by
  refine ⟨made.membersFirst, ?_, ?_⟩
  · have apart := (List.nodup_flatMap.1 made.nodup_points).2
    rw [made.groups_eq, List.pairwise_map]
    refine (List.pairwise_cons.1 apart).2.imp fun disjoint => ?_
    rw [Part.members_cluster, Part.members_cluster]
    exact disjoint
  · rw [Declaration.map_name_groups]
    exact made.keepsApart.groupNames_nodup

end DrawnFlow.MadeOf

theorem Overview.grouped_declarations (flows : List (String × Topics)) :
    Declaration.Grouped (Overview.declarations flows) := by
  have noGroups : Declaration.groups (Overview.declarations flows) = [] := by
    rw [Declaration.groups, List.filterMap_eq_nil_iff]
    intro declaration listed
    simp only [Overview.declarations, Overview.flow, Overview.publication, Overview.subscription,
      List.cons_append, List.mem_flatMap, List.mem_cons, List.mem_append, List.not_mem_nil,
      or_false] at listed
    rcases listed with ⟨_, _, rfl | ⟨_, _, rfl | rfl⟩ | ⟨_, _, rfl | rfl⟩⟩ <;> rfl
  refine ⟨Declaration.MembersFirst.done.append_of_groups_eq_nil noGroups, ?_, ?_⟩
  · rw [noGroups]
    exact .nil
  · rw [noGroups]
    exact List.nodup_nil

/-- The drawing of what is declared under a name. -/
def Drawing.ofCanvas (format : Format) (canvas : String × List Declaration) : Drawing :=
  .ofDeclarations format canvas.1 canvas.2

namespace Settings

/-- Sources can be drawn in both formats or have the same fault in both, and what is drawn shows the
same in both. -/
theorem draw_dot_and_graphMl (settings : Settings) (sources : List (String × String)) :
    (∀ fault, draw { settings with format := .dot } sources = .error fault ↔
      draw { settings with format := .graphMl } sources = .error fault) ∧
    ∀ drawings, draw { settings with format := .dot } sources = .ok drawings →
      ∃ canvases : List (String × List Declaration),
        drawings = canvases.map (Drawing.ofCanvas .dot) ∧
        draw { settings with format := .graphMl } sources =
          .ok (canvases.map (Drawing.ofCanvas .graphMl)) ∧
        ∀ name declarations, (name, declarations) ∈ canvases →
          ShowSame (Dot.Graph.ofDeclarations name declarations)
            (GraphMl.Graph.ofDeclarations name declarations) := by
  constructor
  · intro fault
    rw [← faultOf?_eq_some_iff, ← faultOf?_eq_some_iff, faultOf?_draw, faultOf?_draw]
    rfl
  · intro drawings accepted
    rcases draw_eq_ok_iff.1 accepted with ⟨flows, drawn, read, made, rfl⟩
    refine ⟨drawn.map (fun flow => (flow.diagram.name, flow.declarations))
      ++ [(Overview.name, overview drawn)], ?_, ?_, ?_⟩
    · rw [List.map_append, List.map_map]
      rfl
    · rw [draw_eq_ok_iff, List.map_append, List.map_map]
      exact ⟨flows, drawn, read, made, rfl⟩
    · intro name declarations listed
      rcases List.mem_append.1 listed with ofFlow | ofOverview
      · rcases List.mem_map.1 ofFlow with ⟨flow, flowListed, same⟩
        cases same
        rcases exists_of_forall₂ made flowListed with ⟨main, _, inner, flowMade⟩
        exact flowMade.grouped.showSame _
      · cases List.mem_singleton.1 ofOverview
        exact (Overview.grouped_declarations _).showSame _

end Settings

end ProcessChain
