import ProcessChain.Proofs.Composition.Derivation
import ProcessChain.Proofs.Diagram.Points
import ProcessChain.Proofs.Flow.Collection
import ProcessChain.Proofs.Outcome
import ProcessChain.Run

/-!
# Parts of a drawing

The drawing of a main flow is put together from parts: the main flow itself and, in the order of
the run, each inner flow that it refers to. A part is a flow composed in a scope of its own, and an
inner part is declared as a group under its scope.

`Settings.draw_eq_ok_iff` and `Settings.sketchFlow_eq_ok_iff` say all that a run, and the drawing of
one main flow, come to when there is no fault. What is said about runs elsewhere starts from them.
-/

namespace ProcessChain

/-- A flow composed for a drawing, with the scope that its nodes are numbered in. -/
structure Part where
  scope : String
  diagram : Diagram

namespace Part

/-- The part is a given flow, composed in the scope of the part. -/
def ComposedFrom (part : Part) (language : Language) (flow : Flow) : Prop :=
  language.composeIn part.scope flow = .ok part.diagram

def points (part : Part) : List NodeId :=
  part.diagram.chain.points

/-- The declarations of an inner part: its sketch, grouped under its scope. -/
def declarations (part : Part) : List Declaration :=
  part.diagram.sketch.declarations
    ++ [.group part.scope part.diagram.name part.diagram.sketch.declared]

end Part

namespace DrawnFlow

/-- The part of a drawing that is the main flow itself, numbered in the scope of its name. -/
def mainPart (drawn : DrawnFlow) (main : Flow) : Part :=
  ⟨main.name, drawn.diagram⟩

@[simp]
theorem points_mainPart (drawn : DrawnFlow) (main : Flow) :
    (drawn.mainPart main).points = drawn.diagram.chain.points := rfl

/-- A main flow is drawn with some inner parts, one for each inner flow that it refers to. -/
structure MadeOf (drawn : DrawnFlow) (language : Language) (flows : Flows) (main : Flow)
    (inner : List Part) : Prop where
  composed : (drawn.mainPart main).ComposedFrom language main
  inner_composed :
    List.Forall₂
      (fun numbered part =>
        part.scope = Settings.innerScope main.name numbered.1.name numbered.2 ∧
          part.ComposedFrom language numbered.1)
      ((flows.innerNamed drawn.diagram.references).zipIdx 1) inner
  declarations_eq :
    drawn.declarations = drawn.diagram.sketch.declarations ++ inner.flatMap Part.declarations

end DrawnFlow

namespace Settings

variable {language : Language} {flows : Flows} {main : Flow} {drawn : DrawnFlow}

/-- An inner flow is drawn as a part that is composed from it, in a scope made for it. -/
theorem sketchInner_eq_ok_iff {name : String} {flow : Flow} {ordinal : Nat}
    {declarations : List Declaration} :
    sketchInner language.composeIn name flow ordinal = .ok declarations ↔
      ∃ part : Part, (part.scope = innerScope name flow.name ordinal ∧
        part.ComposedFrom language flow) ∧ declarations = part.declarations := by
  unfold sketchInner
  simp only [bind_eq_ok_iff]
  constructor
  · rintro ⟨diagram, composed, same⟩
    refine ⟨⟨innerScope name flow.name ordinal, diagram⟩, ⟨rfl, composed⟩, ?_⟩
    have named : diagram.name = flow.name := (Language.composes_of_composeIn composed).1
    cases same
    simp [Part.declarations, named]
  · rintro ⟨⟨scope, diagram⟩, ⟨rfl, composed⟩, rfl⟩
    have named : diagram.name = flow.name := (Language.composes_of_composeIn composed).1
    refine ⟨diagram, composed, ?_⟩
    simp only [Part.declarations, named]
    rfl

/-- A main flow is drawn exactly if it and the inner flows that it refers to can be composed. -/
theorem sketchFlow_eq_ok_iff :
    sketchFlow language flows main = .ok drawn ↔
      ∃ inner, drawn.MadeOf language flows main inner := by
  unfold sketchFlow sketchFlowWith
  simp only [bind_eq_ok_iff, mapM_eq_ok_iff, sketchInner_eq_ok_iff]
  constructor
  · rintro ⟨diagram, composed, sketches, sketched, same⟩
    cases same
    rcases forall₂_exists_map_iff.1 sketched with ⟨inner, inner_composed, rfl⟩
    exact ⟨inner, composed, inner_composed, by simp [List.flatMap_def]⟩
  · rintro ⟨inner, made⟩
    rcases drawn with ⟨diagram, declarations⟩
    have declarations_eq :
        declarations = diagram.sketch.declarations ++ inner.flatMap Part.declarations :=
      made.declarations_eq
    refine ⟨diagram, made.composed, inner.map Part.declarations, ?_, ?_⟩
    · exact forall₂_exists_map_iff.2 ⟨inner, made.inner_composed, rfl⟩
    · rw [declarations_eq, List.flatMap_def]
      rfl

/-- Sources are read exactly if all of them can be added to an empty collection. -/
theorem readFlows_eq_ok_iff {settings : Settings} {sources : List (String × String)} :
    settings.readFlows sources = .ok flows ↔
      Flows.addAll settings.language {}
          (sources.map fun (name, text) => (name, settings.comments text)) =
        (flows, none) := by
  unfold readFlows
  dsimp only
  split
  · next fault added => simp [added]
  · next all added => simp [added]

/-- A run succeeds exactly if its sources can be read and every main flow can be drawn. -/
theorem draw_eq_ok_iff {settings : Settings} {sources : List (String × String)}
    {drawings : List Drawing} :
    settings.draw sources = .ok drawings ↔
      ∃ flows drawn, settings.readFlows sources = .ok flows ∧
        List.Forall₂ (fun main flow => ∃ inner, flow.MadeOf settings.language flows main inner)
          flows.main drawn ∧
        drawings = drawn.map settings.drawing
          ++ [.ofDeclarations settings.format Overview.name (overview drawn)] := by
  unfold draw
  simp only [bind_eq_ok_iff, mapM_eq_ok_iff, sketchFlow_eq_ok_iff]
  constructor
  · rintro ⟨flows, accepted, drawn, made, same⟩
    cases same
    exact ⟨flows, drawn, accepted, made, rfl⟩
  · rintro ⟨flows, drawn, accepted, made, rfl⟩
    exact ⟨flows, accepted, drawn, made, rfl⟩

theorem mainNames_readFlows {settings : Settings} {sources : List (String × String)}
    (accepted : settings.readFlows sources = .ok flows) :
    flows.mainNames = sources.map Prod.fst := by
  have names := Flows.mainNames_addAll (readFlows_eq_ok_iff.1 accepted)
  simpa [Flows.mainNames, Function.comp_def] using names

theorem nodup_mainNames_readFlows {settings : Settings} {sources : List (String × String)}
    (accepted : settings.readFlows sources = .ok flows) : flows.mainNames.Nodup := by
  have distinct := Flows.nodup_mainNames_addAll settings.language {}
    (sources.map fun (name, text) => (name, settings.comments text)) List.nodup_nil
  rwa [readFlows_eq_ok_iff.1 accepted] at distinct

end Settings

end ProcessChain
