import ProcessChain.Diagram.Composition
import ProcessChain.Diagram.Sketch
import ProcessChain.Drawing.Format
import ProcessChain.Drawing.Overview

/-!
# Runs

A run draws a set of sources: one drawing for each main flow, in the order of the sources, and the
overview of their topics last. The drawing of a main flow shows its own chain and after that every
inner flow that it refers to, from whichever source, as a group. Inner flows are numbered in a scope
made from the main flow's name, their own name and their position among those drawn, so that
same-named inner flows of two sources stay apart.

A run draws everything or reports one fault, the first one: sources are divided in order, then each
main flow is composed with its inner flows after it. It does not matter to the drawing of a flow how
flows are composed, so that is a parameter of `sketchFlowWith`.
-/

namespace ProcessChain

/-- How a run reads and draws. -/
structure Settings where
  language : Language := .standard
  /-- What reads the comments that the annotations stand in. -/
  comments : Tokenizer := CommentStyle.standard.tokens
  format : Format := .standard
  /-- The extensions of the files that are read when a directory is walked; all files if empty. -/
  extensions : List String := []

/-- A main flow with its drawing's declarations. -/
structure DrawnFlow where
  diagram : Diagram
  /-- The declarations of the main flow and of the inner flows drawn with it. -/
  declarations : List Declaration

namespace Settings

/-- The scope of an inner flow in the drawing of a main flow, numbered from one. -/
def innerScope (main inner : String) (ordinal : Nat) : String :=
  main ++ "/" ++ inner ++ "#" ++ ordinal.repr

section

variable {m : Type → Type} [Monad m] (compose : (scope : String) → Flow → m Diagram)

/-- The declarations of an inner flow in the drawing of a main flow, its chain grouped. -/
def sketchInner (main : String) (inner : Flow) (ordinal : Nat) : m (List Declaration) := do
  let scope := innerScope main inner.name ordinal
  let sketch := (← compose scope inner).sketch
  return sketch.declarations ++ [.group scope inner.name sketch.declared]

/-- Sketches a main flow with the inner flows that it refers to, given how a flow is composed. -/
def sketchFlowWith (flows : Flows) (main : Flow) : m DrawnFlow := do
  let diagram ← compose main.name main
  let inner ← ((flows.innerNamed diagram.references).zipIdx 1).mapM
    fun (inner, ordinal) => sketchInner compose main.name inner ordinal
  return ⟨diagram, diagram.sketch.declarations ++ inner.flatten⟩

end

/-- Composes and sketches a main flow with the inner flows that it refers to. -/
def sketchFlow (language : Language) (flows : Flows) (main : Flow) : Except Fault DrawnFlow :=
  sketchFlowWith language.composeIn flows main

/-- The overview of the main flows of a run. -/
def overview (drawn : List DrawnFlow) : List Declaration :=
  Overview.declarations (drawn.map fun flow => (flow.diagram.name, flow.diagram.topics))

/-- The flows of some sources, each given by its name and its text. -/
def readFlows (settings : Settings) (sources : List (String × String)) : Except Fault Flows :=
  let files := sources.map fun (name, text) => (name, settings.comments text)
  match Flows.addAll settings.language {} files with
  | (_, some fault) => .error fault
  | (flows, none) => .ok flows

/-- The drawing of a main flow. -/
def drawing (settings : Settings) (drawn : DrawnFlow) : Drawing :=
  .ofDeclarations settings.format drawn.diagram.name drawn.declarations

/-- Draws some sources, each given by its name and its text. -/
def draw (settings : Settings) (sources : List (String × String)) :
    Except Fault (List Drawing) := do
  let flows ← settings.readFlows sources
  let drawn ← flows.main.mapM (sketchFlow settings.language flows)
  return drawn.map settings.drawing
    ++ [.ofDeclarations settings.format Overview.name (overview drawn)]

end Settings

end ProcessChain
