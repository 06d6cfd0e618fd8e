import ProcessChain.Proofs.Composition.Cursors
import ProcessChain.Run

/-!
# Runs by position

In a run by position every flow is composed by position, so the run could stop at a conditional that
is not one, stop at a number that cannot be subtracted, or not come to an end. It does not: it comes
to what the run comes to (`Settings.drawByPosition_eq`).

Everything else that a run does is the same in both. `ended` takes what may be at fault to what may
stop in these ways, and keeps each step of a run.
-/

namespace ProcessChain

open ProcessChain.Composition

namespace Composition

variable {α β : Type}

/-- A step that comes to an end, and stops only at its fault. -/
def ended (outcome : Except Fault α) : ExceptT Stop Option α :=
  some (outcome.mapError .fault)

theorem ended_pure (value : α) : ended (pure value) = pure value := rfl

theorem ended_bind (outcome : Except Fault α) (next : α → Except Fault β) :
    ended (outcome >>= next) = ended outcome >>= fun value => ended (next value) := by
  cases outcome <;> rfl

theorem ended_mapM (step : α → Except Fault β) (members : List α) :
    ended (members.mapM step) = members.mapM fun member => ended (step member) := by
  induction members with
  | nil => rfl
  | cons member rest ih => simp only [List.mapM_cons, ended_bind, ended_pure, ih]

end Composition

namespace Settings

variable {language : Language}

theorem sketchInner_composeByPosition (main : String) (inner : Flow) (ordinal : Nat) :
    sketchInner language.composeByPosition main inner ordinal =
      ended (sketchInner language.composeIn main inner ordinal) := by
  unfold sketchInner
  dsimp only
  rw [ended_bind, Language.composeByPosition_eq]
  rfl

theorem sketchFlowWith_composeByPosition (flows : Flows) :
    sketchFlowWith language.composeByPosition flows =
      fun main => ended (sketchFlow language flows main) := by
  funext main
  unfold sketchFlow sketchFlowWith
  simp only [sketchInner_composeByPosition, ended_bind, ended_mapM, ended_pure]
  rw [Language.composeByPosition_eq]
  rfl

/-- Draws some sources, each of their flows composed by position. -/
def drawByPosition (settings : Settings) (sources : List (String × String)) :
    ExceptT Stop Option (List Drawing) := do
  let flows ← ended (settings.readFlows sources)
  let drawn ← flows.main.mapM (sketchFlowWith settings.language.composeByPosition flows)
  return drawn.map settings.drawing
    ++ [.ofDeclarations settings.format Overview.name (overview drawn)]

/-- A run by position comes to an end, with what the run comes to. -/
theorem drawByPosition_eq (settings : Settings) (sources : List (String × String)) :
    settings.drawByPosition sources = some ((settings.draw sources).mapError .fault) := by
  change _ = ended (settings.draw sources)
  unfold drawByPosition draw
  simp only [sketchFlowWith_composeByPosition, ended_bind, ended_mapM, ended_pure]

end Settings

end ProcessChain
