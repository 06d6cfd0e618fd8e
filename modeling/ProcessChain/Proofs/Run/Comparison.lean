import ProcessChain.Proofs.Composition.Spoken
import ProcessChain.Proofs.Run.Faults

/-!
# Comparing two runs

The drawing of a main flow is made from what the main flow says and from what the inner flows that
it refers to say, in their order. Nothing else of the sources goes into it: not the lines that
tokens stand on, not the other main flows, and not the inner flows that it does not refer to. So two
runs that agree on these agree on the drawing (`DrawnFlow.MadeOf.of_spoken_eq`).

The inner flows of all sources are pooled and those referred to are numbered in their order. A
source that declares none of them therefore moves no number, wherever it stands
(`Settings.innerNamed_eq_of_filter_eq`).
-/

namespace ProcessChain

namespace DrawnFlow

variable {drawn : DrawnFlow} {language : Language} {flows others : Flows} {main other : Flow}
  {inner : List Part}

/-- A drawing is made of any flows that say the same. -/
theorem MadeOf.of_spoken_eq (made : drawn.MadeOf language flows main inner)
    (sameMain : main.spoken language = other.spoken language)
    (sameInner : (flows.innerNamed drawn.diagram.references).map (·.spoken language) =
      (others.innerNamed drawn.diagram.references).map (·.spoken language)) :
    drawn.MadeOf language others other inner := by
  have sameName : main.name = other.name := congrArg Prod.fst sameMain
  refine ⟨?_, ?_, made.declarations_eq⟩
  · unfold Part.ComposedFrom mainPart
    rw [← sameName]
    exact Language.composeIn_of_spoken_eq sameMain made.composed
  · have sameNumbered :
        ((flows.innerNamed drawn.diagram.references).zipIdx 1).map
            (Prod.map (·.spoken language) id) =
          ((others.innerNamed drawn.diagram.references).zipIdx 1).map
            (Prod.map (·.spoken language) id) := by
      rw [← List.zipIdx_map, ← List.zipIdx_map, sameInner]
    refine forall₂_of_map_eq made.inner_composed sameNumbered ?_
    rintro ⟨flow, ordinal⟩ ⟨otherFlow, otherOrdinal⟩ part looks ⟨scope_eq, composed⟩
    have ⟨sameFlow, sameOrdinal⟩ := Prod.mk.inj looks
    have flowName : flow.name = otherFlow.name := congrArg Prod.fst sameFlow
    cases sameOrdinal
    rw [← sameName, ← flowName]
    exact ⟨scope_eq, Language.composeIn_of_spoken_eq sameFlow composed⟩

/-- A main flow is drawn in one way only. -/
theorem MadeOf.unique {otherDrawn : DrawnFlow} {otherInner : List Part}
    (made : drawn.MadeOf language flows main inner)
    (otherMade : otherDrawn.MadeOf language flows main otherInner) : drawn = otherDrawn := by
  have sketched := Settings.sketchFlow_eq_ok_iff.2 ⟨inner, made⟩
  rw [Settings.sketchFlow_eq_ok_iff.2 ⟨otherInner, otherMade⟩] at sketched
  exact (Except.ok.inj sketched).symm

end DrawnFlow

namespace Settings

variable {settings : Settings} {sources others : List (String × String)}
  {drawings otherDrawings : List Drawing} {source : String × String} {position : Nat}

/-- The main flow of a source, given by its name and its text. -/
def mainFlow (settings : Settings) (source : String × String) : Flow :=
  ⟨source.1, settings.language.outside false (settings.comments source.2)⟩

/-- The inner flows of a source. -/
def innerFlows (settings : Settings) (source : String × String) : List Flow :=
  settings.language.regions (settings.comments source.2)

theorem main_flowsOf (settings : Settings) (sources : List (String × String)) :
    (settings.flowsOf sources).main = sources.map settings.mainFlow := by
  simp [flowsOf, Flows.ofFiles, files, mainFlow, Function.comp_def]

theorem inner_flowsOf (settings : Settings) (sources : List (String × String)) :
    (settings.flowsOf sources).inner = sources.flatMap settings.innerFlows := by
  simp only [flowsOf, Flows.ofFiles, files, List.flatMap_map]
  rfl

/-- Whether a source declares an inner flow with one of the given names. -/
def declares (settings : Settings) (names : List String) (source : String × String) : Bool :=
  (settings.innerFlows source).any (·.name ∈ names)

theorem innerNamed_flowsOf (names : List String) :
    (settings.flowsOf sources).innerNamed names =
      (sources.filter (settings.declares names)).flatMap
        fun source => (settings.innerFlows source).filter (·.name ∈ names) := by
  unfold Flows.innerNamed
  rw [inner_flowsOf, List.filter_flatMap]
  induction sources with
  | nil => rfl
  | cons source rest ih =>
      rw [List.flatMap_cons, ih, List.filter_cons]
      split
      · rfl
      · next silent =>
          have none : (settings.innerFlows source).filter (·.name ∈ names) = [] := by
            simpa [declares] using silent
          rw [none, List.nil_append]

/-- Sources that declare none of the inner flows referred to may be added, removed or moved. -/
theorem innerNamed_eq_of_filter_eq {names : List String}
    (same : sources.filter (settings.declares names) = others.filter (settings.declares names)) :
    (settings.flowsOf sources).innerNamed names = (settings.flowsOf others).innerNamed names := by
  rw [innerNamed_flowsOf, innerNamed_flowsOf, same]

theorem map_spoken_innerNamed {language : Language} {flows otherFlows : Flows}
    (names : List String)
    (same : flows.inner.map (·.spoken language) = otherFlows.inner.map (·.spoken language)) :
    (flows.innerNamed names).map (·.spoken language) =
      (otherFlows.innerNamed names).map (·.spoken language) := by
  have named (inner : List Flow) :
      (inner.filter (·.name ∈ names)).map (·.spoken language) =
        (inner.map (·.spoken language)).filter (·.1 ∈ names) := by
    rw [List.filter_map]
    rfl
  unfold Flows.innerNamed
  rw [named, named, same]

/-- Sources whose flows say the same have the same drawings. -/
theorem draw_of_spoken_eq {otherFlows : Flows} (accepted : settings.draw sources = .ok drawings)
    (read : settings.readFlows others = .ok otherFlows)
    (sameMain : (settings.flowsOf sources).main.map (·.spoken settings.language) =
      otherFlows.main.map (·.spoken settings.language))
    (sameInner : (settings.flowsOf sources).inner.map (·.spoken settings.language) =
      otherFlows.inner.map (·.spoken settings.language)) :
    settings.draw others = .ok drawings := by
  rcases draw_eq_ok_iff.1 accepted with ⟨flows, drawn, flowsRead, made, rfl⟩
  rcases (settings.readFlows_eq sources).2 flows flowsRead with rfl
  refine draw_eq_ok_iff.2 ⟨otherFlows, drawn, read, forall₂_of_map_eq made sameMain ?_, rfl⟩
  rintro main other flow same ⟨inner, made⟩
  exact ⟨inner, made.of_spoken_eq same (map_spoken_innerNamed _ sameInner)⟩

theorem wellFormed_of_draw (accepted : settings.draw sources = .ok drawings) :
    settings.WellFormed sources := by
  rw [← faults_eq_nil_iff, ← List.head?_eq_none_iff, ← faultOf?_draw, accepted]
  rfl

/-- A run that succeeds has read the flows of its sources, and its drawing at a position is that of
the main flow there. -/
theorem exists_drawn_of_draw (accepted : settings.draw sources = .ok drawings)
    (listed : sources[position]? = some source) :
    settings.readFlows sources = .ok (settings.flowsOf sources) ∧
      ∃ drawn inner,
        drawn.MadeOf settings.language (settings.flowsOf sources) (settings.mainFlow source)
          inner ∧
        drawings[position]? = some (settings.drawing drawn) := by
  rcases draw_eq_ok_iff.1 accepted with ⟨flows, allDrawn, read, made, rfl⟩
  rcases (settings.readFlows_eq sources).2 flows read with rfl
  have mainListed :
      (settings.flowsOf sources).main[position]? = some (settings.mainFlow source) := by
    rw [main_flowsOf, List.getElem?_map, listed]
    rfl
  rcases exists_getElem?_of_forall₂ made mainListed with ⟨drawn, drawnListed, inner, made⟩
  refine ⟨read, drawn, inner, made, ?_⟩
  rw [List.getElem?_append_left, List.getElem?_map, drawnListed]
  · rfl
  · rw [List.length_map]
    exact (List.getElem?_eq_some_iff.1 drawnListed).1

/-- In two runs that succeed, a source that both have is drawn alike if the inner flows that it
refers to have the same names and texts in both, in the same order; and they are the same if the
sources that declare some of them are. -/
theorem drawing_eq_of_referred_eq {otherPosition : Nat}
    (accepted : settings.draw sources = .ok drawings)
    (otherAccepted : settings.draw others = .ok otherDrawings)
    (listed : sources[position]? = some source)
    (otherListed : others[otherPosition]? = some source) :
    ∃ flows otherFlows main inner diagram,
      settings.readFlows sources = .ok flows ∧ settings.readFlows others = .ok otherFlows ∧
      settings.language.divide source.1 (settings.comments source.2) = .ok (main, inner) ∧
      settings.language.compose main = .ok diagram ∧
      ((flows.innerNamed diagram.references).map Flow.texts =
          (otherFlows.innerNamed diagram.references).map Flow.texts →
        ∃ drawing, drawing.name = source.1 ∧ drawings[position]? = some drawing ∧
          otherDrawings[otherPosition]? = some drawing) ∧
      (sources.filter (settings.declares diagram.references) =
          others.filter (settings.declares diagram.references) →
        flows.innerNamed diagram.references = otherFlows.innerNamed diagram.references) := by
  rcases exists_drawn_of_draw accepted listed with ⟨read, drawn, inner, made, drawnListed⟩
  rcases exists_drawn_of_draw otherAccepted otherListed with
    ⟨otherRead, otherDrawn, otherInner, otherMade, otherDrawnListed⟩
  have bracketed : settings.language.regionFault? none (settings.comments source.2) = none :=
    Language.regionFault?_eq_none_iff.2
      ((wellFormed_of_draw accepted).bracketed source (List.mem_of_getElem? listed))
  refine ⟨_, _, settings.mainFlow source, settings.innerFlows source, drawn.diagram, read,
    otherRead, ?_, made.composed, ?_, innerNamed_eq_of_filter_eq⟩
  · rw [Language.divide_eq, bracketed]
    rfl
  · intro sameTexts
    have sameSpoken : ((settings.flowsOf sources).innerNamed drawn.diagram.references).map
          (·.spoken settings.language) =
        ((settings.flowsOf others).innerNamed drawn.diagram.references).map
          (·.spoken settings.language) := by
      rw [← List.forall₂_eq_eq_eq, List.forall₂_map_left_iff, List.forall₂_map_right_iff]
        at sameTexts ⊢
      exact sameTexts.imp fun flow other same => Flow.spoken_eq_of_texts_eq settings.language same
    rcases (made.of_spoken_eq rfl sameSpoken).unique otherMade with rfl
    have named : drawn.diagram.name = source.1 := (Language.composes_of_composeIn made.composed).1
    exact ⟨settings.drawing drawn, named, drawnListed, otherDrawnListed⟩

def ordering : String × String :=
  ("shop", "# act: order\n# inner-flow: pay\n")

/-- Sources around one that refers to an inner flow of another one. -/
def crowded : List (String × String) :=
  [("noise", "# inner-diagram: rest\n# end-diagram:\n"),
    ("bank", "# inner-diagram: pay\n# act: charge\n# end-diagram:\n"), ordering]

def crowdedFlows : Flows where
  main :=
    [⟨"noise", []⟩, ⟨"bank", []⟩, ⟨"shop", [⟨"act: order", 1⟩, ⟨"inner-flow: pay", 2⟩]⟩]
  inner := [⟨"rest", []⟩, ⟨"pay", [⟨"act: charge", 2⟩]⟩]

/-- The inner flow is declared in another source, on other lines. -/
def sparse : List (String × String) :=
  [ordering, ("till", "# inner-diagram: pay\n\n# act: charge\n# end-diagram:\n")]

def sparseFlows : Flows where
  main := [⟨"shop", [⟨"act: order", 1⟩, ⟨"inner-flow: pay", 2⟩]⟩, ⟨"till", []⟩]
  inner := [⟨"pay", [⟨"act: charge", 3⟩]⟩]

theorem drawing_eq_ordering :
    ∃ drawings otherDrawings drawing, draw {} crowded = .ok drawings ∧
      draw {} sparse = .ok otherDrawings ∧ drawing.name = "shop" ∧
      drawings[2]? = some drawing ∧ otherDrawings[0]? = some drawing := by
  have readCrowded : readFlows {} crowded = .ok crowdedFlows := by decide +kernel
  have readSparse : readFlows {} sparse = .ok sparseFlows := by decide +kernel
  have succeeds : (draw {} crowded).isOk := by
    rw [draw, readCrowded]
    decide +kernel
  have otherSucceeds : (draw {} sparse).isOk := by
    rw [draw, readSparse]
    decide +kernel
  rcases exists_eq_ok_of_isOk succeeds with ⟨drawings, accepted⟩
  rcases exists_eq_ok_of_isOk otherSucceeds with ⟨otherDrawings, otherAccepted⟩
  have listed : crowded[2]? = some ordering := rfl
  have otherListed : sparse[0]? = some ordering := rfl
  rcases drawing_eq_of_referred_eq accepted otherAccepted listed otherListed with
    ⟨flows, otherFlows, main, inner, diagram, read, otherRead, divided, composed, alike, _⟩
  cases readCrowded.symm.trans read
  cases readSparse.symm.trans otherRead
  have mainFlow : Language.standard.divide "shop" (CommentStyle.standard.tokens ordering.2) =
      .ok (⟨"shop", [⟨"act: order", 1⟩, ⟨"inner-flow: pay", 2⟩]⟩, []) := by
    decide +kernel
  have references : diagram.references = ["pay"] := by
    rw [Language.references_of_composeIn composed]
    cases mainFlow.symm.trans divided
    decide +kernel
  have sameTexts : (crowdedFlows.innerNamed ["pay"]).map Flow.texts =
      (sparseFlows.innerNamed ["pay"]).map Flow.texts := by
    decide +kernel
  rcases alike (references ▸ sameTexts) with ⟨drawing, named, drawn, otherDrawn⟩
  exact ⟨drawings, otherDrawings, drawing, accepted, otherAccepted, named, drawn, otherDrawn⟩

end Settings

end ProcessChain
