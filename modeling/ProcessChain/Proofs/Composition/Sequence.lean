import ProcessChain.Proofs.Composition.Bracketing
import ProcessChain.Proofs.Composition.Numbering
import ProcessChain.Proofs.Composition.OpenConditionals
import ProcessChain.Proofs.Diagram.Sequence

/-!
# Composition in sequence

What a composition does with a line does not depend on what came before. An earlier composition has
given out some numbers and gathered some references and topics; the later one goes on from there,
and apart from that it is what it would have been on its own (`Composition.composes_after`). The
lines inside a conditional are composed up to the closing one, so it does not depend on what comes
after either (`Composition.closes_append`).

With nothing before it, a composition is thus only moved to another scope, which
`Language.ids_and_composeIn_scope` states. After tokens that are composed to a diagram, it is moved
beyond the numbers of that diagram: composing tokens in sequence puts diagrams in sequence, and a
fault of the later tokens is the fault of all (`Language.composeIn_append`).
-/

namespace ProcessChain

open Node

namespace Draft

/-- A draft as it is when another one came before it. -/
def after (prior draft : Draft) : Draft where
  issued := prior.issued + draft.issued
  references := prior.references ++ draft.references
  topics := prior.topics ∪ draft.topics

variable {scope : String} {draft noted : Draft} {line : Line} {nodes : Chain}

theorem after_empty (prior : Draft) : prior.after {} = prior := by
  rcases prior with ⟨issued, references, topics⟩
  simp [after, Topics.union_empty]

theorem empty_after (draft : Draft) : ({} : Draft).after draft = draft := by
  rcases draft with ⟨issued, references, topics⟩
  simp [after, Topics.empty_union]

theorem after_issue (prior draft : Draft) : prior.after draft.issue = (prior.after draft).issue :=
  rfl

theorem move_nextId (scope other : String) (prior draft : Draft) :
    NodeId.move scope other prior.issued (draft.nextId scope) = (prior.after draft).nextId other :=
  NodeId.move_numbered scope other prior.issued draft.issued

theorem note_after (scope other : String) (prior draft : Draft) (line : Remarks)
    (remark : Remark) :
    (prior.after draft).note other line remark =
      (prior.after (draft.note scope line remark).1,
        chainMapIds (.move scope other prior.issued) (draft.note scope line remark).2) := by
  rcases remark with ⟨keyword, payload⟩
  cases keyword with
  | activity => simp [note, chainMapIds, mapIds, move_nextId, after_issue]
  | event =>
      have topics (found : Option String) :
          prior.topics ∪ found.elim draft.topics draft.topics.publish =
            found.elim (prior.topics ∪ draft.topics) (prior.topics ∪ draft.topics).publish := by
        cases found with
        | none => rfl
        | some topic => exact Topics.union_publish ..
      simp [note, chainMapIds, mapIds, move_nextId, after, issue, topics, Nat.add_assoc]
  | innerFlow => simp [note, chainMapIds, mapIds, move_nextId, after, issue, Nat.add_assoc]
  | subscribes => simp [note, chainMapIds, after, Topics.union_foldl_subscribe]
  | _ => rfl

theorem noteAll_after (scope other : String) (prior draft : Draft) (line remarks : Remarks) :
    (prior.after draft).noteAll other line remarks =
      (prior.after (draft.noteAll scope line remarks).1,
        chainMapIds (.move scope other prior.issued) (draft.noteAll scope line remarks).2) := by
  induction remarks generalizing draft with
  | nil => rfl
  | cons remark rest ih => simp [noteAll, note_after scope other, ih]

theorem read_after (prior : Draft) (other : String)
    (reads : draft.read scope line = (noted, nodes)) :
    (prior.after draft).read other line =
      (prior.after noted, chainMapIds (.move scope other prior.issued) nodes) := by
  unfold read at reads ⊢
  rw [noteAll_after scope other, reads]

end Draft

namespace Composition

variable {scope : String} {draft middle last : Draft} {lines more left : List Line}
  {nodes current others : Chain} {further : List Chain}

theorem closes_after (prior : Draft) (other : String)
    (derivation : Closes scope draft lines current further last left) :
    Closes other (prior.after draft) lines
      (chainMapIds (.move scope other prior.issued) current)
      (branchesMapIds (.move scope other prior.issued) further) (prior.after last) left := by
  induction derivation with
  | opens role reads _ _ inner outer =>
      have started := Draft.read_after prior other reads
      rw [chainMapIds, mapIds, branchesMapIds, chainMapIds_append, Draft.move_nextId]
      exact .opens role started inner outer
  | switches role _ inside => exact .switches role inside
  | closes role reads => exact .closes role (Draft.read_after prior other reads)
  | plain role reads _ inside =>
      rw [chainMapIds_append]
      exact .plain role (Draft.read_after prior other reads) inside

theorem composes_after (prior : Draft) (other : String)
    (derivation : Composes scope draft lines nodes last) :
    Composes other (prior.after draft) lines
      (chainMapIds (.move scope other prior.issued) nodes) (prior.after last) := by
  induction derivation with
  | done => exact .done
  | opens role reads inner _ outer =>
      have started := Draft.read_after prior other reads
      rw [chainMapIds, mapIds, branchesMapIds, chainMapIds_append, Draft.move_nextId]
      exact .opens role started (closes_after prior other inner) outer
  | other role reads _ outside =>
      rw [chainMapIds_append]
      exact .other role (Draft.read_after prior other reads) outside

theorem closes_append (more : List Line)
    (derivation : Closes scope draft lines current further last left) :
    Closes scope draft (lines ++ more) current further last (left ++ more) := by
  induction derivation with
  | opens role reads _ _ inner outer => exact .opens role reads inner outer
  | switches role _ inside => exact .switches role inside
  | closes role reads => exact .closes role reads
  | plain role reads _ inside => exact .plain role reads inside

theorem composes_append (first : Composes scope draft lines nodes middle)
    (second : Composes scope middle more others last) :
    Composes scope draft (lines ++ more) (nodes ++ others) last := by
  induction first with
  | done => exact second
  | opens role reads inner _ outer =>
      exact .opens role reads (closes_append more inner) (outer second)
  | other role reads _ outside =>
      rw [List.append_assoc]
      exact .other role reads (outside second)

end Composition

namespace Language

variable {language : Language} {scope name : String} {diagram : Diagram}

/-- The nodes of a composed diagram, each before the nodes inside it, are numbered from zero in its
scope, and composing the same flow in another scope changes nothing but the scope of the ids. -/
theorem ids_and_composeIn_scope {flow : Flow}
    (returned : language.composeIn scope flow = .ok diagram) :
    (chainPreorder diagram.chain).map Node.id =
        (List.range (chainPreorder diagram.chain).length).map (NodeId.numbered scope) ∧
      ∀ other, language.composeIn other flow = .ok (diagram.mapIds (.move scope other 0)) := by
  refine ⟨preorder_ids_of_composeIn returned, fun other => ?_⟩
  rcases composes_of_composeIn returned with ⟨named, last, references, topics, derivation⟩
  have moved := Composition.composes_after {} other derivation
  rw [Draft.empty_after, Draft.empty_after] at moved
  rw [composeIn_of_composes moved, ← named, ← references, ← topics]
  rfl

theorem ids_and_composeIn_scope_crowded :
    standard.composeIn "shop" crowded = .ok crowdedDiagram ∧
      (chainPreorder crowdedDiagram.chain).map Node.id = (List.range 6).map (.numbered "shop") ∧
      standard.composeIn "shop/pay#1" crowded =
        .ok (crowdedDiagram.mapIds (.move "shop" "shop/pay#1" 0)) := by
  have composed : standard.composeIn "shop" crowded = .ok crowdedDiagram := by cbv
  have moved := ids_and_composeIn_scope composed
  exact ⟨composed, moved.1, moved.2 "shop/pay#1"⟩

theorem faultOf?_composeIn_append {first : List Token}
    (returned : language.composeIn scope ⟨name, first⟩ = .ok diagram) (second : List Token) :
    faultOf? (language.composeIn scope ⟨name, first ++ second⟩) =
      faultOf? (language.composeIn scope ⟨name, second⟩) := by
  rcases composes_of_composeIn returned with ⟨_, _, _, _, derivation⟩
  have closed := Composition.openAfter_of_composes derivation
  rw [faultOf?_composeIn, faultOf?_composeIn]
  unfold Flow.fault? Flow.openLines
  rw [List.map_append, Composition.openAfter_append, closed]

/-- If tokens are composed to a diagram, then with more tokens after them they are composed to that
diagram with the one of the later tokens after it, or fail as the later tokens do. -/
theorem composeIn_append {first : List Token}
    (returned : language.composeIn scope ⟨name, first⟩ = .ok diagram) (second : List Token) :
    language.composeIn scope ⟨name, first ++ second⟩ =
      (language.composeIn scope ⟨name, second⟩).map (diagram.followedBy scope) := by
  rcases composes_of_composeIn returned with ⟨named, middle, references, topics, derivation⟩
  cases later : language.composeIn scope ⟨name, second⟩ with
  | error fault =>
      have sameFault := faultOf?_composeIn_append returned second
      rw [later] at sameFault
      exact faultOf?_eq_some_iff.1 sameFault
  | ok next =>
      rcases composes_of_composeIn later with ⟨_, last, nextReferences, nextTopics, onward⟩
      have moved := Composition.composes_after middle scope onward
      rw [Draft.after_empty] at moved
      have whole := Composition.composes_append derivation moved
      rw [← List.map_append] at whole
      have issued := Composition.issued_of_composes derivation
      have composed : language.composeIn scope ⟨name, first ++ second⟩ = _ :=
        composeIn_of_composes whole
      rw [composed]
      simp [Except.map, Diagram.followedBy, Draft.after, named, references, topics, nextReferences,
        nextTopics, issued]

theorem composeIn_append_crowded :
    standard.composeIn "shop" crowded = .ok crowdedDiagram ∧
      standard.composeIn "shop" ⟨"shop", crowded.tokens ++ [⟨"act: f", 7⟩]⟩ =
        .ok (crowdedDiagram.push (.activity { id := .numbered "shop" 6, description := "f" })) ∧
      standard.composeIn "shop" ⟨"shop", crowded.tokens ++ [⟨"if: x", 7⟩]⟩ =
        .error (.openConditional "shop" 7) := by
  have composed : standard.composeIn "shop" crowded = .ok crowdedDiagram := by cbv
  have appended := composeIn_append composed
  refine ⟨composed, (appended [⟨"act: f", 7⟩]).trans ?_, (appended [⟨"if: x", 7⟩]).trans ?_⟩
  · cbv
  · cbv

end Language

end ProcessChain
