import ProcessChain.Diagram.Composition

/-!
# Derivations of a composition

`Composition.close` and `Composition.chain` compose lines by recursion and stop at the first fault.
The relations here say what they come to when there is no fault, one rule for each role of a line:
`Closes` for the lines inside an open conditional and `Composes` for those outside of all
conditionals. They return exactly what is derivable, so an invariant of composition is an induction
over a derivation, and that lines can be composed is shown by deriving it.
-/

namespace ProcessChain

namespace Composition

/-- From a draft, the lines inside an open conditional are composed up to the line that closes it.
This gives the rest of the current branch, the branches after it, the draft after the closing line
and the lines after it. -/
inductive Closes (scope : String) :
    Draft → List Line → Chain → List Chain → Draft → List Line → Prop where
  | opens {draft started innerDraft last : Draft} {line : Line} {rest innerRest left : List Line}
      {first innerCurrent current : Chain} {innerFurther further : List Chain}
      (role : line.role = .opens) (read : draft.issue.read scope line = (started, first))
      (inner : Closes scope started rest innerCurrent innerFurther innerDraft innerRest)
      (outer : Closes scope innerDraft innerRest current further last left) :
      Closes scope draft (line :: rest)
        (.conditional (draft.nextId scope) ((first ++ innerCurrent) :: innerFurther) :: current)
        further last left
  | switches {draft last : Draft} {line : Line} {rest left : List Line} {current : Chain}
      {further : List Chain} (role : line.role = .switches)
      (inside : Closes scope draft rest current further last left) :
      Closes scope draft (line :: rest) [] (current :: further) last left
  | closes {draft last : Draft} {line : Line} {rest : List Line} {nodes : Chain}
      (role : line.role = .closes) (read : draft.read scope line = (last, nodes)) :
      Closes scope draft (line :: rest) nodes [] last rest
  | plain {draft noted last : Draft} {line : Line} {rest left : List Line}
      {nodes current : Chain} {further : List Chain} (role : line.role = .plain)
      (read : draft.read scope line = (noted, nodes))
      (inside : Closes scope noted rest current further last left) :
      Closes scope draft (line :: rest) (nodes ++ current) further last left

/-- From a draft, lines outside of all conditionals are composed to a chain and a draft. -/
inductive Composes (scope : String) : Draft → List Line → Chain → Draft → Prop where
  | done {draft : Draft} : Composes scope draft [] [] draft
  | opens {draft started innerDraft last : Draft} {line : Line} {rest innerRest : List Line}
      {first innerCurrent others : Chain} {innerFurther : List Chain}
      (role : line.role = .opens) (read : draft.issue.read scope line = (started, first))
      (inner : Closes scope started rest innerCurrent innerFurther innerDraft innerRest)
      (outer : Composes scope innerDraft innerRest others last) :
      Composes scope draft (line :: rest)
        (.conditional (draft.nextId scope) ((first ++ innerCurrent) :: innerFurther) :: others)
        last
  | other {draft noted last : Draft} {line : Line} {rest : List Line} {nodes others : Chain}
      (role : line.role ≠ .opens) (read : draft.read scope line = (noted, nodes))
      (outside : Composes scope noted rest others last) :
      Composes scope draft (line :: rest) (nodes ++ others) last

variable {flow scope : String} {draft : Draft} {lines : List Line}

theorem closes_of_close {opening : Nat} {closed : Closed lines}
    (returned : close flow scope opening draft lines = .ok closed) :
    Closes scope draft lines closed.current closed.further closed.draft closed.rest := by
  fun_induction close flow scope opening draft lines with
  | case1 => simp at returned
  | case2 => simp at returned
  | case3 => simp at returned
  | case4 _ _ _ _ role _ _ read _ innerReturned _ _ outerReturned innerCloses outerCloses =>
      cases returned
      exact .opens role read (innerCloses innerReturned) (outerCloses outerReturned)
  | case5 => simp at returned
  | case6 _ _ _ _ role _ insideReturned insideCloses =>
      cases returned
      exact .switches role (insideCloses insideReturned)
  | case7 _ _ _ _ role _ _ read =>
      cases returned
      exact .closes role read
  | case8 => simp at returned
  | case9 _ _ _ _ role _ _ read _ insideReturned insideCloses =>
      cases returned
      exact .plain role read (insideCloses insideReturned)

theorem composes_of_chain {last : Draft} {nodes : Chain}
    (returned : chain flow scope draft lines = .ok (last, nodes)) :
    Composes scope draft lines nodes last := by
  fun_induction chain flow scope draft lines generalizing last nodes with
  | case1 =>
      cases returned
      exact .done
  | case2 => simp at returned
  | case3 => simp at returned
  | case4 _ _ _ role _ _ read _ innerReturned _ _ _ outerReturned outerComposes =>
      cases returned
      exact .opens role read (closes_of_close innerReturned) (outerComposes outerReturned)
  | case5 => simp at returned
  | case6 _ _ _ role _ _ read _ _ restReturned restComposes =>
      cases returned
      exact .other (by simp [role]) read (restComposes restReturned)
  | case7 => simp at returned
  | case8 _ _ _ role _ _ read _ _ restReturned restComposes =>
      cases returned
      exact .other (by simp [role]) read (restComposes restReturned)
  | case9 => simp at returned
  | case10 _ _ _ role _ _ read _ _ restReturned restComposes =>
      cases returned
      exact .other (by simp [role]) read (restComposes restReturned)

theorem close_of_closes {last : Draft} {current : Chain} {further : List Chain} {left : List Line}
    (flow : String) (opening : Nat)
    (derivation : Closes scope draft lines current further last left) :
    ∃ closed, close flow scope opening draft lines = .ok closed ∧ closed.current = current ∧
      closed.further = further ∧ closed.draft = last ∧ closed.rest = left := by
  induction derivation generalizing opening with
  | @opens _ _ _ _ line _ _ _ _ _ _ _ _ role read _ _ inner outer =>
      rcases inner line.number with ⟨inner, innerReturned, rfl, rfl, rfl, rfl⟩
      rcases outer opening with ⟨outer, outerReturned, rfl, rfl, rfl, rfl⟩
      rw [close]
      simp [role, read, innerReturned, outerReturned, Closed.node]
  | switches role _ inside =>
      rcases inside opening with ⟨closed, returned, rfl, rfl, rfl, rfl⟩
      rw [close]
      simp [role, returned]
  | closes role read =>
      rw [close]
      simp [role, read]
  | plain role read _ inside =>
      rcases inside opening with ⟨closed, returned, rfl, rfl, rfl, rfl⟩
      rw [close]
      simp [role, read, returned]

theorem chain_of_composes {last : Draft} {nodes : Chain}
    (flow : String) (derivation : Composes scope draft lines nodes last) :
    chain flow scope draft lines = .ok (last, nodes) := by
  induction derivation with
  | done => rw [chain]
  | @opens _ _ _ _ line _ _ _ _ _ _ role read inner _ outerReturned =>
      rcases close_of_closes flow line.number inner with
        ⟨closed, returned, rfl, rfl, rfl, rfl⟩
      rw [chain]
      simp [role, read, returned, outerReturned, Closed.node]
  | @other _ _ _ line _ _ _ role read _ restReturned =>
      rw [chain]
      cases found : line.role with
      | opens => exact absurd found role
      | _ => simp [read, restReturned]

end Composition

theorem Language.composes_of_composeIn {language : Language} {scope : String} {flow : Flow}
    {diagram : Diagram} (returned : language.composeIn scope flow = .ok diagram) :
    diagram.name = flow.name ∧
      ∃ last : Draft, diagram.references = last.references ∧ diagram.topics = last.topics ∧
        Composition.Composes scope {} (flow.tokens.map language.line) diagram.chain last := by
  unfold composeIn at returned
  split at returned
  · simp at returned
  · next last nodes composed =>
      cases returned
      exact ⟨rfl, last, rfl, rfl, Composition.composes_of_chain composed⟩

theorem Language.composeIn_of_composes {language : Language} {scope : String} {flow : Flow}
    {nodes : Chain} {last : Draft}
    (derivation : Composition.Composes scope {} (flow.tokens.map language.line) nodes last) :
    language.composeIn scope flow =
      .ok
        { name := flow.name
          chain := nodes
          references := last.references
          topics := last.topics } := by
  unfold composeIn
  rw [Composition.chain_of_composes flow.name derivation]

end ProcessChain
