import ProcessChain.Proofs.Composition.OpenConditionals
import ProcessChain.Proofs.Composition.Spoken
import ProcessChain.Proofs.Flow.Regions

/-!
# Tokens without remarks

A token without remarks bounds no region and steers no conditional. It goes into the flow that it
stands in and does nothing there. `Padded` relates tokens to others that have such tokens between
them and stand on other lines, and each lemma says what becomes of one thing that is read from
tokens: the division into flows keeps the relation, what the flows say stays the same, and a fault
names the line that its token has been moved to.
-/

namespace ProcessChain

namespace Fault

/-- The fault with the line that it names moved. -/
def renumber (moved : Nat → Nat) : Fault → Fault
  | openConditional flow line => openConditional flow (moved line)
  | nestedRegion opened name line => nestedRegion opened name (moved line)
  | openRegion name line => openRegion name (moved line)
  | duplicateFlow name => duplicateFlow name
  | vocabulary flaw => vocabulary flaw

end Fault

/-- The second tokens are the first ones, moved to other lines, with tokens that have no remarks
between them. -/
inductive Padded (language : Language) (moved : Nat → Nat) : List Token → List Token → Prop where
  | done : Padded language moved [] []
  | kept {token : Token} {tokens others : List Token} (rest : Padded language moved tokens others) :
      Padded language moved (token :: tokens) ({ token with line := moved token.line } :: others)
  | silent {token : Token} {tokens others : List Token} (quiet : language.remarks token.text = [])
      (rest : Padded language moved tokens others) : Padded language moved tokens (token :: others)

/-- The second flow is the first one with tokens that have no remarks between its own. -/
structure Flow.Padded (language : Language) (moved : Nat → Nat) (flow other : Flow) : Prop where
  name_eq : other.name = flow.name
  tokens : ProcessChain.Padded language moved flow.tokens other.tokens

theorem Language.bound?_of_silent {language : Language} {token : Token}
    (quiet : language.remarks token.text = []) : language.bound? token = none := by
  simp [bound?, quiet, Remarks.payload?, Remarks.has]

theorem Language.bound?_moved (language : Language) (token : Token) (line : Nat) :
    language.bound? { token with line } = language.bound? token := rfl

theorem Line.steer_of_silent {line : Line} (quiet : line.remarks = []) (opened : List Nat) :
    line.steer opened = opened := by
  simp [steer, role_of_silent quiet]

namespace Padded

variable {language : Language} {moved : Nat → Nat} {tokens others : List Token}

theorem outside (padded : Padded language moved tokens others) (inside : Bool) :
    Padded language moved (language.outside inside tokens) (language.outside inside others) := by
  induction padded generalizing inside with
  | done => exact .done
  | @kept token _ _ _ ih =>
      rw [Language.outside, Language.outside, language.bound?_moved token (moved token.line)]
      cases language.bound? token with
      | some bound =>
          cases bound with
          | start name => exact ih true
          | stop => exact ih false
      | none =>
          cases inside with
          | true => exact ih true
          | false => exact .kept (ih false)
  | silent quiet _ ih =>
      rw [Language.outside, Language.bound?_of_silent quiet]
      cases inside with
      | true => exact ih true
      | false => exact .silent quiet (ih false)

theorem unbounded (padded : Padded language moved tokens others) :
    Padded language moved (language.unbounded tokens) (language.unbounded others) := by
  unfold Language.unbounded
  induction padded with
  | done => exact .done
  | @kept token _ _ _ ih =>
      rw [List.takeWhile_cons, List.takeWhile_cons, language.bound?_moved token (moved token.line)]
      split
      · exact .kept ih
      · exact .done
  | silent quiet _ ih =>
      rw [List.takeWhile_cons_of_pos (by simp [Language.bound?_of_silent quiet])]
      exact .silent quiet ih

theorem regions (padded : Padded language moved tokens others) :
    List.Forall₂ (Flow.Padded language moved) (language.regions tokens)
      (language.regions others) := by
  induction padded with
  | done => exact .nil
  | @kept token _ _ rest ih =>
      rw [Language.regions, Language.regions, language.bound?_moved token (moved token.line)]
      split
      · exact .cons ⟨rfl, rest.unbounded⟩ ih
      · exact ih
  | silent quiet _ ih =>
      rw [Language.regions, Language.bound?_of_silent quiet]
      exact ih

theorem regionFault?_eq (padded : Padded language moved tokens others)
    (opened : Option (String × Nat)) :
    language.regionFault? (opened.map (Prod.map id moved)) others =
      (language.regionFault? opened tokens).map (Fault.renumber moved) := by
  induction padded generalizing opened with
  | done => cases opened <;> rfl
  | @kept token _ _ _ ih =>
      rw [Language.regionFault?, Language.regionFault?,
        language.bound?_moved token (moved token.line)]
      cases language.bound? token with
      | none => exact ih opened
      | some bound =>
          cases bound with
          | stop => exact ih none
          | start name =>
              cases opened with
              | none => exact ih (some (name, token.line))
              | some current => rfl
  | silent quiet _ ih =>
      rw [Language.regionFault?, Language.bound?_of_silent quiet]
      exact ih opened

theorem spoken_eq (padded : Padded language moved tokens others) :
    Composition.spoken (others.map language.line) =
      Composition.spoken (tokens.map language.line) := by
  induction padded with
  | done => rfl
  | @kept token _ _ _ ih =>
      unfold Composition.spoken at ih ⊢
      rw [List.map_cons, List.map_cons, List.filterMap_cons, List.filterMap_cons, ih]
      rfl
  | @silent token _ _ quiet _ ih =>
      have silent : (language.line token).remarks = [] := quiet
      rw [List.map_cons, Composition.spoken_cons_of_silent silent, ih]

theorem openAfter_eq (padded : Padded language moved tokens others) (opened : List Nat) :
    Composition.openAfter (opened.map moved) (others.map language.line) =
      (Composition.openAfter opened (tokens.map language.line)).map moved := by
  unfold Composition.openAfter
  induction padded generalizing opened with
  | done => rfl
  | @kept token _ _ _ ih =>
      have steered : (language.line { token with line := moved token.line }).steer
          (opened.map moved) = ((language.line token).steer opened).map moved := by
        have sameRole : (language.line { token with line := moved token.line }).role =
            (language.line token).role := rfl
        unfold Line.steer
        rw [sameRole]
        cases (language.line token).role with
        | opens => rfl
        | closes => exact List.map_tail.symm
        | switches => rfl
        | plain => rfl
      rw [List.map_cons, List.map_cons, List.foldl_cons, List.foldl_cons, steered, ih]
  | @silent token _ _ quiet _ ih =>
      rw [List.map_cons, List.foldl_cons, Line.steer_of_silent quiet, ih]

end Padded

namespace Flow.Padded

variable {language : Language} {moved : Nat → Nat} {flow other : Flow} {flows others : List Flow}

theorem spoken_eq (padded : flow.Padded language moved other) :
    other.spoken language = flow.spoken language := by
  unfold Flow.spoken
  rw [padded.name_eq, padded.tokens.spoken_eq]

/-- A conditional that is left open is left open, by a line that has moved. -/
theorem fault?_eq (padded : flow.Padded language moved other) :
    other.fault? language = (flow.fault? language).map (Fault.renumber moved) := by
  have opened : other.openLines language = (flow.openLines language).map moved :=
    padded.tokens.openAfter_eq []
  unfold Flow.fault?
  rw [opened, padded.name_eq]
  cases flow.openLines language <;> rfl

end Flow.Padded

end ProcessChain
