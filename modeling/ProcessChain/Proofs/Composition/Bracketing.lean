import Mathlib.Data.List.Basic
import ProcessChain.Proofs.Composition.Derivation

/-!
# Bracketing of a composed flow

A chain is flattened by writing its nodes one after the other and putting brackets around the
branches of a conditional, with a bar between one branch and the next. A flow spells such a
sequence of marks line by line: what a line spells depends on its remarks and on whether some
conditional is open where it stands, which a depth counts.

Composition is the inverse of flattening on what a flow spells: the chain that a flow is composed to
flattens to exactly the marks of the flow, so no node is lost, doubled or moved, and every branch
ends where its line says. `Composition.spelling_of_closes` is the invariant: the lines inside an
open conditional spell the rest of its branches, the closing bracket, and what the lines after the
closing one spell.
-/

namespace ProcessChain

inductive Mark where
  | opening
  /-- The end of one branch and the start of the next. -/
  | bar
  | closing
  | step (keyword : Keyword) (label : String)
deriving DecidableEq, Repr

namespace Node

mutual

def marks : Node → List Mark
  | .activity body => [.step .activity body.description]
  | .event body => [.step .event body.description]
  | .process body => [.step .innerFlow body.flow]
  | .conditional _ branches => .opening :: (branchesMarks branches ++ [.closing])

def branchesMarks : List Chain → List Mark
  | [] => []
  | branch :: rest => chainMarks branch ++ laterBranchesMarks rest

/-- The marks of the branches after the first, each with a bar before it. -/
def laterBranchesMarks : List Chain → List Mark
  | [] => []
  | branch :: rest => .bar :: (chainMarks branch ++ laterBranchesMarks rest)

/-- The marks of a chain, node by node. -/
def chainMarks : Chain → List Mark
  | [] => []
  | node :: rest => node.marks ++ chainMarks rest

end

@[simp]
theorem chainMarks_append (first second : Chain) :
    chainMarks (first ++ second) = chainMarks first ++ chainMarks second := by
  induction first with
  | nil => rfl
  | cons node rest ih => simp [chainMarks, ih]

end Node

/-- The mark that a remark spells, if it spells a node. -/
def Remark.mark? (remark : Remark) : Option Mark :=
  match remark.keyword with
  | .activity | .event | .innerFlow => some (.step remark.keyword remark.payload)
  | _ => none

def Remarks.marks (remarks : Remarks) : List Mark :=
  remarks.filterMap Remark.mark?

/-- The marks that lines spell, given how many conditionals are open before them. -/
def spelling : (depth : Nat) → List Remarks → List Mark
  | _, [] => []
  | depth, remarks :: rest =>
    if remarks.has .branchStart then
      .opening :: (remarks.marks ++ spelling (depth + 1) rest)
    else if remarks.has .branchElse ∧ 0 < depth then
      .bar :: spelling depth rest
    else if remarks.has .branchEnd ∧ 0 < depth then
      remarks.marks ++ .closing :: spelling (depth - 1) rest
    else
      remarks.marks ++ spelling depth rest

section Spelling

variable {line : Line} {rest : List Remarks}

theorem spelling_opens (depth : Nat) (role : line.role = .opens) :
    spelling depth (line.remarks :: rest) =
      .opening :: (line.remarks.marks ++ spelling (depth + 1) rest) := by
  grind [spelling, Line.role]

theorem spelling_switches (depth : Nat) (role : line.role = .switches) :
    spelling (depth + 1) (line.remarks :: rest) = .bar :: spelling (depth + 1) rest := by
  grind [spelling, Line.role]

theorem spelling_closes (depth : Nat) (role : line.role = .closes) :
    spelling (depth + 1) (line.remarks :: rest) =
      line.remarks.marks ++ .closing :: spelling depth rest := by
  grind [spelling, Line.role]

theorem spelling_plain (depth : Nat) (role : line.role = .plain) :
    spelling depth (line.remarks :: rest) = line.remarks.marks ++ spelling depth rest := by
  grind [spelling, Line.role]

/-- Outside of all conditionals only a line that opens one spells more than its nodes. -/
theorem spelling_outside (role : line.role ≠ .opens) :
    spelling 0 (line.remarks :: rest) = line.remarks.marks ++ spelling 0 rest := by
  grind [spelling, Line.role]

end Spelling

namespace Draft

variable {scope : String} {draft noted : Draft} {nodes : Chain}

theorem marks_note (scope : String) (remarks : Remarks) (draft : Draft) (remark : Remark) :
    Node.chainMarks (draft.note scope remarks remark).2 = remark.mark?.toList := by
  rcases remark with ⟨keyword, payload⟩
  cases keyword <;> rfl

theorem marks_noteAll (scope : String) (remarks : Remarks) (draft : Draft) (noted : Remarks) :
    Node.chainMarks (draft.noteAll scope remarks noted).2 = noted.marks := by
  induction noted generalizing draft with
  | nil => rfl
  | cons remark rest ih =>
      have first := marks_note scope remarks draft remark
      have others := ih (draft.note scope remarks remark).1
      cases mark : remark.mark? with
      | none => simp_all [noteAll, Remarks.marks]
      | some found => simp_all [noteAll, Remarks.marks]

theorem marks_read {line : Line} (read : draft.read scope line = (noted, nodes)) :
    Node.chainMarks nodes = line.remarks.marks := by
  have marks := marks_noteAll scope line.remarks draft line.remarks
  unfold Draft.read at read
  rwa [read] at marks

end Draft

namespace Composition

open Node

variable {scope : String} {draft last : Draft} {lines left : List Line}
  {nodes current : Chain} {further : List Chain}

/-- The lines inside an open conditional spell the rest of it and what comes after it. -/
theorem spelling_of_closes (derivation : Closes scope draft lines current further last left)
    (depth : Nat) :
    spelling (depth + 1) (lines.map Line.remarks) =
      chainMarks current ++ laterBranchesMarks further ++
        .closing :: spelling depth (left.map Line.remarks) := by
  induction derivation generalizing depth with
  | opens role read _ _ inner outer =>
      rw [List.map_cons, spelling_opens _ role, inner, outer, ← Draft.marks_read read]
      simp [chainMarks, marks, branchesMarks]
  | switches role _ inside =>
      rw [List.map_cons, spelling_switches _ role, inside]
      simp [chainMarks, laterBranchesMarks]
  | closes role read =>
      rw [List.map_cons, spelling_closes _ role, ← Draft.marks_read read]
      simp [laterBranchesMarks]
  | plain role read _ inside =>
      rw [List.map_cons, spelling_plain _ role, inside, ← Draft.marks_read read]
      simp

theorem spelling_of_composes (derivation : Composes scope draft lines nodes last) :
    spelling 0 (lines.map Line.remarks) = chainMarks nodes := by
  induction derivation with
  | done => rfl
  | opens role read inner _ outer =>
      rw [List.map_cons, spelling_opens _ role, spelling_of_closes inner, outer,
        ← Draft.marks_read read]
      simp [chainMarks, marks, branchesMarks]
  | other role read _ outside =>
      rw [List.map_cons, spelling_outside role, outside, ← Draft.marks_read read]
      simp

end Composition

namespace Language

/-- A flow is composed to the chain whose bracketing its tokens spell. -/
theorem chainMarks_eq_spelling {language : Language} {scope : String} {flow : Flow}
    {diagram : Diagram} (returned : language.composeIn scope flow = .ok diagram) :
    Node.chainMarks diagram.chain =
      spelling 0 (flow.tokens.map fun token => language.remarks token.text) := by
  rcases composes_of_composeIn returned with ⟨_, last, _, _, derivation⟩
  have spelled := Composition.spelling_of_composes derivation
  rw [List.map_map] at spelled
  exact spelled.symm

/-- A flow with a stray end line, a nested conditional, and remarks on the lines that open, switch
and close. -/
def crowded : Flow :=
  ⟨"shop", [⟨"end: act: a", 1⟩, ⟨"if: x event: b", 2⟩, ⟨"if: y", 3⟩, ⟨"end: inner-flow: c", 4⟩,
    ⟨"else: act: d", 5⟩, ⟨"end: act: e", 6⟩]⟩

/-- What `crowded` is composed to; the activity on the line that switches is not read. -/
def crowdedDiagram : Diagram where
  name := "shop"
  chain :=
    [.activity { id := .numbered "shop" 0, description := "a" },
      .conditional (.numbered "shop" 1)
        [[.event { id := .numbered "shop" 2, description := "b" },
          .conditional (.numbered "shop" 3)
            [[.process { id := .numbered "shop" 4, flow := "c" }]]],
        [.activity { id := .numbered "shop" 5, description := "e" }]]]
  references := ["c"]

theorem chainMarks_crowded :
    standard.composeIn "shop" crowded = .ok crowdedDiagram ∧
      Node.chainMarks crowdedDiagram.chain =
        [.step .activity "a", .opening, .step .event "b", .opening, .step .innerFlow "c",
          .closing, .bar, .step .activity "e", .closing] := by
  have composed : standard.composeIn "shop" crowded = .ok crowdedDiagram := by cbv
  have spelled :
      spelling 0 (crowded.tokens.map fun token => standard.remarks token.text) =
        [.step .activity "a", .opening, .step .event "b", .opening, .step .innerFlow "c",
          .closing, .bar, .step .activity "e", .closing] := by cbv
  exact ⟨composed, (chainMarks_eq_spelling composed).trans spelled⟩

end Language

end ProcessChain
