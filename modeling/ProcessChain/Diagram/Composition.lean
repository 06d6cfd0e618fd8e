import ProcessChain.Diagram.Basic
import ProcessChain.Flow

/-!
# Composition of a flow

The lines of a flow are composed from first to last. A line contributes the nodes of its remarks,
and it may steer a conditional: open one, begin the next branch of the one that is open, or close
it. `Composition.close` composes what is left of an open conditional. It calls itself for each
conditional inside and hands back the lines after the closing one; those are always fewer, so
composition comes to an end. A conditional that is never closed is reported by the line that opened
it.

Nodes are numbered in the order in which they are begun, a conditional before the nodes inside it.
-/

namespace ProcessChain

/-- A line of a flow, read in a language. -/
structure Line where
  /-- The number of the line in its file. -/
  number : Nat
  remarks : Remarks
deriving DecidableEq, Repr

namespace Line

/-- What a line does to conditionals. -/
inductive Role where
  | opens
  | switches
  | closes
  | plain
deriving DecidableEq, Repr

/-- The role of a line. Opening counts before switching, and switching before closing. -/
def role (line : Line) : Role :=
  if line.remarks.has .branchStart then .opens
  else if line.remarks.has .branchElse then .switches
  else if line.remarks.has .branchEnd then .closes
  else .plain

end Line

/-- The line of a token. -/
def Language.line (language : Language) (token : Token) : Line :=
  ⟨token.line, language.remarks token.text⟩

/-- What a composition has gathered besides its nodes. -/
structure Draft where
  /-- How many identities have been given out. -/
  issued : Nat := 0
  /-- The inner flows referred to, in order. -/
  references : List String := []
  /-- The topics published and subscribed to. -/
  topics : Topics := {}
deriving DecidableEq

namespace Draft

/-- The next identity of a scope. -/
def nextId (draft : Draft) (scope : String) : NodeId :=
  .numbered scope draft.issued

/-- The draft after one more identity has been given out. -/
def issue (draft : Draft) : Draft :=
  { draft with issued := draft.issued + 1 }

/-- Takes in one remark of a line. An activity finds its database and calls, and an event its topic,
in the first remarks of their kind anywhere on the line. -/
def note (scope : String) (line : Remarks) (draft : Draft) (remark : Remark) : Draft × Chain :=
  match remark.keyword with
  | .activity =>
    (draft.issue,
      [.activity
        { id := draft.nextId scope
          description := remark.payload
          database := line.filledPayload? .database
          outgoing := line.items .callOut
          incoming := line.items .callIn }])
  | .event =>
    let topic := line.filledPayload? .publishes
    ({ draft.issue with topics := topic.elim draft.topics draft.topics.publish },
      [.event { id := draft.nextId scope, description := remark.payload, publishes := topic }])
  | .innerFlow =>
    ({ draft.issue with references := draft.references ++ [remark.payload] },
      [.process { id := draft.nextId scope, flow := remark.payload }])
  | .subscribes =>
    let listed := Text.itemStrings remark.payload
    ({ draft with topics := listed.foldl Topics.subscribe draft.topics }, [])
  | _ => (draft, [])

/-- Takes in some remarks of a line, one after the other. -/
def noteAll (scope : String) (line : Remarks) : Draft → Remarks → Draft × Chain
  | draft, [] => (draft, [])
  | draft, remark :: rest =>
    let (noted, first) := draft.note scope line remark
    let (finished, others) := noteAll scope line noted rest
    (finished, first ++ others)

/-- Takes in a line: the draft after it, and its nodes. -/
def read (draft : Draft) (scope : String) (line : Line) : Draft × Chain :=
  draft.noteAll scope line.remarks line.remarks

end Draft

namespace Composition

/-- The rest of an open conditional, composed up to the line that closes it. -/
structure Closed (lines : List Line) where
  /-- The rest of the branch that is being composed. -/
  current : Chain
  /-- The branches after that one. -/
  further : List Chain
  /-- The draft after the closing line. -/
  draft : Draft
  /-- The lines after the closing line. -/
  rest : List Line
  /-- The closing line is among the lines read. -/
  shorter : rest.length < lines.length

/-- The conditional that was opened by a line with the given nodes. -/
def Closed.node {lines : List Line} (closed : Closed lines) (id : NodeId) (opening : Chain) :
    Node :=
  .conditional id ((opening ++ closed.current) :: closed.further)

/-- Composes the lines inside a conditional, up to the line that closes it. -/
def close (flow scope : String) (opening : Nat) (draft : Draft) :
    (lines : List Line) → Except Fault (Closed lines)
  | [] => .error (.openConditional flow opening)
  | line :: rest =>
    match line.role with
    | .opens =>
      let (started, first) := draft.issue.read scope line
      match close flow scope line.number started rest with
      | .error fault => .error fault
      | .ok inner =>
        have := inner.shorter
        match close flow scope opening inner.draft inner.rest with
        | .error fault => .error fault
        | .ok outer =>
          .ok
            { outer with
              current := inner.node (draft.nextId scope) first :: outer.current
              shorter := Nat.lt_succ_of_lt (Nat.lt_trans outer.shorter inner.shorter) }
    | .switches =>
      match close flow scope opening draft rest with
      | .error fault => .error fault
      | .ok closed =>
        .ok
          { closed with
            current := []
            further := closed.current :: closed.further
            shorter := Nat.lt_succ_of_lt closed.shorter }
    | .closes =>
      let (finished, nodes) := draft.read scope line
      .ok
        { current := nodes
          further := []
          draft := finished
          rest := rest
          shorter := Nat.lt_succ_self rest.length }
    | .plain =>
      let (noted, nodes) := draft.read scope line
      match close flow scope opening noted rest with
      | .error fault => .error fault
      | .ok closed =>
        .ok
          { closed with
            current := nodes ++ closed.current
            shorter := Nat.lt_succ_of_lt closed.shorter }
termination_by lines => lines.length
decreasing_by all_goals simp only [List.length_cons]; omega

/-- Composes lines outside of all conditionals. There a line that switches or closes is read like
any other. -/
def chain (flow scope : String) (draft : Draft) :
    (lines : List Line) → Except Fault (Draft × Chain)
  | [] => .ok (draft, [])
  | line :: rest =>
    match line.role with
    | .opens =>
      let (started, first) := draft.issue.read scope line
      match close flow scope line.number started rest with
      | .error fault => .error fault
      | .ok closed =>
        have := closed.shorter
        match chain flow scope closed.draft closed.rest with
        | .error fault => .error fault
        | .ok (finished, others) =>
          .ok (finished, closed.node (draft.nextId scope) first :: others)
    | .switches | .closes | .plain =>
      let (noted, nodes) := draft.read scope line
      match chain flow scope noted rest with
      | .error fault => .error fault
      | .ok (finished, others) => .ok (finished, nodes ++ others)
termination_by lines => lines.length
decreasing_by all_goals simp only [List.length_cons]; omega

end Composition

namespace Language

/-- Composes a flow, numbering its nodes in the given scope. Flows that share a drawing need scopes
of their own. -/
def composeIn (language : Language) (scope : String) (flow : Flow) : Except Fault Diagram :=
  match Composition.chain flow.name scope {} (flow.tokens.map language.line) with
  | .error fault => .error fault
  | .ok (draft, chain) =>
    .ok { name := flow.name, chain, references := draft.references, topics := draft.topics }

/-- Composes a flow, numbering its nodes under its own name. -/
def compose (language : Language) (flow : Flow) : Except Fault Diagram :=
  language.composeIn flow.name flow

end Language

end ProcessChain
