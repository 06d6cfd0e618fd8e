import ProcessChain.Comment
import ProcessChain.Fault
import ProcessChain.Remark

/-!
# Flows of a run

The tokens of a file make up its main flow, except for the regions between a start and an end
marker: each region is lifted out as an inner flow of its own. `Language.divide` divides one file,
and `Flows` collects the main and inner flows of all files of a run, in which no two main flows have
the same name. A file with a fault adds nothing to the collection.
-/

namespace ProcessChain

/-- A named sequence of tokens: the main flow of a file, or an inner diagram lifted out of it. -/
structure Flow where
  name : String
  tokens : List Token
deriving DecidableEq, Repr

/-- A region whose end has not been reached. -/
structure OpenRegion where
  name : String
  /-- The line of its start. -/
  line : Nat
  /-- The tokens inside it so far. -/
  tokens : List Token
deriving DecidableEq, Repr

/-- The division of a file after some of its tokens. -/
structure Division where
  /-- The tokens outside all regions. -/
  main : List Token := []
  /-- The regions that are closed, as flows. -/
  inner : List Flow := []
  /-- The region that is open. -/
  current : Option OpenRegion := none
deriving DecidableEq, Repr

namespace Division

/-- Opens a region at a line; regions do not nest. -/
def start (division : Division) (name : String) (line : Nat) : Except Fault Division :=
  match division.current with
  | some opened => .error (.nestedRegion opened.name name line)
  | none => .ok { division with current := some ⟨name, line, []⟩ }

/-- Closes the region that is open; without one nothing happens. -/
def stop (division : Division) : Division :=
  match division.current with
  | some opened =>
    { division with inner := division.inner ++ [⟨opened.name, opened.tokens⟩], current := none }
  | none => division

/-- Puts a token into the region that is open, or into the main flow. -/
def keep (division : Division) (token : Token) : Division :=
  match division.current with
  | some opened =>
    { division with current := some { opened with tokens := opened.tokens ++ [token] } }
  | none => { division with main := division.main ++ [token] }

/-- Takes in one token. A start marker counts before an end marker, and neither marker line goes
into a flow. -/
def add (language : Language) (division : Division) (token : Token) : Except Fault Division :=
  let remarks := language.remarks token.text
  match remarks.payload? .regionStart with
  | some name => division.start name token.line
  | none => .ok (if remarks.has .regionEnd then division.stop else division.keep token)

/-- The main flow, under the name of its file, and the inner flows, once every region is closed. -/
def finish (division : Division) (name : String) : Except Fault (Flow × List Flow) :=
  match division.current with
  | some opened => .error (.openRegion opened.name opened.line)
  | none => .ok (⟨name, division.main⟩, division.inner)

end Division

/-- Divides the tokens of a file into its main flow and its inner flows. -/
def Language.divide (language : Language) (name : String) (tokens : List Token) :
    Except Fault (Flow × List Flow) :=
  match tokens.foldlM (Division.add language) {} with
  | .error fault => .error fault
  | .ok division => division.finish name

/-- The main and inner flows of the files of a run, in the order of the files. -/
structure Flows where
  main : List Flow := []
  inner : List Flow := []
deriving DecidableEq, Repr

namespace Flows

/-- Adds the flows of one file. The name of a main flow may be taken only once. -/
def add (language : Language) (flows : Flows) (name : String) (tokens : List Token) :
    Except Fault Flows :=
  match language.divide name tokens with
  | .error fault => .error fault
  | .ok (main, inner) =>
    if flows.main.any (·.name = main.name) then
      .error (.duplicateFlow main.name)
    else
      .ok ⟨flows.main ++ [main], flows.inner ++ inner⟩

/-- Adds files up to the first one with a fault, and returns that fault with what was collected
before it. -/
def addAll (language : Language) : Flows → List (String × List Token) → Flows × Option Fault
  | flows, [] => (flows, none)
  | flows, (name, tokens) :: rest =>
    match flows.add language name tokens with
    | .error fault => (flows, some fault)
    | .ok more => addAll language more rest

/-- The inner flows that have one of the given names, in the order of the run. -/
def innerNamed (flows : Flows) (names : List String) : List Flow :=
  flows.inner.filter (·.name ∈ names)

end Flows

end ProcessChain
