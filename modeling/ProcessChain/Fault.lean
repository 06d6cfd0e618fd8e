import ProcessChain.Vocabulary

/-!
# Faults

What can be wrong with a vocabulary or with annotated sources. A fault names the flow, the line or
the region that it is about, and `Fault.message` words it.
-/

namespace ProcessChain

/-- Why sources cannot be drawn. -/
inductive Fault where
  /-- The innermost conditional left open at the end of a flow, by the line that opened it. -/
  | openConditional (flow : String) (line : Nat)
  /-- A region starts while another one is open. -/
  | nestedRegion (opened name : String) (line : Nat)
  /-- A region is still open at the end of its file, by the line that opened it. -/
  | openRegion (name : String) (line : Nat)
  | duplicateFlow (name : String)
  | vocabulary (flaw : Vocabulary.Flaw)
deriving DecidableEq, Repr

namespace Fault

/-- The wording of a fault. -/
def message : Fault → String
  | openConditional flow line =>
    flow ++ ": conditional opened at line " ++ line.repr ++ " has no matching end"
  | nestedRegion opened name line =>
    "inner diagram " ++ name ++ " at line " ++ line.repr ++ " starts before inner diagram "
      ++ opened ++ " is closed"
  | openRegion name line =>
    "inner diagram " ++ name ++ " opened at line " ++ line.repr ++ " is never closed"
  | duplicateFlow name => "two sources are both named " ++ name
  | vocabulary flaw => "invalid vocabulary: " ++ flaw.message

end Fault

/-- The language of a vocabulary, or the flaw that keeps it from being one. No limit is put on the
size of its symbols: the pattern that searches for them is taken to compile. -/
def Language.ofVocabulary (vocabulary : Vocabulary) : Except Fault Language :=
  match flawless : vocabulary.flaw? with
  | none => .ok ⟨vocabulary, flawless⟩
  | some flaw => .error (.vocabulary flaw)

end ProcessChain
