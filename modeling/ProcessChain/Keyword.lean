/-!
# Keywords of the annotation language

An annotated comment line is made of remarks, each introduced by the symbol of a keyword. The
keywords are fixed; their symbols are not, and a `Vocabulary` gives them. The order of the keywords
decides which fault of a vocabulary is reported first.
-/

namespace ProcessChain

/-- What a remark in an annotated line is about. -/
inductive Keyword where
  | activity
  | event
  | branchStart
  | branchElse
  | branchEnd
  | database
  /-- Calls that an activity receives. -/
  | callIn
  /-- Calls that an activity makes. -/
  | callOut
  | regionStart
  | regionEnd
  | innerFlow
  | subscribes
  | publishes
deriving DecidableEq, Repr

namespace Keyword

/-- All keywords, in the order in which a vocabulary is inspected. -/
def all : List Keyword :=
  [.activity, .event, .branchStart, .branchElse, .branchEnd, .database, .callIn, .callOut,
    .regionStart, .regionEnd, .innerFlow, .subscribes, .publishes]

@[simp]
theorem mem_all (keyword : Keyword) : keyword ∈ all := by
  cases keyword <;> decide

theorem nodup_all : all.Nodup := by decide

/-- The name under which messages speak of a keyword. -/
def name : Keyword → String
  | .activity => "Activity"
  | .event => "Event"
  | .branchStart => "If"
  | .branchElse => "Else"
  | .branchEnd => "EndIf"
  | .database => "Database"
  | .callIn => "ApiCallIn"
  | .callOut => "ApiCallOut"
  | .regionStart => "ClusterStart"
  | .regionEnd => "ClusterEnd"
  | .innerFlow => "InnerFlow"
  | .subscribes => "Subscribes"
  | .publishes => "Publishes"

/-- The keyword of a given name. -/
def ofName? (name : String) : Option Keyword :=
  all.find? (·.name = name)

@[simp]
theorem ofName?_name (keyword : Keyword) : ofName? keyword.name = some keyword := by
  cases keyword <;> decide

end Keyword

end ProcessChain
