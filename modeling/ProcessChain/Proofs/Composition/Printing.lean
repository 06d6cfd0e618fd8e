import ProcessChain.Proofs.Composition.Derivation
import ProcessChain.Proofs.Remark.Scanning

/-!
# Writing a chain as lines

A chain is written as the lines of a flow: a node as one line of remarks, with its details after it,
and a conditional as a line that opens it, the lines of its branches with a line that switches
between one branch and the next, and a line that closes it. Every line that is written for a node is
read back to that node with an identity of its own; what must hold of the node for that is
`Node.Writable`.
-/

namespace ProcessChain

namespace Remarks

variable {keyword other : Keyword} {listed : List String}

/-- The remark of a keyword, if there is a payload for it. -/
def optional (keyword : Keyword) (payload : Option String) : Remarks :=
  payload.toList.map fun text => ⟨keyword, text⟩

/-- Some calls as a remark of a keyword, if there are any. -/
def calls (keyword : Keyword) (listed : List String) : Remarks :=
  optional keyword (if listed = [] then none else some (Text.commaList listed))

@[simp]
theorem payload?_nil (keyword : Keyword) : payload? [] keyword = none := rfl

@[simp]
theorem payload?_cons (remark : Remark) (rest : Remarks) (keyword : Keyword) :
    payload? (remark :: rest) keyword =
      if remark.keyword = keyword then some remark.payload else payload? rest keyword := by
  unfold payload?
  rw [List.find?_cons]
  split <;> simp_all

@[simp]
theorem payload?_append (first second : Remarks) (keyword : Keyword) :
    payload? (first ++ second) keyword =
      (payload? first keyword).or (payload? second keyword) := by
  simp [payload?, List.find?_append, Option.map_or]

@[simp]
theorem payload?_optional (keyword other : Keyword) (payload : Option String) :
    payload? (optional keyword payload) other = if keyword = other then payload else none := by
  cases payload <;> simp [optional]

@[simp]
theorem payload?_calls_of_ne (different : keyword ≠ other) :
    payload? (calls keyword listed) other = none := by
  simp [calls, different]

theorem filledPayload?_eq {remarks : Remarks} {payload : Option String}
    (found : remarks.payload? keyword = payload) (filled : ∀ text ∈ payload, text ≠ "") :
    remarks.filledPayload? keyword = payload := by
  unfold filledPayload?
  rw [found]
  cases payload with
  | none => rfl
  | some text => simp [filled text rfl]

theorem getD_payload?_calls (areItems : ∀ call ∈ listed, Text.IsItem call) (keyword : Keyword) :
    ((payload? (calls keyword listed) keyword).map Text.itemStrings).getD [] = listed := by
  by_cases none : listed = []
  · simp [calls, none]
  · simp [calls, none, Text.itemStrings_commaList areItems]

theorem mem_optional_iff {remark : Remark} {payload : Option String} :
    remark ∈ optional keyword payload ↔
      remark.keyword = keyword ∧ payload = some remark.payload := by
  rcases remark with ⟨found, text⟩
  cases payload with
  | none => simp [optional]
  | some payload => simp [optional, eq_comm]

theorem mem_calls_iff {remark : Remark} :
    remark ∈ calls keyword listed ↔
      remark.keyword = keyword ∧ listed ≠ [] ∧ remark.payload = Text.commaList listed := by
  unfold calls
  rw [mem_optional_iff]
  split <;> simp_all [eq_comm]

end Remarks

def Activity.remarks (body : Activity) : Remarks :=
  ⟨.activity, body.description⟩ ::
    (Remarks.optional .database body.database
      ++ Remarks.calls .callOut body.outgoing ++ Remarks.calls .callIn body.incoming)

def Event.remarks (body : Event) : Remarks :=
  ⟨.event, body.description⟩ :: Remarks.optional .publishes body.publishes

def Process.remarks (body : Process) : Remarks :=
  [⟨.innerFlow, body.flow⟩]

namespace Node

mutual

def texts (language : Language) : Node → List String
  | .activity body => [language.write body.remarks]
  | .event body => [language.write body.remarks]
  | .process body => [language.write body.remarks]
  | .conditional _ branches =>
    language.symbol .branchStart ::
      (branchesTexts language branches ++ [language.symbol .branchEnd])

def branchesTexts (language : Language) : List Chain → List String
  | [] => []
  | branch :: rest => chainTexts language branch ++ laterBranchesTexts language rest

/-- The lines of the branches after the first, each with a line that switches before it. -/
def laterBranchesTexts (language : Language) : List Chain → List String
  | [] => []
  | branch :: rest =>
    language.symbol .branchElse ::
      (chainTexts language branch ++ laterBranchesTexts language rest)

def chainTexts (language : Language) : Chain → List String
  | [] => []
  | node :: rest => node.texts language ++ chainTexts language rest

end

mutual

/-- A node with all identities in it left blank. -/
def withoutIds : Node → Node
  | .activity body => .activity { body with id := ⟨""⟩ }
  | .event body => .event { body with id := ⟨""⟩ }
  | .process body => .process { body with id := ⟨""⟩ }
  | .conditional _ branches => .conditional ⟨""⟩ (branchesWithoutIds branches)

def branchesWithoutIds : List Chain → List Chain
  | [] => []
  | branch :: rest => chainWithoutIds branch :: branchesWithoutIds rest

def chainWithoutIds : Chain → Chain
  | [] => []
  | node :: rest => node.withoutIds :: chainWithoutIds rest

end

@[simp]
theorem chainWithoutIds_append (first second : Chain) :
    chainWithoutIds (first ++ second) = chainWithoutIds first ++ chainWithoutIds second := by
  induction first with
  | nil => rfl
  | cons node rest ih => simp [chainWithoutIds, ih]

/-- What is written on a node can be read back. For a conditional this asks for a branch, since a
line that opens a conditional begins one. -/
def Writable (language : Language) : Node → Prop
  | .activity body =>
    language.IsPayload body.description ∧
      (∀ database ∈ body.database, language.IsPayload database ∧ database ≠ "") ∧
      ∀ call ∈ body.outgoing ++ body.incoming,
        language.SymbolFree call.toList ∧ Text.IsItem call
  | .event body =>
    language.IsPayload body.description ∧
      ∀ topic ∈ body.publishes, language.IsPayload topic ∧ topic ≠ ""
  | .process body => language.IsPayload body.flow
  | .conditional _ branches => branches ≠ []

instance (language : Language) (node : Node) : Decidable (node.Writable language) :=
  match node with
  | .activity _ => inferInstanceAs (Decidable (_ ∧ _ ∧ _))
  | .event _ => inferInstanceAs (Decidable (_ ∧ _))
  | .process body => inferInstanceAs (Decidable (language.IsPayload body.flow))
  | .conditional _ branches => inferInstanceAs (Decidable (branches ≠ []))

end Node

/-- Whether a keyword only says more about a node on its line. -/
def Keyword.isDetail : Keyword → Bool
  | .database | .callIn | .callOut | .publishes => true
  | _ => false

namespace Language

variable {language : Language}

/-- No symbol has a comma in it. -/
def Commaless (language : Language) : Prop :=
  ∀ keyword, ',' ∉ language.letters keyword

instance : Decidable language.Commaless :=
  Keyword.decidableForall

theorem isPayload_commaList (unbroken : language.Unbroken) (commaless : language.Commaless)
    {listed : List String}
    (areItems : ∀ item ∈ listed, language.SymbolFree item.toList ∧ Text.IsItem item)
    (nonempty : listed ≠ []) : language.IsPayload (Text.commaList listed) := by
  constructor
  · have trimmed := (Text.trim_commaList (fun item found => (areItems item found).2) nonempty).1
    rw [Text.trimmed, trimmed, String.ofList_toList]
  · clear nonempty
    induction listed with
    | nil => exact symbolFree_nil
    | cons item others ih =>
        have itemFree := (areItems item List.mem_cons_self).1
        by_cases more : others = []
        · subst more
          exact itemFree
        · have othersFree := ih fun other found => areItems other (List.mem_cons_of_mem _ found)
          have blank : Text.isBlank ' ' := by decide
          have spaced : language.SymbolFree ([] ++ ' ' :: (Text.commaList others).toList) :=
            symbolFree_nil.append_cons othersFree (unbroken.not_mem_letters blank)
          have joined := itemFree.append_cons spaced commaless
          rw [Text.commaList_cons item more]
          simpa using joined

end Language

namespace Line

variable {line : Line} {scope : String} {node : Node}

/-- A line stands for a node: wherever it is, it is read to that node up to its identity. -/
def StandsFor (line : Line) (scope : String) (node : Node) : Prop :=
  line.role = .plain ∧ ∀ draft : Draft, ∃ noted nodes, draft.read scope line = (noted, nodes) ∧
    Node.chainWithoutIds nodes = [node.withoutIds]

section Details

variable {remark : Remark} {details : Remarks} (remarks : line.remarks = remark :: details)
  (areDetails : ∀ detail ∈ details, detail.keyword.isDetail)

include remarks areDetails

theorem role_eq_plain (isNode : remark.keyword ∈ [Keyword.activity, .event, .innerFlow]) :
    line.role = .plain := by
  have lacks {keyword : Keyword} (notNode : keyword ∉ [Keyword.activity, .event, .innerFlow])
      (notDetail : ¬ keyword.isDetail) : line.remarks.has keyword = false := by
    rw [remarks, Remarks.has, List.any_eq_false]
    intro found listed same
    simp only [decide_eq_true_eq] at same
    rcases List.mem_cons.1 listed with rfl | listed
    · exact notNode (same ▸ isNode)
    · exact notDetail (same ▸ areDetails found listed)
  have starts : line.remarks.has .branchStart = false := lacks (by decide) (by decide)
  have switches : line.remarks.has .branchElse = false := lacks (by decide) (by decide)
  have ends : line.remarks.has .branchEnd = false := lacks (by decide) (by decide)
  simp [role, starts, switches, ends]

/-- Of a remark with details, only the remark itself is taken in. -/
theorem read_eq_note (draft : Draft) (scope : String) :
    draft.read scope line = draft.note scope line.remarks remark := by
  have silent (draft : Draft) : draft.noteAll scope line.remarks details = (draft, []) := by
    clear remarks
    induction details with
    | nil => rfl
    | cons detail others ih =>
        have isDetail := areDetails detail List.mem_cons_self
        have others := ih fun other listed => areDetails other (List.mem_cons_of_mem _ listed)
        have noted : draft.note scope line.remarks detail = (draft, []) := by
          rcases detail with ⟨keyword, payload⟩
          cases keyword <;> first | rfl | cases isDetail
        simp [Draft.noteAll, noted, others]
  unfold Draft.read
  rw [remarks] at silent ⊢
  simp [Draft.noteAll, silent]

end Details

end Line

section Written

variable {language : Language} {line : Line}

theorem Activity.isPayload (unbroken : language.Unbroken) (commaless : language.Commaless)
    {body : Activity} (writable : (Node.activity body).Writable language) :
    ∀ remark ∈ body.remarks, language.IsPayload remark.payload := by
  rcases writable with ⟨description, database, calls⟩
  intro remark listed
  simp only [Activity.remarks, List.mem_cons, List.mem_append, Remarks.mem_optional_iff,
    Remarks.mem_calls_iff] at listed
  rcases listed with rfl | (⟨_, found⟩ | ⟨_, nonempty, payload⟩) | ⟨_, nonempty, payload⟩
  · exact description
  · exact (database _ found).1
  · rw [payload]
    apply Language.isPayload_commaList unbroken commaless _ nonempty
    exact fun call found => calls call (List.mem_append_left _ found)
  · rw [payload]
    apply Language.isPayload_commaList unbroken commaless _ nonempty
    exact fun call found => calls call (List.mem_append_right _ found)

theorem Event.isPayload {body : Event} (writable : (Node.event body).Writable language) :
    ∀ remark ∈ body.remarks, language.IsPayload remark.payload := by
  rcases writable with ⟨description, publishes⟩
  intro remark listed
  simp only [Event.remarks, List.mem_cons, Remarks.mem_optional_iff] at listed
  rcases listed with rfl | ⟨_, found⟩
  · exact description
  · exact (publishes _ found).1

theorem Process.isPayload {body : Process} (writable : (Node.process body).Writable language) :
    ∀ remark ∈ body.remarks, language.IsPayload remark.payload := by
  intro remark listed
  rw [List.mem_singleton.1 listed]
  exact writable

theorem Activity.standsFor {body : Activity} (remarks : line.remarks = body.remarks)
    (writable : (Node.activity body).Writable language) (scope : String) :
    line.StandsFor scope (.activity body) := by
  rcases writable with ⟨_, filled, areItems⟩
  have areDetails : ∀ detail ∈ Remarks.optional .database body.database
      ++ Remarks.calls .callOut body.outgoing ++ Remarks.calls .callIn body.incoming,
      detail.keyword.isDetail := by
    intro detail listed
    simp only [List.mem_append, Remarks.mem_optional_iff, Remarks.mem_calls_iff] at listed
    rcases listed with (⟨keyword, _⟩ | ⟨keyword, _⟩) | ⟨keyword, _⟩ <;> rw [keyword] <;> rfl
  refine ⟨Line.role_eq_plain remarks areDetails (by simp), fun draft => ?_⟩
  refine ⟨_, _, Line.read_eq_note remarks areDetails draft scope, ?_⟩
  have database : line.remarks.filledPayload? .database = body.database := by
    apply Remarks.filledPayload?_eq
    · rw [remarks]
      simp [Activity.remarks]
    · exact fun name found => (filled name found).2
  have outgoing : line.remarks.items .callOut = body.outgoing := by
    rw [remarks]
    have read := Remarks.getD_payload?_calls
      (fun call listed => (areItems call (List.mem_append_left _ listed)).2) .callOut
    simpa [Remarks.items, Remarks.items?, Activity.remarks] using read
  have incoming : line.remarks.items .callIn = body.incoming := by
    rw [remarks]
    have read := Remarks.getD_payload?_calls
      (fun call listed => (areItems call (List.mem_append_right _ listed)).2) .callIn
    simpa [Remarks.items, Remarks.items?, Activity.remarks] using read
  simp [database, outgoing, incoming, Node.chainWithoutIds, Node.withoutIds]

theorem Event.standsFor {body : Event} (remarks : line.remarks = body.remarks)
    (writable : (Node.event body).Writable language) (scope : String) :
    line.StandsFor scope (.event body) := by
  have areDetails : ∀ detail ∈ Remarks.optional .publishes body.publishes,
      detail.keyword.isDetail := by
    intro detail listed
    rw [(Remarks.mem_optional_iff.1 listed).1]
    rfl
  refine ⟨Line.role_eq_plain remarks areDetails (by simp), fun draft => ?_⟩
  refine ⟨_, _, Line.read_eq_note remarks areDetails draft scope, ?_⟩
  have publishes : line.remarks.filledPayload? .publishes = body.publishes := by
    apply Remarks.filledPayload?_eq
    · rw [remarks]
      simp [Event.remarks]
    · exact fun topic found => (writable.2 topic found).2
  simp [publishes, Node.chainWithoutIds, Node.withoutIds]

theorem Process.standsFor {body : Process} (remarks : line.remarks = body.remarks)
    (scope : String) : line.StandsFor scope (.process body) := by
  have areDetails : ∀ detail ∈ ([] : Remarks), detail.keyword.isDetail := by simp
  refine ⟨Line.role_eq_plain remarks areDetails (by simp), fun draft => ?_⟩
  refine ⟨_, _, Line.read_eq_note remarks areDetails draft scope, ?_⟩
  simp [Node.chainWithoutIds, Node.withoutIds]

end Written

end ProcessChain
