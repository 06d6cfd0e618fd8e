import ProcessChain.Proofs.Composition.Gathering
import ProcessChain.Proofs.Composition.Innermost

/-!
# References and topics agree with the chain

A diagram lists its references and topics apart from its chain, and both lists are written to while
the chain is built. Nothing is lost there: references and published topics can be read off the
processes and events of the chain. The chain does not show the topics that are subscribed to, so
these are read off the tokens (`Language.agrees_of_composeIn`).

All tokens count but those that switch to another branch of an open conditional. For
`Composition.linesRead` the number of open conditionals is enough. Here a token is judged by the
stack over the tokens before it (`Language.scan`), and the two are compared for any stack.
-/

namespace ProcessChain

namespace Composition

variable {line : Line} {lines : List Line} {opened : List Nat}

theorem linesRead_cons (opened : List Nat) (first : Line) (rest : List Line) :
    linesRead opened.length (first :: rest) =
      (if first.role = .switches ∧ opened ≠ [] then [] else [first]) ++
        linesRead (first.steer opened).length rest := by
  cases role : first.role with
  | switches => cases opened <;> simp [linesRead, Line.steer, role]
  | _ => simp [linesRead, Line.steer, role]

/-- A line is read unless it switches branches while a conditional is open. -/
theorem mem_linesRead_iff :
    line ∈ linesRead opened.length lines ↔
      ∃ before after, lines = before ++ line :: after ∧
        ¬ (line.role = .switches ∧ openAfter opened before ≠ []) := by
  induction lines generalizing opened with
  | nil => simp [linesRead]
  | cons first rest ih =>
      rw [linesRead_cons, List.mem_append, ih]
      constructor
      · rintro (now | ⟨before, after, rfl, counts⟩)
        · split at now
          · cases now
          · next counts =>
              obtain rfl := List.mem_singleton.1 now
              exact ⟨[], rest, rfl, counts⟩
        · exact ⟨first :: before, after, rfl, counts⟩
      · rintro ⟨before, after, parts, counts⟩
        cases before with
        | nil =>
            cases parts
            left
            rw [openAfter, List.foldl_nil] at counts
            rw [if_neg counts]
            exact List.mem_singleton_self line
        | cons other before =>
            cases parts
            exact Or.inr ⟨before, after, rfl, counts⟩

end Composition

namespace Language

variable {language : Language} {flow : Flow} {token : Token}

/-- A token switches to another branch if a conditional is open, and does not open one. -/
def switches (language : Language) (token : Token) : Bool :=
  let remarks := language.remarks token.text
  remarks.has .branchElse && !remarks.has .branchStart

/-- A token occurs in a flow where it does not switch to another branch of an open conditional. -/
def Reads (language : Language) (flow : Flow) (token : Token) : Prop :=
  ∃ before after, flow.tokens = before ++ token :: after ∧
    ¬ (language.switches token ∧ language.scan [] before ≠ [])

theorem role_eq_switches_iff :
    (language.line token).role = .switches ↔ language.switches token := by
  unfold Line.role switches line
  grind

theorem mem_linesRead_map_iff {line : Line} :
    line ∈ Composition.linesRead 0 (flow.tokens.map language.line) ↔
      ∃ token, language.Reads flow token ∧ language.line token = line := by
  rw [← List.length_nil, Composition.mem_linesRead_iff]
  constructor
  · rintro ⟨_, _, parts, counts⟩
    rcases List.map_eq_append_iff.1 parts with ⟨before, rest, whole, rfl, later⟩
    rcases List.map_eq_cons_iff.1 later with ⟨token, after, rfl, rfl, rfl⟩
    rw [role_eq_switches_iff, openAfter_eq_scan] at counts
    exact ⟨token, ⟨before, after, whole, counts⟩, rfl⟩
  · rintro ⟨token, ⟨before, after, whole, counts⟩, rfl⟩
    refine ⟨before.map language.line, after.map language.line, by simp [whole], ?_⟩
    rwa [role_eq_switches_iff, openAfter_eq_scan]

/-- A topic is in a list of topics to subscribe to, on a token that is read. -/
def Subscribes (language : Language) (flow : Flow) (topic : String) : Prop :=
  ∃ token, language.Reads flow token ∧
    ∃ remark ∈ language.remarks token.text,
      remark.keyword = .subscribes ∧ topic ∈ Text.itemStrings remark.payload

theorem mem_subscriptions_iff {topic : String} :
    topic ∈ flow.subscriptions language ↔ language.Subscribes flow topic := by
  simp only [Subscribes, Flow.subscriptions, Remarks.subscriptions, Flow.remarksRead,
    Composition.remarksRead, List.mem_flatMap, List.mem_filter, decide_eq_true_eq,
    mem_linesRead_map_iff]
  constructor
  · rintro ⟨remark, ⟨⟨_, ⟨token, reads, rfl⟩, spoken⟩, keyword⟩, listed⟩
    exact ⟨token, reads, remark, spoken, keyword, listed⟩
  · rintro ⟨token, reads, remark, spoken, keyword, listed⟩
    exact ⟨remark, ⟨⟨_, ⟨token, reads, rfl⟩, spoken⟩, keyword⟩, listed⟩

end Language

/-- The references and topics of a diagram are those of its chain and of the tokens that were
read. -/
structure Diagram.Agrees (diagram : Diagram) (language : Language) (flow : Flow) : Prop where
  references : diagram.references = diagram.chain.processNames
  published : ∀ topic, topic ∈ diagram.topics.published ↔ topic ∈ diagram.chain.publications
  subscribed : ∀ topic, topic ∈ diagram.topics.subscribed ↔ language.Subscribes flow topic

namespace Language

variable {language : Language} {scope : String} {flow : Flow} {diagram : Diagram}

/-- A composed diagram refers to what its processes name, in preorder, publishes what its events are
sent to, and subscribes to what is listed on the tokens that were read. -/
theorem agrees_of_composeIn (returned : language.composeIn scope flow = .ok diagram) :
    diagram.Agrees language flow where
  references := references_eq_processNames returned
  published _ := mem_published_of_composeIn returned
  subscribed _ := (mem_subscribed_of_composeIn returned).trans mem_subscriptions_iff

/-- A flow that subscribes to topics outside of a conditional, inside of one, and on a line that
switches to another branch and is not read. -/
def announced : Flow :=
  ⟨"shop",
    [⟨"else: subscribes: a", 1⟩, ⟨"if: x inner-flow: pay subscribes: b, , c", 2⟩,
      ⟨"else: subscribes: d", 3⟩, ⟨"event: e publishes: f", 4⟩, ⟨"end: inner-flow: pay", 5⟩]⟩

def announcedDiagram : Diagram where
  name := "shop"
  chain :=
    [.conditional (.numbered "shop" 0)
      [[.process { id := .numbered "shop" 1, flow := "pay" }],
      [.event { id := .numbered "shop" 2, description := "e", publishes := some "f" },
        .process { id := .numbered "shop" 3, flow := "pay" }]]]
  references := ["pay", "pay"]
  topics := ["a", "b", "c"].foldl Topics.subscribe (({} : Topics).publish "f")

theorem agrees_of_composeIn_announced :
    standard.composeIn "shop" announced = .ok announcedDiagram ∧
      announcedDiagram.Agrees standard announced := by
  have composed : standard.composeIn "shop" announced = .ok announcedDiagram := by cbv
  exact ⟨composed, agrees_of_composeIn composed⟩

end Language

end ProcessChain
