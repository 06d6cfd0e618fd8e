import ProcessChain.Proofs.Composition.Agreement
import ProcessChain.Proofs.Composition.Printing

/-!
# What is composed can be written

A payload is what stands between two symbols, trimmed, so it can be written and read back. All that
is written on a node comes from the payloads of one line: a whole payload, left out if it is
optional and empty, or an item of a comma list. The topics of a flow come from payloads as well.

The nodes of a composition are its conditionals, each with a branch, and the nodes that its lines
are read to. What holds of these holds of all nodes, however deep they are
(`Composition.forall_mem_of_composes`); here it is that a node can be written
(`Language.writable_of_composeIn`).
-/

namespace ProcessChain

namespace Language

variable {language : Language} {text payload item : String} {remark : Remark}

theorem isPayload_of_mem_remarks (listed : remark ∈ language.remarks text) :
    language.IsPayload remark.payload := by
  rcases List.mem_map.1 listed with ⟨⟨keyword, gap⟩, part, rfl⟩
  have gapFree := (language.isFactoring_factor text.toList).symbolFree part
  constructor
  · rw [Text.trimmed, String.toList_ofList, Text.trim_trim]
  · rw [String.toList_ofList]
    exact gapFree.of_isInfix (Text.trim_isInfix gap)

theorem IsPayload.of_mem_itemStrings (isPayload : language.IsPayload payload)
    (read : item ∈ Text.itemStrings payload) :
    language.SymbolFree item.toList ∧ Text.IsItem item := by
  rcases Text.isItem_and_isInfix_of_mem_itemStrings read with ⟨isItem, inside⟩
  exact ⟨isPayload.symbolFree.of_isInfix inside, isItem⟩

end Language

section Payloads

variable {language : Language} {line : Remarks}
  (payloads : ∀ remark ∈ line, language.IsPayload remark.payload)

include payloads

namespace Remarks

variable {keyword : Keyword} {payload item : String}

theorem isPayload_of_payload? (found : line.payload? keyword = some payload) :
    language.IsPayload payload := by
  rcases payload?_eq_some_iff.1 found with ⟨before, after, rfl, _⟩
  exact payloads _ (List.mem_append_right before List.mem_cons_self)

theorem isPayload_of_mem_filledPayload? (found : payload ∈ line.filledPayload? keyword) :
    language.IsPayload payload ∧ payload ≠ "" := by
  rcases Option.mem_filter_iff.1 found with ⟨found, filled⟩
  exact ⟨isPayload_of_payload? payloads found, of_decide_eq_true filled⟩

theorem isItem_of_mem_items (listed : item ∈ line.items keyword) :
    language.SymbolFree item.toList ∧ Text.IsItem item := by
  unfold items items? at listed
  cases found : line.payload? keyword with
  | none => simp [found] at listed
  | some payload =>
      have isPayload := isPayload_of_payload? payloads found
      exact isPayload.of_mem_itemStrings (by simpa [found] using listed)

end Remarks

namespace Draft

open Node

theorem writable_note {remark : Remark} (isPayload : language.IsPayload remark.payload)
    (draft : Draft) (scope : String) :
    ∀ node ∈ chainPreorder (draft.note scope line remark).2, node.Writable language := by
  rcases remark with ⟨keyword, payload⟩
  cases keyword with
  | activity =>
      intro node listed
      obtain rfl := List.mem_singleton.1 listed
      refine ⟨isPayload, ?_, ?_⟩
      · exact fun database found => Remarks.isPayload_of_mem_filledPayload? payloads found
      · intro call listed
        rcases List.mem_append.1 listed with outgoing | incoming
        · exact Remarks.isItem_of_mem_items payloads outgoing
        · exact Remarks.isItem_of_mem_items payloads incoming
  | event =>
      intro node listed
      obtain rfl := List.mem_singleton.1 listed
      exact ⟨isPayload, fun topic found => Remarks.isPayload_of_mem_filledPayload? payloads found⟩
  | innerFlow =>
      intro node listed
      obtain rfl := List.mem_singleton.1 listed
      exact isPayload
  | _ =>
      intro node listed
      cases listed

theorem writable_noteAll {remarks : Remarks}
    (taken : ∀ remark ∈ remarks, language.IsPayload remark.payload)
    (draft : Draft) (scope : String) :
    ∀ node ∈ chainPreorder (draft.noteAll scope line remarks).2, node.Writable language := by
  induction remarks generalizing draft with
  | nil =>
      intro node listed
      cases listed
  | cons remark rest ih =>
      rw [List.forall_mem_cons] at taken
      intro node listed
      simp only [noteAll, chainPreorder_append, List.mem_append] at listed
      rcases listed with first | others
      · exact writable_note payloads taken.1 draft scope node first
      · exact ih taken.2 _ node others

end Draft

end Payloads

namespace Composition

open Node

variable {scope : String} {draft last : Draft} {lines left : List Line} {nodes current : Chain}
  {further : List Chain} {holds : Node → Prop}

theorem isSuffix_of_closes (derivation : Closes scope draft lines current further last left) :
    left <:+ lines := by
  induction derivation with
  | opens _ _ _ _ inner outer => exact (outer.trans inner).trans (List.suffix_cons _ _)
  | switches _ _ inside => exact inside.trans (List.suffix_cons _ _)
  | closes _ _ => exact List.suffix_cons _ _
  | plain _ _ _ inside => exact inside.trans (List.suffix_cons _ _)

/-- Something holds of all nodes that some lines are read to, from whichever draft. -/
def HoldsOfLines (scope : String) (lines : List Line) (holds : Node → Prop) : Prop :=
  ∀ line ∈ lines, ∀ draft : Draft, ∀ node ∈ chainPreorder (draft.read scope line).2, holds node

namespace HoldsOfLines

variable {started noted : Draft} {line : Line} {rest : List Line} {first : Chain}

theorem of_isSuffix (made : HoldsOfLines scope lines holds) (later : left <:+ lines) :
    HoldsOfLines scope left holds :=
  fun line listed => made line (later.subset listed)

theorem of_read (made : HoldsOfLines scope (line :: rest) holds)
    (read : draft.read scope line = (noted, nodes)) : ∀ node ∈ chainPreorder nodes, holds node := by
  have fromLine := made line List.mem_cons_self draft
  rwa [read] at fromLine

/-- A conditional is put around the nodes of the line that opens it and of the lines inside. -/
theorem of_opens (made : HoldsOfLines scope (line :: rest) holds)
    (branched : ∀ id branch others, holds (.conditional id (branch :: others)))
    (read : draft.issue.read scope line = (started, first))
    (inside : ∀ node ∈ chainPreorder current ++ branchesPreorder further, holds node) :
    ∀ node ∈ (Node.conditional (draft.nextId scope) ((first ++ current) :: further)).preorder,
      holds node := by
  have fromLine := made.of_read read
  rw [List.forall_mem_append] at inside
  rw [preorder, branchesPreorder, chainPreorder_append, List.forall_mem_cons,
    List.forall_mem_append, List.forall_mem_append]
  exact ⟨branched _ _ _, ⟨fromLine, inside.1⟩, inside.2⟩

end HoldsOfLines

variable (branched : ∀ id branch others, holds (.conditional id (branch :: others)))

include branched

theorem forall_mem_of_closes (derivation : Closes scope draft lines current further last left)
    (made : HoldsOfLines scope lines holds) :
    ∀ node ∈ chainPreorder current ++ branchesPreorder further, holds node := by
  induction derivation with
  | opens _ read innerCloses _ inner outer =>
      have madeInside := made.of_isSuffix (List.suffix_cons _ _)
      have madeAfter := madeInside.of_isSuffix (isSuffix_of_closes innerCloses)
      have conditional := made.of_opens branched read (inner madeInside)
      rw [chainPreorder, List.append_assoc, List.forall_mem_append]
      exact ⟨conditional, outer madeAfter⟩
  | switches _ _ inside =>
      have nodes := inside (made.of_isSuffix (List.suffix_cons _ _))
      simpa [chainPreorder, branchesPreorder] using nodes
  | closes _ read =>
      rw [branchesPreorder, List.append_nil]
      exact made.of_read read
  | plain _ read _ inside =>
      rw [chainPreorder_append, List.append_assoc, List.forall_mem_append]
      exact ⟨made.of_read read, inside (made.of_isSuffix (List.suffix_cons _ _))⟩

/-- What holds of conditionals with a branch and of the nodes that lines are read to holds of all
nodes that the lines are composed to. -/
theorem forall_mem_of_composes (derivation : Composes scope draft lines nodes last)
    (made : HoldsOfLines scope lines holds) : ∀ node ∈ chainPreorder nodes, holds node := by
  induction derivation with
  | done =>
      intro node listed
      cases listed
  | opens _ read innerCloses _ outer =>
      have madeInside := made.of_isSuffix (List.suffix_cons _ _)
      have madeAfter := madeInside.of_isSuffix (isSuffix_of_closes innerCloses)
      have inside := forall_mem_of_closes branched innerCloses madeInside
      rw [chainPreorder, List.forall_mem_append]
      exact ⟨made.of_opens branched read inside, outer madeAfter⟩
  | other _ read _ outside =>
      rw [chainPreorder_append, List.forall_mem_append]
      exact ⟨made.of_read read, outside (made.of_isSuffix (List.suffix_cons _ _))⟩

end Composition

namespace Language

open Node

variable {language : Language} {scope : String} {flow : Flow} {diagram : Diagram}

theorem holdsOfLines_writable (language : Language) (scope : String) (flow : Flow) :
    Composition.HoldsOfLines scope (flow.tokens.map language.line) (·.Writable language) := by
  intro line listed draft
  rcases List.mem_map.1 listed with ⟨token, _, rfl⟩
  have payloads : ∀ remark ∈ language.remarks token.text, language.IsPayload remark.payload :=
    fun remark => isPayload_of_mem_remarks
  exact Draft.writable_noteAll payloads payloads draft scope

theorem isItem_of_mem_subscriptions {topic : String}
    (listed : topic ∈ flow.subscriptions language) :
    language.SymbolFree topic.toList ∧ Text.IsItem topic := by
  rcases mem_subscriptions_iff.1 listed with ⟨token, _, remark, spoken, _, read⟩
  exact (isPayload_of_mem_remarks spoken).of_mem_itemStrings read

/-- All nodes of a composed flow, at every depth, and all its topics can be written and read back:
payloads are trimmed and free of symbols, what is optional is left out where it is empty, what was
listed is listed without commas, and every conditional has a branch. -/
theorem writable_of_composeIn (returned : language.composeIn scope flow = .ok diagram) :
    (∀ node ∈ chainPreorder diagram.chain, node.Writable language) ∧
      (∀ topic ∈ diagram.topics.published, language.IsPayload topic ∧ topic ≠ "") ∧
      ∀ topic ∈ diagram.topics.subscribed,
        language.SymbolFree topic.toList ∧ Text.IsItem topic := by
  have writable : ∀ node ∈ chainPreorder diagram.chain, node.Writable language := by
    rcases composes_of_composeIn returned with ⟨_, last, _, _, derivation⟩
    have made := holdsOfLines_writable language scope flow
    refine Composition.forall_mem_of_composes ?_ derivation made
    exact fun id branch others => List.cons_ne_nil branch others
  refine ⟨writable, ?_, ?_⟩
  · intro topic published
    rw [mem_published_of_composeIn returned, Chain.publications, List.mem_filterMap] at published
    rcases published with ⟨node, listed, sent⟩
    cases node with
    | event body => exact (writable _ listed).2 topic sent
    | activity body => cases sent
    | process body => cases sent
    | conditional id branches => cases sent
  · intro topic subscribed
    exact isItem_of_mem_subscriptions ((mem_subscribed_of_composeIn returned).1 subscribed)

/-- A flow with payloads that are empty, blank or full of commas. -/
def hurried : Flow :=
  ⟨"shop",
    [⟨"subscribes: , paid ,, refund ", 1⟩, ⟨"if: event: placed  publishes: ", 2⟩,
      ⟨"act: [=]  -> bank , , ledger <- ,", 3⟩, ⟨"else:", 4⟩,
      ⟨"inner-flow: pack end: event: publishes: shipped", 5⟩]⟩

def hurriedDiagram : Diagram where
  name := "shop"
  chain :=
    [.conditional (.numbered "shop" 0)
      [[.event { id := .numbered "shop" 1, description := "placed" },
        .activity
          { id := .numbered "shop" 2, description := "", outgoing := ["bank", "ledger"] }],
      [.process { id := .numbered "shop" 3, flow := "pack" },
        .event
          { id := .numbered "shop" 4, description := "", publishes := some "shipped" }]]]
  references := ["pack"]
  topics := ["paid", "refund"].foldl Topics.subscribe (({} : Topics).publish "shipped")

theorem writable_of_composeIn_hurried :
    standard.composeIn "shop" hurried = .ok hurriedDiagram ∧
      (∀ node ∈ chainPreorder hurriedDiagram.chain, node.Writable standard) ∧
      (∀ topic ∈ hurriedDiagram.topics.published, standard.IsPayload topic ∧ topic ≠ "") ∧
      ∀ topic ∈ hurriedDiagram.topics.subscribed,
        standard.SymbolFree topic.toList ∧ Text.IsItem topic := by
  have composed : standard.composeIn "shop" hurried = .ok hurriedDiagram := by cbv
  exact ⟨composed, writable_of_composeIn composed⟩

end Language

end ProcessChain
