import ProcessChain.Proofs.Composition.Printing

/-!
# Composing what was written

Composing the lines that a chain is written as gives the chain back, up to the identities of its
nodes. The induction is over the chain. What it shows for a node is `Composition.Adds`: the lines of
the node add it wherever they stand, inside a conditional or outside, and whatever comes after them.
-/

namespace ProcessChain

namespace Composition

/-- From a draft, lines add some nodes and lead to another draft, wherever they stand. -/
structure Adds (scope : String) (draft : Draft) (lines : List Line) (nodes : Chain)
    (last : Draft) : Prop where
  inside : ∀ {rest left : List Line} {current : Chain} {further : List Chain} {finished : Draft},
    Closes scope last rest current further finished left →
      Closes scope draft (lines ++ rest) (nodes ++ current) further finished left
  outside : ∀ {rest : List Line} {others : Chain} {finished : Draft},
    Composes scope last rest others finished →
      Composes scope draft (lines ++ rest) (nodes ++ others) finished

namespace Adds

variable {scope : String} {draft middle last : Draft} {lines more : List Line}
  {nodes others : Chain}

theorem nil (scope : String) (draft : Draft) : Adds scope draft [] [] draft :=
  ⟨fun rest => rest, fun rest => rest⟩

theorem append (first : Adds scope draft lines nodes middle)
    (second : Adds scope middle more others last) :
    Adds scope draft (lines ++ more) (nodes ++ others) last := by
  constructor
  · intro _ _ _ _ _ rest
    simpa using first.inside (second.inside rest)
  · intro _ _ _ rest
    simpa using first.outside (second.outside rest)

theorem plain {line : Line} (role : line.role = .plain)
    (read : draft.read scope line = (last, nodes)) : Adds scope draft [line] nodes last := by
  constructor
  · intro _ _ _ _ _ rest
    exact .plain role read rest
  · intro _ _ _ rest
    exact .other (by simp [role]) read rest

theorem conditional {opening : Line} {started : Draft} {first current : Chain}
    {further : List Chain} (role : opening.role = .opens)
    (read : draft.issue.read scope opening = (started, first))
    (closes : ∀ left, Closes scope started (lines ++ left) current further last left) :
    Adds scope draft (opening :: lines)
      [.conditional (draft.nextId scope) ((first ++ current) :: further)] last := by
  constructor
  · intro _ _ _ _ _ rest
    exact .opens role read (closes _) rest
  · intro _ _ _ rest
    exact .opens role read (closes _) rest

theorem closes {further : List Chain} (adds : Adds scope draft lines nodes middle)
    (closes : ∀ left, Closes scope middle (more ++ left) [] further last left)
    (left : List Line) : Closes scope draft (lines ++ more ++ left) nodes further last left := by
  simpa using adds.inside (closes left)

end Adds

end Composition

/-- The role of a line with a single remark, by the keyword of the remark. -/
def Keyword.role : Keyword → Line.Role
  | .branchStart => .opens
  | .branchElse => .switches
  | .branchEnd => .closes
  | _ => .plain

namespace Line

variable {line : Line} {scope : String}

theorem role_of_single {keyword : Keyword} {payload : String}
    (remarks : line.remarks = [⟨keyword, payload⟩]) : line.role = keyword.role := by
  cases keyword <;> simp [role, remarks, Remarks.has, Keyword.role]

theorem read_of_single {keyword : Keyword} {payload : String}
    (remarks : line.remarks = [⟨keyword, payload⟩]) (steers : keyword.role ≠ .plain)
    (draft : Draft) : draft.read scope line = (draft, []) := by
  rw [read_eq_note remarks (by simp)]
  cases keyword <;> first | rfl | exact absurd rfl steers

theorem StandsFor.adds {node : Node} (standsFor : line.StandsFor scope node) (draft : Draft) :
    ∃ nodes last, Composition.Adds scope draft [line] nodes last ∧
      Node.chainWithoutIds nodes = [node.withoutIds] := by
  rcases standsFor with ⟨role, reads⟩
  rcases reads draft with ⟨noted, nodes, read, same⟩
  exact ⟨nodes, noted, .plain role read, same⟩

end Line

namespace Node

open ProcessChain.Composition

variable {language : Language}

theorem adds_line (unbroken : language.Unbroken) {remarks : Remarks}
    (payloads : ∀ remark ∈ remarks, language.IsPayload remark.payload) {scope : String}
    {node : Node} (standsFor : ∀ line : Line, line.remarks = remarks → line.StandsFor scope node)
    (draft : Draft) {lines : List Line}
    (written : lines.map Line.remarks = [language.write remarks].map language.remarks) :
    ∃ nodes last, Adds scope draft lines nodes last ∧
      chainWithoutIds nodes = [node.withoutIds] := by
  rcases List.map_eq_singleton_iff.1 written with ⟨line, rfl, lineRemarks⟩
  rw [Language.remarks_write unbroken payloads] at lineRemarks
  exact (standsFor line lineRemarks).adds draft

mutual

theorem adds_texts (unbroken : language.Unbroken) (commaless : language.Commaless) (scope : String)
    (node : Node) (writable : ∀ inner ∈ node.preorder, inner.Writable language) (draft : Draft)
    (lines : List Line)
    (written : lines.map Line.remarks = (node.texts language).map language.remarks) :
    ∃ nodes last, Adds scope draft lines nodes last ∧
      chainWithoutIds nodes = [node.withoutIds] := by
  cases node with
  | activity body =>
      have bodyWritable := writable (.activity body) (by simp [preorder])
      exact adds_line unbroken (body.isPayload unbroken commaless bodyWritable)
        (fun line remarks => body.standsFor remarks bodyWritable scope) draft written
  | event body =>
      have bodyWritable := writable (.event body) (by simp [preorder])
      exact adds_line unbroken (body.isPayload bodyWritable)
        (fun line remarks => body.standsFor remarks bodyWritable scope) draft written
  | process body =>
      have bodyWritable := writable (.process body) (by simp [preorder])
      exact adds_line unbroken (body.isPayload bodyWritable)
        (fun line remarks => body.standsFor remarks scope) draft written
  | conditional id branches =>
      cases branches with
      | nil => exact absurd rfl (writable (.conditional id []) (by simp [preorder]))
      | cons branch others =>
          rw [texts, branchesTexts, List.append_assoc, List.map_cons, List.map_append] at written
          rcases List.map_eq_cons_iff.1 written with ⟨opening, rest, rfl, openingRemarks, written⟩
          rcases List.map_eq_append_iff.1 written with
            ⟨branchLines, otherLines, rfl, branchWritten, othersWritten⟩
          rw [Language.remarks_symbol] at openingRemarks
          rw [preorder, branchesPreorder, List.forall_mem_cons, List.forall_mem_append] at writable
          rcases writable with ⟨_, branchWritable, othersWritable⟩
          rcases adds_chainTexts unbroken commaless scope branch branchWritable draft.issue
            branchLines branchWritten with ⟨branchNodes, middle, branchAdds, branchSame⟩
          rcases closes_laterBranchesTexts unbroken commaless scope others othersWritable middle
            otherLines othersWritten with ⟨further, last, closes, othersSame⟩
          have read : draft.issue.read scope opening = (draft.issue, []) :=
            Line.read_of_single openingRemarks (by decide) draft.issue
          refine ⟨_, last, .conditional (Line.role_of_single openingRemarks) read
            (branchAdds.closes closes), ?_⟩
          simp [chainWithoutIds, withoutIds, branchesWithoutIds, branchSame, othersSame]

theorem adds_chainTexts (unbroken : language.Unbroken) (commaless : language.Commaless)
    (scope : String) (chain : Chain)
    (writable : ∀ inner ∈ chainPreorder chain, inner.Writable language) (draft : Draft)
    (lines : List Line)
    (written : lines.map Line.remarks = (chainTexts language chain).map language.remarks) :
    ∃ nodes last, Adds scope draft lines nodes last ∧
      chainWithoutIds nodes = chainWithoutIds chain := by
  cases chain with
  | nil =>
      rw [chainTexts, List.map_nil, List.map_eq_nil_iff] at written
      subst written
      exact ⟨[], draft, .nil scope draft, rfl⟩
  | cons node rest =>
      rw [chainTexts, List.map_append] at written
      rcases List.map_eq_append_iff.1 written with
        ⟨nodeLines, restLines, rfl, nodeWritten, restWritten⟩
      rw [chainPreorder, List.forall_mem_append] at writable
      rcases adds_texts unbroken commaless scope node writable.1 draft nodeLines nodeWritten with
        ⟨nodes, middle, nodeAdds, nodeSame⟩
      rcases adds_chainTexts unbroken commaless scope rest writable.2 middle restLines
        restWritten with ⟨others, last, restAdds, restSame⟩
      refine ⟨nodes ++ others, last, nodeAdds.append restAdds, ?_⟩
      rw [chainWithoutIds_append, nodeSame, restSame]
      rfl

/-- The lines of the branches after the first, and the line that closes a conditional, close it
with these branches. -/
theorem closes_laterBranchesTexts (unbroken : language.Unbroken)
    (commaless : language.Commaless) (scope : String) (branches : List Chain)
    (writable : ∀ inner ∈ branchesPreorder branches, inner.Writable language) (draft : Draft)
    (lines : List Line)
    (written : lines.map Line.remarks =
      (laterBranchesTexts language branches ++ [language.symbol .branchEnd]).map
        language.remarks) :
    ∃ further last, (∀ left, Closes scope draft (lines ++ left) [] further last left) ∧
      branchesWithoutIds further = branchesWithoutIds branches := by
  cases branches with
  | nil =>
      rcases List.map_eq_singleton_iff.1 written with ⟨closing, rfl, remarks⟩
      rw [Language.remarks_symbol] at remarks
      have role := Line.role_of_single remarks
      have read : draft.read scope closing = (draft, []) :=
        Line.read_of_single remarks (by decide) draft
      exact ⟨[], draft, fun left => .closes role read, rfl⟩
  | cons branch others =>
      rw [laterBranchesTexts, List.cons_append, List.append_assoc, List.map_cons,
        List.map_append] at written
      rcases List.map_eq_cons_iff.1 written with ⟨switching, rest, rfl, remarks, restWritten⟩
      rcases List.map_eq_append_iff.1 restWritten with
        ⟨branchLines, otherLines, rfl, branchWritten, othersWritten⟩
      rw [Language.remarks_symbol] at remarks
      rw [branchesPreorder, List.forall_mem_append] at writable
      rcases adds_chainTexts unbroken commaless scope branch writable.1 draft branchLines
        branchWritten with ⟨branchNodes, middle, branchAdds, branchSame⟩
      rcases closes_laterBranchesTexts unbroken commaless scope others writable.2 middle otherLines
        othersWritten with ⟨further, last, closes, othersSame⟩
      have role := Line.role_of_single remarks
      refine ⟨branchNodes :: further, last,
        fun left => .switches role (branchAdds.closes closes left), ?_⟩
      simp [branchesWithoutIds, branchSame, othersSame]

end

end Node

namespace Language

variable {language : Language}

/-- A flow of the lines that a chain is written as is composed to that chain, up to the identities
of its nodes. -/
theorem composeIn_chainTexts (unbroken : language.Unbroken) (commaless : language.Commaless)
    {chain : Chain} (writable : ∀ node ∈ Node.chainPreorder chain, node.Writable language)
    {flow : Flow} (written : flow.tokens.map Token.text = Node.chainTexts language chain)
    (scope : String) :
    ∃ diagram, language.composeIn scope flow = .ok diagram ∧
      Node.chainWithoutIds diagram.chain = Node.chainWithoutIds chain := by
  have remarks : (flow.tokens.map language.line).map Line.remarks =
      (Node.chainTexts language chain).map language.remarks := by
    rw [← written, List.map_map, List.map_map]
    rfl
  rcases Node.adds_chainTexts unbroken commaless scope chain writable {} _ remarks with
    ⟨nodes, last, adds, same⟩
  have derivation := adds.outside .done
  rw [List.append_nil, List.append_nil] at derivation
  exact ⟨_, composeIn_of_composes derivation, same⟩

/-- A choice between paying and a nested choice, written as lines. -/
def checkout : Flow :=
  ⟨"shop", [⟨"act: check [=] stock -> bank, fraud <- web", 2⟩, ⟨"if:", 3⟩, ⟨"inner-flow: pay", 4⟩,
    ⟨"else:", 5⟩, ⟨"if:", 6⟩, ⟨"event: failed publishes: payment.failed", 7⟩, ⟨"end:", 8⟩,
    ⟨"end:", 9⟩]⟩

def checkoutChain : Chain :=
  [.activity
      { id := ⟨"a"⟩, description := "check", database := "stock", outgoing := ["bank", "fraud"]
        incoming := ["web"] },
    .conditional ⟨"b"⟩
      [[.process ⟨⟨"c"⟩, "pay"⟩],
        [.conditional ⟨"d"⟩ [[.event ⟨⟨"e"⟩, "failed", "payment.failed"⟩]]]]]

theorem composeIn_chainTexts_checkout :
    standard.Unbroken ∧ standard.Commaless ∧
      (∀ node ∈ Node.chainPreorder checkoutChain, node.Writable standard) ∧
      checkout.tokens.map Token.text = Node.chainTexts standard checkoutChain ∧
      ∃ diagram, standard.composeIn "shop" checkout = .ok diagram ∧
        Node.chainWithoutIds diagram.chain = Node.chainWithoutIds checkoutChain := by
  have unbroken : standard.Unbroken := by decide +kernel
  have commaless : standard.Commaless := by decide +kernel
  have writable : ∀ node ∈ Node.chainPreorder checkoutChain, node.Writable standard := by
    decide +kernel
  have written : checkout.tokens.map Token.text = Node.chainTexts standard checkoutChain := by
    decide +kernel
  exact ⟨unbroken, commaless, writable, written,
    composeIn_chainTexts unbroken commaless writable written "shop"⟩

end Language

end ProcessChain
