import ProcessChain.Proofs.Drawing.Shown
import ProcessChain.Proofs.Text.LineEnds
import ProcessChain.Proofs.Text.PrefixFree

/-!
# What a DOT text says

A DOT text says everything about its drawing but whether a point is where branches part or where
they meet, which are drawn alike. The argument has two levels. A quoted text is read back by
`unquote?` whatever follows it, so a statement is determined by its line; and every statement is one
line of the text, so the text is determined line by line, where the kinds of statements are told
apart by how their lines begin or by what stands after their first quoted text.
-/

namespace ProcessChain

namespace Declaration

def group? : Declaration → Option Dot.Cluster
  | .group name label members => some ⟨name, label, members⟩
  | _ => none

def groups (declarations : List Declaration) : List Dot.Cluster :=
  declarations.filterMap group?

end Declaration

namespace Dot

def unescape? : Char → Option Char
  | '"' => some '"'
  | '\\' => some '\\'
  | 'n' => some '\n'
  | _ => none

/-- Reads up to the closing quote: a backslash takes the next character with it, and the first quote
that it does not take closes. -/
def readQuoted? : List Char → Option (List Char × List Char)
  | [] => none
  | '"' :: rest => some ([], rest)
  | '\\' :: escaped :: rest =>
    match unescape? escaped, readQuoted? rest with
    | some character, some (text, after) => some (character :: text, after)
    | _, _ => none
  | character :: rest =>
    match readQuoted? rest with
    | some (text, after) => some (character :: text, after)
    | none => none

def unquote? : List Char → Option (String × List Char)
  | '"' :: rest => (readQuoted? rest).map fun (text, after) => (String.ofList text, after)
  | _ => none

theorem readQuoted?_flatMap_escape (text rest : List Char) :
    readQuoted? (text.flatMap escape ++ '"' :: rest) = some (text, rest) := by
  induction text with
  | nil => rfl
  | cons character others ih =>
      rw [List.flatMap_cons, List.append_assoc]
      by_cases quote : character = '"'
      · subst quote
        simp [escape, readQuoted?, unescape?, ih]
      by_cases backslash : character = '\\'
      · subst backslash
        simp [escape, readQuoted?, unescape?, ih]
      by_cases newline : character = '\n'
      · subst newline
        simp [escape, readQuoted?, unescape?, ih]
      · have plain : escape character = [character] := by
          rw [escape] <;> assumption
        rw [plain, List.singleton_append, readQuoted?, ih]
        · exact quote
        · intro escaped after same
          exact absurd same backslash

theorem toList_quote (text : String) :
    (quote text).toList = '"' :: (text.toList.flatMap escape ++ ['"']) := by
  simp [quote]

/-- A quoted text is read back, and ends at its own closing quote. -/
theorem unquote?_quote (text : String) (rest : List Char) :
    unquote? ((quote text).toList ++ rest) = some (text, rest) := by
  rw [toList_quote, List.cons_append, List.append_assoc, List.singleton_append, unquote?,
    readQuoted?_flatMap_escape]
  simp

theorem prefixFree_quote :
    Text.PrefixFree (fun _ => True) (fun text => (quote text).toList) id :=
  .of_read unquote? unquote?_quote

theorem eq_of_quote_append {text other : String} {rest otherRest : List Char}
    (same : (quote text).toList ++ rest = (quote other).toList ++ otherRest) :
    text = other ∧ rest = otherRest :=
  prefixFree_quote trivial trivial same

/-- The shape that stands for all shapes drawn like it: a join is drawn like a gateway. -/
def drawnAs : Shape → Shape
  | .join => .gateway
  | shape => shape

theorem nodeAttributes_eq_iff {shape other : Shape} :
    nodeAttributes shape = nodeAttributes other ↔ drawnAs shape = drawnAs other := by
  cases shape <;> cases other <;> simp [nodeAttributes, drawnAs]

theorem edgeAttributes_injective : Function.Injective edgeAttributes := by
  intro kind other same
  cases kind <;> cases other <;> simp_all [edgeAttributes]

/-- A shown node with the shape that it is drawn as. -/
def look : Declaration.ShownNode → Declaration.ShownNode
  | (id, label, shape) => (id, label, drawnAs shape)

/-! ## Statements -/

section Statements

variable {node : DotNode} {cluster : Cluster}

theorem line_eq_iff {other : DotNode} :
    node.line = other.line ↔ look node.shown = look other.shown := by
  constructor
  · intro same
    have texts := congrArg String.toList same
    simp only [DotNode.line, String.toList_append, List.append_assoc] at texts
    rcases eq_of_quote_append (List.append_cancel_left texts) with ⟨ids, afterId⟩
    rcases eq_of_quote_append (List.append_cancel_left afterId) with ⟨labels, afterLabel⟩
    have attributes := String.toList_injective (List.append_cancel_right afterLabel)
    simp only [look, DotNode.shown, Prod.mk.injEq]
    exact ⟨congrArg NodeId.mk ids, labels, nodeAttributes_eq_iff.1 attributes⟩
  · intro same
    simp only [look, DotNode.shown, Prod.mk.injEq] at same
    rcases same with ⟨ids, labels, shapes⟩
    simp only [DotNode.line, ids, labels, nodeAttributes_eq_iff.2 shapes]

theorem edgeLine_injective : Function.Injective edgeLine := by
  intro edge other same
  have texts := congrArg String.toList same
  simp only [edgeLine, String.toList_append, List.append_assoc] at texts
  rcases eq_of_quote_append (List.append_cancel_left texts) with ⟨sources, afterSource⟩
  rcases eq_of_quote_append (List.append_cancel_left afterSource) with ⟨targets, afterTarget⟩
  have kinds := edgeAttributes_injective (String.toList_injective
    (List.append_cancel_right afterTarget))
  rcases edge with ⟨⟨source⟩, ⟨target⟩, kind⟩
  rcases other with ⟨⟨otherSource⟩, ⟨otherTarget⟩, otherKind⟩
  simp only [Edge.mk.injEq, NodeId.mk.injEq]
  exact ⟨sources, targets, kinds⟩

theorem eq_of_enclosed {before after : String} {text other : String}
    (same : before ++ quote text ++ after = before ++ quote other ++ after) : text = other := by
  have texts := congrArg String.toList same
  simp only [String.toList_append, List.append_assoc] at texts
  exact (eq_of_quote_append (List.append_cancel_left texts)).1

theorem line_ne_edgeLine (node : DotNode) (edge : Edge) : node.line ≠ edgeLine edge := by
  intro same
  have texts := congrArg String.toList same
  simp only [DotNode.line, edgeLine, String.toList_append, List.append_assoc] at texts
  -- Both begin with a quoted text; attributes follow that of a node, an arrow that of an edge.
  rcases eq_of_quote_append (List.append_cancel_left texts) with ⟨_, afterQuoted⟩
  simp at afterQuoted

theorem line_ne_head?_lines (node : DotNode) (cluster : Cluster) :
    some node.line ≠ cluster.lines.head? := by
  intro same
  have texts := congrArg String.toList (Option.some.inj same)
  simp [DotNode.line, toList_quote] at texts

theorem edgeLine_ne_head?_lines (edge : Edge) (cluster : Cluster) :
    some (edgeLine edge) ≠ cluster.lines.head? := by
  intro same
  have texts := congrArg String.toList (Option.some.inj same)
  simp [edgeLine, toList_quote] at texts

/-- The lines of a group are told apart from what follows them, since its last line does not begin
like that of a member. -/
theorem prefixFree_lines : Text.PrefixFree (fun _ => True) Cluster.lines id := by
  intro cluster other rest otherRest _ _ same
  simp only [Cluster.lines, List.cons_append, List.nil_append, List.append_assoc,
    List.cons.injEq, List.map_eq_flatMap] at same
  rcases same with ⟨openings, labels, inside⟩
  have memberLines : Text.PrefixFree (fun _ => True)
      (fun member : NodeId => ["        " ++ quote member.text ++ ";"]) id := by
    apply Text.PrefixFree.singleton
    intro member otherMember lines
    exact congrArg NodeId.mk (eq_of_enclosed lines)
  -- The closing line stands less far in than the members.
  have goesOn (member : NodeId) (after : List String) :
      ¬ (["        " ++ quote member.text ++ ";"] ++ after).head? = some "    \x7d" := by
    intro closes
    have texts := congrArg String.toList (Option.some.inj closes)
    simp at texts
  rcases memberLines.flatMap_all (·.head? = some "    \x7d") goesOn rfl rfl inside with
    ⟨members, closings⟩
  rcases cluster with ⟨name, label, members⟩
  rcases other with ⟨otherName, otherLabel, otherMembers⟩
  have names : name = otherName := by
    have texts := congrArg String.toList (eq_of_enclosed openings)
    simp only [String.toList_append] at texts
    exact String.toList_injective (List.append_cancel_left texts)
  simp only [List.map_id] at members
  simp only [List.cons.injEq, true_and] at closings
  simp only [id, Cluster.mk.injEq]
  exact ⟨⟨names, eq_of_enclosed labels, members⟩, closings⟩

end Statements

namespace Graph

variable {graph other : Graph}

def PastNodes (lines : List String) : Prop :=
  ∀ node : DotNode, lines.head? ≠ some node.line

def PastClusters (lines : List String) : Prop :=
  ∀ cluster : Cluster, lines.head? ≠ cluster.lines.head?

def PastEdges (lines : List String) : Prop :=
  lines.head? = some "\x7d"

theorem pastClusters_edges (edges : List Edge) :
    PastClusters (edges.flatMap (fun edge => [edgeLine edge]) ++ ["\x7d"]) := by
  intro cluster same
  cases edges with
  | nil =>
      have texts := congrArg String.toList (Option.some.inj same)
      simp at texts
  | cons edge others => exact edgeLine_ne_head?_lines edge cluster same

theorem pastNodes_clusters (clusters : List Cluster) (edges : List Edge) :
    PastNodes (clusters.flatMap Cluster.lines ++
      (edges.flatMap (fun edge => [edgeLine edge]) ++ ["\x7d"])) := by
  intro node same
  cases clusters with
  | cons cluster others => exact line_ne_head?_lines node cluster same.symm
  | nil =>
      cases edges with
      | cons edge others => exact line_ne_edgeLine node edge (Option.some.inj same).symm
      | nil =>
          have texts := congrArg String.toList (Option.some.inj same)
          simp [DotNode.line] at texts

theorem eq_of_lines_eq (same : graph.lines = other.lines) :
    graph.name = other.name ∧ graph.shown.map look = other.shown.map look ∧
      graph.clusters = other.clusters ∧ graph.edges = other.edges := by
  simp only [lines, List.cons_append, List.nil_append, List.append_assoc, List.cons.injEq,
    true_and, List.map_eq_flatMap] at same
  rcases same with ⟨names, statements⟩
  have nodeLines : Text.PrefixFree (fun _ => True) (fun node : DotNode => [node.line])
      (fun node => look node.shown) :=
    .singleton fun _ _ => line_eq_iff.1
  have edgeLines : Text.PrefixFree (fun _ => True) (fun edge : Edge => [edgeLine edge]) id :=
    .singleton fun _ _ lines => edgeLine_injective lines
  -- Nodes, groups and edges come in this order, and what follows each kind is none of it.
  rcases nodeLines.flatMap_all PastNodes (fun node _ past => past node rfl)
    (pastNodes_clusters graph.clusters graph.edges)
    (pastNodes_clusters other.clusters other.edges) statements with ⟨nodes, afterNodes⟩
  rcases prefixFree_lines.flatMap_all PastClusters (fun cluster _ past => past cluster rfl)
    (pastClusters_edges graph.edges) (pastClusters_edges other.edges) afterNodes with
    ⟨clusters, afterClusters⟩
  have goesOn (edge : Edge) (after : List String) : ¬ PastEdges ([edgeLine edge] ++ after) := by
    intro past
    have texts := congrArg String.toList (Option.some.inj past)
    simp [edgeLine] at texts
  have ends : PastEdges ["\x7d"] := rfl
  rcases edgeLines.flatMap_all PastEdges goesOn ends ends afterClusters with ⟨edges, _⟩
  simp only [List.map_id] at clusters edges
  simp only [shown, List.map_map]
  exact ⟨eq_of_enclosed names, nodes, clusters, edges⟩

theorem lines_eq_iff :
    graph.lines = other.lines ↔
      graph.name = other.name ∧ graph.shown.map look = other.shown.map look ∧
        graph.clusters = other.clusters ∧ graph.edges = other.edges := by
  constructor
  · exact eq_of_lines_eq
  · rintro ⟨names, nodes, clusters, edges⟩
    have nodeLines (graph : Graph) : graph.nodes.map DotNode.line =
        (graph.shown.map look).map fun (id, label, shape) => (DotNode.mk id label shape).line := by
      simp only [shown, List.map_map]
      apply List.map_congr_left
      intro node _
      apply line_eq_iff.2
      cases shape : node.shape <;> simp [look, DotNode.shown, drawnAs, shape]
    simp only [lines, nodeLines, names, nodes, clusters, edges]

end Graph

/-! ## One statement a line -/

/-- A text that is one line as it stands. -/
def IsLine (text : String) : Prop :=
  '\n' ∉ text.toList ∧ text.toList.getLast? ≠ some '\r'

theorem isLine_ofList {text : List Char} (line : '\n' ∉ text ∧ text.getLast? ≠ some '\r') :
    IsLine (String.ofList text) := by
  rwa [IsLine, String.toList_ofList]

theorem isLine_append {before ending : String} (inside : '\n' ∉ before.toList)
    (isLine : IsLine ending) (nonempty : ending ≠ "") : IsLine (before ++ ending) := by
  constructor
  · rw [String.toList_append, List.mem_append]
    rintro (member | member)
    · exact inside member
    · exact isLine.1 member
  · rw [String.toList_append, List.getLast?_append_of_ne_nil _ (by simpa using nonempty)]
    exact isLine.2

theorem newline_notMem_quote (text : String) : '\n' ∉ (quote text).toList := by
  have escaped (character : Char) : '\n' ∉ escape character := by
    unfold escape
    split
    · decide
    · decide
    · decide
    · next notNewline => simpa using Ne.symm notNewline
  simp [toList_quote, escaped]

theorem newline_notMem_nodeAttributes (shape : Shape) :
    '\n' ∉ (nodeAttributes shape).toList := by
  cases shape <;> exact (isLine_ofList (by decide)).1

theorem newline_notMem_edgeAttributes (kind : EdgeKind) :
    '\n' ∉ (edgeAttributes kind).toList := by
  cases kind <;> exact (isLine_ofList (by decide)).1

theorem isLine_line (node : DotNode) : IsLine node.line := by
  apply isLine_append
  · simp [newline_notMem_quote, newline_notMem_nodeAttributes]
  · exact isLine_ofList (by decide)
  · simp

theorem isLine_edgeLine (edge : Edge) : IsLine (edgeLine edge) := by
  apply isLine_append
  · simp [newline_notMem_quote, newline_notMem_edgeAttributes]
  · exact isLine_ofList (by decide)
  · simp

theorem isLine_enclosed {before after : String} (text : String) (inside : '\n' ∉ before.toList)
    (isLine : IsLine after) (nonempty : after ≠ "") : IsLine (before ++ quote text ++ after) := by
  apply isLine_append
  · simp [inside, newline_notMem_quote]
  · exact isLine
  · exact nonempty

theorem Cluster.isLine_of_mem_lines {cluster : Cluster} {line : String}
    (listed : line ∈ cluster.lines) : IsLine line := by
  simp only [Cluster.lines, List.mem_append, List.mem_cons, List.not_mem_nil, or_false,
    List.mem_map] at listed
  rcases listed with ((rfl | rfl) | ⟨member, _, rfl⟩) | rfl
  · exact isLine_enclosed _ (by simp) (isLine_ofList (by decide)) (by simp)
  · exact isLine_enclosed _ (by simp) (isLine_ofList (by decide)) (by simp)
  · exact isLine_enclosed _ (by simp) (isLine_ofList (by decide)) (by simp)
  · exact isLine_ofList (by decide)

namespace Graph

variable {graph other : Graph}

theorem isLine_of_mem_lines {line : String} (listed : line ∈ graph.lines) : IsLine line := by
  simp only [lines, List.mem_append, List.mem_cons, List.not_mem_nil, or_false, List.mem_map,
    List.mem_flatMap] at listed
  rcases listed with (((((rfl | rfl | rfl) | ⟨node, _, rfl⟩) | ⟨cluster, _, inCluster⟩) |
    ⟨edge, _, rfl⟩) | rfl)
  · exact isLine_enclosed _ (by simp) (isLine_ofList (by decide)) (by simp)
  · exact isLine_ofList (by decide)
  · exact isLine_ofList (by decide)
  · exact isLine_line node
  · exact Cluster.isLine_of_mem_lines inCluster
  · exact isLine_edgeLine edge
  · exact isLine_ofList (by decide)

theorem lines_render (graph : Graph) :
    Text.lines graph.render.toList = graph.lines.map String.toList := by
  have written : graph.render.toList = (graph.lines.map String.toList).flatMap (· ++ ['\n']) := by
    simp [render, String.toList_join, List.flatMap_map]
  rw [written]
  apply Text.lines_flatMap_newline
  intro text listed
  rcases List.mem_map.1 listed with ⟨line, lineListed, rfl⟩
  exact isLine_of_mem_lines lineListed

theorem render_eq_iff : graph.render = other.render ↔ graph.lines = other.lines := by
  constructor
  · intro same
    apply List.map_injective_iff.2 fun _ _ => String.toList_injective
    rw [← lines_render, ← lines_render, same]
  · intro same
    rw [render, render, same]

/-! ## The text of a drawing -/

theorem name_foldl_declare (graph : Graph) (declarations : List Declaration) :
    (declarations.foldl declare graph).name = graph.name := by
  induction declarations generalizing graph with
  | nil => rfl
  | cons declaration rest ih =>
      rw [List.foldl_cons, ih]
      cases declaration with
      | node id label shape =>
          simp only [declare]
          split <;> rfl
      | edge edge => rfl
      | group name label members => rfl

theorem clusters_declare (graph : Graph) (declaration : Declaration) :
    (graph.declare declaration).clusters = graph.clusters ++ declaration.group?.toList := by
  cases declaration with
  | edge edge => simp [declare, Declaration.group?]
  | group name label members => rfl
  | node id label shape =>
      simp only [declare]
      split <;> simp [Declaration.group?]

theorem clusters_ofDeclarations (name : String) (declarations : List Declaration) :
    (ofDeclarations name declarations).clusters = Declaration.groups declarations := by
  rw [Declaration.groups, ← List.nil_append (declarations.filterMap _),
    ← Declaration.foldl_append_toList]
  exact (List.foldl_hom clusters fun graph next => (graph.clusters_declare next).symm).symm

/-- The text of a drawing says which nodes, groups and edges it has, in which order and how they are
labelled and drawn, and says nothing else. Each statement is a line of it, and a quoted text ends at
its own closing quote. -/
theorem render_eq_iff_and_lines_and_quotes (name otherName : String)
    (declarations others : List Declaration) :
    ((ofDeclarations name declarations).render = (ofDeclarations otherName others).render ↔
      name = otherName ∧
        (Declaration.shown declarations).map look = (Declaration.shown others).map look ∧
        Declaration.groups declarations = Declaration.groups others ∧
        Declaration.edges declarations = Declaration.edges others) ∧
    Text.lines (ofDeclarations name declarations).render.toList =
      (ofDeclarations name declarations).lines.map String.toList ∧
    ∀ (text : String) (rest : List Char),
      unquote? ((quote text).toList ++ rest) = some (text, rest) := by
  have names (name : String) (declarations : List Declaration) :
      (ofDeclarations name declarations).name = name := name_foldl_declare _ _
  have nodes (name : String) (declarations : List Declaration) :
      (ofDeclarations name declarations).shown = Declaration.shown declarations :=
    Format.nodes_eq .dot name declarations
  have edges (name : String) (declarations : List Declaration) :
      (ofDeclarations name declarations).edges = Declaration.edges declarations :=
    Format.edges_eq .dot name declarations
  refine ⟨?_, lines_render _, unquote?_quote⟩
  rw [render_eq_iff, lines_eq_iff, names, names, nodes, nodes, clusters_ofDeclarations,
    clusters_ofDeclarations, edges, edges]

end Graph

end Dot

end ProcessChain
