import ProcessChain.Proofs.Diagram.Identity
import ProcessChain.Proofs.Drawing.Shown
import ProcessChain.Proofs.Drawing.XmlText

/-!
# What a GraphML text says

A GraphML drawing is written as one element, from which its name, its nodes with their groups and
its edges can be read back; so its text determines the drawing (`Graph.render_eq_iff_same_graph`).
The element follows the grammar of XML for all names, labels and groups, but a text that is put into
it may hold characters that no document may hold. They are neither escaped nor left out, so a
drawing is a well-formed document exactly if its texts have none of them
(`Graph.isDocument_and_wellFormed_iff`).
-/

namespace ProcessChain.GraphMl

/-! ## The elements are proper -/

def names : List String :=
  ["graphml", "xmlns", "key", "id", "for", "attr.name", "attr.type", "graph", "edgedefault", "node",
    "edge", "source", "target", "data"]

/-- The names of the elements that hold a text. -/
def textual : List String := ["data"]

theorem isName_of_mem {name : String} (listed : name ∈ names) : Xml.isName name.toList := by
  simp only [names, List.mem_cons, List.not_mem_nil, or_false] at listed
  rcases listed with rfl | rfl | rfl | rfl | rfl | rfl | rfl | rfl | rfl | rfl | rfl | rfl | rfl |
    rfl
  all_goals exact Xml.isName_ofList (by decide)

theorem properTag {name : String} {attributes : List Xml.Attribute} (named : name ∈ names)
    (attributesNamed : ∀ given ∈ attributes, given.name ∈ names)
    (distinct : (attributes.map (·.name)).Nodup) : Xml.ProperTag name attributes where
  named := isName_of_mem named
  attributesNamed given listed := isName_of_mem (attributesNamed given listed)
  distinct := distinct

theorem proper_key (name domain : String) : (key name domain).Proper textual :=
  properTag (by simp [names]) (by simp [names]) (by simp)

theorem proper_data (key value : String) : (data key value).Proper textual :=
  ⟨properTag (by simp [names]) (by simp [names]) (by simp), by simp [textual]⟩

theorem GraphNode.proper_element (node : GraphNode) : node.element.Proper textual := by
  refine ⟨properTag (by simp [names]) (by simp [names]) (by simp), by simp [textual], ?_⟩
  rw [Xml.allProper_iff]
  intro element listed
  simp only [List.mem_append, List.mem_cons, List.not_mem_nil, or_false, Option.mem_toList,
    Option.map_eq_some_iff] at listed
  rcases listed with (rfl | rfl) | ⟨group, _, rfl⟩
  all_goals exact proper_data _ _

theorem proper_edgeElement (edge : Edge) (number : Nat) :
    (edgeElement edge number).Proper textual :=
  ⟨properTag (by simp [names]) (by simp [names]) (by simp), by simp [textual], proper_data _ _,
    trivial⟩

namespace Graph

theorem proper_element (graph : Graph) : graph.element.Proper textual := by
  refine ⟨properTag (by simp [names]) (by simp [names]) (by simp), by simp [textual], ?_⟩
  rw [Xml.allProper_iff]
  intro element listed
  simp only [List.mem_append, List.mem_map] at listed
  rcases listed with ⟨node, _, rfl⟩ | ⟨⟨edge, number⟩, _, rfl⟩
  · exact node.proper_element
  · exact proper_edgeElement edge number

def root (graph : Graph) : Xml.Element :=
  .nest "graphml" [⟨"xmlns", "http://graphml.graphdrawing.org/xmlns"⟩] (keys ++ [graph.element])

theorem proper_root (graph : Graph) : graph.root.Proper textual := by
  refine ⟨properTag (by simp [names]) (by simp [names]) (by simp), by simp [textual], ?_⟩
  rw [Xml.allProper_iff]
  intro element listed
  simp only [keys, List.mem_append, List.mem_cons, List.not_mem_nil, or_false] at listed
  rcases listed with (rfl | rfl | rfl | rfl) | rfl
  · exact proper_key _ _
  · exact proper_key _ _
  · exact proper_key _ _
  · exact proper_key _ _
  · exact graph.proper_element

end Graph

/-! ## The drawing is read back from its element -/

theorem name_injective : Function.Injective Shape.name := by
  intro shape other same
  have shapes := congrArg Shape.ofName? same
  simpa using shapes

theorem kindName_injective : Function.Injective EdgeKind.name := by
  intro kind other same
  have kinds := congrArg EdgeKind.ofName? same
  simpa using kinds

theorem GraphNode.element_injective : Function.Injective GraphNode.element := by
  rintro ⟨⟨id⟩, label, shape, group⟩ ⟨⟨otherId⟩, otherLabel, otherShape, otherGroup⟩ same
  simp only [element, data, Xml.Element.nest.injEq, Xml.Element.text.injEq, List.cons_append,
    List.nil_append, List.cons.injEq, Xml.Attribute.mk.injEq, true_and, and_true] at same
  rcases same with ⟨ids, labels, shapes, groups⟩
  have sameGroup : group = otherGroup := by
    cases group <;> cases otherGroup <;> simp_all [data]
  rw [ids, labels, name_injective shapes, sameGroup]

theorem eq_of_edgeElement_eq {edge other : Edge} {number otherNumber : Nat}
    (same : edgeElement edge number = edgeElement other otherNumber) : edge = other := by
  rcases edge with ⟨⟨source⟩, ⟨target⟩, kind⟩
  rcases other with ⟨⟨otherSource⟩, ⟨otherTarget⟩, otherKind⟩
  simp only [edgeElement, data, Xml.Element.nest.injEq, Xml.Element.text.injEq, List.cons.injEq,
    Xml.Attribute.mk.injEq, true_and, and_true] at same
  rcases same with ⟨⟨_, sources, targets⟩, kinds⟩
  rw [sources, targets, kindName_injective kinds]

namespace Graph

def PastNodes (elements : List Xml.Element) : Prop :=
  ∀ node : GraphNode, elements.head? ≠ some node.element

theorem pastNodes_edges (edges : List (Edge × Nat)) :
    PastNodes (edges.flatMap fun numbered => [edgeElement numbered.1 numbered.2]) := by
  intro node same
  cases edges with
  | nil => simp at same
  | cons edge others =>
      have elements := Option.some.inj same
      simp [edgeElement, GraphNode.element] at elements

theorem element_injective : Function.Injective Graph.element := by
  rintro ⟨name, nodes, edges⟩ ⟨otherName, otherNodes, otherEdges⟩ same
  simp only [element, Xml.Element.nest.injEq, List.cons.injEq, Xml.Attribute.mk.injEq, true_and,
    and_true, List.map_eq_flatMap] at same
  rcases same with ⟨names, children⟩
  have nodeElements : Text.PrefixFree (fun _ => True) (fun node : GraphNode => [node.element]) id :=
    .singleton fun _ _ elements => GraphNode.element_injective elements
  -- Edges are written with their numbers, which say nothing that their order does not.
  have edgeElements : Text.PrefixFree (fun _ => True)
      (fun numbered : Edge × Nat => [edgeElement numbered.1 numbered.2]) Prod.fst :=
    .singleton fun _ _ elements => eq_of_edgeElement_eq elements
  rcases nodeElements.flatMap_all PastNodes (fun node _ past => past node rfl)
    (pastNodes_edges edges.zipIdx) (pastNodes_edges otherEdges.zipIdx) children with
    ⟨sameNodes, afterNodes⟩
  rw [← List.append_nil (List.flatMap _ edges.zipIdx),
    ← List.append_nil (List.flatMap _ otherEdges.zipIdx)] at afterNodes
  rcases edgeElements.flatMap_all (· = []) (fun _ _ none => by simp at none) rfl rfl afterNodes with
    ⟨sameEdges, _⟩
  simp only [List.map_id, List.zipIdx_map_fst] at sameNodes sameEdges
  rw [names, sameNodes, sameEdges]

theorem render_injective : Function.Injective Graph.render := by
  intro graph other same
  have roots : graph.root = other.root :=
    Xml.eq_of_document_eq graph.proper_root other.proper_root same
  simp only [root, Xml.Element.nest.injEq, true_and, List.append_cancel_left_eq, List.cons.injEq,
    and_true] at roots
  exact element_injective roots

theorem eq_iff {graph other : Graph} : graph = other ↔
    graph.name = other.name ∧ graph.nodes = other.nodes ∧ graph.edges = other.edges := by
  cases graph
  cases other
  simp

theorem name_foldl_declare (graph : Graph) (declarations : List Declaration) :
    (declarations.foldl declare graph).name = graph.name := by
  induction declarations generalizing graph with
  | nil => rfl
  | cons declaration rest ih =>
      rw [List.foldl_cons, ih]
      cases declaration with
      | node id label shape =>
          simp only [declare]
          split <;> rfl
      | edge edge => rfl
      | group name label members => rfl

/-- The text of a drawing says its name, its nodes in order, each with its label, its shape and its
group, and its edges in order. -/
theorem render_eq_iff_same_graph (name otherName : String)
    (declarations others : List Declaration) :
    (ofDeclarations name declarations).render = (ofDeclarations otherName others).render ↔
      name = otherName ∧
        (ofDeclarations name declarations).nodes = (ofDeclarations otherName others).nodes ∧
        (ofDeclarations name declarations).edges = (ofDeclarations otherName others).edges := by
  have names (name : String) (declarations : List Declaration) :
      (ofDeclarations name declarations).name = name := name_foldl_declare _ _
  rw [render_injective.eq_iff, eq_iff, names, names]

end Graph

/-! ## Illegal characters -/

def GraphNode.texts (node : GraphNode) : List String :=
  node.id.text :: node.label :: node.group.toList

/-- The texts that are put into a drawing: its name, the identities, labels and groups of its nodes,
and the identities that its edges join. -/
def Graph.texts (graph : Graph) : List String :=
  graph.name :: graph.nodes.flatMap GraphNode.texts
    ++ graph.edges.flatMap fun edge => [edge.source.text, edge.target.text]

theorem legal_shape (shape : Shape) : Xml.Legal shape.name := by
  cases shape <;> exact Xml.legal_ofList (by decide)

theorem legal_kind (kind : EdgeKind) : Xml.Legal kind.name := by
  cases kind <;> exact Xml.legal_ofList (by decide)

theorem legal_repr (number : Nat) : Xml.Legal number.repr := by
  intro character listed
  rw [Nat.repr, String.toList_ofList] at listed
  have digit := isDigit_of_mem_digits listed
  simp only [Char.isDigit, Bool.and_eq_true, decide_eq_true_eq, ge_iff_le,
    UInt32.le_iff_toNat_le] at digit
  have value : character.val.toNat = character.toNat := rfl
  simp only [Xml.isChar, Xml.inRanges, Xml.charRanges, List.any_cons, List.any_nil,
    Bool.or_eq_true, Bool.and_eq_true, decide_eq_true_eq]
  simp at digit
  omega

theorem legal_ids : Xml.Legal "label" ∧ Xml.Legal "shape" ∧ Xml.Legal "group" ∧ Xml.Legal "kind" ∧
    Xml.Legal "node" ∧ Xml.Legal "edge" ∧ Xml.Legal "string" ∧ Xml.Legal "e" := by
  refine ⟨?_, ?_, ?_, ?_, ?_, ?_, ?_, ?_⟩ <;> exact Xml.legal_ofList (by decide)

theorem GraphNode.legal_values_iff (node : GraphNode) :
    (∀ value ∈ node.element.values, Xml.Legal value) ↔ ∀ text ∈ node.texts, Xml.Legal text := by
  rcases node with ⟨id, label, shape, _ | group⟩ <;>
    simp [element, data, texts, Xml.Element.values, Xml.allValues, legal_ids, legal_shape]

theorem legal_edgeElement_iff (edge : Edge) (number : Nat) :
    (∀ value ∈ (edgeElement edge number).values, Xml.Legal value) ↔
      Xml.Legal edge.source.text ∧ Xml.Legal edge.target.text := by
  simp [edgeElement, data, Xml.Element.values, Xml.allValues, legal_ids, legal_kind, legal_repr]

theorem legal_edgeElements_iff (edges : List Edge) (number : Nat) :
    (∀ numbered ∈ edges.zipIdx number, ∀ value ∈ (edgeElement numbered.1 numbered.2).values,
      Xml.Legal value) ↔
    ∀ edge ∈ edges, Xml.Legal edge.source.text ∧ Xml.Legal edge.target.text := by
  induction edges generalizing number with
  | nil => simp
  | cons edge others ih =>
      rw [List.zipIdx_cons, List.forall_mem_cons, List.forall_mem_cons, ih, legal_edgeElement_iff]

theorem legal_keys : ∀ value ∈ Xml.allValues keys, Xml.Legal value := by
  simp [keys, key, Xml.allValues, Xml.Element.values, legal_ids]

namespace Graph

theorem legal_element_iff (graph : Graph) :
    (∀ value ∈ graph.element.values, Xml.Legal value) ↔ ∀ text ∈ graph.texts, Xml.Legal text := by
  have directed : Xml.Legal "directed" := Xml.legal_ofList (by decide)
  have nodes : (∀ node ∈ graph.nodes, ∀ value ∈ node.element.values, Xml.Legal value) ↔
      ∀ node ∈ graph.nodes, ∀ text ∈ node.texts, Xml.Legal text := by
    simp only [GraphNode.legal_values_iff]
  have edges := legal_edgeElements_iff graph.edges 0
  simp only [element, Xml.Element.values, Xml.allValues_eq, List.map_cons, List.map_nil,
    List.cons_append, List.nil_append, List.forall_mem_cons, List.flatMap_append,
    List.forall_mem_append, List.forall_mem_flatMap, List.forall_mem_map, directed, nodes, edges,
    texts, true_and, List.not_mem_nil, false_implies, implies_true, and_true]

theorem legal_root_iff (graph : Graph) :
    (∀ value ∈ graph.root.values, Xml.Legal value) ↔ ∀ text ∈ graph.texts, Xml.Legal text := by
  have address : Xml.Legal "http://graphml.graphdrawing.org/xmlns" := Xml.legal_ofList (by decide)
  have keyed := legal_keys
  rw [Xml.allValues_eq] at keyed
  rw [← legal_element_iff]
  simp only [root, Xml.Element.values, Xml.allValues_eq, List.map_cons, List.map_nil,
    List.cons_append, List.nil_append, List.forall_mem_cons, List.flatMap_append,
    List.flatMap_cons, List.flatMap_nil, List.append_nil, List.forall_mem_append, address,
    iff_true_intro keyed, true_and]

/-- Written as GraphML, a drawing follows the grammar of documents, and it is well-formed exactly if
all characters of the texts that are put into it are characters of XML. -/
theorem isDocument_and_wellFormed_iff (name : String) (declarations : List Declaration) :
    Xml.IsDocument (ofDeclarations name declarations).render ∧
      (Xml.WellFormed (ofDeclarations name declarations).render ↔
        ∀ text ∈ (ofDeclarations name declarations).texts, Xml.Legal text) := by
  have proper := (ofDeclarations name declarations).proper_root
  have written : (ofDeclarations name declarations).render =
      Xml.document (ofDeclarations name declarations).root := rfl
  rw [written, Xml.wellFormed_document_iff proper, legal_root_iff]
  exact ⟨Xml.isDocument_document proper, Iff.rfl⟩

/-- A form feed in a label stays in the text of its drawing, which is not well-formed. -/
theorem not_wellFormed_formFeed :
    ¬ Xml.WellFormed
      (ofDeclarations "shop" [.node ⟨"shop:0"⟩ "pack\x0cship" .activity]).render := by
  let graph := ofDeclarations "shop" [.node ⟨"shop:0"⟩ "pack\x0cship" .activity]
  intro wellFormed
  have written : graph.render = Xml.document graph.root := rfl
  change Xml.WellFormed graph.render at wellFormed
  rw [written, Xml.wellFormed_document_iff graph.proper_root, legal_root_iff] at wellFormed
  exact absurd (wellFormed "pack\x0cship" (by decide) '\x0c' (by decide)) (by decide)

end Graph

end ProcessChain.GraphMl
