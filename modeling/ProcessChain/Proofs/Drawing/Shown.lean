import Mathlib.Data.List.Induction
import ProcessChain.Drawing.Format

/-!
# What a drawing shows

Declarations may repeat an identity, and a drawing keeps the first declaration of each. What is
shown of some declarations is the same in all formats: the nodes as they are first declared, and
every edge. `Format.nodes_eq` and `Format.edges_eq` say so of the drawings themselves, and
`Declaration.mem_shown_iff` says which declarations of nodes are kept.
-/

namespace ProcessChain

namespace Declaration

/-- A node as it is shown: its identity, its label and its shape. -/
abbrev ShownNode := NodeId × String × Shape

def addNode (shown : List ShownNode) (node : ShownNode) : List ShownNode :=
  if shown.any (·.1 = node.1) then shown else shown ++ [node]

def addShown (shown : List ShownNode) : Declaration → List ShownNode
  | .node id label shape => addNode shown (id, label, shape)
  | .edge _ => shown
  | .group .. => shown

/-- The nodes that some declarations show, in the order of their first declarations. -/
def shown (declarations : List Declaration) : List ShownNode :=
  declarations.foldl addShown []

/-- The node that a declaration is for, as it is declared. -/
def node? : Declaration → Option ShownNode
  | .node id label shape => some (id, label, shape)
  | _ => none

def edge? : Declaration → Option Edge
  | .edge body => some body
  | _ => none

def edges (declarations : List Declaration) : List Edge :=
  declarations.filterMap edge?

/-- Whether a declaration is one of the node with a given identity. -/
def declares (id : NodeId) : Declaration → Bool
  | .node other _ _ => other = id
  | .edge _ => false
  | .group .. => false

/-- The first declaration of the node with a given identity. -/
def first? (declarations : List Declaration) (id : NodeId) : Option Declaration :=
  declarations.find? (declares id)

variable {declarations : List Declaration} {id : NodeId} {label : String} {shape : Shape}

theorem exists_of_first? {declaration : Declaration}
    (found : first? declarations id = some declaration) :
    ∃ label shape, declaration = .node id label shape := by
  have declared := List.find?_some found
  cases declaration with
  | node other label shape =>
      obtain rfl : other = id := by simpa [declares] using declared
      exact ⟨label, shape, rfl⟩
  | edge edge => simp [declares] at declared
  | group name label members => simp [declares] at declared

theorem mem_addNode_iff {shown : List ShownNode} {node other : ShownNode} :
    other ∈ addNode shown node ↔
      other ∈ shown ∨ (other = node ∧ ∀ known ∈ shown, known.1 ≠ node.1) := by
  unfold addNode
  split
  · next taken =>
      have notFresh : ¬ ∀ known ∈ shown, known.1 ≠ node.1 := by
        rcases List.any_eq_true.1 taken with ⟨known, member, same⟩
        intro fresh
        exact fresh known member (of_decide_eq_true same)
      rw [or_iff_left fun added => notFresh added.2]
  · next free =>
      have fresh : ∀ known ∈ shown, known.1 ≠ node.1 := by
        intro known member same
        exact free (List.any_eq_true.2 ⟨known, member, decide_eq_true same⟩)
      rw [List.mem_append, List.mem_singleton, and_iff_left fresh]

theorem nodup_ids_addNode {shown : List ShownNode} (node : ShownNode)
    (distinct : (shown.map (·.1)).Nodup) : ((addNode shown node).map (·.1)).Nodup := by
  unfold addNode
  split
  · exact distinct
  · next free =>
      have fresh : node.1 ∉ shown.map (·.1) := by simpa using free
      rw [List.map_append, List.nodup_append]
      refine ⟨distinct, List.pairwise_singleton _ _, ?_⟩
      intro id listed other single same
      rw [same, List.mem_singleton.1 single] at listed
      exact fresh listed

/-- No identity is shown twice. -/
theorem nodup_ids_shown (declarations : List Declaration) :
    ((shown declarations).map (·.1)).Nodup := by
  induction declarations using List.reverseRecOn with
  | nil => exact List.nodup_nil
  | append_singleton before last ih =>
      have step : shown (before ++ [last]) = addShown (shown before) last := by
        simp [shown]
      rw [step]
      cases last with
      | node id label shape => exact nodup_ids_addNode (id, label, shape) ih
      | edge edge => exact ih
      | group name label members => exact ih

/-- The node of an identity is shown as it is first declared. -/
theorem mem_shown_iff :
    (id, label, shape) ∈ shown declarations ↔
      first? declarations id = some (.node id label shape) := by
  induction declarations using List.reverseRecOn generalizing id label shape with
  | nil => simp [shown, first?]
  | append_singleton before last ih =>
      have step : shown (before ++ [last]) = addShown (shown before) last := by
        simp [shown]
      have first_eq : first? (before ++ [last]) id =
          (first? before id).or (first? [last] id) := by
        simp [first?]
      rw [step, first_eq]
      cases last with
      | edge edge => simp [addShown, ih, first?, declares]
      | group name label members => simp [addShown, ih, first?, declares]
      | node other otherLabel otherShape =>
          have fresh_iff : (∀ known ∈ shown before, known.1 ≠ other) ↔
              first? before other = none := by
            constructor
            · intro fresh
              by_contra present
              rcases Option.ne_none_iff_exists'.1 present with ⟨declaration, found⟩
              rcases exists_of_first? found with ⟨label, shape, rfl⟩
              exact fresh _ (ih.2 found) rfl
            · rintro absent ⟨known, label, shape⟩ member rfl
              rw [ih.1 member] at absent
              simp at absent
          have last_eq : first? [.node other otherLabel otherShape] id =
              if other = id then some (.node other otherLabel otherShape) else none := by
            by_cases same : other = id <;> simp [first?, declares, same]
          change (id, label, shape) ∈ addNode (shown before) (other, otherLabel, otherShape) ↔ _
          rw [mem_addNode_iff, ih, fresh_iff, last_eq]
          by_cases same : other = id
          · subst same
            cases first? before other with
            | none => simp [eq_comm]
            | some declaration => simp
          · simp [same, Ne.symm same]

theorem mem_shown_of_unique (member : .node id label shape ∈ declarations)
    (unique : ∀ otherLabel otherShape, .node id otherLabel otherShape ∈ declarations →
      otherLabel = label ∧ otherShape = shape) :
    (id, label, shape) ∈ shown declarations := by
  rw [mem_shown_iff]
  cases found : first? declarations id with
  | none =>
      have absent := List.find?_eq_none.1 found _ member
      simp [declares] at absent
  | some declaration =>
      rcases exists_of_first? found with ⟨firstLabel, firstShape, rfl⟩
      rcases unique _ _ (List.mem_of_find?_eq_some found) with ⟨rfl, rfl⟩
      rfl

theorem mem_edges_iff {edge : Edge} : edge ∈ edges declarations ↔ .edge edge ∈ declarations := by
  rw [edges, List.mem_filterMap]
  constructor
  · rintro ⟨declaration, member, found⟩
    cases declaration with
    | edge body =>
        obtain rfl : body = edge := by simpa [edge?] using found
        exact member
    | node id label shape => simp [edge?] at found
    | group name label members => simp [edge?] at found
  · intro member
    exact ⟨_, member, rfl⟩

end Declaration

namespace Dot

def DotNode.shown (node : DotNode) : Declaration.ShownNode :=
  (node.id, node.label, node.shape)

namespace Graph

def shown (graph : Graph) : List Declaration.ShownNode :=
  graph.nodes.map DotNode.shown

theorem shown_declare (graph : Graph) (declaration : Declaration) :
    (graph.declare declaration).shown = Declaration.addShown graph.shown declaration := by
  cases declaration with
  | edge edge => rfl
  | group name label members => rfl
  | node id label shape =>
      have taken_eq : graph.shown.any (·.1 = id) = graph.nodes.any (·.id = id) := by
        rw [shown, List.any_map]
        rfl
      simp only [declare, Declaration.addShown, Declaration.addNode, taken_eq]
      split
      · rfl
      · simp [shown, DotNode.shown]

theorem edges_declare (graph : Graph) (declaration : Declaration) :
    (graph.declare declaration).edges = graph.edges ++ declaration.edge?.toList := by
  cases declaration with
  | edge edge => rfl
  | group name label members => simp [declare, Declaration.edge?]
  | node id label shape =>
      simp only [declare]
      split <;> simp [Declaration.edge?]

end Graph

end Dot

namespace GraphMl

/-- A node of a GraphML drawing as it is shown; its group is no part of it. -/
def GraphNode.shown (node : GraphNode) : Declaration.ShownNode :=
  (node.id, node.label, node.shape)

theorem GraphNode.shown_enter (node : GraphNode) (group : String) (members : List NodeId) :
    (node.enter group members).shown = node.shown := by
  unfold enter
  split <;> rfl

namespace Graph

def shown (graph : Graph) : List Declaration.ShownNode :=
  graph.nodes.map GraphNode.shown

theorem shown_declare (graph : Graph) (declaration : Declaration) :
    (graph.declare declaration).shown = Declaration.addShown graph.shown declaration := by
  cases declaration with
  | edge edge => rfl
  | group name label members =>
      change (graph.nodes.map (·.enter name members)).map GraphNode.shown = graph.shown
      rw [List.map_map]
      exact List.map_congr_left fun node _ => node.shown_enter name members
  | node id label shape =>
      have taken_eq : graph.shown.any (·.1 = id) = graph.nodes.any (·.id = id) := by
        rw [shown, List.any_map]
        rfl
      simp only [declare, Declaration.addShown, Declaration.addNode, taken_eq]
      split
      · rfl
      · simp [shown, GraphNode.shown]

theorem edges_declare (graph : Graph) (declaration : Declaration) :
    (graph.declare declaration).edges = graph.edges ++ declaration.edge?.toList := by
  cases declaration with
  | edge edge => rfl
  | group name label members => simp [declare, Declaration.edge?]
  | node id label shape =>
      simp only [declare]
      split <;> simp [Declaration.edge?]

end Graph

end GraphMl

theorem Declaration.foldl_append_toList {α : Type} (made? : Declaration → Option α)
    (known : List α) (declarations : List Declaration) :
    declarations.foldl (fun made declaration => made ++ (made? declaration).toList) known =
      known ++ declarations.filterMap made? := by
  induction declarations generalizing known with
  | nil => simp
  | cons declaration rest ih =>
      rw [List.foldl_cons, ih]
      cases found : made? declaration <;> simp [found]

namespace Format

def nodes (format : Format) (name : String) (declarations : List Declaration) :
    List Declaration.ShownNode :=
  match format with
  | .dot => (Dot.Graph.ofDeclarations name declarations).shown
  | .graphMl => (GraphMl.Graph.ofDeclarations name declarations).shown

def edges (format : Format) (name : String) (declarations : List Declaration) : List Edge :=
  match format with
  | .dot => (Dot.Graph.ofDeclarations name declarations).edges
  | .graphMl => (GraphMl.Graph.ofDeclarations name declarations).edges

/-- A drawing has the nodes that its declarations show, in every format. -/
theorem nodes_eq (format : Format) (name : String) (declarations : List Declaration) :
    format.nodes name declarations = Declaration.shown declarations := by
  cases format with
  | dot =>
      exact (List.foldl_hom Dot.Graph.shown fun graph next => (graph.shown_declare next).symm).symm
  | graphMl =>
      exact (List.foldl_hom GraphMl.Graph.shown
        fun graph next => (graph.shown_declare next).symm).symm

theorem edges_eq (format : Format) (name : String) (declarations : List Declaration) :
    format.edges name declarations = Declaration.edges declarations := by
  rw [Declaration.edges, ← List.nil_append (declarations.filterMap _),
    ← Declaration.foldl_append_toList]
  cases format with
  | dot =>
      exact (List.foldl_hom Dot.Graph.edges fun graph next => (graph.edges_declare next).symm).symm
  | graphMl =>
      exact (List.foldl_hom GraphMl.Graph.edges
        fun graph next => (graph.edges_declare next).symm).symm

end Format

end ProcessChain
