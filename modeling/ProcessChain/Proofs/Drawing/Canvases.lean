import ProcessChain.Drawing.Canvas
import ProcessChain.Proofs.Drawing.Groups

/-!
# What canvases keep

The set of a DOT canvas and the index of a GraphML canvas repeat what is in the nodes, and are asked
instead of them. As long as they are in step with the nodes, a canvas takes in a declaration just as
a drawing does that is made by searching its nodes, and is in step again afterwards
(`Dot.Canvas.Draws.declare`, `GraphMl.Canvas.Draws.declare`). So after any declarations a canvas is
the drawing of them.

What the nodes are is then said without a canvas: the first declaration of each identity, in order
(`Declaration.shown_eq_firsts`), in GraphML in the last group that lists it among those declared
after it (`GraphMl.Graph.group_eq_lastGroup?`).
-/

namespace ProcessChain

theorem any_id_iff {α : Type} {nodes : List α} {idOf : α → NodeId} {id : NodeId} :
    nodes.any (idOf · = id) ↔ id ∈ nodes.map idOf := by
  simp

namespace Declaration

/-- Of all nodes that are declared, the first of each identity, in their order. -/
def firsts (declarations : List Declaration) : List ShownNode :=
  (declarations.filterMap node?).eraseDupsBy (·.1 == ·.1)

/-- What is declared after the first declaration of the node with a given identity. -/
def afterFirst (declarations : List Declaration) (id : NodeId) : List Declaration :=
  (declarations.dropWhile fun declaration => !declares id declaration).tail

/-- The name of the last group that lists an identity. -/
def lastGroup? (declarations : List Declaration) (id : NodeId) : Option String :=
  ((groups declarations).filter (id ∈ ·.members)).getLast?.map (·.name)

variable {declarations others : List Declaration} {declaration : Declaration} {id : NodeId}

/-! ## First declarations -/

theorem foldl_addNode (known nodes : List ShownNode) :
    nodes.foldl addNode known =
      known ++ (nodes.filter fun node => !known.any (·.1 = node.1)).eraseDupsBy (·.1 == ·.1) := by
  induction nodes generalizing known with
  | nil => simp
  | cons node rest ih =>
      rw [List.foldl_cons, ih]
      unfold addNode
      split
      · next taken => simp [taken]
      · next free =>
          -- Of the nodes after a new one, those of its identity are left out, now or in the end.
          have kept : rest.filter (fun other => !(known ++ [node]).any (·.1 = other.1)) =
              (rest.filter fun other => !known.any (·.1 = other.1)).filter
                fun other => (other.1 == node.1) = false := by
            rw [List.filter_filter]
            apply List.filter_congr
            intro other _
            have last : [node].any (·.1 = other.1) = (other.1 == node.1) := by
              simp [beq_eq_decide, eq_comm]
            rw [List.any_append, last, Bool.not_or, Bool.and_comm]
            simp [beq_eq_decide]
          have stays : (!known.any (·.1 = node.1)) = true := by simp only [free, Bool.not_false]
          rw [kept, List.filter_cons, if_pos stays, List.eraseDupsBy_cons, List.append_assoc,
            List.singleton_append]

theorem foldl_addShown (known : List ShownNode) (declarations : List Declaration) :
    declarations.foldl addShown known = (declarations.filterMap node?).foldl addNode known := by
  induction declarations generalizing known with
  | nil => rfl
  | cons declaration rest ih =>
      rw [List.foldl_cons, ih]
      cases declaration <;> rfl

/-- What is shown is the first declaration of each identity, in order. -/
theorem shown_eq_firsts (declarations : List Declaration) :
    shown declarations = firsts declarations := by
  rw [shown, foldl_addShown, foldl_addNode, firsts]
  simp

/-! ## Groups after a declaration -/

theorem afterFirst_append (declared : ∃ label shape, .node id label shape ∈ declarations) :
    afterFirst (declarations ++ others) id = afterFirst declarations id ++ others := by
  rcases declared with ⟨label, shape, listed⟩
  have reached : declarations.dropWhile (fun declaration => !declares id declaration) ≠ [] := by
    rw [Ne, List.dropWhile_eq_nil_iff]
    intro passed
    simpa [declares] using passed _ listed
  unfold afterFirst
  rw [List.dropWhile_append, if_neg (by simpa using reached), List.tail_append_of_ne_nil reached]

theorem afterFirst_concat_of_fresh
    (fresh : ¬ ∃ label shape, .node id label shape ∈ declarations) :
    afterFirst (declarations ++ [declaration]) id = [] := by
  have passed : declarations.dropWhile (fun declaration => !declares id declaration) = [] := by
    rw [List.dropWhile_eq_nil_iff]
    intro declaration listed
    cases declaration with
    | node other label shape =>
        have different : other ≠ id := fun same => fresh ⟨label, shape, same ▸ listed⟩
        simp [declares, different]
    | edge edge => rfl
    | group name label members => rfl
  unfold afterFirst
  rw [List.dropWhile_append, passed, List.isEmpty_nil, if_pos rfl, List.dropWhile_cons]
  split <;> rfl

theorem lastGroup?_concat_of_none (noGroup : declaration.group? = none) :
    lastGroup? (declarations ++ [declaration]) id = lastGroup? declarations id := by
  rw [lastGroup?, groups_concat_of_none noGroup, lastGroup?]

theorem lastGroup?_concat_group {name label : String} {members : List NodeId} :
    lastGroup? (declarations ++ [.group name label members]) id =
      if id ∈ members then some name else lastGroup? declarations id := by
  rw [lastGroup?, groups_concat_group, List.filter_append]
  split
  · next member => simp [member]
  · next notMember => simp [notMember, lastGroup?]

end Declaration

theorem GraphMl.GraphNode.id_enter (node : GraphNode) (group : String) (members : List NodeId) :
    (node.enter group members).id = node.id := by
  unfold enter
  split <;> rfl

namespace GraphMl.Graph

open Declaration

/-- The identities of the nodes of a drawing are those that are declared. -/
theorem mem_ids_iff {name : String} {declarations : List Declaration} {id : NodeId} :
    id ∈ (ofDeclarations name declarations).nodes.map (·.id) ↔
      ∃ label shape, .node id label shape ∈ declarations := by
  rw [← mem_nodes_iff name, List.mem_map]

/-- A node is in the last group that lists it, of those declared after the node. -/
theorem group_eq_lastGroup? (name : String) (declarations : List Declaration) :
    ∀ node ∈ (ofDeclarations name declarations).nodes,
      node.group = lastGroup? (afterFirst declarations node.id) node.id := by
  induction declarations using List.reverseRecOn with
  | nil =>
      intro node listed
      cases listed
  | append_singleton before last ih =>
      have step : ofDeclarations name (before ++ [last]) =
          (ofDeclarations name before).declare last := by
        simp [ofDeclarations]
      have declared {node : GraphNode} (listed : node ∈ (ofDeclarations name before).nodes) :
          ∃ label shape, .node node.id label shape ∈ before :=
        mem_ids_iff.1 (List.mem_map_of_mem listed)
      have unchanged (noGroup : last.group? = none) {node : GraphNode}
          (listed : node ∈ (ofDeclarations name before).nodes) :
          node.group = lastGroup? (afterFirst (before ++ [last]) node.id) node.id := by
        rw [afterFirst_append (declared listed), lastGroup?_concat_of_none noGroup]
        exact ih node listed
      rw [step]
      intro node listed
      cases last with
      | edge edge => exact unchanged rfl listed
      | node id label shape =>
          simp only [declare] at listed
          split at listed
          · exact unchanged rfl listed
          · next free =>
              rcases List.mem_append.1 listed with earlier | new
              · exact unchanged rfl earlier
              · obtain rfl := List.mem_singleton.1 new
                rw [any_id_iff, mem_ids_iff] at free
                rw [afterFirst_concat_of_fresh free]
                rfl
      | group groupName label members =>
          rcases List.mem_map.1 listed with ⟨old, oldListed, rfl⟩
          rw [old.id_enter, afterFirst_append (declared oldListed), lastGroup?_concat_group]
          unfold GraphNode.enter
          split
          · rfl
          · exact ih old oldListed

end GraphMl.Graph

/-! ## Canvases and drawings -/

theorem Dot.Graph.mem_ids_iff {name : String} {declarations : List Declaration} {id : NodeId} :
    id ∈ (ofDeclarations name declarations).nodes.map (·.id) ↔
      ∃ label shape, .node id label shape ∈ declarations := by
  have shownNodes : (ofDeclarations name declarations).shown = Declaration.shown declarations :=
    Format.nodes_eq .dot name declarations
  rw [← Declaration.mem_map_shown_iff, ← shownNodes, shown, List.map_map]
  rfl

theorem getElem?_concat_iff {α : Type} {known : List α} {last other : α} {position : Nat} :
    (known ++ [last])[position]? = some other ↔
      known[position]? = some other ∨ (position = known.length ∧ last = other) := by
  rw [List.getElem?_append]
  split
  · next inside => simp [Nat.ne_of_lt inside]
  · next outside =>
      have behind : known[position]? = none := List.getElem?_eq_none (Nat.le_of_not_lt outside)
      have last_iff : position - known.length = 0 ↔ position = known.length := by omega
      simp [behind, List.getElem?_singleton, last_iff]

namespace Dot.Canvas

/-- A canvas holds a drawing, and its set has exactly the identities of the nodes. -/
structure Draws (canvas : Canvas) (graph : Graph) : Prop where
  toGraph_eq : canvas.toGraph = graph
  mem_declared_iff : ∀ id, id ∈ canvas.declared ↔ id ∈ graph.nodes.map (·.id)

namespace Draws

variable {canvas : Canvas} {graph : Graph}

theorem contains_eq (draws : canvas.Draws graph) (id : NodeId) :
    canvas.declared.contains id = graph.nodes.any (·.id = id) := by
  rw [Bool.eq_iff_iff, ← Std.HashSet.mem_iff_contains, draws.mem_declared_iff, any_id_iff]

theorem declare (draws : canvas.Draws graph) (declaration : Declaration) :
    (canvas.declare declaration).Draws (graph.declare declaration) := by
  obtain rfl := draws.toGraph_eq
  cases declaration with
  | node id label shape =>
      simp only [Canvas.declare, Graph.declare, draws.contains_eq]
      split
      · exact draws
      · refine ⟨rfl, fun other => ?_⟩
        rw [Std.HashSet.mem_insert, draws.mem_declared_iff, beq_iff_eq, List.map_append,
          List.mem_append, or_comm, List.map_singleton, List.mem_singleton, eq_comm]
  | edge edge => exact ⟨rfl, draws.mem_declared_iff⟩
  | group name label members => exact ⟨rfl, draws.mem_declared_iff⟩

end Draws

theorem draws_ofDeclarations (name : String) (declarations : List Declaration) :
    (ofDeclarations name declarations).Draws (.ofDeclarations name declarations) := by
  have blank : Draws { name } { name } := ⟨rfl, by simp⟩
  exact List.foldl_rel blank fun declaration _ _ _ draws => draws.declare declaration

/-- A repeated declaration might as well not have been made. -/
theorem ofDeclarations_repeated {before : List Declaration} {id : NodeId}
    (declared : ∃ label shape, .node id label shape ∈ before) (name label : String) (shape : Shape)
    (after : List Declaration) :
    ofDeclarations name (before ++ .node id label shape :: after) =
      ofDeclarations name (before ++ after) := by
  have known : id ∈ (ofDeclarations name before).declared := by
    rw [(draws_ofDeclarations name before).mem_declared_iff, Graph.mem_ids_iff]
    exact declared
  have unchanged : (ofDeclarations name before).declare (.node id label shape) =
      ofDeclarations name before :=
    if_pos (Std.HashSet.mem_iff_contains.1 known)
  unfold ofDeclarations at unchanged ⊢
  rw [List.foldl_append, List.foldl_append, List.foldl_cons, unchanged]

end Dot.Canvas

namespace GraphMl

namespace GraphNode

variable {nodes : List GraphNode} {group : String} {member : NodeId}

/-- A node enters a group for one member after the other. -/
theorem enter_cons (node : GraphNode) (group : String) (member : NodeId) (members : List NodeId) :
    node.enter group (member :: members) = (node.enter group [member]).enter group members := by
  unfold enter
  by_cases first : node.id = member <;> by_cases later : node.id ∈ members <;> simp [first, later]

theorem map_enter_of_notMem (absent : member ∉ nodes.map (·.id)) :
    nodes.map (·.enter group [member]) = nodes := by
  have outside : ∀ node ∈ nodes, node.enter group [member] = node := by
    intro node listed
    refine if_neg fun same => absent ?_
    obtain rfl := List.mem_singleton.1 same
    exact List.mem_map_of_mem listed
  rw [List.map_congr_left outside, List.map_id']

/-- Where a position is the only one of an identity, the node there is the one that enters. -/
theorem modify_eq_map_enter {position : Nat}
    (placed_iff : ∀ other, (nodes.map (·.id))[other]? = some member ↔ position = other) :
    nodes.modify position ({ · with group := some group }) =
      nodes.map (·.enter group [member]) := by
  apply List.ext_getElem?
  intro other
  have placed_iff := placed_iff other
  rw [List.getElem?_map] at placed_iff
  rw [List.getElem?_modify, List.getElem?_map]
  cases there : nodes[other]? with
  | none => split <;> rfl
  | some node =>
      rw [there, Option.map_some, Option.some.injEq] at placed_iff
      simp [enter, placed_iff]

end GraphNode

namespace Canvas

/-- A canvas holds a drawing, and its index has exactly the identities of the nodes, each with its
position. -/
structure Draws (canvas : Canvas) (graph : Graph) : Prop where
  toGraph_eq : canvas.toGraph = graph
  getElem?_index_iff : ∀ (id : NodeId) (position : Nat), canvas.index[id]? = some position ↔
    (graph.nodes.map (·.id))[position]? = some id

namespace Draws

variable {canvas : Canvas} {graph : Graph}

theorem mem_index_iff (draws : canvas.Draws graph) {id : NodeId} :
    id ∈ canvas.index ↔ id ∈ graph.nodes.map (·.id) := by
  rw [Std.HashMap.mem_iff_isSome_getElem?, Option.isSome_iff_exists, List.mem_iff_getElem?]
  exact exists_congr fun position => draws.getElem?_index_iff id position

theorem contains_eq (draws : canvas.Draws graph) (id : NodeId) :
    canvas.index.contains id = graph.nodes.any (·.id = id) := by
  rw [Bool.eq_iff_iff, ← Std.HashMap.mem_iff_contains, draws.mem_index_iff, any_id_iff]

/-- A new node is put behind the others, at the position that its identity is given. -/
theorem concat (draws : canvas.Draws graph) {node : GraphNode}
    (fresh : node.id ∉ graph.nodes.map (·.id)) :
    Draws
      { canvas with
        index := canvas.index.insert node.id canvas.nodes.length
        nodes := canvas.nodes ++ [node] }
      { graph with nodes := graph.nodes ++ [node] } := by
  obtain rfl := draws.toGraph_eq
  refine ⟨rfl, fun id position => ?_⟩
  have placed := draws.getElem?_index_iff id position
  rw [Std.HashMap.getElem?_insert, List.map_append, List.map_singleton, getElem?_concat_iff,
    List.length_map, ← placed]
  split
  · next same =>
      obtain rfl := eq_of_beq same
      have absent : canvas.index[node.id]? = none := by
        rw [← draws.mem_index_iff] at fresh
        exact Std.HashMap.getElem?_eq_none fresh
      simp [absent, eq_comm]
  · next different =>
      have different : node.id ≠ id := fun same => different (beq_iff_eq.2 same)
      simp [different]

/-- The name of a group is written into the node at the position of a member, and no other node is
of this identity. -/
theorem assign (draws : canvas.Draws graph) (group : String) (member : NodeId) :
    (canvas.assign group member).Draws
      { graph with nodes := graph.nodes.map (·.enter group [member]) } := by
  obtain rfl := draws.toGraph_eq
  have index_eq : (canvas.assign group member).index = canvas.index := by
    unfold Canvas.assign
    split <;> rfl
  have ids_eq : (canvas.nodes.map (·.enter group [member])).map (·.id) =
      canvas.nodes.map (·.id) := by
    rw [List.map_map]
    exact List.map_congr_left fun node _ => node.id_enter group [member]
  refine ⟨?_, ?_⟩
  · unfold Canvas.assign
    split
    · next absent =>
        have outside : member ∉ canvas.nodes.map (·.id) := by
          rw [← draws.mem_index_iff, Std.HashMap.mem_iff_isSome_getElem?, absent]
          exact Bool.false_ne_true
        rw [GraphNode.map_enter_of_notMem outside]
    · next position found =>
        have placed_iff (other : Nat) :
            (canvas.nodes.map (·.id))[other]? = some member ↔ position = other := by
          rw [← draws.getElem?_index_iff, found, Option.some.injEq]
        rw [GraphNode.modify_eq_map_enter placed_iff]
  · intro id position
    rw [index_eq, ids_eq]
    exact draws.getElem?_index_iff id position

theorem foldl_assign (draws : canvas.Draws graph) (group : String) (members : List NodeId) :
    (members.foldl (Canvas.assign group) canvas).Draws
      { graph with nodes := graph.nodes.map (·.enter group members) } := by
  induction members generalizing canvas graph with
  | nil =>
      have unchanged : graph.nodes.map (·.enter group []) = graph.nodes :=
        List.map_id'' (fun node => by simp [GraphNode.enter]) graph.nodes
      rw [unchanged]
      exact draws
  | cons member rest ih =>
      have assigned := ih (draws.assign group member)
      simp only [List.map_map, Function.comp_def, ← GraphNode.enter_cons] at assigned
      exact assigned

theorem declare (draws : canvas.Draws graph) (declaration : Declaration) :
    (canvas.declare declaration).Draws (graph.declare declaration) := by
  cases declaration with
  | node id label shape =>
      simp only [Canvas.declare, Graph.declare, draws.contains_eq]
      split
      · exact draws
      · next free => exact draws.concat fun taken => free (any_id_iff.2 taken)
  | edge edge =>
      obtain rfl := draws.toGraph_eq
      exact ⟨rfl, draws.getElem?_index_iff⟩
  | group name label members => exact draws.foldl_assign name members

end Draws

theorem draws_ofDeclarations (name : String) (declarations : List Declaration) :
    (ofDeclarations name declarations).Draws (.ofDeclarations name declarations) := by
  have blank : Draws { name } { name } := ⟨rfl, by simp⟩
  exact List.foldl_rel blank fun declaration _ _ _ draws => draws.declare declaration

/-- A repeated declaration might as well not have been made. -/
theorem ofDeclarations_repeated {before : List Declaration} {id : NodeId}
    (declared : ∃ label shape, .node id label shape ∈ before) (name label : String) (shape : Shape)
    (after : List Declaration) :
    ofDeclarations name (before ++ .node id label shape :: after) =
      ofDeclarations name (before ++ after) := by
  have known : id ∈ (ofDeclarations name before).index := by
    rw [(draws_ofDeclarations name before).mem_index_iff, Graph.mem_ids_iff]
    exact declared
  have unchanged : (ofDeclarations name before).declare (.node id label shape) =
      ofDeclarations name before :=
    if_pos (Std.HashMap.mem_iff_contains.1 known)
  unfold ofDeclarations at unchanged ⊢
  rw [List.foldl_append, List.foldl_append, List.foldl_cons, unchanged]

end Canvas

end GraphMl

open Declaration

/-- What is written of some declarations is what their canvas holds, in both formats. -/
theorem render_eq_render_canvas (name : String) (declarations : List Declaration) :
    Format.dot.render name declarations = (Dot.Canvas.ofDeclarations name declarations).render ∧
      Format.graphMl.render name declarations =
        (GraphMl.Canvas.ofDeclarations name declarations).render := by
  rw [(Dot.Canvas.draws_ofDeclarations name declarations).toGraph_eq,
    (GraphMl.Canvas.draws_ofDeclarations name declarations).toGraph_eq]
  exact ⟨rfl, rfl⟩

/-- After any calls, both formats have kept the first declaration of every identity, in order, and
every edge. The set of a DOT canvas has the identities of the nodes, the index of a GraphML canvas
their positions. A repeated declaration might as well not have been made, and a GraphML node is in
the last group that lists it, of those declared after it. -/
theorem canvases_draw_firsts (name : String) (calls : List Declaration) :
    (Dot.Canvas.ofDeclarations name calls).Draws (.ofDeclarations name calls) ∧
      (GraphMl.Canvas.ofDeclarations name calls).Draws (.ofDeclarations name calls) ∧
      (Format.dot.render name calls = (Dot.Canvas.ofDeclarations name calls).render ∧
        Format.graphMl.render name calls = (GraphMl.Canvas.ofDeclarations name calls).render) ∧
      (∀ format : Format,
        format.nodes name calls = firsts calls ∧ format.edges name calls = edges calls) ∧
      (∀ node ∈ (GraphMl.Graph.ofDeclarations name calls).nodes,
        node.group = lastGroup? (afterFirst calls node.id) node.id) ∧
      ∀ before after id label shape, calls = before ++ .node id label shape :: after →
        (∃ firstLabel firstShape, .node id firstLabel firstShape ∈ before) →
          Dot.Canvas.ofDeclarations name calls = .ofDeclarations name (before ++ after) ∧
            GraphMl.Canvas.ofDeclarations name calls = .ofDeclarations name (before ++ after) := by
  have inDot := Dot.Canvas.draws_ofDeclarations name calls
  have inGraphMl := GraphMl.Canvas.draws_ofDeclarations name calls
  refine ⟨inDot, inGraphMl, render_eq_render_canvas name calls, ?_,
    GraphMl.Graph.group_eq_lastGroup? name calls, ?_⟩
  · intro format
    rw [format.nodes_eq, shown_eq_firsts]
    exact ⟨rfl, format.edges_eq name calls⟩
  · rintro before after id label shape rfl declared
    exact ⟨Dot.Canvas.ofDeclarations_repeated declared name label shape after,
      GraphMl.Canvas.ofDeclarations_repeated declared name label shape after⟩

/-- Calls with an edge to what is never declared, groups before and after their members, and a node
that is declared twice. -/
def rehearsal : List Declaration :=
  [.edge ⟨⟨"a"⟩, ⟨"ghost"⟩, .flow⟩, .group "early" "Early" [⟨"a"⟩],
    .node ⟨"a"⟩ "ordered" .event, .node ⟨"b"⟩ "pack" .activity,
    .group "first" "First" [⟨"a"⟩, ⟨"ghost"⟩, ⟨"b"⟩], .node ⟨"a"⟩ "other" .process,
    .group "last" "Last" [⟨"a"⟩, ⟨"a"⟩], .node ⟨"c"⟩ "paid" .topic,
    .edge ⟨⟨"a"⟩, ⟨"ghost"⟩, .flow⟩]

theorem canvases_draw_firsts_rehearsal :
    (∀ format : Format,
      format.nodes "shop" rehearsal =
          [(⟨"a"⟩, "ordered", .event), (⟨"b"⟩, "pack", .activity), (⟨"c"⟩, "paid", .topic)] ∧
        format.edges "shop" rehearsal =
          [⟨⟨"a"⟩, ⟨"ghost"⟩, .flow⟩, ⟨⟨"a"⟩, ⟨"ghost"⟩, .flow⟩]) ∧
      (⟨"ghost"⟩ : NodeId) ∉ (Dot.Canvas.ofDeclarations "shop" rehearsal).declared ∧
      (GraphMl.Canvas.ofDeclarations "shop" rehearsal).index[(⟨"b"⟩ : NodeId)]? = some 1 ∧
      (GraphMl.Graph.ofDeclarations "shop" rehearsal).nodes.map (·.group) =
        [some "last", some "first", none] ∧
      GraphMl.Canvas.ofDeclarations "shop" rehearsal =
        .ofDeclarations "shop" (rehearsal.eraseIdx 5) := by
  rcases canvases_draw_firsts "shop" rehearsal with ⟨inDot, inGraphMl, _, kept, groups, repeated⟩
  have firsts_eq : firsts rehearsal =
      [(⟨"a"⟩, "ordered", .event), (⟨"b"⟩, "pack", .activity), (⟨"c"⟩, "paid", .topic)] := by
    decide
  have edges_eq : edges rehearsal =
      [⟨⟨"a"⟩, ⟨"ghost"⟩, .flow⟩, ⟨⟨"a"⟩, ⟨"ghost"⟩, .flow⟩] := by
    decide
  have repeated := repeated (rehearsal.take 5) (rehearsal.drop 6) ⟨"a"⟩ "other" .process rfl
    ⟨"ordered", .event, by decide⟩
  refine ⟨?_, ?_, ?_, ?_, repeated.2⟩
  · intro format
    rw [(kept format).1, (kept format).2]
    exact ⟨firsts_eq, edges_eq⟩
  · rw [inDot.mem_declared_iff]
    decide
  · rw [inGraphMl.getElem?_index_iff]
    decide
  · rw [List.map_congr_left groups]
    decide

end ProcessChain
