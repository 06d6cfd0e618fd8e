import ProcessChain.Proofs.Drawing.DotText
import ProcessChain.Proofs.Drawing.GraphMlText

/-!
# Groups in both formats

The formats keep groups in different ways. A DOT drawing keeps a group as it is declared, whatever
its members are; a GraphML drawing writes the name of the group into those members that are there by
then, over the name of any group before. The two agree where every group comes after the nodes that
it lists and no node is in two groups (`Declaration.Grouped`): a GraphML node is then in a group
exactly if the DOT group of that name lists it, and the two drawings show the same
(`Declaration.Grouped.showSame`).
-/

namespace ProcessChain

namespace Declaration

/-- Declarations in which every group comes after the nodes that it lists. -/
inductive MembersFirst : List Declaration → Prop where
  | done : MembersFirst []
  | plain {declarations : List Declaration} {declaration : Declaration}
      (before : MembersFirst declarations) (noGroup : declaration.group? = none) :
      MembersFirst (declarations ++ [declaration])
  | group {declarations : List Declaration} {name label : String} {members : List NodeId}
      (before : MembersFirst declarations)
      (declared : ∀ id ∈ members, ∃ label shape, .node id label shape ∈ declarations) :
      MembersFirst (declarations ++ [.group name label members])

/-- Declarations in which every group comes after its members, and no two groups have a member or
the name in common. -/
structure Grouped (declarations : List Declaration) : Prop where
  membersFirst : MembersFirst declarations
  apart : (groups declarations).Pairwise fun group other =>
    List.Disjoint group.members other.members
  names_nodup : ((groups declarations).map (·.name)).Nodup

variable {declarations others : List Declaration} {declaration : Declaration} {id : NodeId}

@[simp]
theorem groups_append :
    groups (declarations ++ others) = groups declarations ++ groups others := by
  simp [groups]

theorem groups_concat_of_none (noGroup : declaration.group? = none) :
    groups (declarations ++ [declaration]) = groups declarations := by
  simp [groups, noGroup]

theorem groups_concat_group {name label : String} {members : List NodeId} :
    groups (declarations ++ [.group name label members]) =
      groups declarations ++ [⟨name, label, members⟩] := by
  rw [groups_append]
  rfl

theorem MembersFirst.append_of_groups_eq_nil (first : MembersFirst declarations)
    (noGroups : groups others = []) : MembersFirst (declarations ++ others) := by
  induction others using List.reverseRecOn with
  | nil => simpa using first
  | append_singleton before last ih =>
      rw [groups_append, List.append_eq_nil_iff] at noGroups
      rw [← List.append_assoc]
      exact .plain (ih noGroups.1) (by simpa [groups] using noGroups.2)

/-- What a group lists is declared. -/
theorem MembersFirst.declared (first : MembersFirst declarations) {group : Dot.Cluster}
    (listed : group ∈ groups declarations) (member : id ∈ group.members) :
    ∃ label shape, .node id label shape ∈ declarations := by
  induction first with
  | done => cases listed
  | plain _ noGroup ih =>
      rw [groups_concat_of_none noGroup] at listed
      rcases ih listed with ⟨label, shape, declared⟩
      exact ⟨label, shape, List.mem_append_left _ declared⟩
  | group _ declared ih =>
      rw [groups_concat_group, List.mem_append, List.mem_singleton] at listed
      rcases listed with listed | rfl
      · rcases ih listed with ⟨label, shape, declared⟩
        exact ⟨label, shape, List.mem_append_left _ declared⟩
      · rcases declared id member with ⟨label, shape, declared⟩
        exact ⟨label, shape, List.mem_append_left _ declared⟩

/-- The nodes that are shown have the identities that nodes are declared with. -/
theorem mem_map_shown_iff :
    id ∈ (shown declarations).map Prod.fst ↔
      ∃ label shape, .node id label shape ∈ declarations := by
  constructor
  · intro listed
    rcases List.mem_map.1 listed with ⟨⟨_, label, shape⟩, node, rfl⟩
    exact ⟨label, shape, List.mem_of_find?_eq_some (mem_shown_iff.1 node)⟩
  · rintro ⟨label, shape, declared⟩
    have found : (first? declarations id).isSome :=
      List.find?_isSome.2 ⟨_, declared, by simp [declares]⟩
    rcases Option.isSome_iff_exists.1 found with ⟨declaration, found⟩
    rcases exists_of_first? found with ⟨label, shape, rfl⟩
    exact List.mem_map.2 ⟨_, mem_shown_iff.2 found, rfl⟩

end Declaration

namespace GraphMl.Graph

open Declaration

theorem mem_nodes_iff (name : String) (declarations : List Declaration) (id : NodeId) :
    (∃ node ∈ (ofDeclarations name declarations).nodes, node.id = id) ↔
      ∃ label shape, .node id label shape ∈ declarations := by
  have shownNodes : (ofDeclarations name declarations).shown = Declaration.shown declarations :=
    Format.nodes_eq .graphMl name declarations
  rw [← mem_map_shown_iff, ← shownNodes, shown, List.map_map, List.mem_map]
  rfl

/-- Where groups come after their members and have none in common, a node is in a group exactly if
the group lists it. -/
theorem group_eq_some_iff {name : String} {declarations : List Declaration}
    (first : MembersFirst declarations)
    (apart : (groups declarations).Pairwise fun group other =>
      List.Disjoint group.members other.members)
    {node : GraphNode} (listed : node ∈ (ofDeclarations name declarations).nodes)
    (group : String) :
    node.group = some group ↔
      ∃ cluster ∈ groups declarations, cluster.name = group ∧ node.id ∈ cluster.members := by
  induction first generalizing node with
  | done => cases listed
  | @plain before declaration membersFirst noGroup ih =>
      rw [groups_concat_of_none noGroup] at apart ⊢
      rw [ofDeclarations, List.foldl_append] at listed
      cases declaration with
      | group name label members => cases noGroup
      | edge edge => exact ih apart listed
      | node id label shape =>
          change
            node ∈ (declare (ofDeclarations name before) (.node id label shape)).nodes at listed
          simp only [declare] at listed
          split at listed
          · exact ih apart listed
          · next fresh =>
              rcases List.mem_append.1 listed with earlier | last
              · exact ih apart earlier
              · obtain rfl := List.mem_singleton.1 last
                -- No group lists a node that is new: all its members were declared before it.
                constructor
                · intro grouped
                  cases grouped
                · rintro ⟨cluster, clusterListed, _, member⟩
                  have declared := membersFirst.declared clusterListed member
                  rcases (mem_nodes_iff name before id).2 declared with ⟨other, otherListed, same⟩
                  exact absurd (List.any_eq_true.2 ⟨other, otherListed, by simp [same]⟩) fresh
  | @group before groupName label members membersFirst declared ih =>
      rw [groups_concat_group] at apart ⊢
      rw [List.pairwise_append] at apart
      rcases apart with ⟨apart, _, apartFromLast⟩
      rw [ofDeclarations, List.foldl_append] at listed
      change node ∈ ((ofDeclarations name before).nodes.map (·.enter groupName members)) at listed
      rcases List.mem_map.1 listed with ⟨old, oldListed, rfl⟩
      unfold GraphNode.enter
      split
      · next member =>
          simp only [Option.some.injEq, List.mem_append, List.mem_singleton]
          constructor
          · rintro rfl
            exact ⟨_, .inr rfl, rfl, member⟩
          · rintro ⟨cluster, earlier | rfl, named, listed⟩
            · exact absurd member (apartFromLast cluster earlier _ List.mem_cons_self listed)
            · exact named
      · next notMember =>
          rw [ih apart oldListed]
          simp only [List.mem_append, List.mem_singleton]
          constructor
          · rintro ⟨cluster, earlier, named, listed⟩
            exact ⟨cluster, .inl earlier, named, listed⟩
          · rintro ⟨cluster, earlier | rfl, named, listed⟩
            · exact ⟨cluster, earlier, named, listed⟩
            · exact absurd listed notMember

end GraphMl.Graph

/-- A drawing in DOT and one in GraphML show the same: the same nodes and edges, in order, and the
same groups of nodes, which have nothing in common and list what is there. -/
structure ShowSame (dot : Dot.Graph) (graphMl : GraphMl.Graph) : Prop where
  name_eq : dot.name = graphMl.name
  nodes_eq : dot.shown = graphMl.shown
  edges_eq : dot.edges = graphMl.edges
  group_iff : ∀ node ∈ graphMl.nodes, ∀ group, node.group = some group ↔
    ∃ cluster ∈ dot.clusters, cluster.name = group ∧ node.id ∈ cluster.members
  clusters_apart : dot.clusters.Pairwise fun cluster other =>
    List.Disjoint cluster.members other.members
  names_nodup : (dot.clusters.map (·.name)).Nodup
  members_declared : ∀ cluster ∈ dot.clusters, ∀ id ∈ cluster.members,
    ∃ node ∈ dot.nodes, node.id = id

/-- Where groups come after their members and have none in common, both formats show the same. -/
theorem Declaration.Grouped.showSame {declarations : List Declaration}
    (grouped : Grouped declarations) (name : String) :
    ShowSame (Dot.Graph.ofDeclarations name declarations)
      (GraphMl.Graph.ofDeclarations name declarations) := by
  have dotNodes : (Dot.Graph.ofDeclarations name declarations).shown = shown declarations :=
    Format.nodes_eq .dot name declarations
  have clusters := Dot.Graph.clusters_ofDeclarations name declarations
  refine ⟨?_, ?_, ?_, ?_, ?_, ?_, ?_⟩
  · exact (Dot.Graph.name_foldl_declare _ _).trans
      (GraphMl.Graph.name_foldl_declare { name } declarations).symm
  · exact dotNodes.trans (Format.nodes_eq .graphMl name declarations).symm
  · exact (Format.edges_eq .dot name declarations).trans
      (Format.edges_eq .graphMl name declarations).symm
  · intro node listed group
    rw [clusters]
    exact GraphMl.Graph.group_eq_some_iff grouped.membersFirst grouped.apart listed group
  · rw [clusters]
    exact grouped.apart
  · rw [clusters]
    exact grouped.names_nodup
  · intro cluster listed id member
    rw [clusters] at listed
    have declared := mem_map_shown_iff.2 (grouped.membersFirst.declared listed member)
    rw [← dotNodes, Dot.Graph.shown, List.map_map, List.mem_map] at declared
    exact declared

end ProcessChain
