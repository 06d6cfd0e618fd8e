import Mathlib.Data.List.Nodup
import ProcessChain.Proofs.Composition.Hereditary
import ProcessChain.Proofs.Diagram.Identity
import ProcessChain.Proofs.Diagram.Points

/-!
# Numbering of composed nodes

Composition gives out one number for each node, in the order in which nodes are begun. The nodes of
a composed chain, each before the nodes inside it, are therefore numbered in turn from zero. The
invariant is `NumberedFrom`: a remark adds the next number, and the nodes inside a conditional have
theirs right after the number of the conditional.

Numbers are never given out twice, so the points of a composed diagram are distinct
(`Language.nodup_points_of_composeIn`), and those of different scopes never meet.
-/

namespace ProcessChain

namespace Node

theorem nodup_ownPoints (node : Node) : node.ownPoints.Nodup := by
  cases node with
  | conditional id branches =>
      cases branches with
      | nil => simp [ownPoints]
      | cons branch others => simpa [ownPoints] using id.join_ne.symm
  | _ => simp [ownPoints]

theorem standsFor_of_mem_ownPoints {node : Node} {point : NodeId} {scope : String} {number : Nat}
    (id_eq : node.id = NodeId.numbered scope number) (own : point ∈ node.ownPoints) :
    point.StandsFor scope number := by
  have id_or_join : point = node.id ∨ point = node.id.join := by
    cases node with
    | conditional id branches =>
        cases branches with
        | nil =>
            left
            simpa [ownPoints] using own
        | cons branch others => simpa [ownPoints, Node.id] using own
    | _ =>
        left
        simpa [ownPoints] using own
  rw [id_eq] at id_or_join
  exact id_or_join

end Node

/-- Nodes that are numbered in turn, from a first number up to one that is not used. -/
structure NumberedFrom (scope : String) (first : Nat) (nodes : List Node) (last : Nat) : Prop where
  last_eq : last = first + nodes.length
  ids_eq : nodes.map Node.id = (List.range' first nodes.length).map (NodeId.numbered scope)

namespace NumberedFrom

variable {scope : String} {first middle last : Nat} {nodes others : List Node}

theorem nil : NumberedFrom scope first [] first :=
  ⟨rfl, rfl⟩

theorem cons {node : Node} (id_eq : node.id = NodeId.numbered scope first)
    (rest : NumberedFrom scope (first + 1) nodes last) :
    NumberedFrom scope first (node :: nodes) last := by
  refine ⟨?_, ?_⟩
  · have last_eq := rest.last_eq
    simp only [List.length_cons]
    omega
  · simp [id_eq, rest.ids_eq, List.range'_succ]

theorem append (before : NumberedFrom scope first nodes middle)
    (after : NumberedFrom scope middle others last) :
    NumberedFrom scope first (nodes ++ others) last := by
  have middle_eq := before.last_eq
  have last_eq := after.last_eq
  refine ⟨?_, ?_⟩
  · simp only [List.length_append]
    omega
  · rw [List.map_append, before.ids_eq, after.ids_eq, middle_eq, ← List.map_append,
      List.length_append, List.range'_append_1]

end NumberedFrom

variable {scope : String}

/-- A remark adds at most one node, with the next number. -/
theorem Draft.numberedFrom_note (scope : String) (remarks : Remarks) (draft : Draft)
    (remark : Remark) :
    NumberedFrom scope draft.issued (Node.chainPreorder (draft.note scope remarks remark).2)
      (draft.note scope remarks remark).1.issued := by
  rcases remark with ⟨keyword, payload⟩
  cases keyword with
  | activity => exact .cons rfl .nil
  | event => exact .cons rfl .nil
  | innerFlow => exact .cons rfl .nil
  | _ => exact .nil

/-- The nodes of a composition have the numbers that it gives out. -/
theorem Composition.hereditary_numberedFrom (scope : String) :
    Hereditary scope fun draft _ nodes last =>
      NumberedFrom scope draft.issued nodes last.issued where
  nothing _ := .nil
  append before after := before.append after
  conditional _ inside := .cons rfl inside
  note := Draft.numberedFrom_note scope

/-- As many identities are given out as there are nodes. -/
theorem Composition.issued_of_composes {lines : List Line} {nodes : Chain} {last : Draft}
    (derivation : Composes scope {} lines nodes last) :
    last.issued = (Node.chainPreorder nodes).length := by
  have numbered := (hereditary_numberedFrom scope).of_composes derivation
  simpa using numbered.last_eq

namespace Language

variable {language : Language} {flow : Flow} {diagram : Diagram}

/-- The nodes of a composed diagram, each before the nodes inside it, are numbered from zero. -/
theorem preorder_ids_of_composeIn (returned : language.composeIn scope flow = .ok diagram) :
    (Node.chainPreorder diagram.chain).map Node.id =
      (List.range (Node.chainPreorder diagram.chain).length).map (NodeId.numbered scope) := by
  rcases composes_of_composeIn returned with ⟨_, last, _, _, derivation⟩
  have numbered := ((Composition.hereditary_numberedFrom scope).of_composes derivation).ids_eq
  rwa [← List.range_eq_range'] at numbered

theorem exists_id_eq_of_composeIn (returned : language.composeIn scope flow = .ok diagram)
    {node : Node} (member : node ∈ Node.chainPreorder diagram.chain) :
    ∃ number, node.id = NodeId.numbered scope number := by
  have listed := List.mem_map_of_mem (f := Node.id) member
  rw [preorder_ids_of_composeIn returned, List.mem_map] at listed
  rcases listed with ⟨number, _, id_eq⟩
  exact ⟨number, id_eq.symm⟩

theorem exists_standsFor_of_composeIn (returned : language.composeIn scope flow = .ok diagram)
    {point : NodeId} (member : point ∈ diagram.chain.points) :
    ∃ number, point.StandsFor scope number := by
  rcases List.mem_flatMap.1 member with ⟨node, node_mem, own⟩
  rcases exists_id_eq_of_composeIn returned node_mem with ⟨number, id_eq⟩
  exact ⟨number, Node.standsFor_of_mem_ownPoints id_eq own⟩

theorem disjoint_points_of_composeIn {other : Language} {otherScope : String} {otherFlow : Flow}
    {otherDiagram : Diagram} (returned : language.composeIn scope flow = .ok diagram)
    (otherReturned : other.composeIn otherScope otherFlow = .ok otherDiagram)
    (different : scope ≠ otherScope) :
    List.Disjoint diagram.chain.points otherDiagram.chain.points := by
  intro point member otherMember
  rcases exists_standsFor_of_composeIn returned member with ⟨number, stands⟩
  rcases exists_standsFor_of_composeIn otherReturned otherMember with ⟨count, otherStands⟩
  exact different (NodeId.scope_and_number_unique stands otherStands).1

theorem nodup_points_of_composeIn (returned : language.composeIn scope flow = .ok diagram) :
    diagram.chain.points.Nodup := by
  have ids_nodup : ((Node.chainPreorder diagram.chain).map Node.id).Nodup := by
    rw [preorder_ids_of_composeIn returned]
    exact List.nodup_range.map fun _ _ same => NodeId.numbered_inj.1 same
  unfold Chain.points
  rw [List.nodup_flatMap]
  refine ⟨fun node _ => node.nodup_ownPoints, ?_⟩
  have apart : (Node.chainPreorder diagram.chain).Pairwise fun node other => node.id ≠ other.id :=
    List.pairwise_map.1 ids_nodup
  refine apart.imp_of_mem ?_
  intro node other node_mem other_mem different point own otherOwn
  rcases exists_id_eq_of_composeIn returned node_mem with ⟨number, id_eq⟩
  rcases exists_id_eq_of_composeIn returned other_mem with ⟨count, other_id_eq⟩
  have same := NodeId.scope_and_number_unique (Node.standsFor_of_mem_ownPoints id_eq own)
    (Node.standsFor_of_mem_ownPoints other_id_eq otherOwn)
  rw [id_eq, other_id_eq, same.2] at different
  exact different rfl

end Language

end ProcessChain
