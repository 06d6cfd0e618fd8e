import Mathlib.Data.List.Basic
import ProcessChain.Proofs.Diagram.Identity
import ProcessChain.Proofs.Diagram.Steps

/-!
# Passages of a sketch

A step of the flow arrives at a point and departs from one. Every node asks for one step to its id
and one from its exit, and a conditional with branches for one more to its join and from its id for
each branch (`Node.asked`).

The sketch of a chain has exactly these steps, except for the one into its first node and the one
out of its last, which are left to what is around it; this is `Sketch.Passes`. It is kept when two
parts are put in series by a link. Branches are put side by side between a fork and a join, which
takes one step from the fork and one to the join for each of them; this is `Sketch.Parts`. Both
compare lists up to order and assume nothing about the ids.
-/

namespace ProcessChain

namespace Sketch

theorem append_assoc (first second third : Sketch) :
    first ++ second ++ third = first ++ (second ++ third) := by
  ext1
  · simp
  · simp

/-- The points that the steps of a sketch lead to, one for each step. -/
def arrivals (sketch : Sketch) : List NodeId :=
  sketch.flowSteps.map Prod.snd

/-- The points that the steps of a sketch start from, one for each step. -/
def departures (sketch : Sketch) : List NodeId :=
  sketch.flowSteps.map Prod.fst

@[simp]
theorem arrivals_append (first second : Sketch) :
    (first ++ second).arrivals = first.arrivals ++ second.arrivals := by
  simp [arrivals]

@[simp]
theorem departures_append (first second : Sketch) :
    (first ++ second).departures = first.departures ++ second.departures := by
  simp [departures]

@[simp]
theorem arrivals_link_some (source target : NodeId) :
    (link source (some target)).arrivals = [target] := rfl

@[simp]
theorem departures_link_some (source target : NodeId) :
    (link source (some target)).departures = [source] := rfl

end Sketch

namespace Node

/-- How many branches a node has. -/
def branchCount : Node → Nat
  | .conditional _ branches => branches.length
  | _ => 0

/-- Where a node parts into branches, if it has any. -/
def fork? : Node → Option NodeId
  | .conditional id (_ :: _) => some id
  | _ => none

/-- Where the branches of a node meet again, if it has any. -/
def join? : Node → Option NodeId
  | .conditional id (_ :: _) => some id.join
  | _ => none

/-- The points of a node, each as often as the node asks for steps there: once for each branch where
the branches share the point, and else once. -/
def asked (shared? : Node → Option NodeId) (node : Node) : List NodeId :=
  node.ownPoints.flatMap fun point =>
    List.replicate (if shared? node = some point then node.branchCount else 1) point

theorem asked_join?_conditional (id : NodeId) (branch : Chain) (others : List Chain) :
    (conditional id (branch :: others)).asked join? =
      id :: List.replicate (branch :: others).length id.join := by
  simp [asked, ownPoints, join?, branchCount, id.join_ne]

theorem asked_fork?_conditional (id : NodeId) (branch : Chain) (others : List Chain) :
    (conditional id (branch :: others)).asked fork? =
      List.replicate (branch :: others).length id ++ [id.join] := by
  simp [asked, ownPoints, fork?, branchCount, id.join_ne.symm]

theorem asked_subset (shared? : Node → Option NodeId) (node : Node) :
    node.asked shared? ⊆ node.ownPoints := by
  intro point listed
  rcases List.mem_flatMap.1 listed with ⟨own, owned, repeated⟩
  rwa [List.eq_of_mem_replicate repeated]

end Node

namespace Sketch

open Node

/-- With one step to the entry, and with one from the exit, a sketch has the steps that its nodes
ask for. -/
structure Passes (sketch : Sketch) (entry exit : NodeId) (nodes : List Node) : Prop where
  arrivals : (entry :: sketch.arrivals).Perm (nodes.flatMap (asked join?))
  departures : (exit :: sketch.departures).Perm (nodes.flatMap (asked fork?))

/-- A sketch has the steps that its nodes ask for, and leads in some ways from a fork to a join. -/
structure Parts (sketch : Sketch) (fork join : NodeId) (ways : Nat) (nodes : List Node) :
    Prop where
  arrivals : sketch.arrivals.Perm (List.replicate ways join ++ nodes.flatMap (asked join?))
  departures : sketch.departures.Perm (List.replicate ways fork ++ nodes.flatMap (asked fork?))

variable {first second : Sketch} {entry middle next exit fork join : NodeId}
  {nodes others : List Node} {ways more : Nat}

theorem Passes.series (before : first.Passes entry middle nodes)
    (after : second.Passes next exit others) :
    (first ++ link middle (some next) ++ second).Passes entry exit (nodes ++ others) := by
  constructor
  · simpa using before.arrivals.append after.arrivals
  · have whole := before.departures.append after.departures
    simp only [departures_append, departures_link_some, List.flatMap_append]
    refine List.Perm.trans ?_ whole
    refine List.perm_middle.symm.trans ?_
    exact (List.perm_append_singleton middle first.departures).append_right _

theorem Passes.append_empty (inside : first.Passes entry exit nodes) :
    (first ++ link exit none ++ {}).Passes entry exit (nodes ++ []) := by
  have same : first ++ link exit none ++ {} = first := by
    ext1
    · simp [link]
    · simp
  rwa [same, List.append_nil]

theorem Passes.parts (inside : first.Passes entry exit nodes) (fork join : NodeId) :
    (link fork (some entry) ++ first ++ link exit (some join)).Parts fork join 1 nodes := by
  constructor
  · have whole := inside.arrivals.append_right [join]
    simpa using whole.trans (List.perm_append_singleton join _)
  · have whole := (List.perm_append_singleton exit first.departures).trans inside.departures
    simpa using whole

theorem parts_nil (fork join : NodeId) : ({} : Sketch).Parts fork join 0 [] :=
  ⟨.refl _, .refl _⟩

theorem parts_link (fork join : NodeId) : (link fork (some join)).Parts fork join 1 [] :=
  ⟨.refl _, .refl _⟩

theorem Parts.append (before : first.Parts fork join ways nodes)
    (after : second.Parts fork join more others) :
    (first ++ second).Parts fork join (ways + more) (nodes ++ others) := by
  have interleave (a b c d : List NodeId) : ((a ++ b) ++ (c ++ d)).Perm ((a ++ c) ++ (b ++ d)) := by
    simpa using (List.perm_append_comm_assoc b c d).append_left a
  constructor
  · rw [arrivals_append, List.flatMap_append, List.replicate_add]
    exact (before.arrivals.append after.arrivals).trans (interleave ..)
  · rw [departures_append, List.flatMap_append, List.replicate_add]
    exact (before.departures.append after.departures).trans (interleave ..)

end Sketch

namespace Node

/-- A chain that is left for something has one more link than if it is not. -/
theorem chainSketch_some {chain : Chain} {last : Node} (ends : chain.getLast? = some last)
    (ending : NodeId) :
    chainSketch (some ending) chain =
      chainSketch none chain ++ .link last.exit (some ending) := by
  induction chain with
  | nil => cases ends
  | cons node rest ih =>
      cases rest with
      | nil =>
          cases ends
          ext1
          · simp [chainSketch, Chain.entry?, Sketch.link]
          · simp [chainSketch]
      | cons next more =>
          rw [List.getLast?_cons_cons] at ends
          unfold chainSketch
          rw [ih ends]
          exact (Sketch.append_assoc _ _ _).symm

open Sketch

/-- A node that makes no steps of its own is passed by. -/
theorem passes_of_flowSteps_eq_nil {node : Node} (none : node.sketch.flowSteps = [])
    (arrivals : node.asked join? = [node.id]) (departures : node.asked fork? = [node.id])
    (exit : node.exit = node.id) (alone : node.preorder = [node]) :
    node.sketch.Passes node.id node.exit node.preorder := by
  constructor
  · simp [Sketch.arrivals, none, arrivals, alone]
  · simp [Sketch.departures, none, departures, exit, alone]

mutual

theorem passes_sketch (node : Node) : node.sketch.Passes node.id node.exit node.preorder := by
  cases node with
  | activity body => exact passes_of_flowSteps_eq_nil (by simp [sketch]) rfl rfl rfl rfl
  | event body => exact passes_of_flowSteps_eq_nil (by simp [sketch]) rfl rfl rfl rfl
  | process body => exact passes_of_flowSteps_eq_nil (by simp [sketch]) rfl rfl rfl rfl
  | conditional id branches =>
      cases branches with
      | nil => exact passes_of_flowSteps_eq_nil (by simp [sketch]) rfl rfl rfl rfl
      | cons branch others =>
          have inside := parts_branchesSketch id (branch :: others)
          constructor
          · rw [preorder, List.flatMap_cons, asked_join?_conditional]
            simpa [Sketch.arrivals, sketch, Node.id] using inside.arrivals
          · rw [preorder, List.flatMap_cons, asked_fork?_conditional]
            have departures := (inside.departures.cons id.join).trans List.perm_middle.symm
            simpa [Sketch.departures, sketch, exit] using departures

theorem parts_branchesSketch (id : NodeId) (branches : List Chain) :
    (branchesSketch id branches).Parts id id.join branches.length (branchesPreorder branches) := by
  cases branches with
  | nil => exact parts_nil id id.join
  | cons branch rest =>
      have inside (first last : Node) := @passes_chainSketch first last branch
      have others := parts_branchesSketch id rest
      have first : (Sketch.link id (Chain.entry? branch (some id.join)) ++
          chainSketch (some id.join) branch).Parts id id.join 1 (chainPreorder branch) := by
        rcases ends : branch.getLast? with _ | last
        · rw [List.getLast?_eq_none_iff] at ends
          subst ends
          exact parts_link id id.join
        · rw [chainSketch_some ends]
          cases branch with
          | nil => cases ends
          | cons node more =>
              have whole := (inside node last rfl ends).parts id id.join
              rwa [Sketch.append_assoc] at whole
      have whole := first.append others
      rwa [Nat.add_comm] at whole

theorem passes_chainSketch {first last : Node} (chain : Chain) (starts : chain.head? = some first)
    (ends : chain.getLast? = some last) :
    (chainSketch none chain).Passes first.id last.exit (chainPreorder chain) := by
  cases chain with
  | nil => cases starts
  | cons node rest =>
      cases starts
      have before := passes_sketch first
      have inside (next : Node) := @passes_chainSketch next last rest
      cases rest with
      | nil =>
          cases ends
          exact before.append_empty
      | cons next more =>
          rw [List.getLast?_cons_cons] at ends
          exact before.series (inside next rfl ends)

end

end Node

end ProcessChain
