import Mathlib.Algebra.BigOperators.Group.List.Basic
import Mathlib.Algebra.GroupWithZero.Nat
import Mathlib.Data.List.Nodup
import Mathlib.Data.List.Pairwise
import ProcessChain.Proofs.Diagram.Identity
import ProcessChain.Proofs.Diagram.Passages

/-!
# Convergence counts

How often does the flow of a drawing arrive at a point, and how often does it depart from there?
Every step is counted as often as it is declared, so a branch that led to its join twice would show.

The steps are those that the nodes ask for. If the points are distinct, what a node asks for at one
of its points is also what is counted there, because no other node asks for a step at that point
(`Node.count_flatMap_asked`). `Diagram.converges_and_length_flowSteps` reads the counts off: the
first node is not arrived at and the last is not departed from, since no step was declared there.
-/

namespace ProcessChain

namespace Node

theorem length_asked_fork? (node : Node) :
    (node.asked fork?).length = node.branchCount + 1 := by
  cases node with
  | conditional id branches =>
      cases branches with
      | nil => rfl
      | cons branch others =>
          rw [asked_fork?_conditional]
          simp [branchCount]
  | _ => rfl

theorem join?_ne_id (node : Node) : node.join? ≠ some node.id := by
  cases node with
  | conditional id branches => cases branches <;> simp [join?, Node.id, id.join_ne]
  | _ => simp [join?]

theorem fork?_ne_exit (node : Node) : node.fork? ≠ some node.exit := by
  cases node with
  | conditional id branches => cases branches <;> simp [fork?, exit, id.join_ne.symm]
  | _ => simp [fork?]

theorem id_mem_ownPoints (node : Node) : node.id ∈ node.ownPoints := by
  cases node with
  | conditional id branches => cases branches <;> simp [ownPoints, Node.id]
  | _ => simp [ownPoints]

theorem exit_mem_ownPoints (node : Node) : node.exit ∈ node.ownPoints := by
  cases node with
  | conditional id branches => cases branches <;> simp [ownPoints, exit]
  | _ => simp [ownPoints, exit]

theorem mem_chainPreorder_of_mem {chain : Chain} {node : Node} (listed : node ∈ chain) :
    node ∈ chainPreorder chain := by
  induction chain with
  | nil => cases listed
  | cons first rest ih =>
      rw [chainPreorder, List.mem_append]
      rcases List.mem_cons.1 listed with rfl | later
      · left
        cases node <;> simp [preorder]
      · exact Or.inr (ih later)

theorem count_asked (shared? : Node → Option NodeId) {node : Node} {point : NodeId}
    (own : point ∈ node.ownPoints) :
    (node.asked shared?).count point =
      if shared? node = some point then node.branchCount else 1 := by
  cases node with
  | conditional id branches =>
      cases branches with
      | nil =>
          obtain rfl := List.mem_singleton.1 own
          simp [asked, ownPoints, Node.id]
      | cons branch others =>
          simp only [ownPoints, List.mem_cons, List.not_mem_nil, or_false] at own
          rcases own with rfl | rfl
          · simp [asked, ownPoints, List.count_replicate, point.join_ne]
          · simp [asked, ownPoints, List.count_replicate, id.join_ne.symm]
  | _ =>
      obtain rfl := List.mem_singleton.1 own
      simp [asked, ownPoints]

section Distinct

variable {shared? : Node → Option NodeId} {nodes : List Node} {node owner : Node}
  {points : List NodeId} {point loose : NodeId} (distinct : (nodes.flatMap ownPoints).Nodup)

include distinct

theorem eq_of_mem_ownPoints (listed : node ∈ nodes) (owned : owner ∈ nodes)
    (own : point ∈ node.ownPoints) (owns : point ∈ owner.ownPoints) : node = owner := by
  have apart := (List.nodup_flatMap.1 distinct).2
  have : Std.Symm (Function.onFun List.Disjoint ownPoints) :=
    ⟨fun _ _ disjoint => List.disjoint_symm disjoint⟩
  by_contra different
  exact apart.forall listed owned different own owns

theorem count_flatMap_asked (shared? : Node → Option NodeId) (listed : node ∈ nodes)
    (own : point ∈ node.ownPoints) :
    (nodes.flatMap (asked shared?)).count point =
      if shared? node = some point then node.branchCount else 1 := by
  induction nodes with
  | nil => cases listed
  | cons first rest ih =>
      rw [List.flatMap_cons, List.nodup_append] at distinct
      rcases distinct with ⟨_, restDistinct, apart⟩
      have outside (other : Node) (later : other ∈ rest) (owned : point ∈ other.ownPoints) :
          point ∉ first.ownPoints := by
        intro owns
        exact apart point owns point (List.mem_flatMap.2 ⟨other, later, owned⟩) rfl
      rw [List.flatMap_cons, List.count_append]
      rcases List.mem_cons.1 listed with rfl | later
      · have none : point ∉ rest.flatMap (asked shared?) := by
          intro found
          rcases List.mem_flatMap.1 found with ⟨other, later, owned⟩
          exact outside other later (asked_subset shared? other owned) own
        rw [List.count_eq_zero_of_not_mem none, Nat.add_zero, count_asked shared? own]
      · have none : point ∉ first.asked shared? :=
          fun found => outside node later own (asked_subset shared? first found)
        rw [List.count_eq_zero_of_not_mem none, Nat.zero_add, ih restDistinct later]

-- Some points that, with a loose one, are those that the nodes ask for.
variable (whole : (loose :: points).Perm (nodes.flatMap (asked shared?)))

include whole

theorem count_eq_one (listed : node ∈ nodes) (own : point ∈ node.ownPoints)
    (single : shared? node ≠ some point) (different : point ≠ loose) : points.count point = 1 := by
  have counted := count_flatMap_asked distinct shared? listed own
  rwa [if_neg single, ← whole.count_eq, List.count_cons_of_ne different.symm] at counted

variable (owned : owner ∈ nodes) (owns : loose ∈ owner.ownPoints)
  (unshared : shared? owner ≠ some loose)

include owned owns unshared

theorem count_eq_zero : points.count loose = 0 := by
  have counted := count_flatMap_asked distinct shared? owned owns
  rw [if_neg unshared, ← whole.count_eq, List.count_cons_self] at counted
  omega

theorem count_eq_branchCount (listed : node ∈ nodes) (own : point ∈ node.ownPoints)
    (shared : shared? node = some point) : points.count point = node.branchCount := by
  have apart : loose ≠ point := by
    rintro rfl
    rw [eq_of_mem_ownPoints distinct owned listed owns own] at unshared
    exact unshared shared
  have counted := count_flatMap_asked distinct shared? listed own
  rwa [if_pos shared, ← whole.count_eq, List.count_cons_of_ne apart] at counted

end Distinct

end Node

/-- The points where branches of a chain meet. -/
def Chain.joins (chain : Chain) : List NodeId :=
  (Node.chainPreorder chain).filterMap Node.join?

/-- The points where a chain parts into branches. -/
def Chain.forks (chain : Chain) : List NodeId :=
  (Node.chainPreorder chain).filterMap Node.fork?

namespace Diagram

open Node

/-- The flow of a diagram runs together only at joins, and parts only to reach them. -/
structure Converges (diagram : Diagram) : Prop where
  /-- Every branch of a conditional leads to its join, once. -/
  joins : ∀ id branches, .conditional id branches ∈ chainPreorder diagram.chain → branches ≠ [] →
    diagram.sketch.arrivals.count id.join = branches.length
  /-- A conditional leads to every branch of it, once. -/
  forks : ∀ id branches, .conditional id branches ∈ chainPreorder diagram.chain → branches ≠ [] →
    diagram.sketch.departures.count id = branches.length
  starts : ∀ first ∈ diagram.head?, diagram.sketch.arrivals.count first.id = 0
  arrives : ∀ point ∈ diagram.sketch.declared, point ∉ diagram.chain.joins →
    (∀ first ∈ diagram.head?, point ≠ first.id) → diagram.sketch.arrivals.count point = 1
  ends : ∀ last ∈ diagram.tail?, diagram.sketch.departures.count last.exit = 0
  departs : ∀ point ∈ diagram.sketch.declared, point ∉ diagram.chain.forks →
    (∀ last ∈ diagram.tail?, point ≠ last.exit) → diagram.sketch.departures.count point = 1

variable {diagram : Diagram} {first last : Node}

/-- The two sides are counted alike: the step to the first node is what the arrivals lack, and the
step from the last one what the departures lack. -/
theorem converges_of_passes (head : diagram.head? = some first) (tail : diagram.tail? = some last)
    (passes : diagram.sketch.Passes first.id last.exit (chainPreorder diagram.chain))
    (distinct : diagram.chain.points.Nodup) : diagram.Converges := by
  rcases passes with ⟨arrivals, departures⟩
  have firstListed := mem_chainPreorder_of_mem (List.mem_of_head? head)
  have lastListed := mem_chainPreorder_of_mem (List.mem_of_getLast? tail)
  constructor
  case joins =>
    rintro id (_ | ⟨branch, others⟩) listed nonempty
    · exact absurd rfl nonempty
    · exact count_eq_branchCount distinct arrivals firstListed first.id_mem_ownPoints
        first.join?_ne_id listed (by simp [ownPoints]) rfl
  case forks =>
    rintro id (_ | ⟨branch, others⟩) listed nonempty
    · exact absurd rfl nonempty
    · exact count_eq_branchCount distinct departures lastListed
        last.exit_mem_ownPoints last.fork?_ne_exit listed (by simp [ownPoints]) rfl
  case starts =>
    intro node isHead
    cases head.symm.trans isHead
    exact count_eq_zero distinct arrivals firstListed first.id_mem_ownPoints
      first.join?_ne_id
  case ends =>
    intro node isTail
    cases tail.symm.trans isTail
    exact count_eq_zero distinct departures lastListed
      last.exit_mem_ownPoints last.fork?_ne_exit
  case arrives =>
    intro point declared notJoin notHead
    rw [declared_sketch] at declared
    rcases List.mem_flatMap.1 declared with ⟨node, listed, own⟩
    have single : node.join? ≠ some point :=
      fun joins => notJoin (List.mem_filterMap.2 ⟨node, listed, joins⟩)
    exact count_eq_one distinct arrivals listed own single (notHead first head)
  case departs =>
    intro point declared notFork notTail
    rw [declared_sketch] at declared
    rcases List.mem_flatMap.1 declared with ⟨node, listed, own⟩
    have single : node.fork? ≠ some point :=
      fun forks => notFork (List.mem_filterMap.2 ⟨node, listed, forks⟩)
    exact count_eq_one distinct departures listed own single
      (notTail last tail)

/-- In the drawing of a diagram that is not empty and whose points are distinct, as many steps lead
to a join as its conditional has branches, one leads to each other point but the first, and the
steps are one less than the nodes and the branches together. -/
theorem converges_and_length_flowSteps (nonempty : diagram.chain ≠ [])
    (distinct : diagram.sketch.declared.Nodup) :
    diagram.Converges ∧
      diagram.sketch.flowSteps.length =
        (chainPreorder diagram.chain).length - 1 +
          ((chainPreorder diagram.chain).map branchCount).sum := by
  have head : diagram.head? = some (diagram.chain.head nonempty) :=
    List.head?_eq_some_head nonempty
  have tail : diagram.tail? = some (diagram.chain.getLast nonempty) :=
    List.getLast?_eq_some_getLast nonempty
  have passes : diagram.sketch.Passes _ _ (chainPreorder diagram.chain) :=
    passes_chainSketch diagram.chain head tail
  rw [declared_sketch] at distinct
  refine ⟨converges_of_passes head tail passes distinct, ?_⟩
  have some : 0 < (chainPreorder diagram.chain).length :=
    List.length_pos_of_mem (mem_chainPreorder_of_mem (List.mem_of_head? head))
  have lengths : diagram.sketch.flowSteps.length + 1 =
      ((chainPreorder diagram.chain).map branchCount).sum +
        (chainPreorder diagram.chain).length := by
    simpa [Sketch.departures, List.length_flatMap, length_asked_fork?, List.sum_map_add] using
      passes.departures.length_eq
  omega

/-- A conditional with an empty branch and one that ends in a conditional, a conditional without
branches, and at the end one with a single empty branch. -/
def reunited : Diagram where
  chain :=
    [.conditional ⟨"a"⟩
      [[],
        [.process ⟨⟨"b"⟩, "pay"⟩,
          .conditional ⟨"c"⟩ [[.event { id := ⟨"d"⟩, description := "paid" }], [], []]]],
    .conditional ⟨"e"⟩ [],
    .conditional ⟨"f"⟩ [[]]]

theorem converges_and_length_flowSteps_reunited :
    reunited.chain ≠ [] ∧ reunited.sketch.declared.Nodup ∧ reunited.Converges ∧
      reunited.sketch.flowSteps.length = 6 - 1 + 6 := by
  have nonempty : reunited.chain ≠ [] := by decide
  have distinct : reunited.sketch.declared.Nodup := by decide
  have counted := converges_and_length_flowSteps nonempty distinct
  exact ⟨nonempty, distinct, counted.1, counted.2⟩

end Diagram

end ProcessChain
