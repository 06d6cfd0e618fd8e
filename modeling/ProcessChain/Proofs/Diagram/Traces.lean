import Mathlib.Data.List.Chain
import Mathlib.Data.List.Nodup
import ProcessChain.Proofs.Composition.Numbering
import ProcessChain.Proofs.Diagram.Steps

/-!
# Executions of a chain

A chain means its traces. A trace visits the nodes in order, and at a conditional with branches it
enters the conditional, takes one of the branches and leaves through the join. A drawing means its
runs: paths along steps of the flow that begin at the first node and go on as long as they can.

`Node.reaches_entry?_iff` relates the two inside any larger drawing. It speaks of one set of steps,
those of the whole drawing, and asks only that they agree with the sketch of the part on the points
of the part. The points of different parts are different, so the assumption is handed down to
every part. What a run does after it has left a part is kept open: it goes on from the ending of
the part, which for a chain in a branch is the join around it.

`Diagram.isRun_iff_mem_traces` is the result for whole diagrams. Composed diagrams satisfy its
assumption because composition never gives out a number twice.
-/

namespace ProcessChain

namespace Node

mutual

def traces : Node → List (List NodeId)
  | .activity body => [[body.id]]
  | .event body => [[body.id]]
  | .process body => [[body.id]]
  | .conditional id branches =>
    if branches.isEmpty then
      [[id]]
    else
      (branchesTraces branches).map fun taken => id :: (taken ++ [id.join])

def branchesTraces : List Chain → List (List NodeId)
  | [] => []
  | branch :: rest => chainTraces branch ++ branchesTraces rest

/-- The ways through a chain: a way through each node in order. -/
def chainTraces : Chain → List (List NodeId)
  | [] => [[]]
  | node :: rest => node.traces.flatMap fun first => (chainTraces rest).map (first ++ ·)

end

end Node

/-- A path along steps from a start to a point that no step leads on from. -/
structure IsRun (steps : List (NodeId × NodeId)) (start : NodeId) (path : List NodeId) : Prop where
  starts : path.head? = some start
  linked : path.IsChain fun source target => (source, target) ∈ steps
  ends : ∀ last ∈ path.getLast?, ∀ target, (last, target) ∉ steps

/-- The runs from a point; where there is no point to go to, only the empty path. -/
def Reaches (steps : List (NodeId × NodeId)) : Option NodeId → List NodeId → Prop
  | none, path => path = []
  | some point, path => IsRun steps point path

@[simp]
theorem reaches_none {steps : List (NodeId × NodeId)} {path : List NodeId} :
    Reaches steps none path ↔ path = [] := Iff.rfl

@[simp]
theorem reaches_some {steps : List (NodeId × NodeId)} {point : NodeId} {path : List NodeId} :
    Reaches steps (some point) path ↔ IsRun steps point path := Iff.rfl

/-- Two sets of steps lead on from some points in the same way. -/
def AgreeOn (points : List NodeId) (steps others : List (NodeId × NodeId)) : Prop :=
  ∀ source ∈ points, ∀ target, (source, target) ∈ steps ↔ (source, target) ∈ others

section Runs

variable {steps : List (NodeId × NodeId)} {start : NodeId} {path rest : List NodeId}

theorem IsRun.exists_eq_cons (run : IsRun steps start path) : ∃ rest, path = start :: rest := by
  cases path with
  | nil => simpa using run.starts
  | cons first rest =>
      have same : first = start := by simpa using run.starts
      exact ⟨rest, by rw [same]⟩

/-- A run ends at its start if no step leads on, and takes a step and goes on otherwise. -/
theorem isRun_cons_iff :
    IsRun steps start (start :: rest) ↔
      (rest = [] ∧ ∀ target, (start, target) ∉ steps) ∨
        ∃ target, (start, target) ∈ steps ∧ IsRun steps target rest := by
  cases rest with
  | nil =>
      constructor
      · intro run
        exact Or.inl ⟨rfl, run.ends start (by simp)⟩
      · rintro (⟨_, final⟩ | ⟨target, _, run⟩)
        · refine ⟨rfl, List.isChain_singleton start, ?_⟩
          intro last last_mem
          obtain rfl : start = last := by simpa using last_mem
          exact final
        · simpa using run.starts
  | cons next rest =>
      constructor
      · rintro ⟨_, linked, ends⟩
        rw [List.isChain_cons_cons] at linked
        exact Or.inr ⟨next, linked.1, rfl, linked.2, by simpa using ends⟩
      · rintro (⟨impossible, _⟩ | ⟨target, step, run⟩)
        · simp at impossible
        · obtain rfl : next = target := by simpa using run.starts
          exact ⟨rfl, List.isChain_cons_cons.2 ⟨step, run.linked⟩, by simpa using run.ends⟩

/-- A run goes on from a point with at most one step from it as that step says. -/
theorem isRun_cons_iff_reaches {next? : Option NodeId}
    (only : ∀ target, (start, target) ∈ steps ↔ next? = some target) :
    IsRun steps start (start :: rest) ↔ Reaches steps next? rest := by
  rw [isRun_cons_iff]
  cases next? with
  | none => simp [only]
  | some next => simp [only]

/-- A run goes on from a point with steps to the heads of some chains into one of them. -/
theorem isRun_cons_iff_exists_reaches {branches : List Chain} {ending : NodeId}
    (nonempty : branches ≠ [])
    (each : ∀ target, (start, target) ∈ steps ↔
      ∃ branch ∈ branches, Chain.entry? branch (some ending) = some target) :
    IsRun steps start (start :: rest) ↔
      ∃ branch ∈ branches, Reaches steps (Chain.entry? branch (some ending)) rest := by
  have entered (branch : Chain) : ∃ target, Chain.entry? branch (some ending) = some target := by
    cases branch with
    | nil => exact ⟨ending, rfl⟩
    | cons node others => exact ⟨node.id, rfl⟩
  rw [isRun_cons_iff]
  constructor
  · rintro (⟨_, final⟩ | ⟨target, step, run⟩)
    · rcases List.exists_mem_of_ne_nil branches nonempty with ⟨branch, member⟩
      rcases entered branch with ⟨target, entry⟩
      exact absurd ((each target).2 ⟨branch, member, entry⟩) (final target)
    · rcases (each target).1 step with ⟨branch, member, entry⟩
      exact ⟨branch, member, by rw [entry]; exact run⟩
  · rintro ⟨branch, member, run⟩
    rcases entered branch with ⟨target, entry⟩
    rw [entry] at run
    exact Or.inr ⟨target, (each target).2 ⟨branch, member, entry⟩, run⟩

end Runs

namespace AgreeOn

variable {points : List NodeId} {steps others : List (NodeId × NodeId)}

theorem refl (points : List NodeId) (steps : List (NodeId × NodeId)) :
    AgreeOn points steps steps :=
  fun _ _ _ => Iff.rfl

theorem trans {more : List (NodeId × NodeId)} (first : AgreeOn points steps others)
    (second : AgreeOn points others more) : AgreeOn points steps more :=
  fun source member target =>
    (first source member target).trans (second source member target)

theorem mono {fewer : List NodeId} (agree : AgreeOn points steps others)
    (subset : ∀ point ∈ fewer, point ∈ points) : AgreeOn fewer steps others :=
  fun source member target => agree source (subset source member) target

end AgreeOn

namespace Node

/-- Around the first node of a chain the steps of the chain are those of the node. -/
theorem agreeOn_interior {node : Node} {rest : Chain} (ending : Option NodeId)
    (distinct : (Chain.points (node :: rest)).Nodup) :
    AgreeOn node.interior (chainSketch ending (node :: rest)).flowSteps
      node.sketch.flowSteps := by
  rw [Chain.points_cons, List.nodup_append] at distinct
  rcases distinct with ⟨nodeDistinct, _, apart⟩
  intro source inside target
  have member : source ∈ node.points := mem_points_iff.2 (Or.inr inside)
  simp only [chainSketch, Sketch.flowSteps_append, List.mem_append, Sketch.mem_flowSteps_link]
  constructor
  · rintro ((first | ⟨start, _⟩) | later)
    · exact first
    · rw [start] at inside
      exact absurd inside (exit_notMem_interior nodeDistinct)
    · exact absurd rfl (apart source member source (mem_points_of_chainStep ending rest later))
  · intro first
    exact Or.inl (Or.inl first)

/-- The only step from the exit of the first node leads to what the rest is entered by. -/
theorem step_exit_iff {node : Node} {rest : Chain} (ending : Option NodeId)
    (distinct : (Chain.points (node :: rest)).Nodup) (target : NodeId) :
    (node.exit, target) ∈ (chainSketch ending (node :: rest)).flowSteps ↔
      Chain.entry? rest ending = some target := by
  rw [Chain.points_cons, List.nodup_append] at distinct
  rcases distinct with ⟨nodeDistinct, _, apart⟩
  simp only [chainSketch, Sketch.flowSteps_append, List.mem_append, Sketch.mem_flowSteps_link]
  constructor
  · rintro ((first | ⟨_, next⟩) | later)
    · exact absurd (mem_interior_of_step node first) (exit_notMem_interior nodeDistinct)
    · exact next
    · exact absurd rfl
        (apart node.exit node.exit_mem_points node.exit (mem_points_of_chainStep ending rest later))
  · intro next
    exact Or.inl (Or.inr ⟨trivial, next⟩)

theorem agreeOn_rest {node : Node} {rest : Chain} (ending : Option NodeId)
    (distinct : (Chain.points (node :: rest)).Nodup) :
    AgreeOn (Chain.points rest) (chainSketch ending (node :: rest)).flowSteps
      (chainSketch ending rest).flowSteps := by
  rw [Chain.points_cons, List.nodup_append] at distinct
  rcases distinct with ⟨_, _, apart⟩
  intro source inside target
  simp only [chainSketch, Sketch.flowSteps_append, List.mem_append, Sketch.mem_flowSteps_link]
  constructor
  · rintro ((first | ⟨start, _⟩) | later)
    · have member := mem_points_iff.2 (Or.inr (mem_interior_of_step node first))
      exact absurd rfl (apart source member source inside)
    · rw [start] at inside
      exact absurd rfl (apart node.exit node.exit_mem_points node.exit inside)
    · exact later
  · intro later
    exact Or.inr later

theorem agreeOn_branch {id : NodeId} {branch : Chain} {rest : List Chain}
    (outside : id ∉ branchesPoints (branch :: rest))
    (distinct : (branchesPoints (branch :: rest)).Nodup) :
    AgreeOn (Chain.points branch) (branchesSketch id (branch :: rest)).flowSteps
      (chainSketch (some id.join) branch).flowSteps := by
  rw [branchesPoints_cons, List.nodup_append] at distinct
  rcases distinct with ⟨_, _, apart⟩
  intro source inside target
  have different : source ≠ id := by
    rintro rfl
    exact outside (by simp [inside])
  simp only [branchesSketch, Sketch.flowSteps_append, List.mem_append, Sketch.mem_flowSteps_link]
  constructor
  · rintro ((⟨start, _⟩ | first) | later)
    · exact absurd start different
    · exact first
    · rcases mem_points_of_branchesStep id rest later with start | member
      · exact absurd start different
      · exact absurd rfl (apart source inside source member)
  · intro first
    exact Or.inl (Or.inr first)

theorem agreeOn_laterBranches {id : NodeId} {branch : Chain} {rest : List Chain}
    (outside : id ∉ branchesPoints (branch :: rest))
    (distinct : (branchesPoints (branch :: rest)).Nodup) :
    AgreeOn (branchesPoints rest) (branchesSketch id (branch :: rest)).flowSteps
      (branchesSketch id rest).flowSteps := by
  rw [branchesPoints_cons, List.nodup_append] at distinct
  rcases distinct with ⟨_, _, apart⟩
  intro source inside target
  have different : source ≠ id := by
    rintro rfl
    exact outside (by simp [inside])
  simp only [branchesSketch, Sketch.flowSteps_append, List.mem_append, Sketch.mem_flowSteps_link]
  constructor
  · rintro ((⟨start, _⟩ | first) | later)
    · exact absurd start different
    · have member := mem_points_of_chainStep (some id.join) branch first
      exact absurd rfl (apart source member source inside)
    · exact later
  · intro later
    exact Or.inr later

theorem step_id_iff {id : NodeId} {branches : List Chain}
    (outside : id ∉ branchesPoints branches) (target : NodeId) :
    (id, target) ∈ (branchesSketch id branches).flowSteps ↔
      ∃ branch ∈ branches, Chain.entry? branch (some id.join) = some target := by
  induction branches with
  | nil => simp [branchesSketch]
  | cons branch rest ih =>
      simp only [branchesPoints_cons, List.mem_append, not_or] at outside
      have noStep : (id, target) ∉ (chainSketch (some id.join) branch).flowSteps :=
        fun step => outside.1 (mem_points_of_chainStep (some id.join) branch step)
      simp [branchesSketch, ih outside.2, noStep]

@[simp]
theorem traces_conditional_cons (id : NodeId) (branch : Chain) (others : List Chain) :
    (conditional id (branch :: others)).traces =
      (branchesTraces (branch :: others)).map fun taken => id :: (taken ++ [id.join]) := by
  simp [traces]

mutual

/-- A run through a node takes one of the ways through it and goes on from its exit. -/
theorem isRun_id_iff {steps : List (NodeId × NodeId)} (node : Node)
    (distinct : node.points.Nodup)
    (agree : AgreeOn node.interior steps node.sketch.flowSteps) (path : List NodeId) :
    IsRun steps node.id path ↔
      ∃ trace ∈ node.traces, ∃ rest, path = trace ++ rest ∧
        IsRun steps node.exit (node.exit :: rest) := by
  have single (point : NodeId) :
      IsRun steps point path ↔
        ∃ trace ∈ [[point]], ∃ rest, path = trace ++ rest ∧ IsRun steps point (point :: rest) := by
    constructor
    · intro run
      rcases run.exists_eq_cons with ⟨rest, rfl⟩
      exact ⟨[point], by simp, rest, rfl, run⟩
    · rintro ⟨trace, member, rest, rfl, run⟩
      obtain rfl : trace = [point] := by simpa using member
      exact run
  cases node with
  | activity body => exact single body.id
  | event body => exact single body.id
  | process body => exact single body.id
  | conditional id branches =>
      cases branches with
      | nil => exact single id
      | cons branch others =>
          simp only [points_conditional_cons, List.nodup_cons, List.mem_cons, not_or] at distinct
          rcases distinct with ⟨⟨_, outside⟩, _, inside⟩
          have branchesAgree : AgreeOn (id :: branchesPoints (branch :: others)) steps
              (branchesSketch id (branch :: others)).flowSteps := by
            simpa [interior, sketch] using agree
          have first (target : NodeId) :
              (id, target) ∈ steps ↔
                ∃ taken ∈ branch :: others, Chain.entry? taken (some id.join) = some target := by
            rw [branchesAgree id (by simp) target, step_id_iff outside]
          have inBranches := reaches_branches_iff id (branch :: others) outside inside
            (branchesAgree.mono fun point member => List.mem_cons_of_mem id member)
          have enters (rest : List NodeId) :
              IsRun steps id (id :: rest) ↔
                ∃ taken ∈ branch :: others,
                  Reaches steps (Chain.entry? taken (some id.join)) rest :=
            isRun_cons_iff_exists_reaches (by simp) first
          change IsRun steps id path ↔ _
          constructor
          · intro run
            rcases run.exists_eq_cons with ⟨rest, rfl⟩
            rcases (inBranches rest).1 ((enters rest).1 run) with ⟨taken, member, left, rfl, onward⟩
            rcases onward.exists_eq_cons with ⟨after, rfl⟩
            exact ⟨id :: (taken ++ [id.join]), by simp [member], after, by simp, onward⟩
          · rintro ⟨trace, member, rest, rfl, onward⟩
            rw [traces_conditional_cons, List.mem_map] at member
            rcases member with ⟨taken, member, rfl⟩
            change IsRun steps id (id :: (taken ++ [id.join] ++ rest))
            rw [enters, inBranches]
            exact ⟨taken, member, id.join :: rest, by simp, onward⟩

theorem reaches_branches_iff {steps : List (NodeId × NodeId)} (id : NodeId)
    (branches : List Chain) (outside : id ∉ branchesPoints branches)
    (distinct : (branchesPoints branches).Nodup)
    (agree : AgreeOn (branchesPoints branches) steps (branchesSketch id branches).flowSteps)
    (path : List NodeId) :
    (∃ branch ∈ branches, Reaches steps (Chain.entry? branch (some id.join)) path) ↔
      ∃ trace ∈ branchesTraces branches, ∃ rest, path = trace ++ rest ∧
        IsRun steps id.join rest := by
  cases branches with
  | nil => simp [branchesTraces]
  | cons branch others =>
      have inside : (Chain.points branch).Nodup ∧ (branchesPoints others).Nodup := by
        rw [branchesPoints_cons, List.nodup_append] at distinct
        exact ⟨distinct.1, distinct.2.1⟩
      have outsideOthers : id ∉ branchesPoints others :=
        fun member => outside (by simp [member])
      have first := reaches_entry?_iff (some id.join) branch inside.1
        ((agree.mono (by simp +contextual)).trans (agreeOn_branch outside distinct)) path
      have later := reaches_branches_iff id others outsideOthers inside.2
        ((agree.mono (by simp +contextual)).trans (agreeOn_laterBranches outside distinct)) path
      simp only [List.exists_mem_cons_iff, first, later, branchesTraces, List.mem_append,
        or_and_right, exists_or, reaches_some]

theorem reaches_entry?_iff {steps : List (NodeId × NodeId)} (ending : Option NodeId)
    (chain : Chain) (distinct : (Chain.points chain).Nodup)
    (agree : AgreeOn (Chain.points chain) steps (chainSketch ending chain).flowSteps)
    (path : List NodeId) :
    Reaches steps (Chain.entry? chain ending) path ↔
      ∃ trace ∈ chainTraces chain, ∃ rest, path = trace ++ rest ∧ Reaches steps ending rest := by
  cases chain with
  | nil => simp [chainTraces, Chain.entry?]
  | cons node others =>
      have inside : node.points.Nodup ∧ (Chain.points others).Nodup := by
        rw [Chain.points_cons, List.nodup_append] at distinct
        exact ⟨distinct.1, distinct.2.1⟩
      have first := isRun_id_iff node inside.1
        ((agree.mono fun point member => by
          simp [mem_points_iff.2 (Or.inr member)]).trans (agreeOn_interior ending distinct)) path
      have later := reaches_entry?_iff ending others inside.2
        ((agree.mono (by simp +contextual)).trans (agreeOn_rest ending distinct))
      have next (target : NodeId) :
          (node.exit, target) ∈ steps ↔ Chain.entry? others ending = some target := by
        rw [agree node.exit (by simp [node.exit_mem_points]), step_exit_iff ending distinct]
      change IsRun steps node.id path ↔ _
      rw [first]
      simp only [isRun_cons_iff_reaches next, later]
      constructor
      · rintro ⟨trace, member, _, rfl, further, furtherMember, rest, rfl, onward⟩
        refine ⟨trace ++ further, ?_, rest, by simp, onward⟩
        exact List.mem_flatMap.2 ⟨trace, member, List.mem_map.2 ⟨further, furtherMember, rfl⟩⟩
      · rintro ⟨trace, member, rest, rfl, onward⟩
        rcases List.mem_flatMap.1 member with ⟨start, startMember, member⟩
        rcases List.mem_map.1 member with ⟨further, furtherMember, rfl⟩
        exact ⟨start, startMember, further ++ rest, by simp, further, furtherMember, rest, rfl,
          onward⟩

end

end Node

namespace Diagram

/-- If the points of a diagram are distinct, the runs of its drawing are its traces. -/
theorem isRun_sketch_iff {diagram : Diagram} {head : Node} (nonempty : diagram.head? = some head)
    (distinct : diagram.chain.points.Nodup) (path : List NodeId) :
    IsRun diagram.sketch.flowSteps head.id path ↔ path ∈ Node.chainTraces diagram.chain := by
  have entry : Chain.entry? diagram.chain none = some head.id := by
    rcases List.head?_eq_some_iff.1 nonempty with ⟨rest, chain_eq⟩
    rw [chain_eq]
    rfl
  have reaches := Node.reaches_entry?_iff none diagram.chain distinct
    (AgreeOn.refl diagram.chain.points diagram.sketch.flowSteps) path
  rw [entry, reaches_some] at reaches
  simpa using reaches

/-- The drawing of a diagram that is not empty has exactly the traces of the diagram as its runs,
if the points of the diagram are distinct, and in particular if the diagram is composed. -/
theorem isRun_iff_mem_traces :
    (∀ (diagram : Diagram) (head : Node), diagram.head? = some head →
      diagram.chain.points.Nodup → ∀ path : List NodeId,
        IsRun diagram.sketch.flowSteps head.id path ↔ path ∈ Node.chainTraces diagram.chain) ∧
    (∀ (language : Language) (scope : String) (flow : Flow) (diagram : Diagram) (head : Node),
      language.composeIn scope flow = .ok diagram → diagram.head? = some head →
        ∀ path : List NodeId,
          IsRun diagram.sketch.flowSteps head.id path ↔
            path ∈ Node.chainTraces diagram.chain) := by
  constructor
  · intro diagram head nonempty distinct path
    exact isRun_sketch_iff nonempty distinct path
  · intro language scope flow diagram head returned nonempty path
    exact isRun_sketch_iff nonempty (Language.nodup_points_of_composeIn returned) path

/-- A conditional ends a branch of another one, which has an empty branch beside it. -/
def nested : Diagram where
  chain :=
    [.conditional ⟨"outer"⟩
      [[.event { id := ⟨"e"⟩, description := "E" },
        .conditional ⟨"inner"⟩ [[.activity { id := ⟨"a"⟩, description := "A" }]]],
      []],
    .conditional ⟨"plain"⟩ []]

/-- A flow with one conditional, whose second branch is empty. -/
def optional : Flow :=
  ⟨"shop", [⟨"if: paid", 1⟩, ⟨"act: ship", 2⟩, ⟨"else:", 3⟩, ⟨"end:", 4⟩]⟩

def optionalDiagram : Diagram where
  name := "shop"
  chain :=
    [.conditional (.numbered "shop" 0)
      [[.activity { id := .numbered "shop" 1, description := "ship" }], []]]

theorem isRun_nested_and_optional :
    nested.chain.points.Nodup ∧
      IsRun nested.sketch.flowSteps ⟨"outer"⟩
        [⟨"outer"⟩, ⟨"e"⟩, ⟨"inner"⟩, ⟨"a"⟩, ⟨"inner.join"⟩, ⟨"outer.join"⟩, ⟨"plain"⟩] ∧
      Language.standard.composeIn "shop" optional = .ok optionalDiagram ∧
      IsRun optionalDiagram.sketch.flowSteps ⟨"shop:0"⟩ [⟨"shop:0"⟩, ⟨"shop:0.join"⟩] := by
  have distinct : nested.chain.points.Nodup := by decide
  have composed : Language.standard.composeIn "shop" optional = .ok optionalDiagram := by cbv
  refine ⟨distinct, ?_, composed, ?_⟩
  · exact (isRun_iff_mem_traces.1 nested _ rfl distinct _).2 (by decide)
  · exact (isRun_iff_mem_traces.2 _ _ _ _ _ composed rfl _).2 (by decide)

end Diagram

end ProcessChain
