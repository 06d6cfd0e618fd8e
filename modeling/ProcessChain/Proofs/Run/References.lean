import ProcessChain.Proofs.Run.Formats

/-!
# The inner flows of a drawing

A drawing groups the inner flows that the processes of its main flow name, at any depth: one group
for each inner flow of the run, in the order of the run, however often it is named. Its members are
the nodes and joins of its own composition, and inner flows that are not named leave no trace.

A member of a group may still be a database or a call of the drawing, in the way that
`Settings.sidesApart_and_showsAll_iff` tells of: an inner flow is numbered in a scope that begins
with the name of the main flow, and if that name begins with `db:` or `api:`, every number in the
scope is written like a side (`readsLikeSide_innerScope_iff`).
-/

namespace ProcessChain

/-- A group is that of an inner flow in the drawing of a main flow, given its number among those
drawn there: it is labelled with the flow's name and lists what its composition declares. -/
def Dot.Cluster.IsGroupOf (cluster : Dot.Cluster) (language : Language) (main : String)
    (inner : Flow) (ordinal : Nat) : Prop :=
  cluster.name = Settings.innerScope main inner.name ordinal ∧ cluster.label = inner.name ∧
    ∃ diagram, language.composeIn cluster.name inner = .ok diagram ∧
      cluster.members = diagram.sketch.declared

namespace DrawnFlow

/-- The groups of a drawing in DOT. -/
def clusters (drawn : DrawnFlow) : List Dot.Cluster :=
  (Dot.Graph.ofDeclarations drawn.diagram.name drawn.declarations).clusters

/-- The inner flows that the processes of the main flow name, in the order of the run. -/
def referred (drawn : DrawnFlow) (flows : Flows) : List Flow :=
  flows.inner.filter (·.name ∈ drawn.diagram.chain.processNames)

/-- The groups of a drawing are those of the inner flows that its main flow names, each once and in
order; no other inner flow goes into it; and its groups list no database and no call unless the name
of the main flow begins like one. -/
structure GroupsReferred (drawn : DrawnFlow) (language : Language) (flows : Flows) (main : Flow) :
    Prop where
  one_each : List.Forall₂
    (fun numbered cluster => cluster.IsGroupOf language main.name numbered.1 numbered.2)
    ((drawn.referred flows).zipIdx 1) drawn.clusters
  names_nodup : (drawn.clusters.map (·.name)).Nodup
  others_unseen : ∀ others : Flows, drawn.referred others = drawn.referred flows →
    Settings.sketchFlow language others main = .ok drawn
  sides_apart : ¬ BeginsLikeSide main.name →
    ∀ cluster ∈ drawn.clusters,
      List.Disjoint cluster.members (Declaration.sides drawn.declarations)
  numbers_like_sides : ∀ cluster ∈ drawn.clusters, ∀ number,
    BeginsLikeSide main.name ↔ ∃ (side : Side) (name : String),
      side.id name = NodeId.numbered cluster.name number

namespace MadeOf

variable {drawn : DrawnFlow} {language : Language} {flows : Flows} {main : Flow}
  {inner : List Part}

theorem clusters_eq (made : drawn.MadeOf language flows main inner) :
    drawn.clusters = inner.map Part.cluster := by
  unfold clusters
  rw [Dot.Graph.clusters_ofDeclarations, made.groups_eq]

theorem referred_eq (made : drawn.MadeOf language flows main inner) (others : Flows) :
    drawn.referred others = others.innerNamed drawn.diagram.references := by
  have references_eq : drawn.diagram.references = drawn.diagram.chain.processNames :=
    Language.references_eq_processNames made.composed
  unfold referred Flows.innerNamed
  rw [references_eq]

theorem exists_scope_eq (made : drawn.MadeOf language flows main inner) {cluster : Dot.Cluster}
    (listed : cluster ∈ drawn.clusters) :
    ∃ part ∈ inner, part.cluster = cluster ∧
      (ReadsLikeSide part.scope ↔ BeginsLikeSide main.name) := by
  rw [made.clusters_eq] at listed
  rcases List.mem_map.1 listed with ⟨part, partListed, same⟩
  rcases exists_of_forall₂ made.inner_composed partListed with ⟨numbered, _, scope_eq, _⟩
  refine ⟨part, partListed, same, ?_⟩
  rw [scope_eq]
  exact readsLikeSide_innerScope_iff

/-- A member of a group that is a side too is written like a side, so the name begins like one. -/
theorem sides_apart_of_name (made : drawn.MadeOf language flows main inner)
    (plain : ¬ BeginsLikeSide main.name) {cluster : Dot.Cluster}
    (listed : cluster ∈ drawn.clusters) :
    List.Disjoint cluster.members (Declaration.sides drawn.declarations) := by
  rcases made.exists_scope_eq listed with ⟨part, partListed, rfl, reads_iff⟩
  intro id isMember isSide
  apply plain
  rw [← reads_iff]
  rw [Part.members_cluster] at isMember
  exact made.readsLikeSide_scope_of_mem (List.mem_cons_of_mem _ partListed) isMember isSide

theorem groupsReferred (made : drawn.MadeOf language flows main inner) :
    drawn.GroupsReferred language flows main := by
  refine ⟨?_, ?_, ?_, fun plain cluster => made.sides_apart_of_name plain, ?_⟩
  · rw [made.clusters_eq, made.referred_eq, List.forall₂_map_right_iff]
    refine made.inner_composed.imp ?_
    rintro numbered part ⟨scope_eq, composed⟩
    have named : part.diagram.name = numbered.1.name := (Language.composes_of_composeIn composed).1
    exact ⟨scope_eq, named, part.diagram, composed, rfl⟩
  · rw [made.clusters_eq, List.map_map]
    exact (List.nodup_cons.1 made.nodup_scopes).2
  · intro others same
    rw [made.referred_eq, made.referred_eq] at same
    refine Settings.sketchFlow_eq_ok_iff.2 ⟨inner, made.composed, ?_, made.declarations_eq⟩
    rw [same]
    exact made.inner_composed
  · intro cluster listed number
    rcases made.exists_scope_eq listed with ⟨part, _, rfl, reads_iff⟩
    rw [← reads_iff]
    exact readsLikeSide_iff number

end MadeOf

end DrawnFlow

namespace Settings

/-- In every drawing of a run there is one group for each inner flow that the main flow names, and
the groups list databases and calls only where the name of the main flow begins like one. -/
theorem groupsReferred_of_draw {settings : Settings} {sources : List (String × String)}
    {drawings : List Drawing} (accepted : settings.draw sources = .ok drawings) :
    ∃ flows drawn, settings.readFlows sources = .ok flows ∧
      List.Forall₂
        (fun main flow => (∃ inner, flow.MadeOf settings.language flows main inner) ∧
          flow.GroupsReferred settings.language flows main)
        flows.main drawn ∧
      drawings = drawn.map settings.drawing
        ++ [.ofDeclarations settings.format Overview.name (overview drawn)] := by
  rcases draw_eq_ok_iff.1 accepted with ⟨flows, drawn, read, made, drawings_eq⟩
  refine ⟨flows, drawn, read, made.imp ?_, drawings_eq⟩
  rintro main flow ⟨inner, made⟩
  exact ⟨⟨inner, made⟩, made.groupsReferred⟩

/-- A source that names an inner flow twice, once inside a conditional, and another source with an
inner flow of that name and one that is not named. -/
def branching : List (String × String) :=
  [("shop",
      "# if: card\n# inner-flow: pay\n# end:\n# inner-flow: pay\n"
        ++ "# inner-diagram: pay\n# act: charge\n# end-diagram:\n"),
    ("bank", "# inner-diagram: pay\n# end-diagram:\n# inner-diagram: rest\n# end-diagram:\n")]

def branchingMain : Flow :=
  ⟨"shop", [⟨"if: card", 1⟩, ⟨"inner-flow: pay", 2⟩, ⟨"end:", 3⟩, ⟨"inner-flow: pay", 4⟩]⟩

def branchingFlows : Flows where
  main := [branchingMain, ⟨"bank", []⟩]
  inner := [⟨"pay", [⟨"act: charge", 6⟩]⟩, ⟨"pay", []⟩, ⟨"rest", []⟩]

theorem groupsReferred_branching :
    ∃ drawings drawn, draw {} branching = .ok drawings ∧
      drawings[0]? = some (drawing {} drawn) ∧
      drawn.clusters.map (fun cluster => (cluster.name, cluster.label)) =
        [("shop/pay#1", "pay"), ("shop/pay#2", "pay")] ∧
      ∀ cluster ∈ drawn.clusters,
        List.Disjoint cluster.members (Declaration.sides drawn.declarations) := by
  have readBranching : readFlows {} branching = .ok branchingFlows := by decide +kernel
  have succeeds : (draw {} branching).isOk := by
    rw [draw, readBranching]
    decide +kernel
  rcases exists_eq_ok_of_isOk succeeds with ⟨drawings, accepted⟩
  rcases groupsReferred_of_draw accepted with ⟨flows, allDrawn, read, grouped, rfl⟩
  cases readBranching.symm.trans read
  rcases List.forall₂_cons_left_iff.1 grouped with
    ⟨drawn, others, ⟨⟨inner, made⟩, groups⟩, _, rfl⟩
  have referred : drawn.referred branchingFlows =
      [⟨"pay", [⟨"act: charge", 6⟩]⟩, ⟨"pay", []⟩] := by
    have composed : Language.standard.composeIn "shop" branchingMain = .ok drawn.diagram :=
      made.composed
    rw [made.referred_eq, Language.references_of_composeIn composed]
    decide +kernel
  have plain : ¬ BeginsLikeSide "shop" := by
    rintro ⟨side, rest, same⟩
    have texts := congrArg String.toList same
    cases side <;> simp [Side.tag] at texts
  have each := groups.one_each
  rw [referred] at each
  refine ⟨_, drawn, accepted, rfl, ?_, groups.sides_apart plain⟩
  generalize drawn.clusters = clusters at each
  rcases each with _ | ⟨⟨firstName, firstLabel, _⟩, _ | ⟨⟨secondName, secondLabel, _⟩, _ | _⟩⟩
  have names : innerScope "shop" "pay" 1 = "shop/pay#1" ∧
      innerScope "shop" "pay" 2 = "shop/pay#2" := by
    decide +kernel
  simp only [List.map_cons, List.map_nil, firstName, firstLabel, secondName, secondLabel]
  change [(innerScope "shop" "pay" 1, "pay"), (innerScope "shop" "pay" 2, "pay")] = _
  rw [names.1, names.2]

/-- A source whose name begins like a database, with a database that is named like a number of its
inner flow. -/
def shelved : List (String × String) :=
  [("db:x",
    "# act: load [=] x/pay#1:0\n# inner-flow: pay\n# inner-diagram: pay\n# act: charge\n"
      ++ "# end-diagram:\n")]

def shelvedMain : Flow :=
  ⟨"db:x", [⟨"act: load [=] x/pay#1:0", 1⟩, ⟨"inner-flow: pay", 2⟩]⟩

def shelvedInner : Flow :=
  ⟨"pay", [⟨"act: charge", 4⟩]⟩

def shelvedPart : Part where
  scope := "db:x/pay#1"
  diagram :=
    { name := "pay"
      chain := [.activity { id := ⟨"db:x/pay#1:0"⟩, description := "charge" }] }

def shelvedFlow : DrawnFlow where
  diagram :=
    { name := "db:x"
      chain :=
        [.activity { id := ⟨"db:x:0"⟩, description := "load", database := some "x/pay#1:0" },
          .process { id := ⟨"db:x:1"⟩, flow := "pay" }]
      references := ["pay"] }
  declarations :=
    [.node ⟨"db:x:0"⟩ "load" .activity, .node ⟨"db:x/pay#1:0"⟩ "x/pay#1:0" .database,
      .edge ⟨⟨"db:x:0"⟩, ⟨"db:x/pay#1:0"⟩, .data⟩, .edge ⟨⟨"db:x:0"⟩, ⟨"db:x:1"⟩, .flow⟩,
      .node ⟨"db:x:1"⟩ "pay" .process] ++ shelvedPart.declarations

theorem madeOf_shelvedFlow :
    shelvedFlow.MadeOf .standard ⟨[shelvedMain], [shelvedInner]⟩ shelvedMain [shelvedPart] := by
  refine ⟨?_, ?_, by decide⟩
  · unfold Part.ComposedFrom
    cbv
  · have composed : shelvedPart.ComposedFrom .standard shelvedInner := by
      unfold Part.ComposedFrom
      cbv
    have scope_eq : shelvedPart.scope = innerScope "db:x" "pay" 1 := by decide
    exact List.Forall₂.cons ⟨scope_eq, composed⟩ .nil

/-- The group of the inner flow lists the database, which takes the place of its only activity. -/
theorem not_sides_apart_shelved :
    draw {} shelved = .ok [drawing {} shelvedFlow,
      .ofDeclarations .dot Overview.name (overview [shelvedFlow])] ∧
    shelvedFlow.clusters = [⟨"db:x/pay#1", "pay", [⟨"db:x/pay#1:0"⟩]⟩] ∧
    .node ⟨"db:x/pay#1:0"⟩ "x/pay#1:0" .database ∈ shelvedFlow.declarations ∧
    Format.dot.nodes "db:x" shelvedFlow.declarations =
      [(⟨"db:x:0"⟩, "load", .activity), (⟨"db:x/pay#1:0"⟩, "x/pay#1:0", .database),
        (⟨"db:x:1"⟩, "pay", .process)] := by
  have read : readFlows {} shelved = .ok ⟨[shelvedMain], [shelvedInner]⟩ := by decide +kernel
  refine ⟨?_, by decide, by decide, by decide⟩
  exact draw_eq_ok_iff.2 ⟨_, [shelvedFlow], read,
    List.Forall₂.cons ⟨[shelvedPart], madeOf_shelvedFlow⟩ .nil, rfl⟩

end Settings

end ProcessChain
