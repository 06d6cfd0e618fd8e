import ProcessChain.Proofs.Run.Comparison

/-!
# Where the faults of a run are

A fault names a flow or a region, and a line. Which source the line is one of cannot be told from
that, since inner flows of several sources may have one name. `Settings.faultsAt` lists the faults
of a run as `Settings.faults` does, each with a tag of the source that it is in. The tags are
arbitrary, so the list can be compared for two ways of giving the same sources.
-/

namespace ProcessChain

namespace Settings

/-- A fault that a source has by itself, or that its name has among other sources. -/
def HasFault (settings : Settings) (source : String × String) (fault : Fault) : Prop :=
  settings.language.regionFault? none (settings.comments source.2) = some fault ∨
    fault = .duplicateFlow source.1 ∨
    ∃ flow ∈ settings.mainFlow source :: settings.innerFlows source,
      flow.fault? settings.language = some fault

/-- The faults of a source after others, given their names: in its regions, then of its name. -/
def sourceFaults (settings : Settings) (taken : List String) (source : String × String) :
    List Fault :=
  (settings.language.regionFault? none (settings.comments source.2)).toList
    ++ (if source.1 ∈ taken then [.duplicateFlow source.1] else [])

/-- The faults of the inner flows of a source that have one of the given names. -/
def innerFaults (settings : Settings) (names : List String) (source : String × String) :
    List Fault :=
  ((settings.innerFlows source).filter (·.name ∈ names)).filterMap (·.fault? settings.language)

section Tagged

variable {τ : Type} (settings : Settings) (sourceOf : τ → String × String)

/-- The faults of sources after others, given their names, each with the tag of its source. -/
def sourceFaultsAt : (taken : List String) → List τ → List (τ × Fault)
  | _, [] => []
  | taken, tag :: rest =>
    (settings.sourceFaults taken (sourceOf tag)).map (tag, ·)
      ++ sourceFaultsAt (taken ++ [(sourceOf tag).1]) rest

/-- The names of the inner flows that the main flow of a source refers to. -/
def referred (source : String × String) : List String :=
  (settings.mainFlow source).references settings.language

/-- The faults that count for the drawings, each with the tag of its source. -/
def flowFaultsAt (tags : List τ) : List (τ × Fault) :=
  tags.flatMap fun tag =>
    ((settings.mainFlow (sourceOf tag)).fault? settings.language).toList.map (tag, ·)
      ++ tags.flatMap fun other =>
        (settings.innerFaults (settings.referred (sourceOf tag)) (sourceOf other)).map (other, ·)

/-- The faults of a run, in the order in which they count, each with the tag of its source. -/
def faultsAt (tags : List τ) : List (τ × Fault) :=
  settings.sourceFaultsAt sourceOf [] tags ++ settings.flowFaultsAt sourceOf tags

variable {settings sourceOf} {tags : List τ}

theorem map_snd_sourceFaultsAt (taken : List String) :
    (settings.sourceFaultsAt sourceOf taken tags).map Prod.snd =
      Flows.fileFaults settings.language taken (settings.files (tags.map sourceOf)) := by
  induction tags generalizing taken with
  | nil => rfl
  | cons tag rest ih =>
      rw [sourceFaultsAt, List.map_append, ih, List.map_map]
      simp [Function.comp_def, files, Flows.fileFaults, sourceFaults]

theorem map_snd_flowFaultsAt :
    (settings.flowFaultsAt sourceOf tags).map Prod.snd =
      (settings.flowsOf (tags.map sourceOf)).main.flatMap
        ((settings.flowsOf (tags.map sourceOf)).faultsOf settings.language) := by
  rw [main_flowsOf]
  unfold Flows.faultsOf Flows.innerNamed
  rw [inner_flowsOf]
  simp only [flowFaultsAt, innerFaults, List.map_flatMap, List.map_append, List.map_map,
    Function.comp_def, List.map_id', List.flatMap_map, List.filter_flatMap,
    List.filterMap_flatMap]
  rfl

/-- Without the tags, the faults are those of the sources. -/
theorem map_snd_faultsAt :
    (settings.faultsAt sourceOf tags).map Prod.snd = settings.faults (tags.map sourceOf) := by
  unfold faultsAt faults
  rw [List.map_append, map_snd_sourceFaultsAt, map_snd_flowFaultsAt]

theorem hasFault_of_mem_sourceFaultsAt {taken : List String} {tag : τ} {fault : Fault}
    (listed : (tag, fault) ∈ settings.sourceFaultsAt sourceOf taken tags) :
    tag ∈ tags ∧ settings.HasFault (sourceOf tag) fault := by
  induction tags generalizing taken with
  | nil => cases listed
  | cons first rest ih =>
      rcases List.mem_append.1 listed with ofFirst | ofRest
      · rcases List.mem_map.1 ofFirst with ⟨_, found, same⟩
        cases same
        refine ⟨List.mem_cons_self, ?_⟩
        rcases List.mem_append.1 found with ofRegions | ofName
        · exact .inl (Option.mem_toList.1 ofRegions)
        · split at ofName
          · exact .inr (.inl (List.mem_singleton.1 ofName))
          · cases ofName
      · rcases ih ofRest with ⟨later, has⟩
        exact ⟨List.mem_cons_of_mem _ later, has⟩

theorem hasFault_of_mem_faultsAt {tag : τ} {fault : Fault}
    (listed : (tag, fault) ∈ settings.faultsAt sourceOf tags) :
    tag ∈ tags ∧ settings.HasFault (sourceOf tag) fault := by
  rcases List.mem_append.1 listed with ofSource | ofFlow
  · exact hasFault_of_mem_sourceFaultsAt ofSource
  · rcases List.mem_flatMap.1 ofFlow with ⟨drawn, drawnListed, found⟩
    rcases List.mem_append.1 found with own | ofInner
    · rcases List.mem_map.1 own with ⟨_, found, same⟩
      cases same
      exact ⟨drawnListed, .inr (.inr ⟨_, List.mem_cons_self, Option.mem_toList.1 found⟩)⟩
    · rcases List.mem_flatMap.1 ofInner with ⟨other, otherListed, found⟩
      rcases List.mem_map.1 found with ⟨_, found, same⟩
      cases same
      rcases List.mem_filterMap.1 found with ⟨inner, innerListed, faulty⟩
      have declared := List.mem_of_mem_filter innerListed
      exact ⟨otherListed, .inr (.inr ⟨inner, List.mem_cons_of_mem _ declared, faulty⟩)⟩

/-- Sources that are given by other tags have the same faults. -/
theorem faultsAt_map {σ : Type} {sourceOf : σ → String × String} (view : τ → σ) :
    settings.faultsAt sourceOf (tags.map view) =
      (settings.faultsAt (sourceOf ∘ view) tags).map (Prod.map view id) := by
  have sourceFaults (taken : List String) :
      settings.sourceFaultsAt sourceOf taken (tags.map view) =
        (settings.sourceFaultsAt (sourceOf ∘ view) taken tags).map (Prod.map view id) := by
    induction tags generalizing taken with
    | nil => rfl
    | cons tag rest ih => simp [sourceFaultsAt, ih]
  unfold faultsAt
  rw [sourceFaults, List.map_append]
  simp [flowFaultsAt, List.map_flatMap, List.flatMap_map, Function.comp_def]

end Tagged

end Settings

end ProcessChain
