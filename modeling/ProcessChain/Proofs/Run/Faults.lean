import ProcessChain.Proofs.Composition.Gathering
import ProcessChain.Proofs.Composition.OpenConditionals
import ProcessChain.Proofs.Flow.Regions
import ProcessChain.Proofs.Run.Parts
import ProcessChain.Proofs.Run.Positions

/-!
# Faults of a run

A run stops at its first fault. What faults its sources have can be listed without running it: first
those of the files, in their order, and for a file its regions before its name; then those of the
main flows, in the same order, and for a main flow its own before those of the inner flows that it
refers to. The fault that is reported is the first one of that list
(`Settings.faultOf?_draw`), and the list is empty exactly if the sources are well-formed.

The list goes on after its first fault, so it says nothing about what a run has read by then: the
flows in it are cut out of the tokens as if all regions were bracketed.
-/

namespace ProcessChain

def Flow.Closed (flow : Flow) (language : Language) : Prop :=
  flow.openLines language = []

namespace Flows

variable {language : Language} {flows : Flows}

/-- The faults of some files, in order: of each file its regions come before its name, which must
not be taken. -/
def fileFaults (language : Language) :
    (taken : List String) → (files : List (String × List Token)) → List Fault
  | _, [] => []
  | taken, (name, tokens) :: rest =>
    (language.regionFault? none tokens).toList
      ++ (if name ∈ taken then [.duplicateFlow name] else [])
      ++ fileFaults language (taken ++ [name]) rest

def ofFiles (language : Language) (files : List (String × List Token)) : Flows where
  main := files.map fun (name, tokens) => ⟨name, language.outside false tokens⟩
  inner := files.flatMap fun (_, tokens) => language.regions tokens

/-- The faults that count for the drawing of a main flow: its own, and those of the inner flows that
it refers to, in the order of the run. -/
def faultsOf (flows : Flows) (language : Language) (main : Flow) : List Fault :=
  (main.fault? language).toList
    ++ (flows.innerNamed (main.references language)).filterMap (·.fault? language)

/-- Files are added up to the first fault among them, and if there is none, their flows come after
those that are there. -/
theorem addAll_eq (language : Language) (flows : Flows) (files : List (String × List Token)) :
    (addAll language flows files).2 = (fileFaults language flows.mainNames files).head? ∧
      (fileFaults language flows.mainNames files = [] →
        (addAll language flows files).1 =
          ⟨flows.main ++ (ofFiles language files).main,
            flows.inner ++ (ofFiles language files).inner⟩) := by
  induction files generalizing flows with
  | nil => simp [addAll, fileFaults, ofFiles]
  | cons file rest ih =>
      rcases file with ⟨name, tokens⟩
      rw [addAll, add_eq, fileFaults]
      cases language.regionFault? none tokens with
      | some fault => simp [outcomeOf]
      | none =>
          by_cases taken : name ∈ flows.mainNames
          · simp [outcomeOf, taken]
          · have more := ih ⟨flows.main ++ [⟨name, language.outside false tokens⟩],
              flows.inner ++ language.regions tokens⟩
            rw [if_neg taken, if_neg taken]
            simpa [outcomeOf, mainNames, ofFiles] using more

theorem fileFaults_eq_nil_iff {taken : List String} {files : List (String × List Token)} :
    fileFaults language taken files = [] ↔
      (∀ file ∈ files, language.Bracketed false file.2) ∧ (files.map Prod.fst).Nodup ∧
        ∀ name ∈ taken, name ∉ files.map Prod.fst := by
  induction files generalizing taken with
  | nil => simp [fileFaults]
  | cons file rest ih =>
      rcases file with ⟨name, tokens⟩
      have bracketed : language.regionFault? none tokens = none ↔ language.Bracketed false tokens :=
        Language.regionFault?_eq_none_iff
      have free :
          (if name ∈ taken then [Fault.duplicateFlow name] else []) = [] ↔ name ∉ taken := by
        simp
      have apart : (∀ other ∈ taken, other ∉ name :: rest.map Prod.fst) ↔
          name ∉ taken ∧ ∀ other ∈ taken, other ∉ rest.map Prod.fst := by
        constructor
        · intro absent
          exact ⟨fun found => absent name found List.mem_cons_self,
            fun other found later => absent other found (List.mem_cons_of_mem _ later)⟩
        · rintro ⟨free, absent⟩ other found listed
          rcases List.mem_cons.1 listed with rfl | later
          · exact free found
          · exact absent other found later
      simp only [fileFaults, List.append_eq_nil_iff, Option.toList_eq_nil_iff, bracketed, free, ih,
        List.forall_mem_cons, List.forall_mem_append, List.map_cons, List.nodup_cons, apart]
      tauto

theorem vocabulary_notMem_fileFaults (flaw : Vocabulary.Flaw) {taken : List String}
    {files : List (String × List Token)} :
    Fault.vocabulary flaw ∉ fileFaults language taken files := by
  induction files generalizing taken with
  | nil => simp [fileFaults]
  | cons file rest ih =>
      rcases file with ⟨name, tokens⟩
      intro listed
      rcases List.mem_append.1 listed with ofFirst | ofRest
      · rcases List.mem_append.1 ofFirst with ofRegions | ofName
        · exact Language.regionFault?_ne_vocabulary flaw (Option.mem_toList.1 ofRegions)
        · split at ofName <;> simp at ofName
      · exact ih ofRest

/-- A name is reported only if it is that of two files, or of a file and a flow that is there. -/
theorem one_lt_count_of_duplicateFlow_mem {name : String} {taken : List String}
    {files : List (String × List Token)}
    (listed : .duplicateFlow name ∈ fileFaults language taken files) :
    1 < (taken ++ files.map Prod.fst).count name := by
  induction files generalizing taken with
  | nil => simp [fileFaults] at listed
  | cons file rest ih =>
      rcases file with ⟨first, tokens⟩
      rcases List.mem_append.1 listed with ofFirst | ofRest
      · rcases List.mem_append.1 ofFirst with ofRegions | ofName
        · rcases Language.regionFault?_eq_some (Option.mem_toList.1 ofRegions) with
            ⟨_, _, _, same⟩ | ⟨_, _, same⟩ <;> cases same
        · split at ofName
          · next found =>
              cases List.mem_singleton.1 ofName
              have before := List.count_pos_iff.2 found
              rw [List.map_cons, List.count_append, List.count_cons_self]
              omega
          · simp at ofName
      · simpa using ih ofRest

/-- If the regions of all files are bracketed, only names are left to be at fault. -/
theorem exists_eq_duplicateFlow_of_bracketed {taken : List String}
    {files : List (String × List Token)} {fault : Fault}
    (bracketed : ∀ file ∈ files, language.Bracketed false file.2)
    (listed : fault ∈ fileFaults language taken files) : ∃ name, fault = .duplicateFlow name := by
  induction files generalizing taken with
  | nil => simp [fileFaults] at listed
  | cons file rest ih =>
      rcases file with ⟨first, tokens⟩
      rcases List.forall_mem_cons.1 bracketed with ⟨firstBracketed, restBracketed⟩
      rcases List.mem_append.1 listed with ofFirst | ofRest
      · rcases List.mem_append.1 ofFirst with ofRegions | ofName
        · have faultless : language.regionFault? none tokens = none :=
            Language.regionFault?_eq_none_iff.2 firstBracketed
          simp [faultless] at ofRegions
        · split at ofName
          · exact ⟨first, List.mem_singleton.1 ofName⟩
          · simp at ofName
      · exact ih restBracketed ofRest

theorem faultsOf_eq_nil_iff {main : Flow} :
    flows.faultsOf language main = [] ↔ main.Closed language ∧
      ∀ inner ∈ flows.inner, inner.name ∈ main.references language → inner.Closed language := by
  simp [faultsOf, innerNamed, Flow.Closed, Flow.fault?_eq_none_iff]

end Flows

namespace Settings

variable {language : Language} {flows : Flows} {main : Flow} {settings : Settings}
  {sources : List (String × String)}

theorem faultOf?_sketchInner (name : String) (flow : Flow) (ordinal : Nat) :
    faultOf? (sketchInner language.composeIn name flow ordinal) = flow.fault? language := by
  unfold sketchInner
  dsimp only
  rw [faultOf?_bind_pure, Language.faultOf?_composeIn]

theorem faultOf?_sketchFlow :
    faultOf? (sketchFlow language flows main) = (flows.faultsOf language main).head? := by
  unfold sketchFlow sketchFlowWith Flows.faultsOf
  rw [List.head?_append, Option.head?_toList, ← Language.faultOf?_composeIn language main.name]
  apply faultOf?_bind
  intro diagram composed
  rw [faultOf?_bind_pure, faultOf?_mapM, List.head?_filterMap,
    Language.references_of_composeIn composed]
  simp only [faultOf?_sketchInner]
  calc ((flows.innerNamed (main.references language)).zipIdx 1).findSome?
        (fun numbered => numbered.1.fault? language)
      = (((flows.innerNamed (main.references language)).zipIdx 1).map Prod.fst).findSome?
          (·.fault? language) := by rw [List.findSome?_map]; rfl
    _ = (flows.innerNamed (main.references language)).findSome? (·.fault? language) := by
        rw [List.zipIdx_map_fst]

def files (settings : Settings) (sources : List (String × String)) :
    List (String × List Token) :=
  sources.map fun (name, text) => (name, settings.comments text)

def flowsOf (settings : Settings) (sources : List (String × String)) : Flows :=
  .ofFiles settings.language (settings.files sources)

/-- The faults of sources, in the order in which they count. -/
def faults (settings : Settings) (sources : List (String × String)) : List Fault :=
  Flows.fileFaults settings.language [] (settings.files sources)
    ++ (settings.flowsOf sources).main.flatMap
      ((settings.flowsOf sources).faultsOf settings.language)

/-- Sources that can be drawn. What is wrong with an inner flow that no main flow refers to does not
matter. -/
structure WellFormed (settings : Settings) (sources : List (String × String)) : Prop where
  bracketed : ∀ source ∈ sources,
    settings.language.Bracketed false (settings.comments source.2)
  distinct : (sources.map Prod.fst).Nodup
  closed_main : ∀ main ∈ (settings.flowsOf sources).main, main.Closed settings.language
  closed_inner : ∀ inner ∈ (settings.flowsOf sources).inner,
    (∃ main ∈ (settings.flowsOf sources).main, inner.name ∈ main.references settings.language) →
      inner.Closed settings.language

/-- The files of a run are read up to their first fault; if there is none, their flows are read. -/
theorem readFlows_eq (settings : Settings) (sources : List (String × String)) :
    faultOf? (settings.readFlows sources) =
        (Flows.fileFaults settings.language [] (settings.files sources)).head? ∧
      ∀ flows, settings.readFlows sources = .ok flows → flows = settings.flowsOf sources := by
  rcases Flows.addAll_eq settings.language {} (settings.files sources) with ⟨fault, faultless⟩
  have read : settings.readFlows sources =
      outcomeOf (Flows.addAll settings.language {} (settings.files sources)).2
        (Flows.addAll settings.language {} (settings.files sources)).1 := by
    unfold readFlows files
    dsimp only
    split
    · next added => simp [added, outcomeOf]
    · next added => simp [added, outcomeOf]
  rw [read, faultOf?_outcomeOf]
  refine ⟨fault, fun flows succeeds => ?_⟩
  rcases outcomeOf_eq_ok_iff.1 succeeds with ⟨none, rfl⟩
  rw [none, eq_comm, List.head?_eq_none_iff] at fault
  simpa [flowsOf] using faultless fault

theorem faultOf?_draw (settings : Settings) (sources : List (String × String)) :
    faultOf? (settings.draw sources) = (settings.faults sources).head? := by
  rcases settings.readFlows_eq sources with ⟨readFault, readFlows⟩
  unfold draw faults
  rw [List.head?_append, ← readFault]
  apply faultOf?_bind
  intro flows read
  rw [faultOf?_bind_pure, faultOf?_mapM, List.head?_flatMap, readFlows flows read]
  simp only [faultOf?_sketchFlow]

theorem faults_eq_nil_iff :
    settings.faults sources = [] ↔ settings.WellFormed sources := by
  simp only [faults, List.append_eq_nil_iff, Flows.fileFaults_eq_nil_iff,
    List.flatMap_eq_nil_iff, Flows.faultsOf_eq_nil_iff]
  constructor
  · rintro ⟨⟨bracketed, distinct, _⟩, closed⟩
    refine ⟨?_, ?_, ?_, ?_⟩
    · intro source listed
      exact bracketed _ (List.mem_map.2 ⟨source, listed, rfl⟩)
    · simpa [files, Function.comp_def] using distinct
    · exact fun main listed => (closed main listed).1
    · rintro inner listed ⟨main, mainListed, referred⟩
      exact (closed main mainListed).2 inner listed referred
  · rintro ⟨bracketed, distinct, closed_main, closed_inner⟩
    refine ⟨⟨?_, ?_, ?_⟩, ?_⟩
    · intro file listed
      rcases List.mem_map.1 listed with ⟨source, sourceListed, rfl⟩
      exact bracketed source sourceListed
    · simpa [files, Function.comp_def] using distinct
    · simp
    · intro main listed
      exact ⟨closed_main main listed, fun inner innerListed referred =>
        closed_inner inner innerListed ⟨main, listed, referred⟩⟩

theorem vocabulary_notMem_faults (flaw : Vocabulary.Flaw) :
    Fault.vocabulary flaw ∉ settings.faults sources := by
  have ofFlow (flow : Flow) : flow.fault? settings.language ≠ some (.vocabulary flaw) := by
    simp [Flow.fault?]
  intro listed
  rcases List.mem_append.1 listed with ofFile | ofMain
  · exact Flows.vocabulary_notMem_fileFaults flaw ofFile
  · rcases List.mem_flatMap.1 ofMain with ⟨main, _, ofMain⟩
    rcases List.mem_append.1 ofMain with own | ofInner
    · exact ofFlow main (Option.mem_toList.1 own)
    · rcases List.mem_filterMap.1 ofInner with ⟨inner, _, ofInner⟩
      exact ofFlow inner ofInner

/-- A name is reported only if two sources have it. -/
theorem one_lt_count_of_draw_error {name : String}
    (failed : settings.draw sources = .error (.duplicateFlow name)) :
    1 < (sources.map Prod.fst).count name := by
  have reported := faultOf?_eq_some_iff.2 failed
  rw [faultOf?_draw] at reported
  rcases List.mem_append.1 (List.mem_of_head? reported) with ofFile | ofMain
  · have repeated := Flows.one_lt_count_of_duplicateFlow_mem ofFile
    simpa [files, Function.comp_def] using repeated
  · rcases List.mem_flatMap.1 ofMain with ⟨main, _, ofMain⟩
    simp [Flows.faultsOf, Flow.fault?] at ofMain

/-- Sources with bracketed regions are refused for a name exactly if two of them have the same. -/
theorem exists_draw_error_duplicateFlow_iff
    (bracketed : ∀ source ∈ sources,
      settings.language.Bracketed false (settings.comments source.2)) :
    (∃ name, settings.draw sources = .error (.duplicateFlow name)) ↔
      ¬ (sources.map Prod.fst).Nodup := by
  have filesBracketed : ∀ file ∈ settings.files sources,
      settings.language.Bracketed false file.2 := by
    intro file listed
    rcases List.mem_map.1 listed with ⟨source, sourceListed, rfl⟩
    exact bracketed source sourceListed
  constructor
  · rintro ⟨name, failed⟩ distinct
    have repeated := one_lt_count_of_draw_error failed
    have once := List.nodup_iff_count_le_one.1 distinct name
    omega
  · intro notDistinct
    have faulty : Flows.fileFaults settings.language [] (settings.files sources) ≠ [] := by
      intro faultless
      have distinct := (Flows.fileFaults_eq_nil_iff.1 faultless).2.1
      exact notDistinct (by simpa [files, Function.comp_def] using distinct)
    rcases List.exists_cons_of_ne_nil faulty with ⟨fault, others, faults_eq⟩
    have listed : fault ∈ Flows.fileFaults settings.language [] (settings.files sources) := by
      simp [faults_eq]
    rcases Flows.exists_eq_duplicateFlow_of_bracketed filesBracketed listed with ⟨name, rfl⟩
    refine ⟨name, faultOf?_eq_some_iff.1 ?_⟩
    rw [faultOf?_draw, Settings.faults, faults_eq]
    rfl

/-- Sources are drawn exactly if they are well-formed, and otherwise the first of their faults is
reported. It is no flaw of a vocabulary, and a run by position, which could stop for other reasons
than a fault, comes to the same. -/
theorem draw_iff_wellFormed_and_first_fault (settings : Settings)
    (sources : List (String × String)) :
    ((∃ drawings, settings.draw sources = .ok drawings) ↔ settings.WellFormed sources) ∧
      (∀ fault, settings.draw sources = .error fault ↔
        (settings.faults sources).head? = some fault) ∧
      (∀ flaw, settings.draw sources ≠ .error (.vocabulary flaw)) ∧
      ∃ outcome, settings.drawByPosition sources = some outcome ∧
        outcome = (settings.draw sources).mapError .fault ∧
        outcome ≠ .error .notConditional ∧ outcome ≠ .error .underflow := by
  have reported (fault : Fault) : settings.draw sources = .error fault ↔
      (settings.faults sources).head? = some fault := by
    rw [← faultOf?_draw, faultOf?_eq_some_iff]
  refine ⟨?_, reported, fun flaw failed => ?_, _, settings.drawByPosition_eq sources, rfl,
    Composition.mapError_fault_ne _⟩
  · rw [← faultOf?_eq_none_iff, faultOf?_draw, List.head?_eq_none_iff, faults_eq_nil_iff]
  · exact vocabulary_notMem_faults flaw (List.mem_of_head? ((reported _).1 failed))

end Settings

end ProcessChain
