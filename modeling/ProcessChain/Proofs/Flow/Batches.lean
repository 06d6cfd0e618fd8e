import ProcessChain.Proofs.Flow.Collection
import ProcessChain.Proofs.Flow.Division

/-!
# Batches of files

Files are added to a collection in batches, and a collection is used on after a batch with a fault.
What a batch comes to is told by three relations: a file is refused for a fault in its regions, or
else for a name that is taken (`Flows.Refuses`); files are taken in with their main flows and inner
flows, one after the other (`Flows.Takes`); and a batch stops at the first file that is refused
(`Flows.Stops`), of which nothing stays behind. `Flows.addAll_eq_iff` says that this is all a batch
does.

Since a batch goes through its files one at a time, the proofs follow its recursion, with
`Flows.takes_cons_iff` for one file that is taken in.
-/

namespace ProcessChain.Flows

variable {language : Language} {flows left more : Flows} {name : String} {tokens : List Token}
  {files : List (String × List Token)} {fault : Fault} {fault? : Option Fault}

/-- What keeps a file out of a collection, given the names that are taken in it. -/
inductive Refuses (language : Language) (taken : List String) (name : String)
    (tokens : List Token) : Fault → Prop where
  | region {fault : Fault} (found : language.HasRegionFault none tokens fault) :
      Refuses language taken name tokens fault
  | duplicate {main : Flow} {inner : List Flow}
      (divided : language.IsDivision name tokens main inner) (found : name ∈ taken) :
      Refuses language taken name tokens (.duplicateFlow name)

/-- Files are taken into a collection: all of them can be divided, each has a name of its own, and
their flows come after those that are there. -/
structure Takes (language : Language) (flows : Flows) (files : List (String × List Token))
    (more : Flows) : Prop where
  free : ∀ file ∈ files, file.1 ∉ flows.mainNames
  distinct : (files.map Prod.fst).Nodup
  parts : ∃ parts : List (Flow × List Flow),
    List.Forall₂ (fun file part => language.IsDivision file.1 file.2 part.1 part.2) files parts ∧
      more = ⟨flows.main ++ parts.map Prod.fst, flows.inner ++ parts.flatMap Prod.snd⟩

/-- Adding files to a collection stops at the first one with a fault, or there is none to add. -/
inductive Stops (language : Language) (flows : Flows) :
    List (String × List Token) → Option Fault → Prop where
  | done : Stops language flows [] none
  | refused {name : String} {tokens : List Token} {later : List (String × List Token)}
      {fault : Fault} (refuses : Refuses language flows.mainNames name tokens fault) :
      Stops language flows ((name, tokens) :: later) (some fault)

/-- A collection that any batches have left, with faults or without. -/
inductive Reached : Flows → Prop where
  | empty : Reached {}
  | addAll {flows : Flows} (reached : Reached flows) (language : Language)
      (files : List (String × List Token)) : Reached (addAll language flows files).1

theorem add_eq_ok_iff :
    flows.add language name tokens = .ok more ↔
      ∃ main inner, language.IsDivision name tokens main inner ∧ name ∉ flows.mainNames ∧
        more = ⟨flows.main ++ [main], flows.inner ++ inner⟩ := by
  simp only [Language.isDivision_iff, Prod.mk.injEq]
  rw [add_eq, outcomeOf_eq_ok_iff, Option.or_eq_none_iff]
  constructor
  · rintro ⟨⟨faultless, free⟩, rfl⟩
    exact ⟨_, _, ⟨faultless, rfl, rfl⟩, by simpa using free, rfl⟩
  · rintro ⟨_, _, ⟨faultless, rfl, rfl⟩, free, rfl⟩
    exact ⟨⟨faultless, by simp [free]⟩, rfl⟩

theorem add_eq_error_iff :
    flows.add language name tokens = .error fault ↔
      Refuses language flows.mainNames name tokens fault := by
  rw [add_eq, ← faultOf?_eq_some_iff, faultOf?_outcomeOf, Option.or_eq_some_iff]
  constructor
  · rintro (found | ⟨faultless, found⟩)
    · exact .region (Language.regionFault?_eq_some_iff.1 found)
    · split at found
      · next taken =>
          cases found
          exact .duplicate (Language.isDivision_iff.2 ⟨faultless, rfl⟩) taken
      · cases found
  · rintro (found | ⟨divided, taken⟩)
    · exact .inl (Language.regionFault?_eq_some_iff.2 found)
    · exact .inr ⟨(Language.isDivision_iff.1 divided).1, if_pos taken⟩

theorem takes_nil_iff : Takes language flows [] more ↔ more = flows := by
  constructor
  · rintro ⟨_, _, parts, divided, rfl⟩
    cases divided
    simp
  · rintro rfl
    exact ⟨by simp, List.nodup_nil, [], .nil, by simp⟩

theorem takes_cons_iff :
    Takes language flows ((name, tokens) :: files) more ↔
      ∃ next, flows.add language name tokens = .ok next ∧ Takes language next files more := by
  constructor
  · rintro ⟨free, distinct, parts, divided, rfl⟩
    rcases List.forall₂_cons_left_iff.1 divided with ⟨⟨main, inner⟩, others, first, rest, rfl⟩
    rcases List.forall_mem_cons.1 free with ⟨firstFree, restFree⟩
    rcases List.nodup_cons.1 distinct with ⟨apart, restDistinct⟩
    have added := add_eq_ok_iff.2 ⟨main, inner, first, firstFree, rfl⟩
    refine ⟨_, added, ?_, restDistinct, others, rest, by simp⟩
    intro file listed
    rw [mainNames_add added, List.mem_append, List.mem_singleton, not_or]
    refine ⟨restFree file listed, ?_⟩
    rintro rfl
    exact apart (List.mem_map.2 ⟨file, listed, rfl⟩)
  · rintro ⟨next, added, free, distinct, parts, divided, rfl⟩
    simp only [mainNames_add added, List.mem_append, List.mem_singleton, not_or] at free
    rcases add_eq_ok_iff.1 added with ⟨main, inner, first, firstFree, rfl⟩
    refine ⟨?_, ?_, (main, inner) :: parts, .cons first divided, by simp⟩
    · exact List.forall_mem_cons.2 ⟨firstFree, fun file listed => (free file listed).1⟩
    · rw [List.map_cons, List.nodup_cons]
      refine ⟨?_, distinct⟩
      intro listed
      rcases List.mem_map.1 listed with ⟨file, later, same⟩
      exact (free file later).2 same

/-- A batch takes in the files before the first one that is refused, and stops there. -/
theorem addAll_eq_iff :
    addAll language flows files = (left, fault?) ↔
      ∃ accepted rest, files = accepted ++ rest ∧ Takes language flows accepted left ∧
        Stops language left rest fault? := by
  constructor
  · intro returned
    fun_induction addAll language flows files with
    | case1 =>
        cases returned
        exact ⟨[], [], rfl, takes_nil_iff.2 rfl, .done⟩
    | case2 _ _ _ _ _ refused =>
        cases returned
        exact ⟨[], _, rfl, takes_nil_iff.2 rfl, .refused (add_eq_error_iff.1 refused)⟩
    | case3 _ name tokens _ _ added ih =>
        rcases ih returned with ⟨accepted, rest, rfl, takes, stops⟩
        exact ⟨(name, tokens) :: accepted, rest, rfl, takes_cons_iff.2 ⟨_, added, takes⟩, stops⟩
  · rintro ⟨accepted, rest, rfl, takes, stops⟩
    induction accepted generalizing flows with
    | nil =>
        rw [takes_nil_iff] at takes
        subst takes
        cases stops with
        | done => rfl
        | refused refuses => simp [addAll, add_eq_error_iff.2 refuses]
    | cons file others ih =>
        rcases file with ⟨name, tokens⟩
        rcases takes_cons_iff.1 takes with ⟨next, added, later⟩
        rw [List.cons_append, addAll, added]
        exact ih later

theorem addAll_append {first : List (String × List Token)} (second : List (String × List Token))
    (accepted : (addAll language flows first).2 = none) :
    addAll language flows (first ++ second) =
      addAll language (addAll language flows first).1 second := by
  fun_induction addAll language flows first with
  | case1 => rfl
  | case2 => cases accepted
  | case3 _ _ _ _ _ added ih =>
      rw [List.cons_append, addAll, added]
      exact ih accepted

theorem Reached.nodup_mainNames (reached : Reached flows) : flows.mainNames.Nodup := by
  induction reached with
  | empty => exact List.nodup_nil
  | addAll _ language files ih => exact nodup_mainNames_addAll language _ files ih

/-- However batches are added, the names of the main flows are distinct; each batch adds the flows
of the files before the first one that is refused, and nothing else; and a batch that is accepted
can be joined with the next one. -/
theorem nodup_mainNames_and_addAll_iff_of_reached (reached : Reached flows) :
    flows.mainNames.Nodup ∧
      (∀ language files left fault?, addAll language flows files = (left, fault?) ↔
        ∃ accepted rest, files = accepted ++ rest ∧ Takes language flows accepted left ∧
          Stops language left rest fault?) ∧
      ∀ language first second, (addAll language flows first).2 = none →
        addAll language flows (first ++ second) =
          addAll language (addAll language flows first).1 second :=
  ⟨reached.nodup_mainNames, fun _ _ _ _ => addAll_eq_iff, fun _ _ second => addAll_append second⟩

/-- A file with an inner flow, and one with a region that is not closed. -/
def brokenBatch : List (String × List Token) :=
  [("shop", [⟨"act: order", 1⟩, ⟨"inner-diagram: pay", 2⟩, ⟨"act: charge", 3⟩,
      ⟨"end-diagram:", 4⟩]),
    ("ledger", [⟨"inner-diagram: post", 1⟩])]

/-- What `brokenBatch` leaves. -/
def salvaged : Flows :=
  ⟨[⟨"shop", [⟨"act: order", 1⟩]⟩], [⟨"pay", [⟨"act: charge", 3⟩]⟩]⟩

def billing : List (String × List Token) :=
  [("billing", [⟨"act: bill", 1⟩])]

/-- A file whose name is taken in `salvaged`, with an inner flow of its own. -/
def secondShop : List (String × List Token) :=
  [("shop", [⟨"inner-diagram: refund", 1⟩, ⟨"act: pay back", 2⟩, ⟨"end-diagram:", 3⟩])]

theorem addAll_salvaged :
    Reached salvaged ∧ salvaged.mainNames.Nodup ∧
      (addAll .standard salvaged billing).2 = none ∧
      addAll .standard salvaged (billing ++ secondShop) =
        addAll .standard (addAll .standard salvaged billing).1 secondShop ∧
      ∃ accepted rest, billing ++ secondShop = accepted ++ rest ∧
        Takes .standard salvaged accepted
          ⟨salvaged.main ++ [⟨"billing", [⟨"act: bill", 1⟩]⟩], salvaged.inner⟩ ∧
        Stops .standard ⟨salvaged.main ++ [⟨"billing", [⟨"act: bill", 1⟩]⟩], salvaged.inner⟩ rest
          (some (.duplicateFlow "shop")) := by
  have left : addAll .standard {} brokenBatch = (salvaged, some (.openRegion "post" 1)) := by
    decide +kernel
  have reached : Reached (addAll .standard {} brokenBatch).1 := .addAll .empty .standard _
  rw [left] at reached
  have accepted : (addAll .standard salvaged billing).2 = none := by decide +kernel
  have returned : addAll .standard salvaged (billing ++ secondShop) =
      (⟨salvaged.main ++ [⟨"billing", [⟨"act: bill", 1⟩]⟩], salvaged.inner⟩,
        some (.duplicateFlow "shop")) := by
    decide +kernel
  rcases nodup_mainNames_and_addAll_iff_of_reached reached with ⟨distinct, told, joined⟩
  exact ⟨reached, distinct, accepted, joined .standard billing secondShop accepted,
    (told .standard _ _ _).1 returned⟩

end ProcessChain.Flows
