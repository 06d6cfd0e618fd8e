import Mathlib.Data.List.Infix
import ProcessChain.Proofs.Flow.Regions

/-!
# The division of a file

What a file is divided into can be told from what stands before and after each of its tokens. After
some tokens a region is open if the last bound among them is a start. A file is at fault at the
first start before which a region is open, or at its end if it has no such start but a region is
open there. Without a fault, the main flow has the tokens before which no region is open, and every
start has an inner flow with the tokens up to the next end. An end where no region is open does
nothing, and no token but a bound gets lost (`Language.divide_error_iff_and_ok_iff`).

The division itself is told by recursion on the tokens, with the region that is open so far. Both
come together in `openAfter?_append`: what is open after some tokens is all that has to be known
about them.
-/

namespace ProcessChain.Language

/-- The name and the line of the region that a token starts. -/
def opening? (language : Language) (token : Token) : Option (String × Nat) :=
  match language.bound? token with
  | some (.start name) => some (name, token.line)
  | _ => none

/-- The name and the line of the region that is open after some tokens, given the one that is open
before the first of them: if there are bounds among them, what the last one starts. -/
def openAfter? (language : Language) (opened : Option (String × Nat)) (before : List Token) :
    Option (String × Nat) :=
  match before.reverse.find? fun token => (language.bound? token).isSome with
  | some token => language.opening? token
  | none => opened

/-- No region starts while one is open. -/
def NoNesting (language : Language) (opened : Option (String × Nat)) (tokens : List Token) : Prop :=
  ∀ before token after, tokens = before ++ token :: after →
    (language.opening? token).isSome → language.openAfter? opened before = none

/-- What is wrong with the regions of a file: a region is the first to start while one is open, or
none does, and one is open at the end. -/
inductive HasRegionFault (language : Language) (opened : Option (String × Nat))
    (tokens : List Token) : Fault → Prop where
  | nested {before after : List Token} {token : Token} {name openName : String}
      {line openLine : Nat} (split : tokens = before ++ token :: after)
      (first : language.NoNesting opened before)
      (starts : language.opening? token = some (name, line))
      (inside : language.openAfter? opened before = some (openName, openLine)) :
      HasRegionFault language opened tokens (.nestedRegion openName name line)
  | unclosed {name : String} {line : Nat} (apart : language.NoNesting opened tokens)
      (inside : language.openAfter? opened tokens = some (name, line)) :
      HasRegionFault language opened tokens (.openRegion name line)

def mainTokens (language : Language) (opened : Option (String × Nat)) (tokens : List Token) :
    List Token :=
  ((tokens.zip tokens.inits).filter fun (token, before) =>
    language.bound? token = none ∧ language.openAfter? opened before = none).map Prod.fst

/-- The inner flow that starts at the first of some tokens, with the tokens between it and the next
end. -/
def flowAt? (language : Language) : List Token → Option Flow
  | [] => none
  | token :: after => (language.opening? token).map fun (name, _) =>
    ⟨name, after.takeWhile fun token => language.bound? token ≠ some .stop⟩

def innerFlows (language : Language) (tokens : List Token) : List Flow :=
  tokens.tails.filterMap language.flowAt?

/-- What a file without a fault is divided into. -/
structure IsDivision (language : Language) (name : String) (tokens : List Token) (main : Flow)
    (inner : List Flow) : Prop where
  apart : language.NoNesting none tokens
  closed : language.openAfter? none tokens = none
  main_eq : main = ⟨name, language.mainTokens none tokens⟩
  inner_eq : inner = language.innerFlows tokens
  /-- Every token that is no bound is in exactly one flow. -/
  partition : ((main :: inner).flatMap (·.tokens)).Perm
    (tokens.filter fun token => language.bound? token = none)
  ordered : ∀ flow ∈ main :: inner, flow.tokens.Sublist tokens

variable {language : Language} {opened : Option (String × Nat)} {token : Token}
  {tokens rest : List Token}

/-! ## The region that is open -/

@[simp]
theorem openAfter?_nil : language.openAfter? opened [] = opened :=
  rfl

theorem openAfter?_append (before after : List Token) :
    language.openAfter? opened (before ++ after) =
      language.openAfter? (language.openAfter? opened before) after := by
  unfold openAfter?
  rw [List.reverse_append, List.find?_append]
  cases after.reverse.find? fun token => (language.bound? token).isSome <;> rfl

theorem openAfter?_cons (token : Token) (rest : List Token) :
    language.openAfter? opened (token :: rest) =
      language.openAfter? (language.openAfter? opened [token]) rest :=
  openAfter?_append [token] rest

theorem openAfter?_singleton :
    language.openAfter? opened [token] =
      match language.bound? token with
      | some (.start name) => some (name, token.line)
      | some .stop => none
      | none => opened := by
  unfold openAfter? opening?
  cases bound : language.bound? token with
  | none => simp [bound]
  | some found => cases found <;> simp [bound]

theorem opening?_isSome_iff :
    (language.opening? token).isSome ↔ ∃ name, language.bound? token = some (.start name) := by
  unfold opening?
  cases language.bound? token with
  | none => simp
  | some found => cases found <;> simp

/-! ## Faults -/

theorem noNesting_nil : language.NoNesting opened [] := by
  intro before token after split
  simp at split

theorem noNesting_cons_iff :
    language.NoNesting opened (token :: rest) ↔
      ((language.opening? token).isSome → opened = none) ∧
        language.NoNesting (language.openAfter? opened [token]) rest := by
  constructor
  · intro apart
    refine ⟨fun starts => apart [] token rest rfl starts, ?_⟩
    intro before other after split starts
    rw [← openAfter?_cons]
    exact apart (token :: before) other after (by rw [split, List.cons_append]) starts
  · rintro ⟨first, apart⟩ before other after split starts
    cases before with
    | nil =>
        rcases List.cons.inj split with ⟨rfl, _⟩
        exact first starts
    | cons earlier before =>
        rcases List.cons.inj split with ⟨rfl, later⟩
        rw [openAfter?_cons]
        exact apart before other after later starts

theorem hasRegionFault_cons_iff {fault : Fault}
    (outside : (language.opening? token).isSome → opened = none) :
    language.HasRegionFault opened (token :: rest) fault ↔
      language.HasRegionFault (language.openAfter? opened [token]) rest fault := by
  constructor
  · rintro (⟨split, first, starts, inside⟩ | ⟨apart, inside⟩)
    · rename_i before after nested name openName line openLine
      cases before with
      | nil =>
          rcases List.cons.inj split with ⟨rfl, _⟩
          have none := outside (by rw [starts]; rfl)
          rw [none] at inside
          cases inside
      | cons earlier before =>
          rcases List.cons.inj split with ⟨rfl, later⟩
          rw [openAfter?_cons] at inside
          exact .nested later (noNesting_cons_iff.1 first).2 starts inside
    · rw [openAfter?_cons] at inside
      exact .unclosed (noNesting_cons_iff.1 apart).2 inside
  · rintro (⟨split, first, starts, inside⟩ | ⟨apart, inside⟩)
    · rw [← openAfter?_cons] at inside
      exact .nested (by rw [split, List.cons_append]) (noNesting_cons_iff.2 ⟨outside, first⟩) starts
        inside
    · rw [← openAfter?_cons] at inside
      exact .unclosed (noNesting_cons_iff.2 ⟨outside, apart⟩) inside

theorem regionFault?_cons (outside : (language.opening? token).isSome → opened = none) :
    language.regionFault? opened (token :: rest) =
      language.regionFault? (language.openAfter? opened [token]) rest := by
  rw [regionFault?, openAfter?_singleton]
  cases bound : language.bound? token with
  | none => rfl
  | some found =>
      cases found with
      | stop => rfl
      | start name => rw [outside (opening?_isSome_iff.2 ⟨name, bound⟩)]

theorem regionFault?_nested {name openName : String} {line openLine : Nat}
    (starts : language.opening? token = some (name, line)) :
    language.regionFault? (some (openName, openLine)) (token :: rest) =
      some (.nestedRegion openName name line) := by
  unfold opening? at starts
  unfold regionFault?
  split at starts
  · next bound =>
      cases starts
      rw [bound]
  · cases starts

theorem hasRegionFault_nested_iff {name openName : String} {line openLine : Nat} {fault : Fault}
    (starts : language.opening? token = some (name, line)) :
    language.HasRegionFault (some (openName, openLine)) (token :: rest) fault ↔
      fault = .nestedRegion openName name line := by
  have nests (others : List Token) :
      ¬ language.NoNesting (some (openName, openLine)) (token :: others) := by
    intro apart
    have outside := (noNesting_cons_iff.1 apart).1 (by rw [starts]; rfl)
    cases outside
  constructor
  · rintro (⟨split, first, startsLater, inside⟩ | ⟨apart, _⟩)
    · rename_i before after nested nestedName insideName nestedLine insideLine
      cases before with
      | nil =>
          rcases List.cons.inj split with ⟨rfl, _⟩
          cases starts.symm.trans startsLater
          cases inside
          rfl
      | cons earlier before =>
          rcases List.cons.inj split with ⟨rfl, _⟩
          exact absurd first (nests before)
    · exact absurd apart (nests rest)
  · rintro rfl
    exact .nested (List.nil_append _).symm noNesting_nil starts rfl

theorem regionFault?_eq_some_iff {fault : Fault} :
    language.regionFault? opened tokens = some fault ↔
      language.HasRegionFault opened tokens fault := by
  induction tokens generalizing opened with
  | nil =>
      constructor
      · intro found
        rcases Option.map_eq_some_iff.1 found with ⟨⟨name, line⟩, inside, rfl⟩
        exact .unclosed noNesting_nil inside
      · rintro (⟨split, _, _, _⟩ | ⟨_, inside⟩)
        · simp at split
        · rw [openAfter?_nil] at inside
          simp [regionFault?, inside]
  | cons token rest ih =>
      -- Only a start inside an open region is a fault by itself; any other token leaves it to the
      -- rest, with the region that is open after it.
      rcases starts : language.opening? token with _ | ⟨name, line⟩
      · have outside : (language.opening? token).isSome → opened = none := by simp [starts]
        rw [regionFault?_cons outside, hasRegionFault_cons_iff outside, ih]
      · rcases opened with _ | ⟨openName, openLine⟩
        · rw [regionFault?_cons fun _ => rfl, hasRegionFault_cons_iff fun _ => rfl, ih]
        · rw [regionFault?_nested starts, hasRegionFault_nested_iff starts, Option.some.injEq,
            eq_comm]

theorem regionFault?_eq_none_iff_noNesting :
    language.regionFault? opened tokens = none ↔
      language.NoNesting opened tokens ∧ language.openAfter? opened tokens = none := by
  induction tokens generalizing opened with
  | nil => simp [regionFault?, noNesting_nil]
  | cons token rest ih =>
      rw [noNesting_cons_iff, openAfter?_cons token rest]
      rcases starts : language.opening? token with _ | ⟨name, line⟩
      · rw [regionFault?_cons (by simp [starts]), ih]
        simp
      · rcases opened with _ | ⟨openName, openLine⟩
        · rw [regionFault?_cons fun _ => rfl, ih]
          simp
        · simp [regionFault?_nested starts]

/-! ## Flows -/

theorem mainTokens_cons (token : Token) (rest : List Token) :
    language.mainTokens opened (token :: rest) =
      (if language.bound? token = none ∧ opened = none then [token] else [])
        ++ language.mainTokens (language.openAfter? opened [token]) rest := by
  unfold mainTokens
  have later : ((fun (other, before) =>
      decide (language.bound? other = none ∧ language.openAfter? opened before = none))
        ∘ Prod.map id fun before : List Token => token :: before) =
      fun (other, before) => decide (language.bound? other = none ∧
        language.openAfter? (language.openAfter? opened [token]) before = none) := by
    funext ⟨other, before⟩
    simp only [Function.comp_apply, Prod.map_apply, id_eq, openAfter?_cons token before]
  have tokenOf : (Prod.fst : Token × List Token → Token)
      ∘ Prod.map id (fun before => token :: before) = Prod.fst := rfl
  rw [List.inits_cons, List.zip_cons_cons, List.zip_map_right, List.filter_cons, List.filter_map,
    later, apply_ite (List.map Prod.fst), List.map_cons, List.map_map, tokenOf]
  by_cases kept : language.bound? token = none ∧ opened = none <;> simp [kept]

theorem outside_eq_mainTokens (opened : Option (String × Nat)) (tokens : List Token) :
    language.outside opened.isSome tokens = language.mainTokens opened tokens := by
  induction tokens generalizing opened with
  | nil => rfl
  | cons token rest ih =>
      rw [outside, mainTokens_cons, ← ih, openAfter?_singleton]
      cases bound : language.bound? token with
      | none => cases opened <;> simp
      | some found => cases found <;> simp

/-- Inside a region, no start comes before the next end. -/
theorem unbounded_eq {inside : String × Nat} (apart : language.NoNesting (some inside) tokens) :
    language.unbounded tokens =
      tokens.takeWhile fun token => language.bound? token ≠ some .stop := by
  induction tokens with
  | nil => rfl
  | cons token rest ih =>
      rw [noNesting_cons_iff, openAfter?_singleton] at apart
      unfold unbounded at ih ⊢
      cases bound : language.bound? token with
      | none =>
          rw [bound] at apart
          simp [bound, ih apart.2]
      | some found =>
          cases found with
          | stop => simp [bound]
          | start name =>
              have outside := apart.1 (opening?_isSome_iff.2 ⟨name, bound⟩)
              cases outside

theorem regions_eq_innerFlows (apart : language.NoNesting opened tokens) :
    language.regions tokens = language.innerFlows tokens := by
  induction tokens generalizing opened with
  | nil => rfl
  | cons token rest ih =>
      rw [noNesting_cons_iff] at apart
      have others : language.regions rest = rest.tails.filterMap language.flowAt? := ih apart.2
      rw [openAfter?_singleton] at apart
      rw [regions, innerFlows, List.tails_cons, List.filterMap_cons, flowAt?, opening?, others]
      cases bound : language.bound? token with
      | none => rfl
      | some found =>
          cases found with
          | stop => rfl
          | start name =>
              -- Its region is open in the rest, where the next bound must be an end.
              rw [bound] at apart
              dsimp only [Option.map_some]
              rw [unbounded_eq apart.2]

/-- No token but a bound gets lost, and none is doubled. -/
theorem perm_outside_regions (inside : Bool) (tokens : List Token) :
    (language.outside inside tokens ++ (if inside then language.unbounded tokens else [])
        ++ (language.regions tokens).flatMap (·.tokens)).Perm
      (tokens.filter fun token => language.bound? token = none) := by
  induction tokens generalizing inside with
  | nil => cases inside <;> rfl
  | cons token rest ih =>
      rw [outside, regions, unbounded, List.filter_cons, List.takeWhile_cons]
      cases bound : language.bound? token with
      | some found =>
          cases found with
          | stop => simpa using ih false
          | start name => simpa using ih true
      | none =>
          cases inside with
          | false => simpa using (ih false).cons token
          | true =>
              -- The token goes into the open region, which comes after the main tokens.
              have kept := (ih true).cons token
              simp only [if_true, List.append_assoc] at kept
              simp only [if_true, decide_true, List.append_assoc, List.cons_append]
              exact List.perm_middle.trans kept

theorem outside_sublist (inside : Bool) (tokens : List Token) :
    (language.outside inside tokens).Sublist tokens := by
  induction tokens generalizing inside with
  | nil => exact List.Sublist.refl _
  | cons token rest ih =>
      unfold outside
      split
      · exact (ih true).cons token
      · exact (ih false).cons token
      · split
        · exact (ih true).cons token
        · exact (ih false).cons_cons token

theorem regions_sublist {flow : Flow} (listed : flow ∈ language.regions tokens) :
    flow.tokens.Sublist tokens := by
  induction tokens with
  | nil => simp [regions] at listed
  | cons token rest ih =>
      unfold regions at listed
      split at listed
      · rcases List.mem_cons.1 listed with rfl | later
        · exact (List.takeWhile_sublist _).cons token
        · exact (ih later).cons token
      · exact (ih listed).cons token

/-! ## Divisions -/

theorem isDivision_iff {name : String} {main : Flow} {inner : List Flow} :
    language.IsDivision name tokens main inner ↔
      language.regionFault? none tokens = none ∧
        (⟨name, language.outside false tokens⟩, language.regions tokens) = (main, inner) := by
  rw [regionFault?_eq_none_iff_noNesting]
  have outsideMain : language.outside false tokens = language.mainTokens none tokens :=
    outside_eq_mainTokens none tokens
  constructor
  · intro division
    rw [outsideMain, regions_eq_innerFlows division.apart, division.main_eq, division.inner_eq]
    exact ⟨⟨division.apart, division.closed⟩, rfl⟩
  · rintro ⟨⟨apart, closed⟩, same⟩
    cases same
    refine ⟨apart, closed, by rw [outsideMain], regions_eq_innerFlows apart, ?_, ?_⟩
    · simpa using perm_outside_regions false tokens
    · intro flow listed
      rcases List.mem_cons.1 listed with rfl | region
      · exact outside_sublist false tokens
      · exact regions_sublist region

theorem openedIn_add {division next : Division}
    (added : division.add language token = .ok next) :
    openedIn next = language.openAfter? (openedIn division) [token] := by
  rw [add_eq] at added
  rw [openAfter?_singleton]
  rcases division with ⟨main, inner, current⟩
  cases bound : language.bound? token with
  | none =>
      rw [bound] at added
      cases added
      cases current <;> rfl
  | some found =>
      rw [bound] at added
      cases found with
      | stop =>
          cases added
          cases current <;> rfl
      | start name =>
          cases current with
          | none =>
              cases added
              rfl
          | some opened => cases added

theorem openedIn_foldlM {division reached : Division}
    (divided : tokens.foldlM (Division.add language) division = .ok reached) :
    openedIn reached = language.openAfter? (openedIn division) tokens := by
  induction tokens generalizing division with
  | nil =>
      cases divided
      rfl
  | cons token rest ih =>
      rw [List.foldlM_cons, bind_eq_ok_iff] at divided
      rcases divided with ⟨next, added, divided⟩
      rw [ih divided, openedIn_add added, ← openAfter?_cons]

theorem divide_append_stop (name : String) {before after : List Token}
    (closed : language.openAfter? none before = none) (stops : language.bound? token = some .stop) :
    language.divide name (before ++ token :: after) = language.divide name (before ++ after) := by
  unfold divide
  rw [List.foldlM_append, List.foldlM_append]
  cases divided : before.foldlM (Division.add language) {} with
  | error fault => rfl
  | ok reached =>
      have noneOpen : openedIn reached = none := (openedIn_foldlM divided).trans closed
      have unchanged : reached.stop = reached := by
        rcases reached with ⟨main, inner, _ | opened⟩
        · rfl
        · cases noneOpen
      have added : reached.add language token = .ok reached := by
        rw [add_eq, stops, unchanged]
      have same : (token :: after).foldlM (Division.add language) reached =
          after.foldlM (Division.add language) reached := by
        rw [List.foldlM_cons, added]
        rfl
      simp only [bind, Except.bind, same]

/-- The division of a file fails as its regions do, otherwise it gives the parts of the file, and an
end where no region is open makes no difference. -/
theorem divide_error_iff_and_ok_iff (language : Language) (name : String) (tokens : List Token) :
    (∀ fault, language.divide name tokens = .error fault ↔
      language.HasRegionFault none tokens fault) ∧
    (∀ main inner, language.divide name tokens = .ok (main, inner) ↔
      language.IsDivision name tokens main inner) ∧
    ∀ before token after, tokens = before ++ token :: after →
      language.openAfter? none before = none → language.bound? token = some .stop →
      language.divide name tokens = language.divide name (before ++ after) := by
  refine ⟨?_, ?_, ?_⟩
  · intro fault
    rw [divide_eq, ← faultOf?_eq_some_iff, faultOf?_outcomeOf, regionFault?_eq_some_iff]
  · intro main inner
    rw [divide_eq, outcomeOf_eq_ok_iff, isDivision_iff]
  · rintro before token after rfl closed stops
    exact divide_append_stop name closed stops

def strayEnd : List Token :=
  [⟨"act: order", 1⟩, ⟨"end-diagram:", 2⟩, ⟨"inner-diagram: pay", 3⟩, ⟨"act: charge", 4⟩,
    ⟨"end-diagram:", 5⟩]

theorem divide_strayEnd :
    standard.IsDivision "shop" strayEnd ⟨"shop", [⟨"act: order", 1⟩]⟩
        [⟨"pay", [⟨"act: charge", 4⟩]⟩] ∧
      standard.divide "shop" strayEnd = standard.divide "shop" (strayEnd.eraseIdx 1) := by
  have divided : standard.divide "shop" strayEnd =
      .ok (⟨"shop", [⟨"act: order", 1⟩]⟩, [⟨"pay", [⟨"act: charge", 4⟩]⟩]) := by
    decide +kernel
  refine ⟨((divide_error_iff_and_ok_iff standard "shop" strayEnd).2.1 _ _).1 divided, ?_⟩
  exact (divide_error_iff_and_ok_iff standard "shop" strayEnd).2.2 [⟨"act: order", 1⟩]
    ⟨"end-diagram:", 2⟩ _ rfl (by decide +kernel) (by decide +kernel)

end ProcessChain.Language
