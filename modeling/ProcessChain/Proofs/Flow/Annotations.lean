import ProcessChain.Proofs.Flow.Division

/-!
# Annotations of a divided file

Dividing a file leaves out its bounds as whole lines, whatever else stands on them. All other lines
are kept, so the annotations of the file are those of its flows and those of its bounds, each as
often as it is there. Nothing is lost exactly if the bounds carry no annotation besides their
markers (`Language.perm_annotations_and_carriesAll_iff`); an end where no region is open is a bound
like any other, and what stands on its line is lost as well.
-/

namespace ProcessChain

/-- Whether composing a flow takes notice of a remark with this keyword by itself. -/
def Keyword.isAnnotation : Keyword → Bool
  | .activity | .event | .innerFlow | .subscribes => true
  | .branchStart | .branchElse | .branchEnd => true
  | .database | .callIn | .callOut | .publishes | .regionStart | .regionEnd => false

namespace Language

/-- The annotations on some lines, each with the line that carries it. -/
def annotations (language : Language) (tokens : List Token) : List (Token × Remark) :=
  tokens.flatMap fun token =>
    ((language.remarks token.text).filter (·.keyword.isAnnotation)).map (token, ·)

/-- Every annotation of a file is carried by exactly one of some flows, and they carry no other. -/
def CarriesAll (language : Language) (tokens : List Token) (flows : List Flow) : Prop :=
  (language.annotations tokens).Perm (flows.flatMap fun flow => language.annotations flow.tokens)

def bounds (language : Language) (tokens : List Token) : List Token :=
  tokens.filter fun token => language.bound? token ≠ none

variable {language : Language} {name : String} {tokens : List Token} {main : Flow}
  {inner : List Flow}

theorem annotations_eq_nil_iff :
    language.annotations tokens = [] ↔
      ∀ token ∈ tokens, ∀ remark ∈ language.remarks token.text,
        remark.keyword.isAnnotation = false := by
  simp [annotations]

theorem annotations_flatMap (flows : List Flow) :
    language.annotations (flows.flatMap (·.tokens)) =
      flows.flatMap fun flow => language.annotations flow.tokens :=
  List.flatMap_assoc

theorem perm_annotations {others : List Token} (same : tokens.Perm others) :
    (language.annotations tokens).Perm (language.annotations others) :=
  same.flatMap_right _

/-- The annotations of a file are those of the flows that it is divided into and those of its
bounds. -/
theorem perm_annotations_of_isDivision
    (division : language.IsDivision name tokens main inner) :
    (language.annotations tokens).Perm
      ((main :: inner).flatMap (fun flow => language.annotations flow.tokens)
        ++ language.annotations (language.bounds tokens)) := by
  have parts : tokens.Perm ((main :: inner).flatMap (·.tokens) ++ language.bounds tokens) := by
    have cut := List.filter_append_perm (fun token => language.bound? token = none) tokens
    have kept := division.partition.append_right (language.bounds tokens)
    apply List.Perm.trans cut.symm
    apply List.Perm.trans _ kept.symm
    simp [bounds]
  have carried : (language.annotations tokens).Perm (language.annotations
      ((main :: inner).flatMap (·.tokens) ++ language.bounds tokens)) := perm_annotations parts
  rw [← annotations_flatMap]
  simpa [annotations] using carried

/-- The annotations of a divided file that its flows do not carry are those of its bounds, so the
flows carry them all exactly if no bound carries one. -/
theorem perm_annotations_and_carriesAll_iff
    (divided : language.divide name tokens = .ok (main, inner)) :
    (language.annotations tokens).Perm
        ((main :: inner).flatMap (fun flow => language.annotations flow.tokens)
          ++ language.annotations (language.bounds tokens)) ∧
      (language.CarriesAll tokens (main :: inner) ↔
        ∀ token ∈ tokens, language.bound? token ≠ none →
          ∀ remark ∈ language.remarks token.text, remark.keyword.isAnnotation = false) := by
  have division := ((divide_error_iff_and_ok_iff language name tokens).2.1 main inner).1 divided
  have parts := perm_annotations_of_isDivision division
  have bare : language.annotations (language.bounds tokens) = [] ↔
      ∀ token ∈ tokens, language.bound? token ≠ none →
        ∀ remark ∈ language.remarks token.text, remark.keyword.isAnnotation = false := by
    simp [annotations_eq_nil_iff, bounds]
  refine ⟨parts, ?_⟩
  rw [← bare]
  constructor
  · intro carried
    have lengths := (carried.symm.trans parts).length_eq
    apply List.eq_nil_of_length_eq_zero
    rw [List.length_append] at lengths
    omega
  · intro none
    rw [none, List.append_nil] at parts
    exact parts

def bareBounds : List Token :=
  [⟨"act: order inner-flow: pay", 1⟩, ⟨"inner-diagram: pay", 2⟩, ⟨"if: late act: remind", 3⟩,
    ⟨"end: subscribes: refunds", 4⟩, ⟨"end-diagram: of payment", 5⟩, ⟨"end-diagram:", 6⟩]

theorem carriesAll_bareBounds :
    ∃ main inner, standard.divide "shop" bareBounds = .ok (main, inner) ∧ inner.length = 1 ∧
      standard.CarriesAll bareBounds (main :: inner) := by
  have divided : standard.divide "shop" bareBounds =
      .ok (⟨"shop", [⟨"act: order inner-flow: pay", 1⟩]⟩,
        [⟨"pay", [⟨"if: late act: remind", 3⟩, ⟨"end: subscribes: refunds", 4⟩]⟩]) := by
    decide +kernel
  have bare : ∀ token ∈ bareBounds, standard.bound? token ≠ none →
      ∀ remark ∈ standard.remarks token.text, remark.keyword.isAnnotation = false := by
    decide +kernel
  exact ⟨_, _, divided, rfl, (perm_annotations_and_carriesAll_iff divided).2.2 bare⟩

def busyEnd : List Token :=
  [⟨"act: order", 1⟩, ⟨"end-diagram: act: ship", 2⟩]

/-- The activity on the line of an end marker is in no flow, though no region ends there. -/
theorem not_carriesAll_busyEnd :
    standard.divide "shop" busyEnd = .ok (⟨"shop", [⟨"act: order", 1⟩]⟩, []) ∧
      (⟨"end-diagram: act: ship", 2⟩, ⟨.activity, "ship"⟩) ∈ standard.annotations busyEnd ∧
      ¬ standard.CarriesAll busyEnd [⟨"shop", [⟨"act: order", 1⟩]⟩] := by
  have listed : standard.annotations busyEnd =
      [(⟨"act: order", 1⟩, ⟨.activity, "order"⟩),
        (⟨"end-diagram: act: ship", 2⟩, ⟨.activity, "ship"⟩)] := by
    decide +kernel
  have carried : standard.annotations [⟨"act: order", 1⟩] =
      [(⟨"act: order", 1⟩, ⟨.activity, "order"⟩)] := by
    decide +kernel
  refine ⟨by decide +kernel, by simp [listed], ?_⟩
  intro same
  have lengths := same.length_eq
  simp [listed, carried] at lengths

end Language

end ProcessChain
