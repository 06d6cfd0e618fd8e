import ProcessChain.Proofs.Diagram.Passages

/-!
# Extending a diagram

A chain looks ahead in one place only: its last node is linked to where the chain is left for. When
another chain is put after it, that place is the first node of the other one, and nothing else of
the sketch changes, whatever is inside the branches of either (`Node.chainSketch_append`).

The sketch of two chains in a row is therefore the sketch of the first, one link, and the sketch of
the second. Pushing nodes to a diagram never takes back or moves what was declared before
(`Diagram.sketch_append_and_push`).
-/

namespace ProcessChain

theorem Chain.entry?_append (first second : Chain) (ending : Option NodeId) :
    Chain.entry? (first ++ second) ending = Chain.entry? first (Chain.entry? second ending) := by
  cases first with
  | nil => rfl
  | cons node rest => rfl

namespace Node

/-- A chain with another one after it is left for where the other one is entered. -/
theorem chainSketch_append (ending : Option NodeId) (first second : Chain) :
    chainSketch ending (first ++ second) =
      chainSketch (Chain.entry? second ending) first ++ chainSketch ending second := by
  induction first with
  | nil => rfl
  | cons node rest ih =>
      have next := Chain.entry?_append rest second ending
      rw [List.cons_append, chainSketch, chainSketch, ih, next]
      exact (Sketch.append_assoc _ _ _).symm

/-- Two chains in a row are joined by one link, from the exit of the last node to the next one. -/
theorem chainSketch_append_of_getLast? {first second : Chain} {last next : Node}
    (ends : first.getLast? = some last) (goesOn : second.head? = some next) :
    chainSketch none (first ++ second) =
      chainSketch none first ++ .link last.exit (some next.id) ++ chainSketch none second := by
  have entry : Chain.entry? second none = some next.id := by
    cases second with
    | nil => cases goesOn
    | cons node rest =>
        cases goesOn
        rfl
  rw [chainSketch_append, entry, chainSketch_some ends]

end Node

namespace Diagram

open Node

/-- What is declared for a diagram stays, in its place, when a node is pushed. -/
theorem exists_sketch_push (diagram : Diagram) (node : Node) :
    ∃ more, (diagram.push node).sketch = diagram.sketch ++ more := by
  unfold sketch push
  dsimp only
  rcases ends : diagram.chain.getLast? with _ | last
  · rw [List.getLast?_eq_none_iff] at ends
    rw [ends]
    exact ⟨chainSketch none [node], rfl⟩
  · have extended := chainSketch_append_of_getLast? ends (List.head?_cons (a := node) (l := []))
    rw [extended, Sketch.append_assoc]
    exact ⟨_, rfl⟩

theorem exists_sketch_pushAll (diagram : Diagram) (nodes : List Node) :
    ∃ more, (nodes.foldl push diagram).sketch = diagram.sketch ++ more := by
  induction nodes generalizing diagram with
  | nil =>
      refine ⟨{}, ?_⟩
      ext1 <;> simp
  | cons node rest ih =>
      rcases exists_sketch_push diagram node with ⟨pushed, first⟩
      rcases ih (diagram.push node) with ⟨others, later⟩
      refine ⟨pushed ++ others, ?_⟩
      rw [List.foldl_cons, later, first, Sketch.append_assoc]

/-- For two chains in a row, the declarations are those of the first, one step from the exit of its
last node to the first node of the second, and those of the second; and pushing nodes only adds to
what was declared. -/
theorem sketch_append_and_push {first second : Chain} (firstFilled : first ≠ [])
    (secondFilled : second ≠ []) :
    (sketch { chain := first ++ second }).declarations =
        (sketch { chain := first }).declarations ++
          .edge ⟨(first.getLast firstFilled).exit, (second.head secondFilled).id, .flow⟩ ::
            (sketch { chain := second }).declarations ∧
      (sketch { chain := first ++ second }).declared =
        (sketch { chain := first }).declared ++ (sketch { chain := second }).declared ∧
      ∀ (diagram : Diagram) (nodes : List Node),
        ∃ more, (nodes.foldl push diagram).sketch = diagram.sketch ++ more := by
  have whole : sketch { chain := first ++ second } =
      sketch { chain := first } ++
        .link (first.getLast firstFilled).exit (some (second.head secondFilled).id) ++
          sketch { chain := second } :=
    chainSketch_append_of_getLast? (List.getLast?_eq_some_getLast firstFilled)
      (List.head?_eq_some_head secondFilled)
  refine ⟨?_, ?_, exists_sketch_pushAll⟩
  · simp [whole, Sketch.link]
  · simp [whole]

/-- A chain that ends with two conditionals, one inside the other. -/
def delivery : Chain :=
  [.event { id := ⟨"a"⟩, description := "ordered" },
    .conditional ⟨"b"⟩ [[], [.conditional ⟨"c"⟩ [[.process ⟨⟨"d"⟩, "pack"⟩], []]]]]

/-- A chain that begins with a conditional without branches. -/
def billing : Chain :=
  [.conditional ⟨"e"⟩ [], .activity { id := ⟨"f"⟩, description := "bill", database := "books" }]

theorem sketch_append_and_push_delivery :
    delivery ≠ [] ∧ billing ≠ [] ∧
      (sketch { chain := delivery ++ billing }).declarations =
        (sketch { chain := delivery }).declarations ++
          .edge ⟨⟨"b.join"⟩, ⟨"e"⟩, .flow⟩ :: (sketch { chain := billing }).declarations ∧
      (sketch { chain := delivery ++ billing }).declared =
        [⟨"a"⟩, ⟨"b"⟩, ⟨"b.join"⟩, ⟨"c"⟩, ⟨"c.join"⟩, ⟨"d"⟩] ++ [⟨"e"⟩, ⟨"f"⟩] ∧
      ∃ more, ((({ chain := delivery } : Diagram).push (.conditional ⟨"e"⟩ [])).push
        (.process ⟨⟨"g"⟩, "pay"⟩)).sketch = sketch { chain := delivery } ++ more := by
  have firstFilled : delivery ≠ [] := by decide
  have secondFilled : billing ≠ [] := by decide
  rcases sketch_append_and_push firstFilled secondFilled with ⟨declarations, declared, pushed⟩
  have firstDeclared : (sketch { chain := delivery }).declared =
      [⟨"a"⟩, ⟨"b"⟩, ⟨"b.join"⟩, ⟨"c"⟩, ⟨"c.join"⟩, ⟨"d"⟩] := by decide
  have secondDeclared : (sketch { chain := billing }).declared = [⟨"e"⟩, ⟨"f"⟩] := by decide
  rw [firstDeclared, secondDeclared] at declared
  exact ⟨firstFilled, secondFilled, declarations, declared,
    pushed { chain := delivery } [.conditional ⟨"e"⟩ [], .process ⟨⟨"g"⟩, "pay"⟩]⟩

end Diagram

end ProcessChain
