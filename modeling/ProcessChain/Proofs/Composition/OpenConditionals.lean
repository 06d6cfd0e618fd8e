import ProcessChain.Proofs.Composition.Derivation
import ProcessChain.Proofs.Outcome

/-!
# Conditionals that are left open

Which conditionals are open after some lines can be followed with a stack: a line that opens one
pushes its number, and a line that closes one pops the top. Composition keeps no such stack; it
calls itself for every conditional and hands a fault out from the innermost call. It succeeds
exactly if the stack is empty at the end, and otherwise its fault names the top of the stack
(`Language.faultOf?_composeIn`).
-/

namespace ProcessChain

/-- The numbers of the lines whose conditionals are open after one more line, innermost first. -/
def Line.steer (opened : List Nat) (line : Line) : List Nat :=
  match line.role with
  | .opens => line.number :: opened
  | .closes => opened.tail
  | .switches | .plain => opened

namespace Composition

/-- The numbers of the lines whose conditionals are open after some lines, innermost first. -/
def openAfter (opened : List Nat) (lines : List Line) : List Nat :=
  lines.foldl Line.steer opened

variable {flow scope : String} {draft last : Draft} {line : Line} {lines rest left : List Line}
  {opening : Nat}

theorem openAfter_append (opened : List Nat) (lines more : List Line) :
    openAfter opened (lines ++ more) = openAfter (openAfter opened lines) more :=
  List.foldl_append

theorem openAfter_opens (role : line.role = .opens) (opened : List Nat) :
    openAfter opened (line :: rest) = openAfter (line.number :: opened) rest := by
  simp [openAfter, Line.steer, role]

theorem openAfter_switches (role : line.role = .switches) (opened : List Nat) :
    openAfter opened (line :: rest) = openAfter opened rest := by
  simp [openAfter, Line.steer, role]

theorem openAfter_closes (role : line.role = .closes) (opened : List Nat) :
    openAfter (opening :: opened) (line :: rest) = openAfter opened rest := by
  simp [openAfter, Line.steer, role]

theorem openAfter_plain (role : line.role = .plain) (opened : List Nat) :
    openAfter opened (line :: rest) = openAfter opened rest := by
  simp [openAfter, Line.steer, role]

theorem openAfter_outside (role : line.role ≠ .opens) :
    openAfter [] (line :: rest) = openAfter [] rest := by
  cases found : line.role with
  | opens => exact absurd found role
  | _ => simp [openAfter, Line.steer, found]

theorem openAfter_of_closes {current : Chain} {further : List Chain}
    (derivation : Closes scope draft lines current further last left) (opening : Nat)
    (opened : List Nat) : openAfter (opening :: opened) lines = openAfter opened left := by
  induction derivation generalizing opening opened with
  | opens role _ _ _ inner outer => rw [openAfter_opens role, inner, outer]
  | switches role _ inside => rw [openAfter_switches role, inside]
  | closes role _ => rw [openAfter_closes role]
  | plain role _ _ inside => rw [openAfter_plain role, inside]

/-- The conditional of an opening line stays on the stack, and a fault names the top. -/
def NamesInnermost (flow : String) (opening : Nat) (lines : List Line) (fault : Fault) : Prop :=
  ∃ innermost others, fault = .openConditional flow innermost ∧
    ∀ opened, openAfter (opening :: opened) lines = innermost :: (others ++ opened)

theorem NamesInnermost.of_later {later : List Line} {fault : Fault}
    (names : NamesInnermost flow opening later fault)
    (same : ∀ opened, openAfter (opening :: opened) lines = openAfter (opening :: opened) later) :
    NamesInnermost flow opening lines fault := by
  rcases names with ⟨innermost, others, named, stacked⟩
  refine ⟨innermost, others, named, fun opened => ?_⟩
  rw [same, stacked]

theorem namesInnermost_of_close_error {fault : Fault}
    (returned : close flow scope opening draft lines = .error fault) :
    NamesInnermost flow opening lines fault := by
  fun_induction close flow scope opening draft lines with
  | case1 =>
      cases returned
      exact ⟨_, [], rfl, fun opened => rfl⟩
  | case2 opening _ _ _ role _ _ _ _ innerReturned inner =>
      cases returned
      rcases inner innerReturned with ⟨innermost, others, named, stacked⟩
      refine ⟨innermost, others ++ [opening], named, fun opened => ?_⟩
      rw [openAfter_opens role, stacked]
      simp
  | case3 _ _ _ _ role _ _ _ _ innerReturned _ _ outerReturned _ outer =>
      cases returned
      refine (outer outerReturned).of_later fun opened => ?_
      rw [openAfter_opens role, openAfter_of_closes (closes_of_close innerReturned)]
  | case4 => simp at returned
  | case5 _ _ _ _ role _ insideReturned inside =>
      cases returned
      exact (inside insideReturned).of_later fun opened => openAfter_switches role _
  | case6 => simp at returned
  | case7 => simp at returned
  | case8 _ _ _ _ role _ _ _ _ insideReturned inside =>
      cases returned
      exact (inside insideReturned).of_later fun opened => openAfter_plain role _
  | case9 => simp at returned

theorem openAfter_of_composes {nodes : Chain}
    (derivation : Composes scope draft lines nodes last) : openAfter [] lines = [] := by
  induction derivation with
  | done => rfl
  | opens role _ inner _ outer => rw [openAfter_opens role, openAfter_of_closes inner, outer]
  | other role _ _ outside => rw [openAfter_outside role, outside]

theorem openAfter_of_chain_error {fault : Fault}
    (returned : chain flow scope draft lines = .error fault) :
    ∃ innermost others, fault = .openConditional flow innermost ∧
      openAfter [] lines = innermost :: others := by
  fun_induction chain flow scope draft lines with
  | case1 => simp at returned
  | case2 _ _ _ role _ _ _ _ innerReturned =>
      cases returned
      rcases namesInnermost_of_close_error innerReturned with ⟨innermost, others, named, stacked⟩
      refine ⟨innermost, others, named, ?_⟩
      rw [openAfter_opens role, stacked, List.append_nil]
  | case3 _ _ _ role _ _ _ _ innerReturned _ _ outerReturned outer =>
      cases returned
      rw [openAfter_opens role, openAfter_of_closes (closes_of_close innerReturned)]
      exact outer outerReturned
  | case4 => simp at returned
  | case5 _ _ _ role _ _ _ _ restReturned rest | case7 _ _ _ role _ _ _ _ restReturned rest
  | case9 _ _ _ role _ _ _ _ restReturned rest =>
      cases returned
      rw [openAfter_outside (by simp [role])]
      exact rest restReturned
  | case6 => simp at returned
  | case8 => simp at returned
  | case10 => simp at returned

end Composition

namespace Flow

/-- The lines of a flow whose conditionals are left open at its end, innermost first. -/
def openLines (flow : Flow) (language : Language) : List Nat :=
  Composition.openAfter [] (flow.tokens.map language.line)

/-- The fault of a flow: that its innermost open conditional is never closed. -/
def fault? (flow : Flow) (language : Language) : Option Fault :=
  (flow.openLines language).head?.map (.openConditional flow.name ·)

theorem fault?_eq_none_iff {flow : Flow} {language : Language} :
    flow.fault? language = none ↔ flow.openLines language = [] := by
  simp [fault?]

end Flow

/-- A flow is composed exactly if no conditional is left open in it, and otherwise the innermost one
is reported. -/
theorem Language.faultOf?_composeIn (language : Language) (scope : String) (flow : Flow) :
    faultOf? (language.composeIn scope flow) = flow.fault? language := by
  unfold Flow.fault? Flow.openLines composeIn
  cases returned : Composition.chain flow.name scope {} (flow.tokens.map language.line) with
  | error fault =>
      rcases Composition.openAfter_of_chain_error returned with ⟨innermost, others, rfl, stacked⟩
      rw [stacked]
      rfl
  | ok composed =>
      rw [Composition.openAfter_of_composes (Composition.composes_of_chain returned)]
      rfl

end ProcessChain
