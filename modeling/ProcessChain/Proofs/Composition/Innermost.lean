import ProcessChain.Proofs.Composition.OpenConditionals

/-!
# The innermost conditional left open

Whether a flow can be composed is told here by its tokens alone. A stack is kept over them: a token
that opens a conditional pushes its line, and one that closes a conditional, and does nothing else
to any, pops the top. Composition succeeds exactly if the stack is empty at the end, and otherwise
it reports the line on top (`Language.composeIn_ok_iff_and_error_iff`).

That line is rightly called the innermost one. It belongs to a token after which every conditional
that is opened is also closed, and nothing more (`Language.head?_scan_eq_some_iff`). The induction
is over the length of the tokens: a token that pops takes off what a shorter part of them has
pushed, and what lies under it was pushed by a part that is shorter still.
-/

namespace ProcessChain.Language

/-- A token opens a conditional. -/
def opens (language : Language) (token : Token) : Bool :=
  (language.remarks token.text).has .branchStart

/-- A token closes a conditional, and neither opens one nor switches to another branch. -/
def closes (language : Language) (token : Token) : Bool :=
  let remarks := language.remarks token.text
  remarks.has .branchEnd && !remarks.has .branchStart && !remarks.has .branchElse

/-- The lines of the conditionals that are open after some tokens, innermost first. A token that
closes where none is open is passed over. -/
def scan (language : Language) : (opened : List Nat) → List Token → List Nat
  | opened, [] => opened
  | opened, token :: rest =>
    if language.opens token then language.scan (token.line :: opened) rest
    else if language.closes token then language.scan opened.tail rest
    else language.scan opened rest

/-- Every conditional that is opened in some tokens is closed in them, and no other one is. -/
inductive Balanced (language : Language) : List Token → Prop where
  | nil : Balanced language []
  | plain {token : Token} {rest : List Token} (opensNot : ¬ language.opens token)
      (closesNot : ¬ language.closes token) (others : Balanced language rest) :
      Balanced language (token :: rest)
  | conditional {opening closing : Token} {inside rest : List Token}
      (opens : language.opens opening) (within : Balanced language inside)
      (closes : language.closes closing) (others : Balanced language rest) :
      Balanced language (opening :: (inside ++ closing :: rest))

variable {language : Language} {token : Token} {tokens rest more : List Token}

theorem not_opens_of_closes (closes : language.closes token) : ¬ language.opens token := by
  simp only [Language.closes, Bool.and_eq_true, Bool.not_eq_true'] at closes
  simp [opens, closes.1.2]

theorem openAfter_eq_scan (language : Language) (opened : List Nat) (tokens : List Token) :
    Composition.openAfter opened (tokens.map language.line) = language.scan opened tokens := by
  induction tokens generalizing opened with
  | nil => rfl
  | cons token rest ih =>
      have step : Line.steer opened (language.line token) =
          if language.opens token then token.line :: opened
          else if language.closes token then opened.tail
          else opened := by
        unfold Line.steer Line.role opens closes line
        grind
      rw [Composition.openAfter, List.map_cons, List.foldl_cons, step, scan]
      split
      · exact ih _
      · split <;> exact ih _

theorem scan_append (opened : List Nat) (tokens more : List Token) :
    language.scan opened (tokens ++ more) = language.scan (language.scan opened tokens) more := by
  induction tokens generalizing opened with
  | nil => rfl
  | cons token rest ih =>
      rw [List.cons_append, scan, scan]
      split
      · exact ih _
      · split <;> exact ih _

theorem scan_opening (opens : language.opens token) (opened : List Nat) :
    language.scan opened (token :: rest) = language.scan (token.line :: opened) rest := by
  simp [scan, opens]

theorem scan_closing (closes : language.closes token) (opened : List Nat) :
    language.scan opened (token :: rest) = language.scan opened.tail rest := by
  simp [scan, closes, not_opens_of_closes closes]

namespace Balanced

theorem scan_eq (balanced : language.Balanced tokens) (opened : List Nat) :
    language.scan opened tokens = opened := by
  induction balanced generalizing opened with
  | nil => rfl
  | plain opensNot closesNot _ ih => simp [scan, opensNot, closesNot, ih]
  | conditional opens _ closes _ inside rest =>
      rw [scan_opening opens, scan_append, inside, scan_closing closes, List.tail_cons, rest]

theorem append (first : language.Balanced tokens) (second : language.Balanced more) :
    language.Balanced (tokens ++ more) := by
  induction first with
  | nil => exact second
  | plain opensNot closesNot _ ih => exact .plain opensNot closesNot ih
  | conditional opens within closes _ _ ih =>
      rw [List.cons_append, List.append_assoc, List.cons_append]
      exact .conditional opens within closes ih

end Balanced

theorem scan_concat (opened : List Nat) (tokens : List Token) (token : Token) :
    language.scan opened (tokens ++ [token]) =
      if language.opens token then token.line :: language.scan opened tokens
      else if language.closes token then (language.scan opened tokens).tail
      else language.scan opened tokens := by
  rw [scan_append]
  rfl

/-- A line is that of a token that opens a conditional, after which the tokens are balanced; the
other lines were on the stack before that token. -/
inductive LeavesOpen (language : Language) (line : Nat) (others : List Nat) : List Token → Prop where
  | intro {before after : List Token} {token : Token} (same : token.line = line)
      (opens : language.opens token) (balanced : language.Balanced after)
      (under : language.scan [] before = others) :
      LeavesOpen language line others (before ++ token :: after)

theorem LeavesOpen.append {line : Nat} {others : List Nat}
    (leaves : language.LeavesOpen line others tokens) (balanced : language.Balanced more) :
    language.LeavesOpen line others (tokens ++ more) := by
  cases leaves with
  | intro same opens first under =>
      rw [List.append_assoc, List.cons_append]
      exact .intro same opens (first.append balanced) under

/-- What is on top of the stack was pushed by a token after which the tokens are balanced. -/
theorem leavesOpen_of_scan_eq_cons {tokens : List Token} {line : Nat} {others : List Nat}
    (stacked : language.scan [] tokens = line :: others) :
    language.LeavesOpen line others tokens := by
  rcases List.eq_nil_or_concat' tokens with rfl | ⟨earlier, last, rfl⟩
  · cases stacked
  · rw [scan_concat] at stacked
    split at stacked
    · next opens =>
        cases stacked
        exact .intro rfl opens .nil rfl
    · next opensNot =>
        split at stacked
        · next closes =>
            -- What was popped had been pushed on top of the line, before a balanced part.
            rcases popped : language.scan [] earlier with _ | ⟨top, below⟩
            · simp [popped] at stacked
            · rw [popped, List.tail_cons] at stacked
              subst stacked
              cases leavesOpen_of_scan_eq_cons popped with
              | intro _ opens balanced under =>
                  have whole := Balanced.conditional opens balanced closes .nil
                  simpa using (leavesOpen_of_scan_eq_cons under).append whole
        · next closesNot =>
            have whole := Balanced.plain opensNot closesNot .nil
            exact (leavesOpen_of_scan_eq_cons stacked).append whole
termination_by tokens.length

theorem head?_scan_eq_some_iff {line : Nat} :
    (language.scan [] tokens).head? = some line ↔
      ∃ before token after, tokens = before ++ token :: after ∧ token.line = line ∧
        language.opens token ∧ language.Balanced after := by
  constructor
  · intro top
    rcases List.head?_eq_some_iff.1 top with ⟨others, stacked⟩
    cases leavesOpen_of_scan_eq_cons stacked with
    | intro same opens balanced _ => exact ⟨_, _, _, rfl, same, opens, balanced⟩
  · rintro ⟨before, token, after, rfl, rfl, opens, balanced⟩
    rw [scan_append, scan_opening opens, balanced.scan_eq]
    rfl

/-- A flow is composed exactly if the stack over its tokens is empty at the end, and otherwise the
line on top is reported. That is the line of the innermost conditional left open: after the token
that opens it, every conditional is closed. -/
theorem composeIn_ok_iff_and_error_iff (language : Language) (scope : String) (flow : Flow) :
    ((∃ diagram, language.composeIn scope flow = .ok diagram) ↔
      language.scan [] flow.tokens = []) ∧
    (∀ fault, language.composeIn scope flow = .error fault ↔
      ∃ line, (language.scan [] flow.tokens).head? = some line ∧
        fault = .openConditional flow.name line) ∧
    ∀ line, (language.scan [] flow.tokens).head? = some line ↔
      ∃ before token after, flow.tokens = before ++ token :: after ∧ token.line = line ∧
        language.opens token ∧ language.Balanced after := by
  have openLines : flow.openLines language = language.scan [] flow.tokens :=
    language.openAfter_eq_scan [] flow.tokens
  refine ⟨?_, fun fault => ?_, fun line => head?_scan_eq_some_iff⟩
  · rw [← faultOf?_eq_none_iff, faultOf?_composeIn, Flow.fault?_eq_none_iff, openLines]
  · rw [← faultOf?_eq_some_iff, faultOf?_composeIn, Flow.fault?, openLines, Option.map_eq_some_iff]
    simp only [eq_comm]

example : standard.scan [] [⟨"end:", 1⟩, ⟨"if: a", 2⟩, ⟨"if: b end:", 3⟩, ⟨"else: end:", 4⟩,
    ⟨"end:", 5⟩] = [2] := by
  decide +kernel

end ProcessChain.Language
