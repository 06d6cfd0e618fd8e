import ProcessChain.Proofs.Composition.OpenConditionals

/-!
# Composition by position

`Composition.close` hands the lines after a conditional back to its caller. Composition by position
keeps all lines in one place instead. Each of its loops has a cursor: the outer one goes through the
lines of a flow, and when it comes to a line that opens a conditional, `resolve` starts a loop of
its own behind that line. It returns how many lines the conditional spans, and the cursor of the
loop around it goes on by that number.

Nothing in such a loop gets smaller by itself: that it comes to an end depends on the numbers that
the loops inside it return. So the loops are defined as least fixed points, in which `none` stands
for what does not come to an end, and each of the numbers that are subtracted is checked. Both
compositions are shown to come to the same (`Language.composeByPosition_eq`).
-/

namespace ProcessChain

namespace Composition

/-- Why composition by position stops. -/
inductive Stop where
  | fault (fault : Fault)
  /-- A conditional is to be resolved where none is opened. -/
  | notConditional
  /-- The cursor of a loop is before the line that the loop has started at. -/
  | underflow

/-- Where a loop is, and what it has composed. -/
structure Cursor where
  /-- The position of the next line. -/
  index : Nat
  draft : Draft
  /-- The branches that are finished. -/
  branches : List Chain := []
  /-- The branch, or outside of all conditionals the chain, that is being composed. -/
  current : Chain := []

/-- The line that a conditional is opened by. -/
structure Opening where
  /-- The position of the line. -/
  start : Nat
  number : Nat
  /-- The identity of the conditional. -/
  id : NodeId

/-- A conditional that is composed. -/
structure Resolved where
  /-- The number of lines from the opening line to the closing one. -/
  consumed : Nat
  node : Node
  draft : Draft

namespace Cursor

/-- Reads a line and goes on to the next one. -/
def read (cursor : Cursor) (scope : String) (line : Line) : Cursor :=
  let (noted, nodes) := cursor.draft.read scope line
  { cursor with index := cursor.index + 1, draft := noted, current := cursor.current ++ nodes }

/-- Begins the next branch after a line. -/
def switch (cursor : Cursor) : Cursor :=
  { cursor with
    index := cursor.index + 1
    branches := cursor.branches ++ [cursor.current]
    current := [] }

/-- Goes on behind a conditional. -/
def skip (cursor : Cursor) (resolved : Resolved) : Cursor :=
  { cursor with
    index := cursor.index + resolved.consumed
    draft := resolved.draft
    current := cursor.current ++ [resolved.node] }

/-- Ends a conditional before the next line. -/
def close (cursor : Cursor) (opening : Opening) : Except Stop Resolved :=
  if opening.start ≤ cursor.index then
    .ok
      { consumed := cursor.index - opening.start
        node := .conditional opening.id (cursor.branches ++ [cursor.current])
        draft := cursor.draft }
  else
    .error .underflow

end Cursor

/-- The line at a position, or what it is to stop with where there is none. -/
def lineAt (lines : List Line) (position : Nat) (absent : Stop) : ExceptT Stop Option Line :=
  match lines[position]? with
  | none => throw absent
  | some line => return line

end Composition

open ProcessChain.Composition

mutual

/-- Composes the conditional that is opened at a position. -/
def Draft.resolve (draft : Draft) (flow scope : String) (lines : List Line) (start : Nat) :
    ExceptT Stop Option Resolved := do
  let line ← lineAt lines start .notConditional
  if line.role = .opens then
    Cursor.read { index := start, draft := draft.issue } scope line
      |>.loop flow scope lines { start, number := line.number, id := draft.nextId scope }
  else
    throw .notConditional
partial_fixpoint

/-- One turn of the loop inside a conditional: it ends with the conditional or goes on. -/
def Composition.Cursor.turn (cursor : Cursor) (flow scope : String) (lines : List Line)
    (opening : Opening) : ExceptT Stop Option (Resolved ⊕ Cursor) := do
  let line ← lineAt lines cursor.index (.fault (.openConditional flow opening.number))
  if line.role = .opens then
    let resolved ← cursor.draft |>.resolve flow scope lines cursor.index
    return .inr (cursor.skip resolved)
  else if line.role = .switches then
    return .inr cursor.switch
  else if line.role = .closes then
    let resolved ← ExceptT.mk (some ((cursor.read scope line).close opening))
    return .inl resolved
  else
    return .inr (cursor.read scope line)
partial_fixpoint

/-- The loop inside a conditional. -/
def Composition.Cursor.loop (cursor : Cursor) (flow scope : String) (lines : List Line)
    (opening : Opening) : ExceptT Stop Option Resolved := do
  match ← cursor |>.turn flow scope lines opening with
  | .inl resolved => return resolved
  | .inr next => next |>.loop flow scope lines opening
partial_fixpoint

end

namespace Composition.Cursor

/-- One turn of the loop outside of all conditionals: there is no line left, or it goes on. -/
def outerTurn (cursor : Cursor) (flow scope : String) (lines : List Line) :
    ExceptT Stop Option (Option Cursor) :=
  match lines[cursor.index]? with
  | none => return none
  | some line =>
    if line.role = .opens then do
      let resolved ← cursor.draft.resolve flow scope lines cursor.index
      return some (cursor.skip resolved)
    else
      return some (cursor.read scope line)

/-- The loop outside of all conditionals. -/
def outerLoop (cursor : Cursor) (flow scope : String) (lines : List Line) :
    ExceptT Stop Option (Draft × Chain) := do
  match ← cursor.outerTurn flow scope lines with
  | none => return (cursor.draft, cursor.current)
  | some next => next |>.outerLoop flow scope lines
partial_fixpoint

end Composition.Cursor

namespace Language

open ProcessChain.Composition

/-- Composes a flow by position. -/
def composeByPosition (language : Language) (scope : String) (flow : Flow) :
    ExceptT Stop Option Diagram := do
  let lines := flow.tokens.map language.line
  let first : Cursor := { index := 0, draft := {} }
  let (draft, chain) ← first.outerLoop flow.name scope lines
  return { name := flow.name, chain, references := draft.references, topics := draft.topics }

end Language

namespace Composition

variable {α β : Type} {flow scope : String} {lines rest left : List Line} {line : Line}
  {opening : Opening} {cursor next : Cursor} {resolved : Resolved} {draft last : Draft}
  {stop : Stop} {fault : Fault}

theorem Cursor.read_eq {noted : Draft} {nodes : Chain}
    (read : cursor.draft.read scope line = (noted, nodes)) :
    cursor.read scope line =
      { cursor with
        index := cursor.index + 1
        draft := noted
        current := cursor.current ++ nodes } := by
  simp [Cursor.read, read]

/-! ## One turn -/

theorem bind_of_ok {step : ExceptT Stop Option α} {value : α} (returned : step = some (.ok value))
    (next : α → ExceptT Stop Option β) : step >>= next = next value := by
  rw [returned]
  rfl

theorem bind_of_error {step : ExceptT Stop Option α} (stopped : step = some (.error stop))
    (next : α → ExceptT Stop Option β) : step >>= next = some (.error stop) := by
  rw [stopped]
  rfl

theorem lineAt_of_some {position : Nat} (there : lines[position]? = some line) (absent : Stop) :
    lineAt lines position absent = some (.ok line) := by
  rw [lineAt, there]
  rfl

theorem lineAt_of_none {position : Nat} (beyond : lines[position]? = none) (absent : Stop) :
    lineAt lines position absent = some (.error absent) := by
  rw [lineAt, beyond]
  rfl

theorem resolve_of_opens {started : Draft} {first : Chain} {start : Nat}
    (there : lines[start]? = some line) (role : line.role = .opens)
    (read : draft.issue.read scope line = (started, first)) :
    draft.resolve flow scope lines start =
      Cursor.loop { index := start + 1, draft := started, current := first } flow scope lines
        { start, number := line.number, id := draft.nextId scope } := by
  rw [Draft.resolve, bind_of_ok (lineAt_of_some there _), if_pos role, Cursor.read_eq read,
    List.nil_append]

theorem turn_of_none (beyond : lines[cursor.index]? = none) :
    cursor.turn flow scope lines opening =
      some (.error (.fault (.openConditional flow opening.number))) := by
  rw [Cursor.turn, bind_of_error (lineAt_of_none beyond _)]

theorem turn_of_resolve (there : lines[cursor.index]? = some line) (role : line.role = .opens)
    (returned : cursor.draft.resolve flow scope lines cursor.index = some (.ok resolved)) :
    cursor.turn flow scope lines opening = some (.ok (.inr (cursor.skip resolved))) := by
  rw [Cursor.turn, bind_of_ok (lineAt_of_some there _), if_pos role, bind_of_ok returned]
  rfl

theorem turn_of_resolve_error (there : lines[cursor.index]? = some line)
    (role : line.role = .opens)
    (stopped : cursor.draft.resolve flow scope lines cursor.index = some (.error stop)) :
    cursor.turn flow scope lines opening = some (.error stop) := by
  rw [Cursor.turn, bind_of_ok (lineAt_of_some there _), if_pos role, bind_of_error stopped]

theorem turn_of_switches (there : lines[cursor.index]? = some line)
    (role : line.role = .switches) :
    cursor.turn flow scope lines opening = some (.ok (.inr cursor.switch)) := by
  rw [Cursor.turn, bind_of_ok (lineAt_of_some there _), if_neg (by simp [role]), if_pos role]
  rfl

theorem turn_of_closes (there : lines[cursor.index]? = some line) (role : line.role = .closes) :
    cursor.turn flow scope lines opening =
      some (((cursor.read scope line).close opening).map .inl) := by
  rw [Cursor.turn, bind_of_ok (lineAt_of_some there _), if_neg (by simp [role]),
    if_neg (by simp [role]), if_pos role]
  cases (cursor.read scope line).close opening <;> rfl

theorem turn_of_plain (there : lines[cursor.index]? = some line) (role : line.role = .plain) :
    cursor.turn flow scope lines opening = some (.ok (.inr (cursor.read scope line))) := by
  rw [Cursor.turn, bind_of_ok (lineAt_of_some there _), if_neg (by simp [role]),
    if_neg (by simp [role]), if_neg (by simp [role])]
  rfl

theorem loop_of_turn (turned : cursor.turn flow scope lines opening = some (.ok (.inr next))) :
    cursor.loop flow scope lines opening = next.loop flow scope lines opening := by
  rw [Cursor.loop, bind_of_ok turned]

theorem loop_of_end (turned : cursor.turn flow scope lines opening = some (.ok (.inl resolved))) :
    cursor.loop flow scope lines opening = some (.ok resolved) := by
  rw [Cursor.loop, bind_of_ok turned]
  rfl

theorem loop_of_stop (stopped : cursor.turn flow scope lines opening = some (.error stop)) :
    cursor.loop flow scope lines opening = some (.error stop) := by
  rw [Cursor.loop, bind_of_error stopped]

/-! ## The loops come to what composition comes to -/

theorem getElem?_of_drop_eq_cons {index : Nat} (here : lines.drop index = line :: rest) :
    lines[index]? = some line ∧ lines.drop (index + 1) = rest := by
  constructor
  · rw [← List.head?_drop, here]
    rfl
  · rw [← List.tail_drop, here]
    rfl

theorem lt_length_of_drop_eq_cons {index : Nat} (here : lines.drop index = line :: rest) :
    index < lines.length :=
  (List.getElem?_eq_some_iff.1 (getElem?_of_drop_eq_cons here).1).1

/-- A loop inside a conditional comes to an end behind the line that closes it. -/
theorem loop_of_closes {current : Chain} {further : List Chain} (flow : String)
    (opening : Opening) (cursor : Cursor)
    (derivation : Closes scope draft rest current further last left)
    (here : lines.drop cursor.index = rest) (state : cursor.draft = draft)
    (inside : opening.start ≤ cursor.index) :
    ∃ resolved, cursor.loop flow scope lines opening = some (.ok resolved) ∧
      resolved.node = .conditional opening.id
        (cursor.branches ++ (cursor.current ++ current) :: further) ∧
      resolved.draft = last ∧ cursor.index < opening.start + resolved.consumed ∧
      opening.start + resolved.consumed ≤ lines.length ∧
      lines.drop (opening.start + resolved.consumed) = left := by
  induction derivation generalizing cursor opening with
  | @opens draft started _ _ line _ _ _ first _ _ _ _ role read _ _ inner outer =>
      rcases getElem?_of_drop_eq_cons here with ⟨there, after⟩
      subst state
      rcases inner ⟨cursor.index, line.number, cursor.draft.nextId scope⟩
          ⟨cursor.index + 1, started, [], first⟩ after rfl (Nat.le_succ _) with
        ⟨nested, nestedReturned, node, draft, nestedLater, _, behind⟩
      rw [← resolve_of_opens there role read] at nestedReturned
      have further : opening.start ≤ (cursor.skip nested).index := Nat.le_add_right_of_le inside
      rcases outer opening (cursor.skip nested) behind draft further with
        ⟨resolved, returned, whole, state, later, within, left⟩
      refine ⟨resolved, ?_, ?_, state, ?_, within, left⟩
      · rw [loop_of_turn (turn_of_resolve there role nestedReturned), returned]
      · rw [whole]
        simp [Cursor.skip, node]
      · simp only [Cursor.skip] at later
        omega
  | switches role _ ih =>
      rcases getElem?_of_drop_eq_cons here with ⟨there, after⟩
      rcases ih opening cursor.switch after state (Nat.le_succ_of_le inside) with
        ⟨resolved, returned, whole, state, later, within, left⟩
      refine ⟨resolved, ?_, ?_, state, Nat.lt_of_succ_lt later, within, left⟩
      · rw [loop_of_turn (turn_of_switches there role), returned]
      · rw [whole]
        simp [Cursor.switch]
  | @closes draft last line rest nodes role read =>
      rcases getElem?_of_drop_eq_cons here with ⟨there, after⟩
      have reached : opening.start + (cursor.index + 1 - opening.start) = cursor.index + 1 := by
        omega
      refine ⟨⟨cursor.index + 1 - opening.start, _, _⟩, ?_, rfl, rfl, ?_⟩
      · apply loop_of_end
        rw [turn_of_closes there role]
        simp [Cursor.close, Cursor.read, state, read, Nat.le_succ_of_le inside, Except.map]
      · simp only [reached]
        exact ⟨Nat.lt_succ_self _, lt_length_of_drop_eq_cons here, after⟩
  | @plain draft noted _ line _ _ nodes _ _ role read _ ih =>
      rcases getElem?_of_drop_eq_cons here with ⟨there, after⟩
      subst state
      rcases ih opening ⟨cursor.index + 1, noted, cursor.branches, cursor.current ++ nodes⟩ after
          rfl (Nat.le_succ_of_le inside) with
        ⟨resolved, returned, whole, state, later, within, left⟩
      refine ⟨resolved, ?_, ?_, state, Nat.lt_of_succ_lt later, within, left⟩
      · rw [loop_of_turn (turn_of_plain there role), Cursor.read_eq read, returned]
      · rw [whole]
        simp

/-- A conditional that is opened at a position is composed up to the line that closes it. -/
inductive Resolves (scope : String) (lines : List Line) (start : Nat) (draft : Draft) :
    Resolved → Prop where
  | intro {line : Line} {started last : Draft} {first current : Chain} {further : List Chain}
      {consumed : Nat} (there : lines[start]? = some line) (role : line.role = .opens)
      (read : draft.issue.read scope line = (started, first))
      (inside : Closes scope started (lines.drop (start + 1)) current further last
        (lines.drop (start + consumed)))
      (later : 2 ≤ consumed) (within : start + consumed ≤ lines.length) :
      Resolves scope lines start draft
        ⟨consumed, .conditional (draft.nextId scope) ((first ++ current) :: further), last⟩

theorem resolve_of_closes {started : Draft} {first current : Chain} {further : List Chain}
    {start : Nat} (flow : String) (there : lines[start]? = some line) (role : line.role = .opens)
    (read : draft.issue.read scope line = (started, first))
    (derivation : Closes scope started (lines.drop (start + 1)) current further last left) :
    ∃ resolved, draft.resolve flow scope lines start = some (.ok resolved) ∧
      resolved.node = .conditional (draft.nextId scope) ((first ++ current) :: further) ∧
      resolved.draft = last ∧ lines.drop (start + resolved.consumed) = left ∧
      Resolves scope lines start draft resolved := by
  rcases loop_of_closes flow ⟨start, line.number, draft.nextId scope⟩
      ⟨start + 1, started, [], first⟩ derivation rfl rfl (Nat.le_succ _) with
    ⟨⟨consumed, node, last⟩, returned, rfl, rfl, later, within, rfl⟩
  rw [← resolve_of_opens there role read] at returned
  have two : 2 ≤ consumed := Nat.lt_of_add_lt_add_left later
  exact ⟨_, returned, rfl, rfl, rfl, .intro there role read derivation two within⟩

/-- A loop inside a conditional stops at the fault of composing the rest of it. -/
theorem loop_of_close_error (opening : Opening) (cursor : Cursor)
    (failed : close flow scope opening.number draft rest = .error fault)
    (here : lines.drop cursor.index = rest) (state : cursor.draft = draft)
    (inside : opening.start ≤ cursor.index) :
    cursor.loop flow scope lines opening = some (.error (.fault fault)) := by
  generalize numbered : opening.number = number at failed
  fun_induction close flow scope number draft rest generalizing cursor opening with
  | case1 =>
      cases failed
      have absent : lines[cursor.index]? = none := by rw [← List.head?_drop, here]; rfl
      rw [loop_of_stop (turn_of_none absent), numbered]
  | case2 number draft line rest role started first read innerFault innerFailed inner =>
      cases failed
      rcases getElem?_of_drop_eq_cons here with ⟨there, after⟩
      subst state
      have nested := inner ⟨cursor.index, line.number, cursor.draft.nextId scope⟩
        ⟨cursor.index + 1, started, [], first⟩ after rfl (Nat.le_succ _) rfl innerFailed
      rw [← resolve_of_opens there role read] at nested
      exact loop_of_stop (turn_of_resolve_error there role nested)
  | case3 number draft line rest role started first read innerClosed innerReturned _ _ outerFailed _
      outer =>
      cases failed
      rcases getElem?_of_drop_eq_cons here with ⟨there, after⟩
      subst state
      subst after
      rcases resolve_of_closes flow there role read (closes_of_close innerReturned) with
        ⟨nested, nestedReturned, _, draft, behind, _⟩
      rw [loop_of_turn (turn_of_resolve there role nestedReturned)]
      exact outer opening (cursor.skip nested) behind draft (Nat.le_add_right_of_le inside) numbered
        outerFailed
  | case4 => cases failed
  | case5 number draft line rest role _ insideFailed ih =>
      cases failed
      rcases getElem?_of_drop_eq_cons here with ⟨there, after⟩
      rw [loop_of_turn (turn_of_switches there role)]
      exact ih opening cursor.switch after state (Nat.le_succ_of_le inside) numbered insideFailed
  | case6 => cases failed
  | case7 => cases failed
  | case8 number draft line rest role noted nodes read _ insideFailed ih =>
      cases failed
      rcases getElem?_of_drop_eq_cons here with ⟨there, after⟩
      subst state
      rw [loop_of_turn (turn_of_plain there role), Cursor.read_eq read]
      exact ih opening _ after rfl (Nat.le_succ_of_le inside) numbered insideFailed
  | case9 => cases failed

/-- A conditional is resolved, or it is reported that one is not closed. -/
theorem resolve_cases (flow scope : String) {start : Nat} (draft : Draft)
    (there : lines[start]? = some line) (role : line.role = .opens) :
    (∃ number, draft.resolve flow scope lines start =
        some (.error (.fault (.openConditional flow number)))) ∨
      ∃ resolved, draft.resolve flow scope lines start = some (.ok resolved) ∧
        Resolves scope lines start draft resolved := by
  rcases read : draft.issue.read scope line with ⟨started, first⟩
  cases returned : close flow scope line.number started (lines.drop (start + 1)) with
  | error fault =>
      rcases namesInnermost_of_close_error returned with ⟨number, _, rfl, _⟩
      refine .inl ⟨number, ?_⟩
      rw [resolve_of_opens there role read]
      exact loop_of_close_error _ _ returned rfl rfl (Nat.le_succ _)
  | ok closed =>
      rcases resolve_of_closes flow there role read (closes_of_close returned) with
        ⟨resolved, returned, _, _, _, resolves⟩
      exact .inr ⟨resolved, returned, resolves⟩

/-- It is refused to resolve one exactly where none is opened. -/
theorem resolve_eq_notConditional_iff {start : Nat} :
    draft.resolve flow scope lines start = some (.error .notConditional) ↔
      ∀ line, lines[start]? = some line → line.role ≠ .opens := by
  constructor
  · intro refused line there role
    rcases resolve_cases flow scope draft there role with
      ⟨number, stopped⟩ | ⟨resolved, returned, _⟩
    · rw [stopped] at refused
      cases refused
    · rw [returned] at refused
      cases refused
  · intro other
    cases there : lines[start]? with
    | none => rw [Draft.resolve, bind_of_error (lineAt_of_none there _)]
    | some line =>
        rw [Draft.resolve, bind_of_ok (lineAt_of_some there _), if_neg (other line there)]
        rfl

/-! ## Outside of all conditionals -/

theorem outerLoop_of_none (absent : lines[cursor.index]? = none) :
    cursor.outerLoop flow scope lines = some (.ok (cursor.draft, cursor.current)) := by
  rw [Cursor.outerLoop, Cursor.outerTurn, absent]
  rfl

theorem outerTurn_of_resolve (there : lines[cursor.index]? = some line) (role : line.role = .opens)
    (returned : cursor.draft.resolve flow scope lines cursor.index = some (.ok resolved)) :
    cursor.outerTurn flow scope lines = some (.ok (some (cursor.skip resolved))) := by
  rw [Cursor.outerTurn, there]
  simp only [role, bind_of_ok returned]
  rfl

theorem outerTurn_of_resolve_error (there : lines[cursor.index]? = some line)
    (role : line.role = .opens)
    (stopped : cursor.draft.resolve flow scope lines cursor.index = some (.error stop)) :
    cursor.outerTurn flow scope lines = some (.error stop) := by
  rw [Cursor.outerTurn, there]
  simp only [role, bind_of_error stopped]
  rfl

theorem outerTurn_of_other (there : lines[cursor.index]? = some line) (role : line.role ≠ .opens) :
    cursor.outerTurn flow scope lines = some (.ok (some (cursor.read scope line))) := by
  rw [Cursor.outerTurn, there]
  simp only [role]
  rfl

theorem outerLoop_of_turn (turned : cursor.outerTurn flow scope lines = some (.ok (some next))) :
    cursor.outerLoop flow scope lines = next.outerLoop flow scope lines := by
  rw [Cursor.outerLoop, bind_of_ok turned]

theorem outerLoop_of_stop (stopped : cursor.outerTurn flow scope lines = some (.error stop)) :
    cursor.outerLoop flow scope lines = some (.error stop) := by
  rw [Cursor.outerLoop, bind_of_error stopped]

/-- Outside of all conditionals the loop comes to what is composed of the lines. -/
theorem outerLoop_of_composes {nodes : Chain} (flow : String) (cursor : Cursor)
    (derivation : Composes scope draft rest nodes last) (here : lines.drop cursor.index = rest)
    (state : cursor.draft = draft) :
    cursor.outerLoop flow scope lines = some (.ok (last, cursor.current ++ nodes)) := by
  induction derivation generalizing cursor with
  | done =>
      have absent : lines[cursor.index]? = none := by
        rw [← List.head?_drop, here]
        rfl
      rw [outerLoop_of_none absent, state, List.append_nil]
  | opens role read inner _ outer =>
      rcases getElem?_of_drop_eq_cons here with ⟨there, after⟩
      subst state after
      rcases resolve_of_closes flow there role read inner with
        ⟨resolved, returned, node, draft, behind, _⟩
      rw [outerLoop_of_turn (outerTurn_of_resolve there role returned),
        outer (cursor.skip resolved) behind draft]
      simp [Cursor.skip, node]
  | @other _ noted _ line _ nodes _ role read _ ih =>
      rcases getElem?_of_drop_eq_cons here with ⟨there, after⟩
      subst state
      rw [outerLoop_of_turn (outerTurn_of_other there role), Cursor.read_eq read, ih _ after rfl]
      simp

theorem outerLoop_of_chain_error (cursor : Cursor)
    (failed : chain flow scope draft rest = .error fault)
    (here : lines.drop cursor.index = rest) (state : cursor.draft = draft) :
    cursor.outerLoop flow scope lines = some (.error (.fault fault)) := by
  fun_induction chain flow scope draft rest generalizing cursor with
  | case1 => cases failed
  | case2 draft line rest role started first read _ innerFailed =>
      cases failed
      rcases getElem?_of_drop_eq_cons here with ⟨there, after⟩
      subst state
      have nested : cursor.draft.resolve flow scope lines cursor.index =
          some (.error (.fault fault)) := by
        rw [resolve_of_opens there role read]
        exact loop_of_close_error _ _ innerFailed after rfl (Nat.le_succ _)
      exact outerLoop_of_stop (outerTurn_of_resolve_error there role nested)
  | case3 draft line rest role started first read closed innerReturned _ _ outerFailed outer =>
      cases failed
      rcases getElem?_of_drop_eq_cons here with ⟨there, after⟩
      subst state after
      rcases resolve_of_closes flow there role read (closes_of_close innerReturned) with
        ⟨resolved, returned, _, draft, behind, _⟩
      rw [outerLoop_of_turn (outerTurn_of_resolve there role returned)]
      exact outer (cursor.skip resolved) outerFailed behind draft
  | case4 => cases failed
  | case5 draft line rest role noted nodes read _ restFailed ih
  | case7 draft line rest role noted nodes read _ restFailed ih
  | case9 draft line rest role noted nodes read _ restFailed ih =>
      cases failed
      rcases getElem?_of_drop_eq_cons here with ⟨there, after⟩
      subst state
      rw [outerLoop_of_turn (outerTurn_of_other there (by simp [role])), Cursor.read_eq read]
      exact ih _ restFailed after rfl
  | case6 => cases failed
  | case8 => cases failed
  | case10 => cases failed

/-- What stops only at a fault stops neither at a conditional that is not one nor at a number that
cannot be subtracted. -/
theorem mapError_fault_ne (outcome : Except Fault α) :
    outcome.mapError Stop.fault ≠ .error .notConditional ∧
      outcome.mapError Stop.fault ≠ .error .underflow := by
  cases outcome with
  | error fault => exact ⟨nofun, nofun⟩
  | ok value => exact ⟨nofun, nofun⟩

end Composition

open ProcessChain.Composition

/-- Composition by position comes to an end, with what composition comes to. -/
theorem Language.composeByPosition_eq (language : Language) (scope : String) (flow : Flow) :
    language.composeByPosition scope flow =
      some ((language.composeIn scope flow).mapError .fault) := by
  unfold composeByPosition composeIn
  cases returned : chain flow.name scope {} (flow.tokens.map language.line) with
  | error fault => rw [bind_of_error (outerLoop_of_chain_error _ returned rfl rfl)]; rfl
  | ok composed =>
      rw [bind_of_ok (outerLoop_of_composes _ _ (composes_of_chain returned) rfl rfl)]
      rfl

end ProcessChain
