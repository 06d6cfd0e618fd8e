import ProcessChain.Proofs.Composition.Gathering

/-!
# What a flow says

A flow is composed from the remarks in its lines. A line without remarks does nothing at any depth,
and the number of a line is used only to report a fault, so two flows of one name that say the same
are composed to the same diagram (`Language.composeIn_of_spoken_eq`), whatever else stands between
their remarks.
-/

namespace ProcessChain

namespace Line

variable {line : Line}

/-- The remarks of a line, if it has any. -/
def spoken? (line : Line) : Option Remarks :=
  if line.remarks = [] then none else some line.remarks

theorem spoken?_eq_none_iff : line.spoken? = none ↔ line.remarks = [] := by
  simp [spoken?]

theorem role_of_silent (silent : line.remarks = []) : line.role = .plain := by
  simp [role, Remarks.has, silent]

end Line

namespace Draft

variable {scope : String} {draft : Draft} {line : Line}

theorem read_of_silent (silent : line.remarks = []) : draft.read scope line = (draft, []) := by
  simp [read, silent, noteAll]

end Draft

namespace Composition

/-- What some lines say: the remarks of those that have any. -/
def spoken (lines : List Line) : List Remarks :=
  lines.filterMap Line.spoken?

variable {scope : String} {draft last : Draft} {line : Line}
  {silent lines others rest left : List Line} {nodes current : Chain} {further : List Chain}

theorem spoken_cons_of_silent (quiet : line.remarks = []) :
    spoken (line :: rest) = spoken rest :=
  List.filterMap_cons_none (Line.spoken?_eq_none_iff.2 quiet)

theorem silent_of_spoken_eq_nil (empty : spoken lines = []) :
    ∀ line ∈ lines, line.remarks = [] :=
  fun line listed => Line.spoken?_eq_none_iff.1 (List.filterMap_eq_nil_iff.1 empty line listed)

/-- Lines that say the same as a line with remarks and some after it come to that line, under
another number, after some lines without remarks. -/
theorem exists_of_spoken_eq (speaks : line.remarks ≠ [])
    (same : spoken (line :: rest) = spoken others) :
    ∃ silent number otherRest, others = silent ++ { line with number } :: otherRest ∧
      (∀ between ∈ silent, between.remarks = []) ∧ spoken rest = spoken otherRest := by
  have first : line.spoken? = some line.remarks := if_neg speaks
  unfold spoken at same
  rw [List.filterMap_cons_some first, eq_comm, List.filterMap_eq_cons_iff] at same
  rcases same with ⟨silent, ⟨number, remarks⟩, otherRest, split, quiet, otherFirst, sameRest⟩
  have sameRemarks : line.remarks = remarks := by
    unfold Line.spoken? at otherFirst
    split at otherFirst
    · simp at otherFirst
    · exact (Option.some.inj otherFirst).symm
  cases sameRemarks
  refine ⟨silent, number, otherRest, split, ?_, sameRest.symm⟩
  intro between listed
  exact Line.spoken?_eq_none_iff.1 (quiet between listed)

theorem closes_append_of_silent (quiet : ∀ line ∈ silent, line.remarks = [])
    (derivation : Closes scope draft lines current further last left) :
    Closes scope draft (silent ++ lines) current further last left := by
  induction silent with
  | nil => exact derivation
  | cons line rest ih =>
      rcases List.forall_mem_cons.1 quiet with ⟨first, others⟩
      exact .plain (Line.role_of_silent first) (Draft.read_of_silent first) (ih others)

theorem composes_append_of_silent (quiet : ∀ line ∈ silent, line.remarks = [])
    (derivation : Composes scope draft lines nodes last) :
    Composes scope draft (silent ++ lines) nodes last := by
  induction silent with
  | nil => exact derivation
  | cons line rest ih =>
      rcases List.forall_mem_cons.1 quiet with ⟨first, others⟩
      exact .other (by simp [Line.role_of_silent first]) (Draft.read_of_silent first) (ih others)

/-- What is composed from lines is composed from any lines that say the same, and what the
composition leaves of them says the same again. -/
theorem closes_of_spoken_eq (derivation : Closes scope draft lines current further last left)
    (same : spoken lines = spoken others) :
    ∃ othersLeft, Closes scope draft others current further last othersLeft ∧
      spoken left = spoken othersLeft := by
  have speaks {line : Line} (role : line.role ≠ .plain) : line.remarks ≠ [] :=
    fun silent => role (Line.role_of_silent silent)
  -- A line that steers has remarks and is found again; a plain one may have none and is skipped.
  induction derivation generalizing others with
  | opens role read _ _ inner outer =>
      rcases exists_of_spoken_eq (speaks (by simp [role])) same with
        ⟨silent, number, otherRest, rfl, quiet, sameRest⟩
      rcases inner sameRest with ⟨innerLeft, innerCloses, sameInner⟩
      rcases outer sameInner with ⟨outerLeft, outerCloses, sameLeft⟩
      exact ⟨outerLeft,
        closes_append_of_silent quiet (.opens role read innerCloses outerCloses), sameLeft⟩
  | switches role _ inside =>
      rcases exists_of_spoken_eq (speaks (by simp [role])) same with
        ⟨silent, number, otherRest, rfl, quiet, sameRest⟩
      rcases inside sameRest with ⟨insideLeft, insideCloses, sameLeft⟩
      exact ⟨insideLeft, closes_append_of_silent quiet (.switches role insideCloses), sameLeft⟩
  | closes role read =>
      rcases exists_of_spoken_eq (speaks (by simp [role])) same with
        ⟨silent, number, otherRest, rfl, quiet, sameRest⟩
      exact ⟨otherRest, closes_append_of_silent quiet (.closes role read), sameRest⟩
  | @plain _ _ _ line _ _ _ _ _ role read _ inside =>
      by_cases empty : line.remarks = []
      · rw [spoken_cons_of_silent empty] at same
        rw [Draft.read_of_silent empty] at read
        cases read
        exact inside same
      · rcases exists_of_spoken_eq empty same with
          ⟨silent, number, otherRest, rfl, quiet, sameRest⟩
        rcases inside sameRest with ⟨insideLeft, insideCloses, sameLeft⟩
        exact ⟨insideLeft, closes_append_of_silent quiet (.plain role read insideCloses), sameLeft⟩

theorem composes_of_spoken_eq (derivation : Composes scope draft lines nodes last)
    (same : spoken lines = spoken others) : Composes scope draft others nodes last := by
  induction derivation generalizing others with
  | done =>
      simpa using composes_append_of_silent (silent_of_spoken_eq_nil same.symm) .done
  | @opens _ _ _ _ line _ _ _ _ _ _ role read inner _ outer =>
      have speaks : line.remarks ≠ [] := by
        intro silent
        simp [Line.role_of_silent silent] at role
      rcases exists_of_spoken_eq speaks same with
        ⟨silent, number, otherRest, rfl, quiet, sameRest⟩
      rcases closes_of_spoken_eq inner sameRest with ⟨innerLeft, innerCloses, sameInner⟩
      exact composes_append_of_silent quiet (.opens role read innerCloses (outer sameInner))
  | @other _ _ _ line _ _ _ role read _ outside =>
      by_cases empty : line.remarks = []
      · rw [spoken_cons_of_silent empty] at same
        rw [Draft.read_of_silent empty] at read
        cases read
        exact outside same
      · rcases exists_of_spoken_eq empty same with
          ⟨silent, number, otherRest, rfl, quiet, sameRest⟩
        exact composes_append_of_silent quiet (.other role read (outside sameRest))

theorem remarksRead_append_of_silent (depth : Nat) (quiet : ∀ line ∈ silent, line.remarks = []) :
    remarksRead depth (silent ++ lines) = remarksRead depth lines := by
  induction silent with
  | nil => rfl
  | cons line rest ih =>
      rcases List.forall_mem_cons.1 quiet with ⟨first, others⟩
      rw [List.cons_append, remarksRead_plain depth (Line.role_of_silent first), first, ih others,
        List.nil_append]

/-- Which remarks are read does not depend on the number of a line. -/
theorem remarksRead_renumber {number : Nat} (depth : Nat)
    (same : ∀ depth, remarksRead depth rest = remarksRead depth others) :
    remarksRead depth (line :: rest) = remarksRead depth ({ line with number } :: others) := by
  have sameRole : ({ line with number } : Line).role = line.role := rfl
  unfold remarksRead at same ⊢
  cases depth <;> cases found : line.role <;> simp [linesRead, sameRole, found, same]

/-- Of lines that say the same, the same remarks are read. -/
theorem remarksRead_of_spoken_eq (depth : Nat) (same : spoken lines = spoken others) :
    remarksRead depth lines = remarksRead depth others := by
  induction lines generalizing depth others with
  | nil =>
      have padded : remarksRead depth (others ++ []) = remarksRead depth [] :=
        remarksRead_append_of_silent depth (silent_of_spoken_eq_nil same.symm)
      simpa using padded.symm
  | cons line rest ih =>
      by_cases empty : line.remarks = []
      · rw [spoken_cons_of_silent empty] at same
        rw [remarksRead_plain depth (Line.role_of_silent empty), empty, List.nil_append]
        exact ih depth same
      · rcases exists_of_spoken_eq empty same with
          ⟨silent, number, otherRest, rfl, quiet, sameRest⟩
        rw [remarksRead_append_of_silent depth quiet]
        exact remarksRead_renumber depth fun depth => ih depth sameRest

end Composition

namespace Flow

/-- What a flow says: its name, and the remarks of its tokens that have any. -/
def spoken (flow : Flow) (language : Language) : String × List Remarks :=
  (flow.name, Composition.spoken (flow.tokens.map language.line))

/-- The name of a flow and the texts of its tokens, without the lines that they stand on. -/
def texts (flow : Flow) : String × List String :=
  (flow.name, flow.tokens.map Token.text)

theorem spoken_eq_of_texts_eq {flow other : Flow} (language : Language)
    (same : flow.texts = other.texts) : flow.spoken language = other.spoken language := by
  have said (flow : Flow) : flow.spoken language =
      (flow.texts.1,
        flow.texts.2.filterMap fun text => Line.spoken? ⟨0, language.remarks text⟩) := by
    simp only [spoken, texts, Composition.spoken, List.filterMap_map]
    rfl
  rw [said, said, same]

end Flow

/-- Flows that say the same refer to the same inner flows. -/
theorem Flow.references_of_spoken_eq {language : Language} {flow other : Flow}
    (same : flow.spoken language = other.spoken language) :
    flow.references language = other.references language :=
  congrArg Remarks.references
    (Composition.remarksRead_of_spoken_eq 0 (congrArg Prod.snd same))

/-- Flows that say the same are composed to the same diagram. -/
theorem Language.composeIn_of_spoken_eq {language : Language} {scope : String} {flow other : Flow}
    {diagram : Diagram} (same : flow.spoken language = other.spoken language)
    (returned : language.composeIn scope flow = .ok diagram) :
    language.composeIn scope other = .ok diagram := by
  have sameName : flow.name = other.name := congrArg Prod.fst same
  have sameLines : Composition.spoken (flow.tokens.map language.line) =
      Composition.spoken (other.tokens.map language.line) := congrArg Prod.snd same
  rcases composes_of_composeIn returned with ⟨named, last, references, topics, derivation⟩
  rw [composeIn_of_composes (Composition.composes_of_spoken_eq derivation sameLines), ← sameName,
    ← named, ← references, ← topics]

end ProcessChain
