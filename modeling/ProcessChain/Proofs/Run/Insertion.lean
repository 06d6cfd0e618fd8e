import ProcessChain.Proofs.Comment.Markers
import ProcessChain.Proofs.Flow.Padding
import ProcessChain.Proofs.Remark.Scanning
import ProcessChain.Proofs.Run.FaultPlaces

/-!
# Lines put between those of a source

A line without a comment gives no token, and a comment without a symbol in it gives a token that has
no remarks. Such lines may be put anywhere into a source, whatever becomes of its line ends: the
tokens of the source are kept, on lines that have moved, with tokens between them that say nothing
(`Insertion.padded`). So what is drawn stays as it was, and so does a fault, up to the line in it;
this only takes that the tokens are kept, whatever reads them (`Settings.draw_of_kept_tokens`).

The line in a fault is one of the source that the fault is in, and that source cannot be told from
the fault alone, since names of inner flows repeat. `Settings.faultsAt` lists the faults of a run
with the sources that they are in.
-/

namespace ProcessChain

/-- A line of an edited text: one that was there before, or one that was put in. -/
inductive Row where
  | kept (line : List Char)
  | inserted (line : List Char)
deriving DecidableEq, Repr

namespace Row

def line : Row → List Char
  | kept line => line
  | inserted line => line

def kept? : Row → Option (List Char)
  | kept line => some line
  | inserted _ => none

/-- How many rows are inserted above a line that was there before, given how many of those that were
there are above it. -/
def insertedAbove : List Row → (before : Nat) → Nat
  | [], _ => 0
  | inserted _ :: rows, before => insertedAbove rows before + 1
  | kept _ :: _, 0 => 0
  | kept _ :: rows, before + 1 => insertedAbove rows before

end Row

/-- An edit of a source that puts lines between its lines. -/
structure Insertion where
  /-- The name and the text of the source before. -/
  source : String × String
  /-- The text afterwards. -/
  text : String
  rows : List Row
  kept_eq : rows.filterMap Row.kept? = Text.lines source.2.toList
  spells : Text.Spells text.toList (rows.map Row.line)

/-- A line that no annotation stands in: it has no comment, or its comment has no symbol in it. -/
def Language.Unannotated (language : Language) (style : CommentStyle) (line : List Char) : Prop :=
  (∀ marker ∈ style.markers, ¬ marker <:+: line) ∨
    ∃ comment, style.comment? line = some comment ∧ language.SymbolFree comment

namespace Insertion

variable (insertion : Insertion)

/-- The source afterwards. -/
def edited : String × String :=
  (insertion.source.1, insertion.text)

/-- Where a line of the source is afterwards: it moves by as many lines as are inserted above it. -/
def moved (number : Nat) : Nat :=
  number + Row.insertedAbove insertion.rows (number - 1)

/-- No annotation stands in the lines that are put in. -/
def Silent (language : Language) (style : CommentStyle) : Prop :=
  ∀ line, .inserted line ∈ insertion.rows → language.Unannotated style line

/-- What is read afterwards is what was read before, on lines that have moved, and tokens between
that have no remarks. -/
def KeepsTokens (settings : Settings) : Prop :=
  Padded settings.language insertion.moved (settings.comments insertion.source.2)
    (settings.comments insertion.text)

end Insertion

theorem Language.Unannotated.remarks_eq_nil {language : Language} {style : CommentStyle}
    {line : List Char} (unannotated : language.Unannotated style line) {number : Nat}
    {token : Token} (found : style.token? line number = some token) :
    language.remarks token.text = [] := by
  rcases CommentStyle.token?_eq_some_iff.1 found with ⟨comment, commented, _, rfl⟩
  rcases unannotated with unmarked | ⟨other, otherCommented, free⟩
  · rw [CommentStyle.comment?_eq_none_iff.2 unmarked] at commented
    cases commented
  · cases commented.symm.trans otherCommented
    exact Language.remarks_of_symbolFree free

namespace Insertion

variable {language : Language} {style : CommentStyle} {settings : Settings}
  {insertion : Insertion}

theorem padded_tokensFrom {rows : List Row} {moved : Nat → Nat} {first second : Nat}
    (silent : ∀ line, .inserted line ∈ rows → language.Unannotated style line)
    (moves : ∀ before,
      moved (first + before) = second + before + Row.insertedAbove rows before) :
    Padded language moved (style.tokensFrom first (rows.filterMap Row.kept?))
      (style.tokensFrom second (rows.map Row.line)) := by
  -- `moves` counts from the next line of either text, so it is kept when a row is taken off.
  induction rows generalizing first second with
  | nil => exact .done
  | cons row rows ih =>
      have silentRest : ∀ line, .inserted line ∈ rows → language.Unannotated style line :=
        fun line listed => silent line (List.mem_cons_of_mem _ listed)
      cases row with
      | inserted line =>
          have restMoves : ∀ before,
              moved (first + before) = second + 1 + before + Row.insertedAbove rows before := by
            intro before
            rw [moves before, Row.insertedAbove]
            omega
          have rest := ih silentRest restMoves
          have unannotated := silent line List.mem_cons_self
          change Padded _ _ _ ((style.token? line second).toList ++ _)
          cases found : style.token? line second with
          | none => exact rest
          | some token => exact .silent (unannotated.remarks_eq_nil found) rest
      | kept line =>
          obtain rfl : second = moved first := (moves 0).symm
          have restMoves : ∀ before, moved (first + 1 + before) =
              moved first + 1 + before + Row.insertedAbove rows before := by
            intro before
            rw [Nat.add_assoc, Nat.add_comm 1 before, moves (before + 1), Row.insertedAbove]
            omega
          have rest := ih silentRest restMoves
          change Padded _ _ ((style.token? line first).toList ++ _)
            ((style.token? line (moved first)).toList ++ _)
          rw [CommentStyle.token?_eq_map first (moved first)]
          cases found : style.token? line first with
          | none => exact rest
          | some token =>
              rcases CommentStyle.token?_eq_some_iff.1 found with ⟨comment, _, _, rfl⟩
              exact .kept rest

/-- The tokens of the source are kept, with tokens between them that have no remarks. -/
theorem padded (silent : insertion.Silent language style) :
    Padded language insertion.moved (style.tokens insertion.source.2)
      (style.tokens insertion.text) := by
  rw [CommentStyle.tokens_of_spells insertion.spells, CommentStyle.tokens, ← insertion.kept_eq]
  apply padded_tokensFrom silent
  intro before
  unfold moved
  rw [Nat.add_sub_cancel_left]

theorem keepsTokens (reads : settings.comments = style.tokens)
    (silent : insertion.Silent settings.language style) : insertion.KeepsTokens settings := by
  unfold KeepsTokens
  rw [reads]
  exact insertion.padded silent

theorem padded_mainFlow (keeps : insertion.KeepsTokens settings) :
    (settings.mainFlow insertion.source).Padded settings.language insertion.moved
      (settings.mainFlow insertion.edited) :=
  ⟨rfl, Padded.outside keeps false⟩

theorem padded_innerFlows (keeps : insertion.KeepsTokens settings) :
    List.Forall₂ (Flow.Padded settings.language insertion.moved)
      (settings.innerFlows insertion.source) (settings.innerFlows insertion.edited) :=
  Padded.regions keeps

theorem map_spoken_innerFlows (keeps : insertion.KeepsTokens settings) :
    (settings.innerFlows insertion.edited).map (·.spoken settings.language) =
      (settings.innerFlows insertion.source).map (·.spoken settings.language) := by
  rw [← List.forall₂_eq_eq_eq, List.forall₂_map_left_iff, List.forall₂_map_right_iff]
  exact (insertion.padded_innerFlows keeps).flip.imp fun _ _ padded => padded.spoken_eq

theorem sourceFaults_edited (keeps : insertion.KeepsTokens settings) (taken : List String) :
    settings.sourceFaults taken insertion.edited =
      (settings.sourceFaults taken insertion.source).map (Fault.renumber insertion.moved) := by
  have regions := Padded.regionFault?_eq keeps none
  rw [Option.map_none] at regions
  unfold Settings.sourceFaults edited
  rw [regions, List.map_append, Option.toList_map]
  split <;> rfl

theorem innerFaults_edited (keeps : insertion.KeepsTokens settings) (names : List String) :
    settings.innerFaults names insertion.edited =
      (settings.innerFaults names insertion.source).map (Fault.renumber insertion.moved) := by
  unfold Settings.innerFaults
  have related := insertion.padded_innerFlows keeps
  generalize settings.innerFlows insertion.source = flows at related ⊢
  generalize settings.innerFlows insertion.edited = others at related ⊢
  induction related with
  | nil => rfl
  | @cons flow other _ _ first _ ih =>
      by_cases named : flow.name ∈ names
      · cases found : flow.fault? settings.language <;>
          simp [first.name_eq, named, first.fault?_eq, found, ih]
      · simp [first.name_eq, named, ih]

theorem referred_edited (keeps : insertion.KeepsTokens settings) :
    settings.referred insertion.edited = settings.referred insertion.source :=
  Flow.references_of_spoken_eq (insertion.padded_mainFlow keeps).spoken_eq

section Tagged

variable {τ : Type} {tags : List τ}

theorem sourceFaultsAt_edited (insertionOf : τ → Insertion)
    (keeps : ∀ tag ∈ tags, (insertionOf tag).KeepsTokens settings) (taken : List String) :
    settings.sourceFaultsAt (fun tag => (insertionOf tag).edited) taken tags =
      (settings.sourceFaultsAt (fun tag => (insertionOf tag).source) taken tags).map
        fun (tag, fault) => (tag, fault.renumber (insertionOf tag).moved) := by
  induction tags generalizing taken with
  | nil => rfl
  | cons tag rest ih =>
      rcases List.forall_mem_cons.1 keeps with ⟨first, others⟩
      have sameName : (insertionOf tag).edited.1 = (insertionOf tag).source.1 := rfl
      rw [Settings.sourceFaultsAt, sourceFaults_edited first, sameName, ih others,
        Settings.sourceFaultsAt, List.map_append, List.map_map, List.map_map]
      rfl

/-- The faults stay in their sources, and each names the line that its own has moved to. -/
theorem faultsAt_edited (insertionOf : τ → Insertion)
    (keeps : ∀ tag ∈ tags, (insertionOf tag).KeepsTokens settings) :
    settings.faultsAt (fun tag => (insertionOf tag).edited) tags =
      (settings.faultsAt (fun tag => (insertionOf tag).source) tags).map
        fun (tag, fault) => (tag, fault.renumber (insertionOf tag).moved) := by
  unfold Settings.faultsAt
  rw [sourceFaultsAt_edited insertionOf keeps, List.map_append]
  congr 1
  unfold Settings.flowFaultsAt
  rw [List.map_flatMap]
  refine List.flatMap_congr fun tag listed => ?_
  have own := (padded_mainFlow (keeps tag listed)).fault?_eq
  rw [List.map_append, own, referred_edited (keeps tag listed), Option.toList_map, List.map_map,
    List.map_map, List.map_flatMap]
  congr 1
  refine List.flatMap_congr fun other otherListed => ?_
  rw [innerFaults_edited (keeps other otherListed), List.map_map, List.map_map]
  rfl

end Tagged

variable {insertions : List Insertion}

theorem draw_edited_of_draw {drawings : List Drawing}
    (keeps : ∀ insertion ∈ insertions, insertion.KeepsTokens settings)
    (accepted : settings.draw (insertions.map source) = .ok drawings) :
    settings.draw (insertions.map edited) = .ok drawings := by
  have faultless : settings.faults (insertions.map edited) = [] := by
    have edited := faultsAt_edited (fun insertion => insertion) keeps
    rw [← Settings.map_snd_faultsAt, edited]
    have before := Settings.faults_eq_nil_iff.2 (Settings.wellFormed_of_draw accepted)
    rw [← Settings.map_snd_faultsAt, List.map_eq_nil_iff] at before
    simpa using before
  have succeeds : faultOf? (settings.draw (insertions.map edited)) = none := by
    rw [Settings.faultOf?_draw, faultless]
    rfl
  rcases faultOf?_eq_none_iff.1 succeeds with ⟨others, othersAccepted⟩
  rcases Settings.draw_eq_ok_iff.1 othersAccepted with ⟨flows, _, read, _, _⟩
  rcases (settings.readFlows_eq _).2 flows read with rfl
  refine Settings.draw_of_spoken_eq accepted read ?_ ?_
  · rw [Settings.main_flowsOf, Settings.main_flowsOf, List.map_map, List.map_map, List.map_map,
      List.map_map, List.map_inj_left]
    intro insertion listed
    exact (padded_mainFlow (keeps insertion listed)).spoken_eq.symm
  · rw [Settings.inner_flowsOf, Settings.inner_flowsOf, List.flatMap_map, List.flatMap_map,
      List.map_flatMap, List.map_flatMap]
    refine List.flatMap_congr fun insertion listed => ?_
    exact (map_spoken_innerFlows (keeps insertion listed)).symm

end Insertion

namespace Settings

/-- Edits that keep the tokens of the sources keep the drawings, and they keep a fault up to its
line, which moves with the lines of the source that the fault is in. -/
theorem draw_of_kept_tokens (settings : Settings) (sources : List (String × String)) :
    (∀ drawings, settings.draw sources = .ok drawings →
      ∀ insertions : List Insertion, insertions.map Insertion.source = sources →
        (∀ insertion ∈ insertions, insertion.KeepsTokens settings) →
        settings.draw (insertions.map Insertion.edited) = .ok drawings) ∧
    ∀ fault, settings.draw sources = .error fault →
      ∃ (position : Nat) (source : String × String), sources[position]? = some source ∧
        settings.HasFault source fault ∧
        ∀ insertions : List Insertion, insertions.map Insertion.source = sources →
          (∀ insertion ∈ insertions, insertion.KeepsTokens settings) →
          ∃ insertion : Insertion, insertions[position]? = some insertion ∧
            settings.draw (insertions.map Insertion.edited) =
              .error (fault.renumber insertion.moved) := by
  constructor
  · rintro drawings accepted insertions rfl keeps
    exact Insertion.draw_edited_of_draw keeps accepted
  · intro fault failed
    -- The tags are positions, since a source that is given twice has a fault in the second place.
    have first : (settings.faultsAt Prod.fst sources.zipIdx).head?.map Prod.snd = some fault := by
      rw [← List.head?_map, map_snd_faultsAt, List.zipIdx_map_fst, ← faultOf?_draw, failed]
      rfl
    rcases Option.map_eq_some_iff.1 first with ⟨⟨⟨source, position⟩, _⟩, head, rfl⟩
    rcases hasFault_of_mem_faultsAt (List.mem_of_head? head) with ⟨listed, has⟩
    refine ⟨position, source, List.mem_zipIdx_iff_getElem?.1 listed, has, ?_⟩
    rintro insertions rfl keeps
    have keepsAt : ∀ tag ∈ insertions.zipIdx, tag.1.KeepsTokens settings :=
      fun tag listed => keeps tag.1 (List.fst_mem_of_mem_zipIdx listed)
    rw [List.zipIdx_map, faultsAt_map, List.head?_map, Option.map_eq_some_iff] at head
    rcases head with ⟨⟨⟨insertion, place⟩, fault⟩, head, same⟩
    cases same
    have insertionListed := (hasFault_of_mem_faultsAt (List.mem_of_head? head)).1
    refine ⟨insertion, List.mem_zipIdx_iff_getElem?.1 insertionListed, ?_⟩
    have edited :
        insertions.zipIdx.map (Insertion.edited ∘ Prod.fst) = insertions.map Insertion.edited := by
      rw [← List.map_map, List.zipIdx_map_fst]
    have moved := Insertion.faultsAt_edited Prod.fst keepsAt
    rw [← faultOf?_eq_some_iff, faultOf?_draw, ← edited, ← map_snd_faultsAt, List.head?_map]
    change ((settings.faultsAt (fun tag => tag.1.edited) insertions.zipIdx).head?).map _ = _
    change (settings.faultsAt (fun tag => tag.1.source) insertions.zipIdx).head? = _ at head
    rw [moved, List.head?_map, head]
    rfl

/-- If the comments of some style are read, lines that no annotation stands in may be put anywhere
between the lines of the sources: the drawings stay the same, and a fault stays the same up to its
line, which moves with the lines of the source that the fault is in. -/
theorem draw_of_silent_insertions (settings : Settings) (style : CommentStyle)
    (reads : settings.comments = style.tokens) (sources : List (String × String)) :
    (∀ drawings, settings.draw sources = .ok drawings →
      ∀ insertions : List Insertion, insertions.map Insertion.source = sources →
        (∀ insertion ∈ insertions, insertion.Silent settings.language style) →
        settings.draw (insertions.map Insertion.edited) = .ok drawings) ∧
    ∀ fault, settings.draw sources = .error fault →
      ∃ (position : Nat) (source : String × String), sources[position]? = some source ∧
        settings.HasFault source fault ∧
        ∀ insertions : List Insertion, insertions.map Insertion.source = sources →
          (∀ insertion ∈ insertions, insertion.Silent settings.language style) →
          ∃ insertion : Insertion, insertions[position]? = some insertion ∧
            settings.draw (insertions.map Insertion.edited) =
              .error (fault.renumber insertion.moved) := by
  rcases settings.draw_of_kept_tokens sources with ⟨drawn, faulty⟩
  constructor
  · intro drawings accepted insertions same silent
    exact drawn drawings accepted insertions same
      fun insertion listed => insertion.keepsTokens reads (silent insertion listed)
  · intro fault failed
    rcases faulty fault failed with ⟨position, source, listed, has, moves⟩
    refine ⟨position, source, listed, has, ?_⟩
    intro insertions same silent
    exact moves insertions same
      fun insertion listed => insertion.keepsTokens reads (silent insertion listed)

/-- A source without a newline at its end, with a line of code and a plain comment put in. -/
def order : Insertion where
  source := ("shop", "# act: order\r\n# event: paid")
  text := "let n = 1;\r\n# act: order\n# see below\n# event: paid"
  rows :=
    [.inserted "let n = 1;".toList, .kept "# act: order".toList, .inserted "# see below".toList,
      .kept "# event: paid".toList]
  kept_eq := by decide +kernel
  spells := by
    have written : "let n = 1;\r\n# act: order\n# see below\n# event: paid".toList =
        "let n = 1;".toList ++ ['\r', '\n'] ++ ("# act: order".toList ++ ['\n'] ++
          ("# see below".toList ++ ['\n'] ++ "# event: paid".toList)) := by
      decide +kernel
    rw [written]
    exact .ended (by decide) (.inr rfl) (.ended (by decide) (.inl rfl)
      (.ended (by decide) (.inl rfl) (.unended (by decide) (by decide))))

/-- A source with a conditional that is never closed, with two lines put above it. -/
def dangling : Insertion where
  source := ("till", "# if: open\n")
  text := "let n = 1;\n\n# if: open\n"
  rows := [.inserted "let n = 1;".toList, .inserted [], .kept "# if: open".toList]
  kept_eq := by decide +kernel
  spells := by
    have written : "let n = 1;\n\n# if: open\n".toList =
        "let n = 1;".toList ++ ['\n'] ++
          ([] ++ ['\n'] ++ ("# if: open".toList ++ ['\n'] ++ [])) := by
      decide +kernel
    rw [written]
    exact .ended (by decide) (.inl rfl) (.ended (by decide) (.inl rfl)
      (.ended (by decide) (.inl rfl) .done))

theorem draw_order_and_dangling :
    (∃ drawings, draw {} [order.source] = .ok drawings ∧ draw {} [order.edited] = .ok drawings) ∧
      draw {} [order.source, dangling.source] = .error (.openConditional "till" 1) ∧
      draw {} [order.edited, dangling.edited] = .error (.openConditional "till" 3) := by
  have code : Language.standard.Unannotated .standard "let n = 1;".toList :=
    .inl (by decide +kernel)
  have orderSilent : order.Silent .standard .standard := by
    intro line listed
    simp only [order, List.mem_cons, Row.inserted.injEq, reduceCtorEq, List.not_mem_nil, or_false,
      false_or] at listed
    rcases listed with rfl | rfl
    · exact code
    · exact .inr ⟨"see below".toList, by decide +kernel, by decide +kernel⟩
  have danglingSilent : dangling.Silent .standard .standard := by
    intro line listed
    simp only [dangling, List.mem_cons, Row.inserted.injEq, reduceCtorEq, List.not_mem_nil,
      or_false] at listed
    rcases listed with rfl | rfl
    · exact code
    · exact .inl (by decide +kernel)
  constructor
  · have succeeds : (draw {} [order.source]).isOk := by decide +kernel
    rcases exists_eq_ok_of_isOk succeeds with ⟨drawings, accepted⟩
    rcases draw_of_silent_insertions {} .standard rfl [order.source] with ⟨kept, _⟩
    have same := kept drawings accepted [order] rfl
    exact ⟨drawings, accepted, same (List.forall_mem_singleton.2 orderSilent)⟩
  · have failed :
        draw {} [order.source, dangling.source] = .error (.openConditional "till" 1) := by
      decide +kernel
    rcases draw_of_silent_insertions {} .standard rfl [order.source, dangling.source] with
      ⟨_, faulty⟩
    rcases faulty _ failed with ⟨position, source, listed, has, moves⟩
    rcases moves [order, dangling] rfl (by simp [orderSilent, danglingSilent]) with
      ⟨insertion, insertionListed, moved⟩
    have faultless : ¬ HasFault {} order.source (.openConditional "till" 1) := by
      unfold HasFault
      decide +kernel
    rcases position with _ | _ | position
    · cases listed
      exact absurd has faultless
    · cases insertionListed
      exact ⟨failed, moved⟩
    · cases listed

end Settings

end ProcessChain
