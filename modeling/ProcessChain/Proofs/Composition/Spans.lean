import Mathlib.Logic.Relation
import ProcessChain.Proofs.Composition.Cursors
import ProcessChain.Proofs.Composition.Innermost

/-!
# The span of a conditional

A conditional that is resolved spans a token that opens it, balanced tokens, and a token that closes
it and does nothing else to any conditional. This is shown along the derivation of its composition,
together with the fact that what comes behind the closing token makes no difference. So the number
of tokens that is returned is at least two and stays within the tokens, and the closing token is the
one at which a stack of positions, kept over all tokens, has the opening token on top
(`Language.Span`).

A cursor goes on by one, or by such a number. So each turn of a loop moves it forward and not beyond
the end, and on every run of a loop it is behind the position where the loop has started.
-/

namespace ProcessChain

open Relation

namespace Language

/-- The positions of the tokens whose conditionals are open after some tokens, innermost first. -/
def openAt (language : Language) (tokens : List Token) : List Nat :=
  language.scan [] (tokens.mapIdx fun position token => { token with line := position })

/-- A conditional that is opened at a position is closed by the last one of a number of tokens. -/
structure Span (language : Language) (tokens : List Token) (start consumed : Nat) : Prop where
  two_le : 2 ≤ consumed
  within : consumed ≤ tokens.length - start
  closes : ∃ closing, tokens[start + consumed - 1]? = some closing ∧ language.closes closing
  /-- Before that token, the innermost conditional left open is the one opened at the position. -/
  matched : (language.openAt (tokens.take (start + consumed - 1))).head? = some start

variable {language : Language} {token : Token} {tokens others : List Token}

theorem role_line_eq_opens_iff : (language.line token).role = .opens ↔ language.opens token := by
  unfold Line.role opens line
  grind

theorem role_line_eq_closes_iff : (language.line token).role = .closes ↔ language.closes token := by
  unfold Line.role closes line
  grind

/-- Whether tokens are balanced is known from their texts. -/
theorem Balanced.of_texts_eq (balanced : language.Balanced tokens)
    (same : others.map (·.text) = tokens.map (·.text)) : language.Balanced others := by
  have sameOpens {token other : Token} (text : other.text = token.text) :
      language.opens other = language.opens token := by
    simp [opens, text]
  have sameCloses {token other : Token} (text : other.text = token.text) :
      language.closes other = language.closes token := by
    simp [closes, text]
  induction balanced generalizing others with
  | nil =>
      rw [List.map_eq_nil_iff.1 same]
      exact .nil
  | plain opensNot closesNot _ ih =>
      rcases List.map_eq_cons_iff.1 same with ⟨token, rest, rfl, text, later⟩
      exact .plain (by rwa [sameOpens text]) (by rwa [sameCloses text]) (ih later)
  | conditional opens _ closes _ within rest =>
      rw [List.map_cons, List.map_append, List.map_cons] at same
      rcases List.map_eq_cons_iff.1 same with ⟨opening, behind, rfl, openingText, sameBehind⟩
      rcases List.map_eq_append_iff.1 sameBehind with ⟨inside, last, rfl, sameInside, sameLast⟩
      rcases List.map_eq_cons_iff.1 sameLast with ⟨closing, later, rfl, closingText, sameLater⟩
      exact .conditional (by rwa [sameOpens openingText]) (within sameInside)
        (by rwa [sameCloses closingText]) (rest sameLater)

theorem head?_openAt {before inside : List Token} {opening : Token}
    (opens : language.opens opening) (balanced : language.Balanced inside) :
    (language.openAt (before ++ opening :: inside)).head? = some before.length := by
  unfold openAt
  apply head?_scan_eq_some_iff.2
  rw [List.mapIdx_append, List.mapIdx_cons]
  refine ⟨_, _, _, rfl, ?_, ?_, ?_⟩
  · simp
  · exact opens
  · apply balanced.of_texts_eq
    apply List.ext_getElem?
    intro position
    simp only [List.getElem?_map, List.getElem?_mapIdx]
    cases inside[position]? <;> rfl

end Language

open ProcessChain.Language

namespace Composition

variable {language : Language} {flow scope : String} {draft last : Draft} {tokens : List Token}
  {left lines : List Line} {current : Chain} {further : List Chain} {start : Nat}
  {resolved : Resolved} {opening : Opening} {cursor next first : Cursor}

/-! ## Spans -/

/-- The tokens inside a conditional are balanced up to the one that closes it, and what comes behind
that one makes no difference. -/
theorem exists_split_of_closes
    (derivation : Closes scope draft (tokens.map language.line) current further last left) :
    ∃ inside closing after, tokens = inside ++ closing :: after ∧
      left = after.map language.line ∧ language.Balanced inside ∧ language.closes closing ∧
      ∀ more, Closes scope draft ((inside ++ closing :: more).map language.line) current further
        last (more.map language.line) := by
  generalize read : tokens.map language.line = lines at derivation
  induction derivation generalizing tokens with
  | opens role reads _ _ inner outer =>
      rcases List.map_eq_cons_iff.1 read with ⟨token, rest, rfl, rfl, rfl⟩
      rcases inner rfl with ⟨inside, closing, after, rfl, rfl, balanced, closes, derives⟩
      rcases outer rfl with
        ⟨behind, last, later, rfl, rfl, balancedBehind, lastCloses, derivesBehind⟩
      refine ⟨token :: (inside ++ closing :: behind), last, later, by simp, rfl, ?_, lastCloses, ?_⟩
      · exact .conditional (role_line_eq_opens_iff.1 role) balanced closes balancedBehind
      · intro more
        have nested := derives (behind ++ last :: more)
        have whole := Closes.opens role reads nested (derivesBehind more)
        simpa using whole
  | switches role _ ih =>
      rcases List.map_eq_cons_iff.1 read with ⟨token, rest, rfl, rfl, rfl⟩
      rcases ih rfl with ⟨inside, closing, after, rfl, rfl, balanced, closes, derives⟩
      have opensNot : ¬ language.opens token := by simp [← role_line_eq_opens_iff, role]
      have closesNot : ¬ language.closes token := by simp [← role_line_eq_closes_iff, role]
      exact ⟨token :: inside, closing, after, rfl, rfl, .plain opensNot closesNot balanced, closes,
        fun more => .switches role (derives more)⟩
  | closes role reads =>
      rcases List.map_eq_cons_iff.1 read with ⟨token, rest, rfl, rfl, rfl⟩
      exact ⟨[], token, rest, rfl, rfl, .nil, role_line_eq_closes_iff.1 role,
        fun _ => .closes role reads⟩
  | plain role reads _ ih =>
      rcases List.map_eq_cons_iff.1 read with ⟨token, rest, rfl, rfl, rfl⟩
      rcases ih rfl with ⟨inside, closing, after, rfl, rfl, balanced, closes, derives⟩
      have opensNot : ¬ language.opens token := by simp [← role_line_eq_opens_iff, role]
      have closesNot : ¬ language.closes token := by simp [← role_line_eq_closes_iff, role]
      exact ⟨token :: inside, closing, after, rfl, rfl, .plain opensNot closesNot balanced, closes,
        fun more => .plain role reads (derives more)⟩

theorem Resolves.bounds (resolves : Resolves scope lines start draft resolved) :
    2 ≤ resolved.consumed ∧ start + resolved.consumed ≤ lines.length := by
  cases resolves with
  | intro _ _ _ _ later within => exact ⟨later, within⟩

theorem drop_length_succ {α : Type} (before : List α) (member : α) (after : List α) :
    (before ++ member :: after).drop (before.length + 1) = after := by
  rw [List.append_cons]
  exact List.drop_left' (by simp)

theorem exists_of_getElem?_eq_some {α : Type} {members : List α} {position : Nat} {member : α}
    (listed : members[position]? = some member) :
    ∃ before after, members = before ++ member :: after ∧ before.length = position := by
  rcases List.getElem?_eq_some_iff.1 listed with ⟨bound, rfl⟩
  refine ⟨members.take position, members.drop (position + 1), ?_, ?_⟩
  · rw [List.getElem_cons_drop, List.take_append_drop]
  · exact List.length_take_of_le (Nat.le_of_lt bound)

/-- What is left behind a conditional tells how many tokens it spans. -/
theorem consumed_eq {before inside after : List Token} {opening closing : Token} {consumed : Nat}
    (left : ((before ++ opening :: (inside ++ closing :: after)).map language.line).drop
      (before.length + consumed) = after.map language.line)
    (within : before.length + consumed ≤
      ((before ++ opening :: (inside ++ closing :: after)).map language.line).length) :
    consumed = inside.length + 2 := by
  have lengths := congrArg List.length left
  simp only [List.length_drop, List.length_map, List.length_append, List.length_cons]
    at lengths within
  omega

/-- A conditional that is composed spans its opening token, balanced tokens and its closing one. -/
theorem Resolves.exists_split
    (resolves : Resolves scope (tokens.map language.line) start draft resolved) :
    ∃ before opening inside closing after,
      tokens = before ++ opening :: (inside ++ closing :: after) ∧ before.length = start ∧
      resolved.consumed = inside.length + 2 ∧ language.opens opening ∧
      language.Balanced inside ∧ language.closes closing ∧
      ∀ flow more, draft.resolve flow scope
        ((before ++ opening :: (inside ++ closing :: more)).map language.line) start =
          some (.ok resolved) := by
  cases resolves with
  | @intro line started last first current further consumed there role read inside later within =>
      rw [List.getElem?_map, Option.map_eq_some_iff] at there
      rcases there with ⟨opening, listed, rfl⟩
      rcases exists_of_getElem?_eq_some listed with ⟨before, rest, rfl, rfl⟩
      rw [← List.map_drop, drop_length_succ] at inside
      rcases exists_split_of_closes inside with
        ⟨inner, closing, after, rfl, left, balanced, closes, derives⟩
      refine ⟨before, opening, inner, closing, after, rfl, rfl, consumed_eq left within,
        role_line_eq_opens_iff.1 role, balanced, closes, ?_⟩
      intro flow more
      have thereAgain :
          ((before ++ opening :: (inner ++ closing :: more)).map language.line)[before.length]? =
            some (language.line opening) := by
        simp
      have derivation := derives more
      rw [← drop_length_succ before opening (inner ++ closing :: more), List.map_drop] at derivation
      rcases resolve_of_closes flow thereAgain role read derivation with
        ⟨⟨_, _, _⟩, returned, rfl, rfl, leftAgain, resolves⟩
      cases (consumed_eq left within).trans (consumed_eq leftAgain resolves.bounds.2).symm
      exact returned

theorem Resolves.span (resolves : Resolves scope (tokens.map language.line) start draft resolved) :
    language.Span tokens start resolved.consumed := by
  have bounds := resolves.bounds
  rw [List.length_map] at bounds
  rcases resolves.exists_split with
    ⟨before, opening, inside, closing, after, rfl, rfl, spans, opens, balanced, closes, _⟩
  have place : before.length + resolved.consumed - 1 = (before ++ opening :: inside).length := by
    rw [spans, List.length_append, List.length_cons]
    omega
  have split : before ++ opening :: (inside ++ closing :: after) =
      (before ++ opening :: inside) ++ closing :: after := by
    simp
  refine ⟨bounds.1, Nat.le_sub_of_add_le' bounds.2, ⟨closing, ?_, closes⟩, ?_⟩
  · rw [place, split, List.getElem?_append_right (Nat.le_refl _), Nat.sub_self]
    rfl
  · rw [place, split, List.take_left' rfl]
    exact head?_openAt opens balanced

/-- The tokens behind a conditional make no difference to it. -/
theorem Resolves.of_take_eq (flow : String) {others : List Token}
    (resolves : Resolves scope (tokens.map language.line) start draft resolved)
    (same : others.take (start + resolved.consumed) = tokens.take (start + resolved.consumed)) :
    draft.resolve flow scope (others.map language.line) start = some (.ok resolved) := by
  rcases resolves.exists_split with
    ⟨before, opening, inside, closing, after, rfl, rfl, spans, _, _, _, independent⟩
  have split : before ++ opening :: (inside ++ closing :: after) =
      (before ++ opening :: (inside ++ [closing])) ++ after := by
    simp
  have place : before.length + resolved.consumed =
      (before ++ opening :: (inside ++ [closing])).length := by
    rw [spans]
    simp
  rw [place, split, List.take_left' rfl] at same
  have spelled : ∃ more, others = before ++ opening :: (inside ++ closing :: more) := by
    refine ⟨others.drop (before.length + resolved.consumed), ?_⟩
    rw [← List.take_append_drop (before.length + resolved.consumed) others, place, same]
    simp
  rcases spelled with ⟨more, rfl⟩
  exact independent flow more

/-! ## Cursors -/

/-- A turn of the loop inside a conditional moves the cursor forward, and not beyond the end. -/
theorem advances_of_turn (turned : cursor.turn flow scope lines opening = some (.ok (.inr next))) :
    cursor.index < next.index ∧ next.index ≤ lines.length := by
  cases there : lines[cursor.index]? with
  | none =>
      rw [turn_of_none there] at turned
      cases turned
  | some line =>
      have bound := (List.getElem?_eq_some_iff.1 there).1
      cases role : line.role with
      | opens =>
          rcases resolve_cases flow scope cursor.draft there role with
            ⟨number, stopped⟩ | ⟨resolved, returned, resolves⟩
          · rw [turn_of_resolve_error there role stopped] at turned
            cases turned
          · rw [turn_of_resolve there role returned] at turned
            cases turned
            have bounds := resolves.bounds
            exact ⟨Nat.lt_add_of_pos_right (by omega), bounds.2⟩
      | switches =>
          rw [turn_of_switches there role] at turned
          cases turned
          exact ⟨Nat.lt_succ_self _, bound⟩
      | closes =>
          rw [turn_of_closes there role] at turned
          cases closed : (cursor.read scope line).close opening with
          | error stop =>
              rw [closed] at turned
              cases turned
          | ok resolved =>
              rw [closed] at turned
              cases turned
      | plain =>
          rw [turn_of_plain there role] at turned
          cases turned
          exact ⟨Nat.lt_succ_self _, bound⟩

/-- So does a turn of the loop outside of all conditionals. -/
theorem advances_of_outerTurn
    (turned : cursor.outerTurn flow scope lines = some (.ok (some next))) :
    cursor.index < next.index ∧ next.index ≤ lines.length := by
  cases there : lines[cursor.index]? with
  | none =>
      rw [Cursor.outerTurn, there] at turned
      cases turned
  | some line =>
      have bound := (List.getElem?_eq_some_iff.1 there).1
      by_cases role : line.role = .opens
      · rcases resolve_cases flow scope cursor.draft there role with
          ⟨number, stopped⟩ | ⟨resolved, returned, resolves⟩
        · rw [outerTurn_of_resolve_error there role stopped] at turned
          cases turned
        · rw [outerTurn_of_resolve there role returned] at turned
          cases turned
          have bounds := resolves.bounds
          exact ⟨Nat.lt_add_of_pos_right (by omega), bounds.2⟩
      · rw [outerTurn_of_other there role] at turned
        cases turned
        exact ⟨Nat.lt_succ_self _, bound⟩

/-- On every run of a loop inside a conditional, the cursor is behind the opening line. -/
theorem inside_of_turns (begins : first.index = opening.start + 1)
    (within : opening.start < lines.length)
    (turns : ReflTransGen
      (fun earlier later : Cursor =>
        earlier.turn flow scope lines opening = some (.ok (.inr later)))
      first cursor) :
    opening.start < cursor.index ∧ cursor.index ≤ lines.length := by
  induction turns with
  | refl =>
      rw [begins]
      exact ⟨Nat.lt_succ_self _, within⟩
  | tail _ turned ih =>
      rcases advances_of_turn turned with ⟨advances, bound⟩
      exact ⟨Nat.lt_trans ih.1 advances, bound⟩

end Composition

open ProcessChain.Composition

namespace Language

/-- A conditional that is opened at a position is resolved, or it is reported that one is not
closed. If it is resolved, then it is closed by the last one of the tokens that it spans, and the
tokens behind that one make no difference. So cursors move forward and never beyond the end, none
is before the opening token of its loop, and composition by position comes to what composition comes
to. -/
theorem resolve_span_and_cursors_advance (language : Language) (name scope : String)
    (tokens : List Token) :
    (∀ start token (draft : Draft), tokens[start]? = some token → language.opens token →
      ∃ outcome, draft.resolve name scope (tokens.map language.line) start = some outcome ∧
        (∀ stop, outcome = .error stop → ∃ number, stop = .fault (.openConditional name number)) ∧
        ∀ resolved, outcome = .ok resolved →
          language.Span tokens start resolved.consumed ∧
          ∀ others : List Token,
            others.take (start + resolved.consumed) = tokens.take (start + resolved.consumed) →
              draft.resolve name scope (others.map language.line) start = some (.ok resolved)) ∧
    (∀ opening (cursor next : Cursor),
      cursor.turn name scope (tokens.map language.line) opening = some (.ok (.inr next)) →
        cursor.index < next.index ∧ next.index ≤ tokens.length) ∧
    (∀ cursor next : Cursor,
      cursor.outerTurn name scope (tokens.map language.line) = some (.ok (some next)) →
        cursor.index < next.index ∧ next.index ≤ tokens.length) ∧
    (∀ (opening : Opening) first cursor, opening.start < tokens.length →
      first.index = opening.start + 1 →
      ReflTransGen
        (fun earlier later : Cursor =>
          earlier.turn name scope (tokens.map language.line) opening = some (.ok (.inr later)))
        first cursor →
          opening.start < cursor.index ∧ cursor.index ≤ tokens.length) ∧
    ∃ outcome, language.composeByPosition scope ⟨name, tokens⟩ = some outcome ∧
      outcome = (language.composeIn scope ⟨name, tokens⟩).mapError .fault ∧
      outcome ≠ .error .notConditional ∧ outcome ≠ .error .underflow := by
  have length : (tokens.map language.line).length = tokens.length := List.length_map _
  refine ⟨?_, ?_, ?_, ?_, _, language.composeByPosition_eq scope ⟨name, tokens⟩, rfl,
    mapError_fault_ne _⟩
  · intro start token draft there opens
    have thereLine : (tokens.map language.line)[start]? = some (language.line token) := by
      rw [List.getElem?_map, there]
      rfl
    rcases resolve_cases name scope draft thereLine (role_line_eq_opens_iff.2 opens) with
      ⟨number, stopped⟩ | ⟨resolved, returned, resolves⟩
    · refine ⟨_, stopped, ?_, ?_⟩
      · rintro _ ⟨⟩
        exact ⟨number, rfl⟩
      · rintro _ ⟨⟩
    · refine ⟨_, returned, ?_, ?_⟩
      · rintro _ ⟨⟩
      · rintro _ ⟨⟩
        exact ⟨resolves.span, fun others same => resolves.of_take_eq name same⟩
  · intro opening cursor next turned
    rw [← length]
    exact advances_of_turn turned
  · intro cursor next turned
    rw [← length]
    exact advances_of_outerTurn turned
  · intro opening first cursor within begins turns
    rw [← length] at within ⊢
    exact inside_of_turns begins within turns

/-- Two tokens that open a conditional also have the symbols of those that switch and close one. -/
def burdened : List Token :=
  [⟨"act: a", 1⟩, ⟨"if: b else: end:", 2⟩, ⟨"if: c end:", 3⟩, ⟨"else: act: d", 4⟩,
    ⟨"end: else:", 5⟩, ⟨"end: act: e", 6⟩, ⟨"end:", 7⟩, ⟨"act: f", 8⟩]

theorem resolve_span_burdened :
    ∃ resolved,
      Draft.resolve {} "shop" "shop" (burdened.map standard.line) 1 = some (.ok resolved) ∧
      resolved.consumed = 6 ∧ standard.Span burdened 1 resolved.consumed ∧
      Draft.resolve {} "shop" "shop" ((burdened.take 7).map standard.line) 1 =
        some (.ok resolved) := by
  have opens : standard.opens ⟨"if: b else: end:", 2⟩ := by decide +kernel
  have there : (burdened.map standard.line)[1]? =
      some (standard.line ⟨"if: b else: end:", 2⟩) :=
    rfl
  have read : ({} : Draft).issue.read "shop" (standard.line ⟨"if: b else: end:", 2⟩) =
      ({ issued := 1 }, []) := by
    cbv
  have left :
      (match close "shop" "shop" 2 { issued := 1 } ((burdened.map standard.line).drop 2) with
        | .ok closed => closed.rest.length
        | .error _ => 0) = 1 := by
    cbv
  split at left
  · next closed returned =>
      rcases resolve_of_closes "shop" there (role_line_eq_opens_iff.2 opens) read
        (closes_of_close returned) with ⟨resolved, returned, _, _, behind, resolves⟩
      have six : resolved.consumed = 6 := by
        have lengths := congrArg List.length behind
        rw [List.length_drop, left] at lengths
        have total : (burdened.map standard.line).length = 8 := rfl
        omega
      rcases resolve_span_and_cursors_advance standard "shop" "shop" burdened with ⟨resolving, _⟩
      rcases resolving 1 _ {} rfl opens with ⟨outcome, resolvesTo, _, spans⟩
      rw [returned] at resolvesTo
      cases resolvesTo
      rcases spans resolved rfl with ⟨span, independent⟩
      refine ⟨resolved, returned, six, span, independent (burdened.take 7) ?_⟩
      rw [six]
      rfl
  · cases left

end Language

end ProcessChain
