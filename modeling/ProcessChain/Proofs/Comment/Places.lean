import Mathlib.Order.Lattice.Nat
import ProcessChain.Proofs.Comment.Sequence

/-!
# Where a comment begins

The comment of a line begins where a marker ends, namely the one that ends first, wherever that one
begins (`CommentStyle.comment?_of_isLeast_ends`). It is mostly a marker that begins first as well.
But a marker may lie inside another one, and if it ends earlier, what is left of the longer marker
is taken for a part of the comment: with the markers `/**` and `*`, the comment of `/** act: pay` is
`* act: pay`.

A style is uncut if this cannot happen, that is, if after any marker inside another one only blanks
are left of that one. A marker that begins with a shorter one need not be looked at, since the
shorter one begins wherever it does. Every line of every text has the token after a marker that
begins first exactly if the style is uncut (`CommentStyle.Uncut.takesLeftmost`,
`CommentStyle.uncut_of_takesLeftmost`). The standard style is.
-/

namespace ProcessChain

/-- The token whose comment is a text, trimmed, unless the text is blank. -/
def Token.ofText? (text : List Char) (number : Nat) : Option Token :=
  if Text.trim text = [] then none else some ⟨String.ofList (Text.trim text), number⟩

theorem Token.ofText?_eq_of_trim_eq {text other : List Char} (number : Nat)
    (same : Text.trim text = Text.trim other) : ofText? text number = ofText? other number := by
  rw [ofText?, ofText?, same]

theorem Token.trim_eq_nil_of_ofText? {text : List Char} {number : Nat}
    (absent : ofText? text number = none) : Text.trim text = [] := by
  by_contra filled
  rw [ofText?, if_neg filled] at absent
  cases absent

namespace CommentStyle

/-- A marker begins at a place in a line. -/
def Begins (style : CommentStyle) (line : List Char) (place : Nat) (marker : List Char) : Prop :=
  marker ∈ style.markers ∧ marker <+: line.drop place

/-- The places in a line at which some marker begins. -/
def starts (style : CommentStyle) (line : List Char) : Set Nat :=
  {place | ∃ marker, style.Begins line place marker}

/-- The places in a line at which some marker has come to its end. -/
def ends (style : CommentStyle) (line : List Char) : Set Nat :=
  {place | ∃ start marker, style.Begins line start marker ∧ start + marker.length = place}

/-- The tokens of a text that stand on a line with a given number. -/
def tokensOn (style : CommentStyle) (source : String) (number : Nat) : List Token :=
  (style.tokens source).filter (·.line = number)

/-- Every line of a text has the token of what follows a marker that begins first in it, and a line
without a marker has none. -/
def TakesLeftmost (style : CommentStyle) (source : String) : Prop :=
  ∀ index line, (Text.lines source.toList)[index]? = some line →
    (style.starts line = ∅ → style.tokensOn source (index + 1) = []) ∧
      ∀ place, IsLeast (style.starts line) place →
        ∃ marker, style.Begins line place marker ∧
          style.tokensOn source (index + 1) =
            (Token.ofText? (line.drop (place + marker.length)) (index + 1)).toList

/-- Of a marker that can stand in a line and begins with no other one, only blanks are left after
any marker inside it. -/
def Uncut (style : CommentStyle) : Prop :=
  ∀ marker ∈ style.markers, '\n' ∉ marker →
    (∀ other ∈ style.markers, other <+: marker → other = marker) →
      ∀ place ∈ style.ends marker, ∀ character ∈ marker.drop place, Text.isBlank character

variable {style : CommentStyle} {line marker text : List Char} {place index number : Nat}

instance : Decidable (style.Begins line place marker) :=
  inferInstanceAs (Decidable (marker ∈ style.markers ∧ marker <+: line.drop place))

/-! ## Occurrences of markers -/

theorem begins_append (listed : marker ∈ style.markers) (before rest : List Char) :
    style.Begins (before ++ marker ++ rest) before.length marker := by
  refine ⟨listed, ?_⟩
  rw [List.append_assoc, List.drop_left]
  exact List.prefix_append marker rest

theorem drop_after (before marker rest : List Char) :
    (before ++ marker ++ rest).drop (before.length + marker.length) = rest := by
  rw [← List.length_append, List.drop_left]

namespace Begins

theorem lt_length (begins : style.Begins line place marker) : place < line.length := by
  have shorter := begins.2.length_le
  have filled := List.length_pos_of_ne_nil (style.nonempty marker begins.1)
  rw [List.length_drop] at shorter
  omega

theorem exists_eq (begins : style.Begins line place marker) :
    ∃ before rest, line = before ++ marker ++ rest ∧ before.length = place := by
  rcases begins.2 with ⟨rest, split⟩
  refine ⟨line.take place, rest, ?_, List.length_take_of_le begins.lt_length.le⟩
  rw [List.append_assoc, split, List.take_append_drop]

/-- A marker that begins in a text is also inside the front of the text up to its end. -/
theorem of_append {front rest : List Char} (begins : style.Begins (front ++ rest) place marker)
    (inside : place + marker.length ≤ front.length) : style.Begins front place marker := by
  have left : front.drop place <+: (front ++ rest).drop place := by
    rw [List.drop_append_of_le_length (by omega)]
    exact List.prefix_append _ rest
  refine ⟨begins.1, List.prefix_of_prefix_length_le begins.2 left ?_⟩
  rw [List.length_drop]
  omega

end Begins

theorem starts_eq_empty_iff :
    style.starts line = ∅ ↔ ∀ marker ∈ style.markers, ¬ marker <:+: line := by
  rw [Set.eq_empty_iff_forall_notMem]
  constructor
  · rintro nowhere marker listed ⟨before, rest, rfl⟩
    exact nowhere before.length ⟨marker, begins_append listed before rest⟩
  · rintro absent place ⟨marker, begins⟩
    rcases begins.exists_eq with ⟨before, rest, rfl, _⟩
    exact absent marker begins.1 ⟨before, rest, rfl⟩

theorem ends_nonempty (nonempty : (style.starts line).Nonempty) : (style.ends line).Nonempty := by
  rcases nonempty with ⟨place, marker, begins⟩
  exact ⟨place + marker.length, place, marker, begins, rfl⟩

/-! ## The marker that ends first -/

theorem exists_mem_ends_of_mem_following (listed : text ∈ style.following line) :
    ∃ place ∈ style.ends line, text = line.drop place := by
  rcases List.mem_filterMap.1 listed with ⟨marker, markerListed, found⟩
  rcases exists_eq_of_after? found with ⟨before, rfl⟩
  exact ⟨before.length + marker.length,
    ⟨before.length, marker, begins_append markerListed before text, rfl⟩,
    (drop_after before marker text).symm⟩

/-- After the first occurrence of a marker a line goes on for as long as after any other one. -/
theorem exists_after?_of_append (filled : marker ≠ []) (before rest : List Char) :
    ∃ text, after? marker (before ++ marker ++ rest) = some text ∧ rest.length ≤ text.length := by
  induction before with
  | nil =>
      rcases marker with _ | ⟨character, others⟩
      · exact absurd rfl filled
      · refine ⟨rest, ?_, le_rfl⟩
        simp [after?]
  | cons character others ih =>
      rw [List.cons_append, List.cons_append, after?]
      split
      · refine ⟨_, rfl, ?_⟩
        simp only [List.length_drop, List.length_cons, List.length_append]
        omega
      · exact ih

/-- The comment of a line begins where the first marker has come to its end. -/
theorem comment?_of_isLeast_ends (least : IsLeast (style.ends line) place) :
    style.comment? line = some (Text.trim (line.drop place)) := by
  have longest : ∀ text ∈ style.following line, text.length ≤ (line.drop place).length := by
    intro text listed
    rcases exists_mem_ends_of_mem_following listed with ⟨other, ended, rfl⟩
    have later := least.2 ended
    simp only [List.length_drop]
    omega
  have listed : line.drop place ∈ style.following line := by
    rcases least.1 with ⟨start, marker, begins, rfl⟩
    rcases begins.exists_eq with ⟨before, rest, rfl, rfl⟩
    rw [drop_after] at longest ⊢
    rcases exists_after?_of_append (style.nonempty marker begins.1) before rest with
      ⟨text, found, atLeast⟩
    have textListed : text ∈ style.following (before ++ marker ++ rest) :=
      List.mem_filterMap.2 ⟨marker, begins.1, found⟩
    have sameLength := Nat.le_antisymm (longest text textListed) atLeast
    have isRest := (List.suffix_of_suffix_length_le (suffix_of_mem_following textListed)
      (List.suffix_append _ rest) sameLength.le).eq_of_length sameLength
    exact isRest ▸ textListed
  rw [comment?_eq, maxOn?_length_eq_some (fun _ => suffix_of_mem_following) listed longest]
  rfl

theorem token?_of_isLeast_ends (least : IsLeast (style.ends line) place) (number : Nat) :
    style.token? line number = Token.ofText? (line.drop place) number := by
  unfold token? Token.ofText?
  rw [comment?_of_isLeast_ends least]
  split
  · next absent => cases absent
  · next empty => rw [if_pos (Option.some.inj empty)]
  · next comment filled found =>
      obtain rfl := Option.some.inj found
      rw [if_neg filled]

/-! ## Tokens on the lines of a text -/

theorem filter_tokensFrom {lines : List (List Char)} (found : lines[index]? = some line) :
    (style.tokensFrom number lines).filter (·.line = number + index) =
      (style.token? line (number + index)).toList := by
  induction lines generalizing number index with
  | nil => simp at found
  | cons first rest ih =>
      rw [tokensFrom, List.filter_append]
      -- The token of a line has its number, which no earlier and no later line has.
      cases index with
      | zero =>
          obtain rfl := Option.some.inj found
          have own : (style.token? first number).toList.filter (·.line = number) =
              (style.token? first number).toList := by
            rw [List.filter_eq_self]
            intro token listed
            simpa using line_of_token? (Option.mem_toList.1 listed)
          have others : (style.tokensFrom (number + 1) rest).filter (·.line = number) = [] := by
            rw [List.filter_eq_nil_iff]
            intro token listed
            rcases exists_of_mem_tokensFrom listed with ⟨_, _, _, atLeast⟩
            simp only [decide_eq_true_eq]
            omega
          rw [Nat.add_zero, own, others, List.append_nil]
      | succ index =>
          have earlier : (style.token? first number).toList.filter
              (·.line = number + (index + 1)) = [] := by
            rw [List.filter_eq_nil_iff]
            intro token listed
            have own := line_of_token? (Option.mem_toList.1 listed)
            simp only [decide_eq_true_eq]
            omega
          rw [earlier, List.nil_append, ← Nat.add_assoc, Nat.add_right_comm]
          exact ih found

theorem tokensOn_eq {source : String} (found : (Text.lines source.toList)[index]? = some line) :
    style.tokensOn source (index + 1) = (style.token? line (index + 1)).toList := by
  rw [tokensOn, tokens, Nat.add_comm]
  exact filter_tokensFrom found

theorem token?_of_starts_eq_empty (nowhere : style.starts line = ∅) (number : Nat) :
    style.token? line number = none := by
  rw [token?, comment?_eq_none_iff.2 (starts_eq_empty_iff.1 nowhere)]

/-! ## The marker that begins first -/

/-- Of the markers that begin at a place, one is the shortest, and it begins with no other one. -/
theorem exists_shortest (start : place ∈ style.starts line) :
    ∃ marker, style.Begins line place marker ∧
      ∀ other ∈ style.markers, other <+: marker → other = marker := by
  have nonempty : {length | ∃ marker, style.Begins line place marker ∧
      marker.length = length}.Nonempty := by
    rcases start with ⟨marker, begins⟩
    exact ⟨marker.length, marker, begins, rfl⟩
  rcases isLeast_csInf nonempty with ⟨⟨marker, begins, length⟩, shortest⟩
  refine ⟨marker, begins, fun other listed inside => ?_⟩
  have atLeast := shortest ⟨other, ⟨listed, inside.trans begins.2⟩, rfl⟩
  rw [← length] at atLeast
  exact inside.eq_of_length (Nat.le_antisymm inside.length_le atLeast)

/-- In an uncut style, a text is the same after a marker that begins first as after the marker that
ends first, blanks apart. -/
theorem Uncut.exists_trim_eq (uncut : style.Uncut) (inLine : '\n' ∉ line) {start : Nat}
    (first : IsLeast (style.starts line) start) (least : IsLeast (style.ends line) place) :
    ∃ marker, style.Begins line start marker ∧
      Text.trim (line.drop place) = Text.trim (line.drop (start + marker.length)) := by
  rcases exists_shortest first.1 with ⟨marker, begins, shortest⟩
  refine ⟨marker, begins, ?_⟩
  rcases begins.exists_eq with ⟨before, rest, rfl, rfl⟩
  have notAfter : place ≤ before.length + marker.length :=
    least.2 ⟨before.length, marker, begins, rfl⟩
  rcases least.1 with ⟨otherStart, other, otherBegins, rfl⟩
  rcases Nat.exists_eq_add_of_le (first.2 ⟨other, otherBegins⟩) with ⟨offset, rfl⟩
  -- The marker that ends first lies inside the one that begins first.
  have within : style.Begins marker offset other := by
    have shifted : style.Begins (marker ++ rest) offset other := by
      have dropped := otherBegins.2
      rw [List.append_assoc, ← List.drop_drop, List.drop_left] at dropped
      exact ⟨otherBegins.1, dropped⟩
    exact shifted.of_append (by omega)
  have blank := uncut marker begins.1 (fun newline => inLine (by simp [newline])) shortest
    (offset + other.length) ⟨offset, other, within, rfl⟩
  rw [drop_after, Nat.add_assoc, ← List.drop_drop, List.append_assoc, List.drop_left,
    List.drop_append_of_le_length (by omega)]
  exact Text.trim_append_of_forall_isBlank blank

theorem Uncut.takesLeftmost (uncut : style.Uncut) (source : String) :
    style.TakesLeftmost source := by
  intro index line found
  rw [tokensOn_eq found]
  constructor
  · intro nowhere
    rw [token?_of_starts_eq_empty nowhere]
    rfl
  · intro start first
    have least := isLeast_csInf (ends_nonempty ⟨start, first.1⟩)
    have inLine := Text.newline_notMem_of_mem_lines (List.mem_of_getElem? found)
    rcases uncut.exists_trim_eq inLine first least with ⟨marker, begins, same⟩
    refine ⟨marker, begins, ?_⟩
    rw [token?_of_isLeast_ends least, Token.ofText?_eq_of_trim_eq _ same]

/-- A marker is a line of its own, which has no token if what follows a marker that begins first
counts; so nothing but blanks may be left after a marker that ends earlier. -/
theorem uncut_of_takesLeftmost (takes : ∀ source, style.TakesLeftmost source) : style.Uncut := by
  intro marker listed inLine shortest place placeEnds
  have filled := style.nonempty marker listed
  have isLine : (Text.lines (String.ofList marker).toList)[0]? = some marker := by
    rw [String.toList_ofList, Text.lines_of_unended filled inLine]
    rfl
  have atStart : style.Begins marker 0 marker := ⟨listed, List.prefix_refl marker⟩
  have first : IsLeast (style.starts marker) 0 := ⟨⟨marker, atStart⟩, fun _ _ => Nat.zero_le _⟩
  have least := isLeast_csInf ⟨place, placeEnds⟩
  rcases (takes (String.ofList marker) 0 marker isLine).2 0 first with ⟨other, begins, same⟩
  obtain rfl := shortest other begins.1 begins.2
  rw [tokensOn_eq isLine, token?_of_isLeast_ends least, Nat.zero_add, Nat.zero_add,
    List.drop_length] at same
  have noToken : Token.ofText? (other.drop (sInf (style.ends other))) 1 = none :=
    Option.toList_eq_nil_iff.1 (same.trans rfl)
  have blank := Text.trim_eq_nil_iff.1 (Token.trim_eq_nil_of_ofText? noToken)
  intro character left
  apply blank
  exact (List.drop_suffix_drop_left other (least.2 placeEnds)).subset left

theorem uncut_iff :
    style.Uncut ↔ ∀ marker ∈ style.markers, '\n' ∉ marker →
      (∀ other ∈ style.markers, other <+: marker → other = marker) →
        ∀ start < marker.length, ∀ other ∈ style.markers, style.Begins marker start other →
          (marker.drop (start + other.length)).all Text.isBlank := by
  simp only [List.all_eq_true]
  constructor
  · intro uncut marker listed inLine shortest start _ other _ begins
    exact uncut marker listed inLine shortest _ ⟨start, other, begins, rfl⟩
  · rintro bounded marker listed inLine shortest _ ⟨start, other, begins, rfl⟩
    exact bounded marker listed inLine shortest start begins.lt_length other begins.1 begins

instance : Decidable style.Uncut :=
  decidable_of_iff _ uncut_iff.symm

example : standard.Uncut := by decide

/-- Whatever the markers are, a line without one has no token, and any other line has the token of
what follows the marker that ends first. This follows a marker that begins first, in every line of
every text, exactly if no marker is cut by another one inside it. -/
theorem tokensOn_and_takesLeftmost_iff_uncut (markers : List String) :
    (∀ source index line, (Text.lines source.toList)[index]? = some line →
      ((ofMarkers markers).starts line = ∅ →
        (ofMarkers markers).tokensOn source (index + 1) = []) ∧
      (((ofMarkers markers).starts line).Nonempty →
        ∃ place, IsLeast ((ofMarkers markers).ends line) place ∧
          (ofMarkers markers).tokensOn source (index + 1) =
            (Token.ofText? (line.drop place) (index + 1)).toList)) ∧
      ((∀ source, (ofMarkers markers).TakesLeftmost source) ↔ (ofMarkers markers).Uncut) := by
  refine ⟨fun source index line found => ?_, uncut_of_takesLeftmost, Uncut.takesLeftmost⟩
  rw [tokensOn_eq found]
  constructor
  · intro nowhere
    rw [token?_of_starts_eq_empty nowhere]
    rfl
  · intro somewhere
    have least := isLeast_csInf (ends_nonempty somewhere)
    exact ⟨_, least, by rw [token?_of_isLeast_ends least]⟩

/-- Markers of which one begins and one ends with another are uncut. -/
theorem takesLeftmost_overlapping :
    (ofMarkers ["//", "///", ":/", ""]).Uncut ∧
      (∀ source, (ofMarkers ["//", "///", ":/", ""]).TakesLeftmost source) ∧
      (ofMarkers ["//", "///", ":/", ""]).tokens "pay() /// act: pay :/\n//\n" =
        [⟨"/ act: pay :/", 1⟩] := by
  have uncut : (ofMarkers ["//", "///", ":/", ""]).Uncut := by decide
  exact ⟨uncut, (tokensOn_and_takesLeftmost_iff_uncut ["//", "///", ":/", ""]).2.2 uncut, by decide⟩

/-- The star ends before the marker that it is the last but one character of. -/
theorem not_takesLeftmost_nested :
    (ofMarkers ["/**", "*"]).tokens "/** act: pay\n" = [⟨"* act: pay", 1⟩] ∧
      ¬ (ofMarkers ["/**", "*"]).TakesLeftmost "/** act: pay\n" := by
  have tokens_eq :
      (ofMarkers ["/**", "*"]).tokens "/** act: pay\n" = [⟨"* act: pay", 1⟩] := by
    decide
  refine ⟨tokens_eq, fun takes => ?_⟩
  have isLine : (Text.lines "/** act: pay\n".toList)[0]? = some "/** act: pay".toList := by
    decide
  have first : IsLeast ((ofMarkers ["/**", "*"]).starts "/** act: pay".toList) 0 :=
    ⟨⟨"/**".toList, by decide⟩, fun _ _ => Nat.zero_le _⟩
  rcases (takes 0 _ isLine).2 0 first with ⟨marker, ⟨listed, begins⟩, same⟩
  rw [tokensOn, tokens_eq] at same
  have either : marker = "/**".toList ∨ marker = "*".toList := by
    simpa [ofMarkers] using listed
  rcases either with rfl | rfl
  · exact absurd same (by decide)
  · exact absurd begins (by decide)

end CommentStyle

end ProcessChain
