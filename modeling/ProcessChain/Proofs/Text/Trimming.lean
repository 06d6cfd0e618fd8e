import Mathlib.Data.List.DropRight
import ProcessChain.Text.Items

/-!
# Trimmed texts and comma lists

Trimming leaves a text alone exactly if the text neither begins nor ends with a blank character, so
what is put between two trimmed texts does not matter to it. A comma list that is written out with
`, ` between its items is therefore trimmed if its items are, and reading it gives the items back.
The other way round, whatever text is read as a comma list, what is read from it are items, and each
is a part of the text.
-/

namespace ProcessChain.Text

variable {character : Char} {text first rest : List Char}

theorem trim_cons_of_isBlank (blank : isBlank character) :
    trim (character :: text) = trim text := by
  simp [trim, blank]

theorem trim_concat_of_isBlank (blank : isBlank character) :
    trim (text ++ [character]) = trim text := by
  unfold trim
  rw [List.dropWhile_append]
  split
  · next emptied =>
      rw [List.isEmpty_iff.1 emptied]
      simp [blank]
  · simp [blank]

theorem trim_append_of_forall_isBlank (blank : ∀ character ∈ first, isBlank character) :
    trim (first ++ rest) = trim rest := by
  induction first with
  | nil => rfl
  | cons character others ih =>
      rw [List.cons_append, trim_cons_of_isBlank (blank character List.mem_cons_self)]
      exact ih fun other listed => blank other (List.mem_cons_of_mem _ listed)

theorem trim_eq_nil_iff : trim text = [] ↔ ∀ character ∈ text, isBlank character := by
  constructor
  · intro empty character listed
    have afterFirst : ∀ other ∈ text.dropWhile isBlank, isBlank other :=
      List.rdropWhile_eq_nil_iff.1 empty
    rw [← List.takeWhile_append_dropWhile (p := isBlank) (l := text), List.mem_append] at listed
    rcases listed with before | after
    · exact List.mem_takeWhile_imp before
    · exact afterFirst character after
  · intro blank
    have trimmed : trim (text ++ []) = trim [] := trim_append_of_forall_isBlank blank
    rwa [List.append_nil] at trimmed

theorem trim_isInfix (text : List Char) : trim text <:+: text := by
  have left : text.dropWhile isBlank <:+ text := List.dropWhile_suffix isBlank
  have right : (text.dropWhile isBlank).rdropWhile isBlank <+: text.dropWhile isBlank :=
    List.rdropWhile_prefix isBlank _
  exact right.isInfix.trans left.isInfix

/-- Trimming leaves a text alone exactly if neither of its ends is blank. -/
theorem trim_eq_self_iff :
    trim text = text ↔
      (∀ character ∈ text.head?, ¬ isBlank character) ∧
        ∀ character ∈ text.getLast?, ¬ isBlank character := by
  constructor
  · intro same
    constructor
    · intro character first blank
      rcases List.head?_eq_some_iff.1 first with ⟨others, rfl⟩
      rw [trim_cons_of_isBlank blank] at same
      have lengths := congrArg List.length same
      have bound := (trim_isInfix others).length_le
      simp only [List.length_cons] at lengths
      omega
    · intro character last blank
      rcases List.getLast?_eq_some_iff.1 last with ⟨others, rfl⟩
      rw [trim_concat_of_isBlank blank] at same
      have lengths := congrArg List.length same
      have bound := (trim_isInfix others).length_le
      simp only [List.length_append, List.length_singleton] at lengths
      omega
  · rintro ⟨first, last⟩
    have left : text.dropWhile isBlank = text := by
      rw [List.dropWhile_eq_self_iff]
      intro nonempty
      exact first _ (List.head?_eq_getElem? ▸ List.getElem?_eq_getElem nonempty)
    have right : text.rdropWhile isBlank = text := by
      rw [List.rdropWhile_eq_self_iff]
      intro nonempty
      exact last _ (List.getLast?_eq_some_getLast nonempty)
    unfold trim
    rw [left]
    exact right

theorem head?_eq_of_isPrefix (begins : first <+: text) (filled : first ≠ []) :
    first.head? = text.head? := by
  rcases begins with ⟨others, rfl⟩
  exact (List.head?_append_of_ne_nil _ filled).symm

@[simp]
theorem trim_trim (text : List Char) : trim (trim text) = trim text := by
  rw [trim_eq_self_iff]
  constructor
  · intro character found
    -- What is cut off at the end leaves the first character, which the first cut has seen.
    have begins : trim text <+: text.dropWhile isBlank := List.rdropWhile_prefix isBlank _
    have filled : trim text ≠ [] := List.ne_nil_of_mem (List.mem_of_mem_head? found)
    rw [head?_eq_of_isPrefix begins filled] at found
    have seen := List.head?_dropWhile_not isBlank text
    rw [Option.mem_def.1 found] at seen
    simpa using seen
  · intro character found
    have filled : trim text ≠ [] := List.ne_nil_of_mem (List.mem_of_getLast? found)
    have seen := List.rdropWhile_last_not isBlank (text.dropWhile isBlank) filled
    rw [List.getLast?_eq_some_getLast filled] at found
    cases found
    exact seen

/-- Two trimmed texts with anything between them are trimmed together, unless one is empty. -/
theorem trim_between (middle : List Char) (firstTrimmed : trim first = first)
    (restTrimmed : trim rest = rest) (firstFilled : first ≠ []) (restFilled : rest ≠ []) :
    trim (first ++ middle ++ rest) = first ++ middle ++ rest := by
  rw [trim_eq_self_iff] at firstTrimmed restTrimmed ⊢
  constructor
  · rw [List.append_assoc, List.head?_append_of_ne_nil _ firstFilled]
    exact firstTrimmed.1
  · rw [List.getLast?_append_of_ne_nil _ restFilled]
    exact restTrimmed.2

theorem items_cons_of_isBlank (blank : isBlank character) :
    items (character :: text) = items text := by
  have plain : (character == ',') = false := by
    rw [beq_eq_false_iff_ne]
    rintro rfl
    exact absurd blank (by decide)
  unfold items
  rw [List.splitOn_cons_eq_if_modifyHead, plain]
  rcases split : text.splitOn ',' with _ | ⟨item, others⟩
  · exact absurd split (List.splitOn_ne_nil _ _)
  · simp [trim_cons_of_isBlank blank]

theorem items_append_comma (trimmed : trim first = first) (filled : first ≠ [])
    (commaless : ',' ∉ first) : items (first ++ ',' :: rest) = first :: items rest := by
  unfold items
  rw [List.splitOn_append_cons_self_of_not_mem commaless]
  simp [trimmed, filled]

theorem items_of_trimmed (trimmed : trim text = text) (filled : text ≠ [])
    (commaless : ',' ∉ text) : items text = [text] := by
  unfold items
  rw [List.splitOn_eq_singleton commaless]
  simp [trimmed, filled]

theorem notMem_of_mem_splitOn {separator : Char} {piece : List Char}
    (listed : piece ∈ text.splitOn separator) : separator ∉ piece := by
  induction text generalizing piece with
  | nil =>
      rw [List.splitOn_nil, List.mem_singleton] at listed
      simp [listed]
  | cons character rest ih =>
      rw [List.splitOn_cons_eq_if_modifyHead] at listed
      by_cases separates : character = separator
      · rw [if_pos (by simpa using separates)] at listed
        rcases List.mem_cons.1 listed with rfl | later
        · exact List.not_mem_nil
        · exact ih later
      · rw [if_neg (by simpa using separates)] at listed
        rcases split : rest.splitOn separator with _ | ⟨first, others⟩
        · exact absurd split (List.splitOn_ne_nil _ _)
        · rw [split] at listed ih
          rcases List.mem_cons.1 listed with rfl | later
          · intro inside
            rcases List.mem_cons.1 inside with same | inFirst
            · exact separates same.symm
            · exact ih List.mem_cons_self inFirst
          · exact ih (List.mem_cons_of_mem _ later)

theorem isInfix_intercalate (separator : List Char) {piece : List Char} {pieces : List (List Char)}
    (listed : piece ∈ pieces) : piece <:+: separator.intercalate pieces := by
  induction pieces with
  | nil => cases listed
  | cons first others ih =>
      by_cases more : others = []
      · subst more
        simp [List.mem_singleton.1 listed]
      · rw [List.intercalate_cons_of_ne_nil more, List.append_assoc]
        rcases List.mem_cons.1 listed with rfl | later
        · exact (List.prefix_append _ _).isInfix
        · have inOthers := (ih later).trans (List.suffix_append separator _).isInfix
          exact inOthers.trans (List.suffix_append first _).isInfix

theorem isInfix_of_mem_splitOn {separator : Char} {piece : List Char}
    (listed : piece ∈ text.splitOn separator) : piece <:+: text := by
  have inside := isInfix_intercalate [separator] listed
  rwa [List.intercalate_splitOn] at inside

/-- A text that can be an item of a comma list as it is. -/
structure IsItem (text : String) : Prop where
  trimmed : trimmed text = text
  filled : text ≠ ""
  commaless : ',' ∉ text.toList

namespace IsItem

variable {item : String}

instance : Decidable (IsItem item) :=
  decidable_of_iff (Text.trimmed item = item ∧ item ≠ "" ∧ ',' ∉ item.toList)
    ⟨fun ⟨trimmed, filled, commaless⟩ => ⟨trimmed, filled, commaless⟩,
      fun ⟨trimmed, filled, commaless⟩ => ⟨trimmed, filled, commaless⟩⟩

theorem trim_toList (isItem : IsItem item) : trim item.toList = item.toList := by
  rw [← toList_trimmed, isItem.trimmed]

theorem toList_ne_nil (isItem : IsItem item) : item.toList ≠ [] := by
  simpa using isItem.filled

end IsItem

/-- An item read from a comma list is an item, and a part of the list. -/
theorem isItem_and_isInfix_of_mem_itemStrings {listed item : String}
    (read : item ∈ itemStrings listed) : IsItem item ∧ item.toList <:+: listed.toList := by
  rcases List.mem_map.1 read with ⟨characters, found, rfl⟩
  simp only [items, List.mem_filter, List.mem_map, decide_eq_true_eq] at found
  rcases found with ⟨⟨piece, split, rfl⟩, filled⟩
  rw [String.toList_ofList]
  refine ⟨⟨?_, ?_, ?_⟩, (trim_isInfix piece).trans (isInfix_of_mem_splitOn split)⟩
  · rw [trimmed, String.toList_ofList, trim_trim]
  · simpa using filled
  · rw [String.toList_ofList]
    exact fun comma => notMem_of_mem_splitOn split ((trim_isInfix piece).subset comma)

/-- Some items written as a comma list. -/
def commaList (items : List String) : String :=
  ", ".intercalate items

theorem commaList_cons (item : String) {others : List String} (nonempty : others ≠ []) :
    commaList (item :: others) = item ++ ", " ++ commaList others :=
  String.intercalate_cons_of_ne_nil nonempty

theorem trim_commaList {listed : List String} (areItems : ∀ item ∈ listed, IsItem item)
    (nonempty : listed ≠ []) :
    trim (commaList listed).toList = (commaList listed).toList ∧
      (commaList listed).toList ≠ [] := by
  induction listed with
  | nil => exact absurd rfl nonempty
  | cons item others ih =>
      have isItem := areItems item List.mem_cons_self
      by_cases more : others = []
      · subst more
        exact ⟨isItem.trim_toList, isItem.toList_ne_nil⟩
      · rcases ih (fun other listed => areItems other (List.mem_cons_of_mem _ listed)) more with
          ⟨othersTrimmed, othersFilled⟩
        rw [commaList_cons item more, String.toList_append, String.toList_append]
        exact ⟨trim_between _ isItem.trim_toList othersTrimmed isItem.toList_ne_nil othersFilled,
          List.append_ne_nil_of_right_ne_nil _ othersFilled⟩

theorem itemStrings_commaList {listed : List String} (areItems : ∀ item ∈ listed, IsItem item) :
    itemStrings (commaList listed) = listed := by
  induction listed with
  | nil => rfl
  | cons item others ih =>
      have isItem := areItems item List.mem_cons_self
      have othersRead := ih fun other listed => areItems other (List.mem_cons_of_mem _ listed)
      by_cases more : others = []
      · subst more
        have read := items_of_trimmed isItem.trim_toList isItem.toList_ne_nil isItem.commaless
        simp [itemStrings, commaList, read]
      · have listed : (commaList (item :: others)).toList =
            item.toList ++ ',' :: ' ' :: (commaList others).toList := by
          rw [commaList_cons item more]
          simp
        unfold itemStrings at othersRead ⊢
        rw [listed, items_append_comma isItem.trim_toList isItem.toList_ne_nil isItem.commaless,
          items_cons_of_isBlank (by decide), List.map_cons, othersRead, String.ofList_toList]

end ProcessChain.Text
