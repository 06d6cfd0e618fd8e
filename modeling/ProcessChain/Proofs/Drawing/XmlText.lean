import ProcessChain.Proofs.Drawing.XmlGrammar
import ProcessChain.Proofs.Text.PrefixFree

/-!
# What an XML text says

The text of a document says which element it was written for. Entities are read back one character
at a time, values end where a quote or a tag begins, names end where no character of a name follows,
and the children of an element end where a tag stands less far in than they do.

One thing does not show: an element without children is written like one that holds a newline and
blanks as its text. So it must be known from the name of an element whether it holds a text, which
is what `Element.Proper` asks for besides proper names.
-/

namespace ProcessChain.Xml

def unescape? : List Char → Option (Char × List Char)
  | '&' :: 'a' :: 'm' :: 'p' :: ';' :: rest => some ('&', rest)
  | '&' :: 'l' :: 't' :: ';' :: rest => some ('<', rest)
  | '&' :: 'g' :: 't' :: ';' :: rest => some ('>', rest)
  | '&' :: 'a' :: 'p' :: 'o' :: 's' :: ';' :: rest => some ('\'', rest)
  | '&' :: 'q' :: 'u' :: 'o' :: 't' :: ';' :: rest => some ('"', rest)
  | character :: rest => some (character, rest)
  | [] => none

theorem unescape?_escape (character : Char) (rest : List Char) :
    unescape? (escape character ++ rest) = some (character, rest) := by
  unfold escape
  split
  · rfl
  · rfl
  · rfl
  · rfl
  · rfl
  · next notAmpersand _ _ _ _ =>
      rw [List.singleton_append, unescape?] <;> exact fun _ same => absurd same notAmpersand

/-- A value ends where the quote after it or the next tag begins. -/
def PastValue (rest : List Char) : Prop :=
  rest.head? = some '"' ∨ rest.head? = some '<'

theorem eq_of_escaped_append {text other : String} {rest otherRest : List Char}
    (ends : PastValue rest) (otherEnds : PastValue otherRest)
    (same : (escaped text).toList ++ rest = (escaped other).toList ++ otherRest) :
    text = other ∧ rest = otherRest := by
  have characters : Text.PrefixFree (fun _ => True) escape id := .of_read unescape? unescape?_escape
  have goesOn (character : Char) (after : List Char) : ¬ PastValue (escape character ++ after) := by
    unfold escape
    split
    all_goals simp_all [PastValue]
  rw [toList_escaped, toList_escaped] at same
  rcases characters.flatMap_all PastValue goesOn ends otherEnds same with ⟨texts, rests⟩
  simp only [List.map_id] at texts
  exact ⟨String.toList_injective texts, rests⟩

/-! ## Tags -/

theorem prefixFree_attribute :
    Text.PrefixFree (fun given : Attribute => isName given.name.toList = true)
      (fun given => given.render.toList) id := by
  rintro ⟨name, value⟩ ⟨otherName, otherValue⟩ rest otherRest named otherNamed same
  simp only [toList_render, List.cons_append, List.append_assoc, List.nil_append,
    List.cons.injEq, true_and] at same
  rcases Text.run_unique (fun _ => isNameChar_of_mem named) (fun _ => isNameChar_of_mem otherNamed)
    (by simp; decide) (by simp; decide) same with ⟨names, afterName⟩
  simp only [List.cons.injEq, true_and] at afterName
  rcases eq_of_escaped_append (Or.inl rfl) (Or.inl rfl) afterName with ⟨values, afterValue⟩
  rw [List.cons.injEq] at afterValue
  simp only [id, Attribute.mk.injEq]
  exact ⟨⟨String.toList_injective names, values⟩, afterValue.2⟩

/-- The inside of a tag ends where the tag closes. -/
def PastTag (rest : List Char) : Prop :=
  rest.head? = some '>' ∨ rest.head? = some '/'

section Tags

variable {textual : List String} {name other : String} {attributes others : List Attribute}
  {rest otherRest : List Char}

theorem PastTag.not_isNameChar (ends : PastTag rest) (attributes : List Attribute) :
    ∀ character ∈ ((attributes.flatMap fun given => given.render.toList) ++ rest).head?,
      ¬ isNameChar character := by
  intro character first
  cases attributes with
  | nil =>
      rw [List.flatMap_nil, List.nil_append] at first
      rcases ends with ends | ends
      all_goals
        obtain rfl := Option.some.inj (ends.symm.trans first)
        decide
  | cons given others =>
      rw [List.flatMap_cons, toList_render] at first
      obtain rfl := Option.some.inj first
      decide

theorem eq_of_tag_append (proper : ProperTag name attributes) (otherProper : ProperTag other others)
    (ends : PastTag rest) (otherEnds : PastTag otherRest)
    (same : (tag name attributes).toList ++ rest = (tag other others).toList ++ otherRest) :
    name = other ∧ attributes = others ∧ rest = otherRest := by
  rw [toList_tag, toList_tag, List.append_assoc, List.append_assoc] at same
  rcases Text.run_unique (fun _ => isNameChar_of_mem proper.named)
    (fun _ => isNameChar_of_mem otherProper.named) (ends.not_isNameChar attributes)
    (otherEnds.not_isNameChar others) same with ⟨names, afterName⟩
  have goesOn (given : Attribute) (after : List Char) (_ : isName given.name.toList = true) :
      ¬ PastTag (given.render.toList ++ after) := by
    simp [PastTag, toList_render]
  rcases prefixFree_attribute.flatMap PastTag goesOn proper.attributesNamed
    otherProper.attributesNamed ends otherEnds afterName with ⟨tagged, rests⟩
  simp only [List.map_id] at tagged
  exact ⟨String.toList_injective names, tagged, rests⟩

end Tags

/-! ## Elements -/

namespace Element

def name : Element → String
  | .empty name _ => name
  | .text name _ _ => name
  | .nest name _ _ => name

def attributes : Element → List Attribute
  | .empty _ attributes => attributes
  | .text _ attributes _ => attributes
  | .nest _ attributes _ => attributes

def afterTag (depth : Nat) : Element → List Char
  | .empty _ _ => ['/', '>']
  | .text name _ content =>
    '>' :: ((escaped content).toList ++ '<' :: '/' :: (name.toList ++ ['>']))
  | .nest name _ children =>
    '>' :: '\n' :: ((renderAll (depth + 1) children).toList
      ++ ((indent depth).toList ++ '<' :: '/' :: (name.toList ++ ['>'])))

variable {textual : List String} {element other : Element} {rest otherRest : List Char}

theorem toList_render (depth : Nat) (element : Element) :
    (element.render depth).toList = (indent depth).toList
      ++ '<' :: ((tag element.name element.attributes).toList ++ element.afterTag depth) := by
  cases element <;> simp [render, name, attributes, afterTag]

theorem Proper.properTag (proper : element.Proper textual) :
    ProperTag element.name element.attributes := by
  cases element with
  | empty name attributes => exact proper
  | text name attributes content => exact proper.1
  | nest name attributes children => exact proper.1

theorem pastTag_afterTag (depth : Nat) (element : Element) (rest : List Char) :
    PastTag (element.afterTag depth ++ rest) := by
  cases element <;> simp [PastTag, afterTag]

theorem eq_of_tags (depth : Nat) (proper : element.Proper textual)
    (otherProper : other.Proper textual)
    (same : (element.render depth).toList ++ rest = (other.render depth).toList ++ otherRest) :
    element.name = other.name ∧ element.attributes = other.attributes ∧
      element.afterTag depth ++ rest = other.afterTag depth ++ otherRest := by
  simp only [toList_render, List.append_assoc, List.cons_append] at same
  have tags := (List.cons.inj (List.append_cancel_left same)).2
  exact eq_of_tag_append proper.properTag otherProper.properTag
    (pastTag_afterTag depth element rest) (pastTag_afterTag depth other otherRest) tags

end Element

theorem toList_indent_succ (depth : Nat) :
    (indent (depth + 1)).toList = (indent depth).toList ++ [' ', ' '] := by
  rw [indent, indent, String.toList_ofList, String.toList_ofList, Nat.mul_add,
    List.replicate_add]
  rfl

theorem renderAll_cons_ne (depth : Nat) (element : Element) (others : List Element)
    (rest after : List Char) :
    (renderAll (depth + 1) (element :: others)).toList ++ rest ≠
      (indent depth).toList ++ '<' :: after := by
  intro same
  simp only [renderAll, String.toList_append, Element.toList_render, toList_indent_succ,
    List.append_assoc] at same
  -- The child is indented by two blanks more, so that a blank stands where the end tag begins.
  have next := List.append_cancel_left same
  simp at next

mutual

/-- An element is told apart from what follows it. -/
theorem Element.eq_of_render_append {textual : List String} (depth : Nat) :
    (element : Element) → ∀ (other : Element) (rest otherRest : List Char),
    element.Proper textual → other.Proper textual →
    (element.render depth).toList ++ rest = (other.render depth).toList ++ otherRest →
    element = other ∧ rest = otherRest
  | .empty name attributes => by
      intro other rest otherRest proper otherProper same
      rcases Element.eq_of_tags depth proper otherProper same with ⟨names, tagged, afterTags⟩
      cases other with
      | empty otherName otherAttributes =>
          simp only [Element.name, Element.attributes] at names tagged
          simp only [Element.afterTag, List.cons_append, List.cons.injEq, true_and] at afterTags
          rw [names, tagged]
          exact ⟨rfl, afterTags⟩
      | text otherName otherAttributes otherContent => simp [Element.afterTag] at afterTags
      | nest otherName otherAttributes otherChildren => simp [Element.afterTag] at afterTags
  | .text name attributes content => by
      intro other rest otherRest proper otherProper same
      rcases Element.eq_of_tags depth proper otherProper same with ⟨names, tagged, afterTags⟩
      cases other with
      | empty otherName otherAttributes => simp [Element.afterTag] at afterTags
      | text otherName otherAttributes otherContent =>
          simp only [Element.name, Element.attributes] at names tagged
          simp only [Element.afterTag, names, List.cons_append, List.append_assoc, List.cons.injEq,
            true_and] at afterTags
          rcases eq_of_escaped_append (Or.inr rfl) (Or.inr rfl) afterTags with ⟨contents, endTags⟩
          rw [names, tagged, contents]
          simpa using endTags
      | nest otherName otherAttributes otherChildren =>
          -- What follows the tags may be the same here, but the name says that a text does.
          simp only [Element.name] at names
          exact absurd (names ▸ proper.2) otherProper.2.1
  | .nest name attributes children => by
      intro other rest otherRest proper otherProper same
      rcases Element.eq_of_tags depth proper otherProper same with ⟨names, tagged, afterTags⟩
      cases other with
      | empty otherName otherAttributes => simp [Element.afterTag] at afterTags
      | text otherName otherAttributes otherContent =>
          simp only [Element.name] at names
          exact absurd (names ▸ otherProper.2) proper.2.1
      | nest otherName otherAttributes otherChildren =>
          simp only [Element.name, Element.attributes] at names tagged
          simp only [Element.afterTag, names, List.cons_append, List.append_assoc, List.cons.injEq,
            true_and] at afterTags
          rcases eq_of_renderAll_append depth children otherChildren _ _ proper.2.2
            otherProper.2.2 afterTags with ⟨inside, endTags⟩
          rw [names, tagged, inside]
          simpa using endTags

/-- The children of an element are told apart from its end tag. -/
theorem eq_of_renderAll_append {textual : List String} (depth : Nat) :
    (elements : List Element) → ∀ (others : List Element) (rest otherRest : List Char),
    AllProper textual elements → AllProper textual others →
    (renderAll (depth + 1) elements).toList ++ ((indent depth).toList ++ '<' :: rest) =
      (renderAll (depth + 1) others).toList ++ ((indent depth).toList ++ '<' :: otherRest) →
    elements = others ∧ rest = otherRest
  | [] => by
      intro others rest otherRest _ _ same
      cases others with
      | nil =>
          have tags := List.append_cancel_left (List.append_cancel_left same)
          exact ⟨rfl, (List.cons.inj tags).2⟩
      | cons other others => exact absurd same.symm (renderAll_cons_ne depth other others _ _)
  | element :: elements => by
      intro others rest otherRest proper otherProper same
      cases others with
      | nil => exact absurd same (renderAll_cons_ne depth element elements _ _)
      | cons other others =>
          simp only [renderAll, String.toList_append, List.append_assoc] at same
          rcases element.eq_of_render_append (depth + 1) other _ _ proper.1 otherProper.1 same with
            ⟨first, afterFirst⟩
          rcases eq_of_renderAll_append depth elements others _ _ proper.2 otherProper.2
            (List.append_cancel_left afterFirst) with ⟨later, rests⟩
          exact ⟨by rw [first, later], rests⟩

end

/-- The text of a document says which element it was written for. -/
theorem eq_of_document_eq {textual : List String} {root other : Element}
    (proper : root.Proper textual) (otherProper : other.Proper textual)
    (same : document root = document other) : root = other := by
  have texts := congrArg String.toList same
  have begins (root : Element) : document root = declaration ++ root.render 0 := rfl
  rw [begins, begins, String.toList_append, String.toList_append] at texts
  have roots := List.append_cancel_left texts
  exact (root.eq_of_render_append 0 other [] [] proper otherProper (by rw [roots])).1

end ProcessChain.Xml
