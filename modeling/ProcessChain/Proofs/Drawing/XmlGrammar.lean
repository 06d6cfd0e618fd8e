import ProcessChain.Drawing.Xml

/-!
# The grammar of XML documents

What a document made of elements has to be: one root, in which start and end tags are properly
nested, whose attribute values and texts hold no character with a meaning in XML but in references
to the predefined entities, and all of whose characters are characters of XML. Other parts that a
document may have, such as comments and document type declarations, are not among those written
here, and the grammar has no rules for them. It also asks for more than XML does where documents are
written in one way only: a value holds neither quotes nor `>`, and one blank parts two attributes.

`Element.isElement` says that an element is written by these rules whatever its values are, as long
as its names are names. That leaves the characters: `Element.legal_render_iff` says that those of an
element are characters of XML exactly if those of its values are, because writing a value keeps
every character that is not escaped.
-/

namespace ProcessChain.Xml

/-! ## Characters and names -/

def inRanges (ranges : List (Nat × Nat)) (character : Char) : Bool :=
  ranges.any fun (first, last) => first ≤ character.toNat && character.toNat ≤ last

def charRanges : List (Nat × Nat) :=
  [(0x9, 0xA), (0xD, 0xD), (0x20, 0xD7FF), (0xE000, 0xFFFD), (0x10000, 0x10FFFF)]

def isChar (character : Char) : Bool :=
  inRanges charRanges character

/-- All characters of a text may stand in a document. -/
def Legal (text : String) : Prop :=
  ∀ character ∈ text.toList, isChar character

/-- The code points of the characters that a name may begin with. -/
def nameStartRanges : List (Nat × Nat) :=
  [(0x3A, 0x3A), (0x41, 0x5A), (0x5F, 0x5F), (0x61, 0x7A), (0xC0, 0xD6), (0xD8, 0xF6),
    (0xF8, 0x2FF), (0x370, 0x37D), (0x37F, 0x1FFF), (0x200C, 0x200D), (0x2070, 0x218F),
    (0x2C00, 0x2FEF), (0x3001, 0xD7FF), (0xF900, 0xFDCF), (0xFDF0, 0xFFFD), (0x10000, 0xEFFFF)]

/-- The code points of the further characters that a name may go on with. -/
def nameRanges : List (Nat × Nat) :=
  [(0x2D, 0x2E), (0x30, 0x39), (0xB7, 0xB7), (0x300, 0x36F), (0x203F, 0x2040)]

def isNameStart (character : Char) : Bool :=
  inRanges nameStartRanges character

def isNameChar (character : Char) : Bool :=
  inRanges (nameStartRanges ++ nameRanges) character

def isName : List Char → Bool
  | [] => false
  | first :: rest => isNameStart first && rest.all isNameChar

theorem isNameChar_of_mem {name : List Char} {character : Char} (named : isName name)
    (listed : character ∈ name) : isNameChar character := by
  cases name with
  | nil => simp at listed
  | cons first rest =>
      rw [isName, Bool.and_eq_true, List.all_eq_true] at named
      rcases List.mem_cons.1 listed with rfl | later
      · have start : inRanges nameStartRanges character := named.1
        rw [isNameChar, inRanges, List.any_append, Bool.or_eq_true]
        exact Or.inl start
      · exact named.2 character later

/-! ## Values, tags and elements -/

def entities : List (List Char) :=
  [['a', 'm', 'p'], ['l', 't'], ['g', 't'], ['a', 'p', 'o', 's'], ['q', 'u', 'o', 't']]

/-- An attribute value or a text: no character with a meaning in XML stands in it as it is. -/
inductive IsValue : List Char → Prop where
  | nil : IsValue []
  | plain {character : Char} {rest : List Char}
      (plain : character ∉ ['&', '<', '>', '\'', '"']) (others : IsValue rest) :
      IsValue (character :: rest)
  | entity (name : List Char) {rest : List Char} (known : name ∈ entities) (others : IsValue rest) :
      IsValue ('&' :: name ++ ';' :: rest)

/-- The attributes of a tag, which are given by distinct names. -/
inductive IsAttributes : (names : List (List Char)) → List Char → Prop where
  | nil : IsAttributes [] []
  | cons {name value rest : List Char} {names : List (List Char)} (named : isName name)
      (fresh : name ∉ names) (valued : IsValue value) (others : IsAttributes names rest) :
      IsAttributes (name :: names) (' ' :: name ++ '=' :: '"' :: value ++ '"' :: rest)

/-- The inside of a start tag for an element of some name. -/
def IsTag (name inside : List Char) : Prop :=
  isName name ∧ ∃ names attributes, IsAttributes names attributes ∧ inside = name ++ attributes

mutual

/-- An element: one tag, or a start tag and an end tag of one name with content between them. -/
inductive IsElement : List Char → Prop where
  | empty {name inside : List Char} (tag : IsTag name inside) :
      IsElement ('<' :: inside ++ ['/', '>'])
  | filled {name inside content : List Char} (tag : IsTag name inside)
      (between : IsContent content) :
      IsElement ('<' :: inside ++ '>' :: content ++ '<' :: '/' :: name ++ ['>'])

/-- What stands between two tags: elements with texts around them. -/
inductive IsContent : List Char → Prop where
  | value {text : List Char} (valued : IsValue text) : IsContent text
  | next {text element rest : List Char} (valued : IsValue text) (first : IsElement element)
      (others : IsContent rest) : IsContent (text ++ element ++ rest)

end

def declaration : String := "<?xml version=\"1.0\" encoding=\"UTF-8\"?>\n"

/-- A document: its declaration and one root. -/
def IsDocument (text : String) : Prop :=
  ∃ root, IsElement root ∧ text.toList = declaration.toList ++ root

def WellFormed (text : String) : Prop :=
  IsDocument text ∧ Legal text

/-! ## Elements with proper names -/

/-- The names in a tag are names, and its attributes have distinct ones. -/
structure ProperTag (name : String) (attributes : List Attribute) : Prop where
  named : isName name.toList
  attributesNamed : ∀ given ∈ attributes, isName given.name.toList
  distinct : (attributes.map (·.name)).Nodup

mutual

/-- All names in an element are proper, and the name of an element says whether it holds a text:
`textual` are the names of those that do. -/
def Element.Proper (textual : List String) : Element → Prop
  | .empty name attributes => ProperTag name attributes
  | .text name attributes _ => ProperTag name attributes ∧ name ∈ textual
  | .nest name attributes children =>
    ProperTag name attributes ∧ name ∉ textual ∧ AllProper textual children

def AllProper (textual : List String) : List Element → Prop
  | [] => True
  | element :: rest => element.Proper textual ∧ AllProper textual rest

end

mutual

def Element.values : Element → List String
  | .empty _ attributes => attributes.map (·.value)
  | .text _ attributes content => attributes.map (·.value) ++ [content]
  | .nest _ attributes children => attributes.map (·.value) ++ allValues children

def allValues : List Element → List String
  | [] => []
  | element :: rest => element.values ++ allValues rest

end

variable {textual : List String} {name : String} {attributes : List Attribute}

theorem allProper_iff {elements : List Element} :
    AllProper textual elements ↔ ∀ element ∈ elements, element.Proper textual := by
  induction elements with
  | nil => simp [AllProper]
  | cons element rest ih => simp [AllProper, ih]

theorem allValues_eq (elements : List Element) :
    allValues elements = elements.flatMap Element.values := by
  induction elements with
  | nil => rfl
  | cons element rest ih => rw [allValues, ih, List.flatMap_cons]

theorem isName_ofList {name : List Char} (named : isName name) :
    isName (String.ofList name).toList := by
  rwa [String.toList_ofList]

theorem toList_escaped (text : String) : (escaped text).toList = text.toList.flatMap escape := by
  simp [escaped]

theorem toList_render (given : Attribute) :
    given.render.toList =
      ' ' :: given.name.toList ++ '=' :: '"' :: (escaped given.value).toList ++ ['"'] := by
  simp [Attribute.render]

theorem toList_tag (name : String) (attributes : List Attribute) :
    (tag name attributes).toList =
      name.toList ++ attributes.flatMap fun given => given.render.toList := by
  simp [tag, String.toList_join, List.flatMap_map]

/-! ## Elements follow the grammar -/

theorem IsValue.append {text rest : List Char} (valued : IsValue text) (others : IsValue rest) :
    IsValue (text ++ rest) := by
  induction valued with
  | nil => exact others
  | plain plain _ ih => exact .plain plain ih
  | entity name known _ ih => simpa using IsValue.entity name known ih

theorem isValue_escape (character : Char) : IsValue (escape character) := by
  unfold escape
  split
  · exact .entity ['a', 'm', 'p'] (by decide) .nil
  · exact .entity ['l', 't'] (by decide) .nil
  · exact .entity ['g', 't'] (by decide) .nil
  · exact .entity ['a', 'p', 'o', 's'] (by decide) .nil
  · exact .entity ['q', 'u', 'o', 't'] (by decide) .nil
  · exact .plain (by simp_all) .nil

theorem isValue_escaped (text : String) : IsValue (escaped text).toList := by
  rw [toList_escaped]
  induction text.toList with
  | nil => exact .nil
  | cons character others ih =>
      rw [List.flatMap_cons]
      exact (isValue_escape character).append ih

theorem isAttributes_tag (attributes : List Attribute)
    (named : ∀ given ∈ attributes, isName given.name.toList)
    (distinct : (attributes.map (·.name)).Nodup) :
    IsAttributes (attributes.map (·.name.toList))
      (attributes.flatMap fun given => given.render.toList) := by
  induction attributes with
  | nil => exact .nil
  | cons given others ih =>
      rw [List.map_cons, List.nodup_cons] at distinct
      have fresh : given.name.toList ∉ others.map (·.name.toList) := by
        intro taken
        rcases List.mem_map.1 taken with ⟨other, listed, same⟩
        apply distinct.1
        rw [← String.toList_injective same]
        exact List.mem_map_of_mem listed
      have rest := ih (fun other listed => named other (List.mem_cons_of_mem _ listed)) distinct.2
      have first := named given List.mem_cons_self
      simpa [toList_render] using
        IsAttributes.cons first fresh (isValue_escaped given.value) rest

theorem ProperTag.isTag (proper : ProperTag name attributes) :
    IsTag name.toList (tag name attributes).toList := by
  have written := isAttributes_tag attributes proper.attributesNamed proper.distinct
  exact ⟨proper.named, _, _, written, toList_tag name attributes⟩

theorem isValue_blank : IsValue [' '] :=
  .plain (by decide) .nil

theorem isValue_newline : IsValue ['\n'] :=
  .plain (by decide) .nil

theorem isValue_indent (depth : Nat) : IsValue (indent depth).toList := by
  rw [indent, String.toList_ofList]
  induction 2 * depth with
  | zero => exact .nil
  | succ count ih => exact isValue_blank.append ih

theorem IsContent.prepend {text rest : List Char} (valued : IsValue text)
    (content : IsContent rest) : IsContent (text ++ rest) := by
  cases content with
  | value others => exact .value (valued.append others)
  | next others first rest =>
      rw [← List.append_assoc, ← List.append_assoc]
      exact .next (valued.append others) first rest

mutual

theorem Element.isElement (depth : Nat) : (element : Element) → element.Proper textual →
    ∃ text, IsElement text ∧ (element.render depth).toList = (indent depth).toList ++ text
  | .empty name attributes, proper => by
      refine ⟨_, .empty proper.isTag, ?_⟩
      simp [Element.render]
  | .text name attributes content, proper => by
      refine ⟨_, .filled proper.1.isTag (.value (isValue_escaped content)), ?_⟩
      simp [Element.render]
  | .nest name attributes children, proper => by
      -- The end tag is indented, and its indent is the text after the last child.
      have between : IsContent (['\n'] ++ ((renderAll (depth + 1) children).toList
          ++ (indent depth).toList)) :=
        (isContent_renderAll (depth + 1) children proper.2.2 (isValue_indent depth)).prepend
          isValue_newline
      refine ⟨_, .filled proper.1.isTag between, ?_⟩
      simp [Element.render]

theorem isContent_renderAll (depth : Nat) : (elements : List Element) →
    AllProper textual elements → {after : List Char} → IsValue after →
    IsContent ((renderAll depth elements).toList ++ after)
  | [], _, after, valued => by
      simpa [renderAll] using IsContent.value valued
  | element :: rest, proper, after, valued => by
      have others := isContent_renderAll depth rest proper.2 valued
      rcases element.isElement depth proper.1 with ⟨text, isElement, written⟩
      have content := IsContent.next (isValue_indent depth) isElement
        (others.prepend isValue_newline)
      simpa [renderAll, written] using content

end

theorem isDocument_document {root : Element} (proper : root.Proper textual) :
    IsDocument (document root) := by
  rcases root.isElement 0 proper with ⟨text, isElement, written⟩
  have begins : document root = declaration ++ root.render 0 := rfl
  have unindented : (indent 0).toList = [] := rfl
  refine ⟨text, isElement, ?_⟩
  rw [begins, String.toList_append, written, unindented, List.nil_append]

/-! ## Legal characters -/

@[simp]
theorem legal_append {text rest : String} : Legal (text ++ rest) ↔ Legal text ∧ Legal rest := by
  simp only [Legal, String.toList_append, List.mem_append]
  constructor
  · intro legal
    exact ⟨fun character listed => legal character (Or.inl listed),
      fun character listed => legal character (Or.inr listed)⟩
  · rintro ⟨first, second⟩ character (listed | listed)
    · exact first character listed
    · exact second character listed

theorem legal_iff {text : String} : Legal text ↔ text.toList.all isChar :=
  List.all_eq_true.symm

theorem legal_ofList {text : List Char} (legal : text.all isChar) : Legal (String.ofList text) := by
  rwa [legal_iff, String.toList_ofList]

theorem all_escape (character : Char) : (escape character).all isChar = isChar character := by
  unfold escape
  split
  · decide
  · decide
  · decide
  · decide
  · decide
  · simp

@[simp]
theorem legal_escaped (text : String) : Legal (escaped text) ↔ Legal text := by
  rw [legal_iff, legal_iff, toList_escaped, List.all_flatMap]
  simp only [all_escape]

theorem isChar_of_isNameChar {character : Char} (inName : isNameChar character) :
    isChar character := by
  simp only [isNameChar, inRanges, nameStartRanges, nameRanges, isChar, charRanges,
    List.cons_append, List.nil_append, List.any_cons, List.any_nil, Bool.or_eq_true,
    Bool.and_eq_true, decide_eq_true_eq, Bool.or_false] at inName ⊢
  omega

theorem legal_of_isName {name : String} (named : isName name.toList) : Legal name :=
  fun _ listed => isChar_of_isNameChar (isNameChar_of_mem named listed)

theorem legal_indent (depth : Nat) : Legal (indent depth) := by
  apply legal_ofList
  rw [List.all_eq_true]
  intro character listed
  rw [List.eq_of_mem_replicate listed]
  decide

theorem legal_marks : Legal " " ∧ Legal "=\"" ∧ Legal "\"" ∧ Legal "<" ∧ Legal ">" ∧ Legal "/>" ∧
    Legal "</" ∧ Legal ">\n" ∧ Legal "\n" := by
  refine ⟨?_, ?_, ?_, ?_, ?_, ?_, ?_, ?_, ?_⟩ <;> exact legal_ofList (by decide)

theorem legal_join (texts : List String) :
    Legal (String.join texts) ↔ ∀ text ∈ texts, Legal text := by
  induction texts with
  | nil => simp [Legal]
  | cons text rest ih => simp [String.join_cons, ih]

theorem Attribute.legal_render_iff {given : Attribute} (named : isName given.name.toList) :
    Legal given.render ↔ Legal given.value := by
  simp [Attribute.render, legal_of_isName named, legal_marks]

theorem ProperTag.legal_iff (proper : ProperTag name attributes) :
    Legal (tag name attributes) ↔ ∀ value ∈ attributes.map (·.value), Legal value := by
  rw [tag, legal_append, and_iff_right (legal_of_isName proper.named), legal_join]
  simp only [List.forall_mem_map]
  apply forall₂_congr
  intro given listed
  exact Attribute.legal_render_iff (proper.attributesNamed given listed)

mutual

/-- The characters of an element are legal exactly if those of its values are. -/
theorem Element.legal_render_iff (depth : Nat) : (element : Element) → element.Proper textual →
    (Legal (element.render depth) ↔ ∀ value ∈ element.values, Legal value)
  | .empty name attributes, proper => by
      simp only [Element.render, Element.values, legal_append, legal_indent, legal_marks,
        ProperTag.legal_iff proper, true_and, and_true]
  | .text name attributes content, proper => by
      simp only [Element.render, Element.values, legal_append, legal_indent, legal_marks,
        legal_escaped, proper.1.legal_iff, legal_of_isName proper.1.named, true_and, and_true,
        List.forall_mem_append, List.forall_mem_singleton]
  | .nest name attributes children, proper => by
      simp only [Element.render, Element.values, legal_append, legal_indent, legal_marks,
        proper.1.legal_iff, legal_of_isName proper.1.named, true_and, and_true,
        List.forall_mem_append, legal_renderAll_iff (depth + 1) children proper.2.2]

theorem legal_renderAll_iff (depth : Nat) : (elements : List Element) →
    AllProper textual elements →
    (Legal (renderAll depth elements) ↔ ∀ value ∈ allValues elements, Legal value)
  | [], _ => by simp [renderAll, allValues, Legal]
  | element :: rest, proper => by
      simp only [renderAll, allValues, legal_append, legal_marks, and_true, List.forall_mem_append,
        element.legal_render_iff depth proper.1, legal_renderAll_iff depth rest proper.2]

end

/-- The document of an element is well-formed exactly if its values are legal. -/
theorem wellFormed_document_iff {root : Element} (proper : root.Proper textual) :
    WellFormed (document root) ↔ ∀ value ∈ root.values, Legal value := by
  have legalDeclaration : Legal declaration := legal_ofList (by decide)
  have begins : document root = declaration ++ root.render 0 := rfl
  rw [WellFormed, and_iff_right (isDocument_document proper), begins, legal_append,
    and_iff_right legalDeclaration, root.legal_render_iff 0 proper]

end ProcessChain.Xml
