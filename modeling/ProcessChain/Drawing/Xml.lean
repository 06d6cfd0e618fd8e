/-!
# XML documents

Elements with attributes, and their text. An element holds nothing, a text, or other elements. The
five characters with a meaning in XML are written as entities, in attribute values and in texts
alike, and all other characters as they are. Elements inside an element stand on lines of their own,
two blanks further in, and its end tag on a line below them; a text stands directly between its
tags, so no blank is added to it.
-/

namespace ProcessChain.Xml

/-- A name with a value. -/
structure Attribute where
  name : String
  value : String
deriving DecidableEq, Repr

/-- An element of a document. -/
inductive Element where
  /-- An element that holds nothing. -/
  | empty (name : String) (attributes : List Attribute)
  /-- An element that holds a text. -/
  | text (name : String) (attributes : List Attribute) (content : String)
  /-- An element that holds elements. -/
  | nest (name : String) (attributes : List Attribute) (children : List Element)
deriving Repr

/-- A character in an attribute value or in a text. -/
def escape : Char → List Char
  | '&' => ['&', 'a', 'm', 'p', ';']
  | '<' => ['&', 'l', 't', ';']
  | '>' => ['&', 'g', 't', ';']
  | '\'' => ['&', 'a', 'p', 'o', 's', ';']
  | '"' => ['&', 'q', 'u', 'o', 't', ';']
  | character => [character]

/-- An attribute value or a text with its entities. -/
def escaped (text : String) : String :=
  String.ofList (text.toList.flatMap escape)

/-- An attribute inside a tag. -/
def Attribute.render (given : Attribute) : String :=
  " " ++ given.name ++ "=\"" ++ escaped given.value ++ "\""

/-- The inside of a start tag. -/
def tag (name : String) (attributes : List Attribute) : String :=
  name ++ String.join (attributes.map Attribute.render)

/-- The blanks before an element at some depth. -/
def indent (depth : Nat) : String :=
  String.ofList (List.replicate (2 * depth) ' ')

mutual

/-- An element at some depth of a document, without the line end after it. -/
def Element.render (depth : Nat) : Element → String
  | .empty name attributes => indent depth ++ "<" ++ tag name attributes ++ "/>"
  | .text name attributes content =>
    indent depth ++ "<" ++ tag name attributes ++ ">" ++ escaped content ++ "</" ++ name ++ ">"
  | .nest name attributes children =>
    indent depth ++ "<" ++ tag name attributes ++ ">\n" ++ renderAll (depth + 1) children
      ++ indent depth ++ "</" ++ name ++ ">"

/-- Elements at some depth of a document, each with the line end after it. -/
def renderAll (depth : Nat) : List Element → String
  | [] => ""
  | element :: rest => element.render depth ++ "\n" ++ renderAll depth rest

end

/-- A document with its declaration, without a line end after the last tag. -/
def document (root : Element) : String :=
  "<?xml version=\"1.0\" encoding=\"UTF-8\"?>\n" ++ root.render 0

end ProcessChain.Xml
