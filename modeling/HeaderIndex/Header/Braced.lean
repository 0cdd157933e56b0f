import HeaderIndex.Header.Scrub

/-! Declarations with a body in braces: structures and enumerations. The body ends at
the first closing brace, and between a declaration's head and its opening brace stands
no semicolon, so a forward declaration does not take the body of a later one.

A structure is `struct {…} Name;`, with the bit fields of its body. Three forms declare
an enumeration: `NS_ENUM(Backing, Name) {…};` and `NS_OPTIONS(Backing, Name) {…};`,
named before their body, and `enum {…} Name;`, named behind it or not at all. -/

namespace HeaderIndex.Header

open HeaderIndex.Text

/-- A declaration with a body: what stands between its keyword and the opening
brace, its name if it has one, and the text between the braces. -/
structure Braced where
  gap : List Char
  name : Option (List Char)
  body : List Char

namespace Braced

/-- Up to a `{` that no `;` precedes, a body that is not empty, and its closing brace. -/
def body? (text : List Char) : Option (Hit (List Char)) :=
  match text.dropWhile fun c => c != '\x7b' && c != ';' with
  | '\x7b' :: inner =>
    match inner.takeWhile (· != '\x7d'), inner.dropWhile (· != '\x7d') with
    | [], _ => none
    | _, [] => none
    | body, _ :: rest => some ⟨body, rest⟩
  | _ => none

/-- What follows the closing brace of a declaration named behind its body. A
semicolon before any word ends it without a name. Otherwise the next word is the
name, and the last semicolon before a further word ends it. -/
def tail? (text : List Char) : Option (Hit (Option (List Char))) :=
  let noWord := fun c => !isWordChar c
  if (text.takeWhile noWord).contains ';' then
    (afterFirst ';' text).map fun rest => ⟨none, rest⟩
  else do
    let h ← word? (text.dropWhile noWord)
    let rest ← afterLast noWord ';' h.rest
    return ⟨some h.value, rest⟩

/-- A declaration that starts with the whole word `keyword` and is named, if at
all, behind its body. -/
def trailing (keyword : String) : Shape Braced := fun prev text => do
  guard (wordBoundary prev)
  let rest ← after keyword text
  guard (wordBoundary rest.head?)
  let inner ← body? rest
  let last ← tail? inner.rest
  let gap := rest.takeWhile (· != '\x7b')
  return ⟨⟨gap, last.value, inner.value⟩, last.rest⟩

/-- The names of a body: every whole word that starts as an identifier does, on
lines that are no directives. -/
def names (body : List Char) : List String :=
  (name?.occurrences (dropDirectives body)).map String.ofList

end Braced

namespace Struct

/-- A bit field: a name, blanks and a colon. -/
def bitField : Shape (List Char) := fun prev text => do
  let h ← name? prev text
  let rest ← after ":" (trimStart h.rest)
  return ⟨h.value, rest⟩

/-- The bit fields of a body, on lines that are no directives. -/
def members (body : List Char) : List String :=
  (bitField.occurrences (dropDirectives body)).map String.ofList

/-- The name of a structure, if it has one, and then its bit fields. -/
def symbols (d : Braced) : List String :=
  (d.name.map String.ofList).toList ++ members d.body

def find (text : List Char) : List String :=
  ((Braced.trailing "struct").occurrences text).flatMap symbols

end Struct

namespace Enumeration

inductive Form where
  | nsEnum
  | nsOptions
  | plain
  deriving DecidableEq, Repr

def Form.all : List Form := [nsEnum, nsOptions, plain]

/-- A macro call with two arguments, of which the second is the name, and a body.
The keyword need not be a whole word. -/
def macroCall (keyword : String) : Shape Braced := fun _ text => do
  let head ← after keyword text
  let rest ← afterFirst '(' head
  let backing ← word? (rest.dropWhile fun c => !isWordChar c)
  let rest ← afterFirst ',' backing.rest
  let name ← word? (rest.dropWhile fun c => !isWordChar c)
  let rest ← afterFirst ')' name.rest
  let inner ← Braced.body? rest
  let last ← afterFirst ';' inner.rest
  let gap := before (rest.dropWhile (· != '\x7b')) head
  return ⟨⟨gap, some name.value, inner.value⟩, last⟩

def Form.shape : Form → Shape Braced
  | nsEnum => macroCall "NS_ENUM"
  | nsOptions => macroCall "NS_OPTIONS"
  | plain => Braced.trailing "enum"

/-- The name of an enumeration, if it has one, and then its enumerators. -/
def symbols (d : Braced) : List String :=
  (d.name.map String.ofList).toList ++ Braced.names d.body

def ofForm (form : Form) (text : List Char) : List String :=
  (form.shape.occurrences text).flatMap symbols

def find (text : List Char) : List String := Form.all.flatMap (ofForm · text)

end Enumeration

end HeaderIndex.Header
