import HeaderIndex.Text.Reading

/-! Declarations behind a marked keyword: macro definitions `#define NAME`, class
interfaces `@interface Name : Super` and protocol definitions `@protocol Name <Other>`.
A category and a class extension have no colon behind the name and declare no class; a
forward declaration, whose names reach a comma or a semicolon, defines no protocol. -/

namespace HeaderIndex.Header

open HeaderIndex.Text

namespace Define

/-- `#`, an indent, `define`, blanks and the name. -/
def shape : Shape (List Char) := fun _ text => do
  let rest ← after "#" text
  let rest ← after "define" (rest.dropWhile isIndent)
  let rest ← afterBlanks rest
  word? rest

def find (text : List Char) : List String :=
  ((shape.occurrences text).map String.ofList).eraseDups

end Define

namespace Interface

def shape : Shape (List Char) := fun _ text => do
  let rest ← after "@interface" text
  let h ← word? (trimStart rest)
  let rest ← after ":" (trimStart h.rest)
  return ⟨h.value, rest⟩

def find (text : List Char) : List String :=
  ((shape.occurrences text).map String.ofList).eraseDups

end Interface

namespace Protocol

/-- Whether the text behind a protocol's name goes on with its definition. -/
def continues (text : List Char) : Bool :=
  match trimStart text with
  | [] => true
  | c :: _ =>
    if c == '<' || c == ':' then true
    else if c == ';' || c == ',' || c == '(' then false
    else text.head?.any isBlank

/-- A protocol's name, and whether its definition follows. -/
def shape : Shape (List Char × Bool) := fun _ text => do
  let rest ← after "@protocol" text
  let h ← word? (trimStart rest)
  return ⟨(h.value, continues h.rest), h.rest⟩

def find (text : List Char) : List String :=
  (((shape.occurrences text).filter (·.2)).map fun p => String.ofList p.1).eraseDups

end Protocol

end HeaderIndex.Header
