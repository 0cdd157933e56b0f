import HeaderIndex.Text.Reading

/-! Scrubbing: what is taken out of a header before it is searched.

A block comment ends at the first `*/` behind its opener and leaves one blank, so
that removing it cannot join a slash before it to a slash behind it. A line comment
runs to the end of its line and leaves nothing; the line feed stays. Whichever opener
comes first wins. A block that is never closed is no comment.

A line whose first character behind its indent is `#` is a directive; dropping it
empties the line and keeps its line feed. -/

namespace HeaderIndex.Header

open HeaderIndex.Text

inductive Comment where
  | block (body : List Char)
  | line (body : List Char)

namespace Comment

/-- The body of a block comment whose opener has been read, and the text behind its close. -/
def closeBlock : List Char → Option (Hit (List Char))
  | [] => none
  | [_] => none
  | '*' :: '/' :: rest => some ⟨[], rest⟩
  | c :: d :: rest => (closeBlock (d :: rest)).map fun h => ⟨c :: h.value, h.rest⟩

def shape : Shape Comment
  | _, '/' :: '*' :: rest => (closeBlock rest).map fun h => ⟨.block h.value, h.rest⟩
  | _, '/' :: '/' :: rest =>
    some ⟨.line (rest.takeWhile (· != '\n')), rest.dropWhile (· != '\n')⟩
  | _, _ => none

/-- What is left where the comment stood. -/
def trace : Comment → List Char
  | block _ => [' ']
  | line _ => []

def source : Comment → List Char
  | block body => '/' :: '*' :: body ++ ['*', '/']
  | line body => '/' :: '/' :: body

end Comment

def dropComments (text : List Char) : List Char := Comment.shape.replace Comment.trace text

/-- A directive stands at the start of a line and runs to its end. -/
def directive : Shape (List Char) := fun prev text =>
  if prev.all (· == '\n') then
    match text.dropWhile isIndent with
    | '#' :: rest => some ⟨rest.takeWhile (· != '\n'), rest.dropWhile (· != '\n')⟩
    | _ => none
  else none

/-- The text with its directives emptied. -/
def dropDirectives (text : List Char) : List Char := directive.replace (fun _ => []) text

inductive Scrub where
  | nothing
  | comments
  | directives
  | commentsAndDirectives
  deriving DecidableEq, Repr

/-- Comments go first, so a directive inside a comment is never seen. -/
def Scrub.apply : Scrub → List Char → List Char
  | nothing, text => text
  | comments, text => dropComments text
  | directives, text => dropDirectives text
  | commentsAndDirectives, text => dropDirectives (dropComments text)

end HeaderIndex.Header
