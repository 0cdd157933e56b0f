import HeaderIndex.Text.CharClass
import HeaderIndex.Text.Escape

/-! Blanks, comments and line ends of a TOML document. A line ends with a line feed or
with a carriage return and a line feed; a comment runs to the end of its line. -/

namespace HeaderIndex.Toml

open HeaderIndex.Text

def skipBlanks (text : List Char) : List Char := text.dropWhile isIndent

def afterLineEnd : List Char → Option (List Char)
  | '\n' :: rest => some rest
  | '\r' :: '\n' :: rest => some rest
  | _ => none

def skipBlankLines : List Char → List Char
  | [] => []
  | c :: cs =>
    if isIndent c || c == '\n' || (c == '\r' && cs.head? == some '\n') then skipBlankLines cs
    else c :: cs

/-- The text behind blanks, comments and line ends. -/
def skipLayout ( inComment : Bool) : List Char → List Char
  | [] => []
  | c :: cs =>
    if c == '\n' then skipLayout false cs
    else if c == '\r' && cs.head? == some '\n' then skipLayout inComment cs
    else if inComment then if isPlain c then skipLayout true cs else c :: cs
    else if isIndent c then skipLayout false cs
    else if c == '#' then skipLayout true cs
    else c :: cs

/-- The text behind the rest of a line that holds nothing more than a comment. -/
def finishLine (text : List Char) : Option (List Char) :=
  let text := skipBlanks text
  let text := if text.head? == some '#' then text.dropWhile isPlain else text
  if text.isEmpty then some [] else afterLineEnd text

end HeaderIndex.Toml
