import HeaderIndex.Header.Exclusion
import HeaderIndex.Header.Span
import HeaderIndex.Text.Lines
import HeaderIndex.Text.Number

/-! Constants, such as `extern NSString *const Name;` and `static const T name = 1.0;`.
They are read line by line, outside at-definitions, on lines that no exclusion
rules out. -/

namespace HeaderIndex.Header.Constant

open HeaderIndex.Text

/-- What may stand between a constant's name and its semicolon: blanks, `=`, digits and points. -/
def isFiller (c : Char) : Bool := isBlank c || c == '=' || isDecimal c || c == '.'

/-- A word with nothing but filler before the next semicolon. -/
def shape : Shape (List Char) := fun prev text => do
  guard (wordBoundary prev)
  let h ← word? text
  let rest ← after ";" (h.rest.dropWhile isFiller)
  return ⟨h.value, rest⟩

/-- The constants of one line, each once. -/
def onLine (line : List Char) : List String :=
  ((shape.occurrences line).map String.ofList).eraseDups

/-- The constants of the lines that start and end outside an at-definition. -/
def onLines : Span → List (List Char) → List String
  | _, [] => []
  | state, line :: rest =>
    let next := state.step line
    if state == .outside && next == .outside && Exclusion.admits Exclusion.ofConstantLine line then
      onLine line ++ onLines next rest
    else onLines next rest

def find (text : List Char) : List String := onLines .outside (Lines.bare text)

end HeaderIndex.Header.Constant
