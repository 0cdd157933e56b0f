import HeaderIndex.Text.CharClass
import HeaderIndex.Text.Shape
import HeaderIndex.Text.WordChar

/-! Steps that read the start of a text. Each gives the text that is left, or
nothing when the text does not start as asked. -/

namespace HeaderIndex.Text

/-- The text behind a literal it starts with. -/
def after (literal : String) (text : List Char) : Option (List Char) :=
  literal.toList.isPrefixOf? text

def afterFirst (mark : Char) (text : List Char) : Option (List Char) :=
  match text.dropWhile (· != mark) with
  | [] => none
  | _ :: rest => some rest

/-- The text behind the last `mark` of the run of `inRun` characters it starts with. -/
def afterLast (inRun : Char → Bool) (mark : Char) : List Char → Option (List Char)
  | [] => none
  | c :: cs =>
    if inRun c then
      match afterLast inRun mark cs with
      | some rest => some rest
      | none => if c == mark then some cs else none
    else none

def afterBlanks : List Char → Option (List Char)
  | [] => none
  | c :: cs => if isBlank c then some (trimStart cs) else none

/-- The part of a text that stands before its tail `rest`. -/
def before (rest text : List Char) : List Char := text.take (text.length - rest.length)

/-- The longest run of word characters at the start of a text, if it is not empty. -/
def word? (text : List Char) : Option (Hit (List Char)) :=
  match text.takeWhile isWordChar with
  | [] => none
  | name => some ⟨name, text.dropWhile isWordChar⟩

/-- Whether a word starts where `prev` stands before the text: no word character runs into it. -/
def wordBoundary (prev : Option Char) : Bool := !prev.any isWordChar

/-- A whole word that starts as an identifier does. -/
def name? : Shape (List Char)
  | _, [] => none
  | prev, c :: cs => if wordBoundary prev && isNameStart c then word? (c :: cs) else none

def contains (literal : List Char) : List Char → Bool
  | [] => literal.isEmpty
  | c :: cs => literal.isPrefixOf (c :: cs) || contains literal cs

end HeaderIndex.Text
