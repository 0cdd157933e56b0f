import HeaderIndex.Text.Reading

/-! Exclusions: named rules that keep a candidate from being reported. A search
consults a table of rules in order, and the first that fires is the reason. -/

namespace HeaderIndex.Header

open HeaderIndex.Text

inductive Rule where
  /-- The text contains the literal anywhere. -/
  | contains (literal : String)
  /-- The text contains the literal with no ASCII word character on either side. -/
  | word (literal : String)
  /-- The text starts, behind blanks, with `-` or `+` and then an opening parenthesis. -/
  | methodMarker
  deriving DecidableEq, Repr

/-- Whether no ASCII word character stands at this side of an occurrence. -/
def isFree (side : Option Char) : Bool := !side.any isAsciiWordChar

/-- Whether some occurrence of `w`, of those taken from left to right without
overlap, is free on both sides. The first `skip` characters are passed over. -/
def hasWholeWord (w : List Char) : Nat → Option Char → List Char → Bool
  | 0, prev, [] => w.isEmpty && isFree prev
  | _ + 1, _, [] => false
  | skip + 1, _, c :: cs => hasWholeWord w skip (some c) cs
  | 0, prev, c :: cs =>
    match w.isPrefixOf? (c :: cs) with
    | some rest =>
      (isFree prev && isFree rest.head?) || hasWholeWord w (w.length - 1) (some c) cs
    | none => hasWholeWord w 0 (some c) cs

def isMethodMarker (text : List Char) : Bool :=
  match trimStart text with
  | c :: rest => (c == '-' || c == '+') && (trimStart rest).head? == some '('
  | [] => false

def Rule.fires (rule : Rule) (text : List Char) : Bool :=
  match rule with
  | .contains literal => Text.contains literal.toList text
  | .word literal => hasWholeWord literal.toList 0 none text
  | .methodMarker => isMethodMarker text

structure Exclusion where
  name : String
  rule : Rule
  deriving DecidableEq, Repr

namespace Exclusion

def fires (e : Exclusion) (text : List Char) : Bool := e.rule.fires text

def first? (table : List Exclusion) (text : List Char) : Option Exclusion :=
  table.find? (·.fires text)

def admits (table : List Exclusion) (text : List Char) : Bool := (first? table text).isNone

/-- What keeps a line from declaring a constant. -/
def ofConstantLine : List Exclusion :=
  [⟨"preprocessor", .contains "#"⟩,
   ⟨"typedef", .contains "typedef"⟩,
   ⟨"annotation", .contains "@"⟩,
   ⟨"closing-brace", .contains "\x7d"⟩,
   ⟨"property", .contains "property"⟩,
   ⟨"class-method", .contains "+"⟩,
   ⟨"instance-method", .contains "-"⟩,
   ⟨"call-or-prototype", .contains "("⟩,
   ⟨"bitfield", .contains ":"⟩]

/-- What keeps a name before a parenthesis from being a function. -/
def ofFunction : List Exclusion :=
  [⟨"annotation", .contains "@"⟩,
   ⟨"preprocessor", .contains "#"⟩,
   ⟨"typedef", .word "typedef"⟩,
   ⟨"while", .word "while"⟩,
   ⟨"if", .word "if"⟩,
   ⟨"switch", .word "switch"⟩,
   ⟨"method-declaration", .methodMarker⟩]

end Exclusion

end HeaderIndex.Header
