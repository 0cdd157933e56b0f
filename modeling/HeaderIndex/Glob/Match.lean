import HeaderIndex.Glob.Basic
import HeaderIndex.Path

/-! Matching. A pattern is matched against the bytes of a text, so a character
beyond ASCII counts as several. Each token leaves some of the rests of the text;
the pattern matches if nothing is among the rests that all its tokens leave. In a
`strict` match a slash is only matched by itself and by the folder tokens. -/

namespace HeaderIndex.Glob

/-- The tails that a run of bytes leads to which none that `stop` holds for is part of. -/
def tailsUntil (stop : UInt8 → Bool) : List UInt8 → List (List UInt8)
  | [] => [[]]
  | b :: rest => (b :: rest) :: if stop b then [] else tailsUntil stop rest

def tailsAfterSlash : List UInt8 → List (List UInt8)
  | [] => []
  | b :: rest => if b == slash then rest :: tailsAfterSlash rest else tailsAfterSlash rest

/-- The byte ranges of a range of characters. A character beyond ASCII stands for
each of its bytes, and a range joins the last byte of its first character to the
first byte of its last one. -/
def byteRanges : Char × Char → List (UInt8 × UInt8)
  | (low, high) =>
    let single := (String.utf8EncodeChar low).map fun b => (b, b)
    if low == high then single
    else
      match (String.utf8EncodeChar low).getLast?, String.utf8EncodeChar high with
      | some a, b :: more => single.dropLast ++ (a, b) :: more.map fun b => (b, b)
      | _, _ => single

def inClass (ranges : List (Char × Char)) (b : UInt8) : Bool :=
  (ranges.flatMap byteRanges).any fun r => r.1 ≤ b && b ≤ r.2

mutual

/-- Whether a token is a group with nothing in it at all. -/
def Token.isVoid : Token → Bool
  | .choice alternatives => allVoid alternatives
  | _ => false

def isVoid : List Token → Bool
  | [] => true
  | t :: rest => t.isVoid && isVoid rest

def allVoid : List (List Token) → Bool
  | [] => true
  | alternative :: rest => isVoid alternative && allVoid rest

end

mutual

/-- What a token may leave of a text. Void alternatives of a group do not count,
unless there are no others. -/
def Token.rests (strict : Bool) : Token → List UInt8 → List (List UInt8)
  | .literal c, text => ((String.utf8EncodeChar c).isPrefixOf? text).toList
  | .any, text =>
    match text with
    | [] => []
    | b :: rest => if strict && b == slash then [] else [rest]
  | .run, text => tailsUntil (strict && · == slash) text
  | .leadingFolders, text => text :: tailsAfterSlash text
  | .innerFolders, text =>
    match text with
    | [] => []
    | b :: rest => if b == slash then rest :: tailsAfterSlash rest else []
  | .everythingBelow, text =>
    match text with
    | [] => []
    | b :: rest => if b == slash then tailsUntil (fun _ => false) rest else []
  | .oneOf negated ranges, text =>
    match text with
    | [] => []
    | b :: rest => if inClass ranges b == negated then [] else [rest]
  | .choice alternatives, text =>
    if allVoid alternatives then [text] else choiceRests strict alternatives text

/-- What a pattern may leave of any of some texts. -/
def patternRests (strict : Bool) : List Token → List (List UInt8) → List (List UInt8)
  | [], texts => texts
  | t :: rest, texts =>
    patternRests strict rest (texts.flatMap fun text => Token.rests strict t text).eraseDups

/-- What any alternative that is not void may leave of a text. -/
def choiceRests (strict : Bool) : List (List Token) → List UInt8 → List (List UInt8)
  | [], _ => []
  | alternative :: rest, text =>
    (if isVoid alternative then [] else patternRests strict alternative [text]) ++
      choiceRests strict rest text

end

/-- Whether a pattern matches the whole of a text. Folders at any depth, with nothing
behind them, match everything. -/
def matchesText (strict : Bool) (pattern : List Token) (text : Name) : Bool :=
  match pattern with
  | [.leadingFolders] => true
  | _ => (patternRests strict pattern [text]).any (·.isEmpty)

end HeaderIndex.Glob
