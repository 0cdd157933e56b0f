import HeaderIndex.Config.Value
import HeaderIndex.Text.Escape
import HeaderIndex.Text.Number
import HeaderIndex.Text.Reading

/-! Values written in one line of text, as in the environment. A text that spells
nothing else is a string as it stands. The readers that call each other count
down a bound; three calls in a row consume a character. -/

namespace HeaderIndex.Config.Literal

open HeaderIndex.Text

def isGap (c : Char) : Bool := c == ' ' || c == '\t' || c == '\n' || c == '\x0c' || c == '\r'

def skipGap (text : List Char) : List Char := text.dropWhile isGap

/-- Characters that end a bare word. -/
def isSeparator (c : Char) : Bool :=
  c == ',' || c == '[' || c == ']' || c == '\x7b' || c == '\x7d'

def exponent? : List Char → Option Int
  | [] => some 0
  | c :: cs =>
    if c == 'e' || c == 'E' then
      match cs with
      | '-' :: rest => (- Int.ofNat ·) <$> digits? rest
      | '+' :: rest => Int.ofNat <$> digits? rest
      | _ => Int.ofNat <$> digits? cs
    else none

/-- A binary number written with a point, before or behind which digits may be missing. -/
def real? (text : List Char) : Option Binary64 := do
  let (negative, text) := match text with
    | '-' :: rest => (true, rest)
    | '+' :: rest => (false, rest)
    | _ => (false, text)
  let whole := text.takeWhile Char.isDigit
  match text.dropWhile Char.isDigit with
  | '.' :: rest =>
    let fraction := rest.takeWhile Char.isDigit
    let digits ← digits? (whole ++ fraction)
    let power ← exponent? (rest.dropWhile Char.isDigit)
    return Binary64.ofDecimal negative ⟨digits, power - fraction.length⟩
  | _ => none

/-- What a bare word means: a number if it spells one, else itself. -/
def bare (word : List Char) : Value :=
  match real? word, natural? word, integer? word with
  | some x, _, _ => .real x
  | none, some n, _ => .unsigned n
  | none, none, some n => .signed n
  | none, none, none => .text (String.ofList word)

/-- The first characters of a text that fit in so many bytes. -/
def fitting : Nat → List Char → List Char
  | _, [] => []
  | room, c :: cs => if c.utf8Size ≤ room then c :: fitting (room - c.utf8Size) cs else []

/-- A string whose opening quote has been read. If it has escapes, the characters before
the first of them have one byte of room each; those that do not fit are dropped. -/
def string? (text : List Char) : Option (Hit String) := do
  let h ← quoted? text
  let start := text.takeWhile fun c => c != '"' && c != '\\'
  match text.drop start.length with
  | '\\' :: _ =>
    let rest := h.value.toList.drop start.length
    return ⟨String.ofList (fitting start.length start ++ rest), h.rest⟩
  | _ => return h

def isKeyChar (c : Char) : Bool := c.isAlphanum || c == '_' || c == '-'

/-- A key of a table, quoted or bare. -/
def key? : List Char → Option (Hit String)
  | '"' :: rest => string? rest
  | text =>
    match text.takeWhile isKeyChar with
    | [] => none
    | name => some ⟨String.ofList name, text.dropWhile isKeyChar⟩

/-- A value that holds no others. One character in single quotes is a string. -/
def scalar? (text : List Char) : Option (Hit Value) :=
  match after "true" text, after "false" text with
  | some rest, _ => some ⟨.bool true, rest⟩
  | none, some rest => some ⟨.bool false, rest⟩
  | none, none =>
    match text with
    | '"' :: rest => (string? rest).map fun h => ⟨.text h.value, h.rest⟩
    | '\'' :: c :: '\'' :: rest => some ⟨.text (String.singleton c), rest⟩
    | '\'' :: _ => none
    | _ =>
      let isWordChar (c : Char) : Bool := !isSeparator c
      some ⟨bare (trim (text.takeWhile isWordChar)), text.dropWhile isWordChar⟩

mutual

/-- The value at the start of a text, with the blanks around it. -/
def value? : Nat → List Char → Option (Hit Value)
  | 0, _ => none
  | bound + 1, text => do
    let h : Hit Value ← match skipGap text with
      | '[' :: rest => (items? bound rest).map fun h => ⟨.list h.value, h.rest⟩
      | '\x7b' :: rest =>
        (pairs? bound rest).map fun h =>
          ⟨.table (h.value.foldl (fun members (k, v) => Members.set k v members) []), h.rest⟩
      | text => scalar? text
    return ⟨h.value, skipGap h.rest⟩

/-- Items up to the closing bracket, which may follow a comma at once. -/
def items? : Nat → List Char → Option (Hit (List Value))
  | 0, _ => none
  | bound + 1, text =>
    match text with
    | ']' :: rest => some ⟨[], rest⟩
    | _ => do
      let item ← value? bound text
      match item.rest with
      | ',' :: rest => (items? bound rest).map fun h => ⟨item.value :: h.value, h.rest⟩
      | ']' :: rest => some ⟨[item.value], rest⟩
      | _ => none

/-- Pairs up to the closing brace, which may follow a comma at once. -/
def pairs? : Nat → List Char → Option (Hit (List (String × Value)))
  | 0, _ => none
  | bound + 1, text =>
    match text with
    | '\x7d' :: rest => some ⟨[], rest⟩
    | _ => do
      let key ← key? (skipGap text)
      match skipGap key.rest with
      | '=' :: rest =>
        let value ← value? bound rest
        match value.rest with
        | ',' :: rest =>
          (pairs? bound rest).map fun h => ⟨(key.value, value.value) :: h.value, h.rest⟩
        | '\x7d' :: rest => some ⟨[(key.value, value.value)], rest⟩
        | _ => none
      | _ => none

end

/-- The value that a text spells. A text that spells none is a string as it stands, with
its blanks. -/
def read (text : String) : Value :=
  let cs := text.toList
  match value? (3 * cs.length + 3) cs with
  | some ⟨value, []⟩ => value
  | _ => .text text

end HeaderIndex.Config.Literal
