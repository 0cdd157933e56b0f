import HeaderIndex.Json.Basic
import HeaderIndex.Text.Shape

/-! Reading JSON text. Every reader gives the value at the start of a text and the
text behind it. The readers that call each other count down a bound; since two
calls in a row consume a character, twice the length of the text is enough. -/

namespace HeaderIndex.Json

open HeaderIndex.Text

def isSpace (c : Char) : Bool := c == ' ' || c == '\t' || c == '\n' || c == '\r'

def skipSpace (text : List Char) : List Char := text.dropWhile isSpace

def hexValue? (c : Char) : Option Nat :=
  if c.isDigit then some (c.toNat - '0'.toNat)
  else if 'a' ≤ c ∧ c ≤ 'f' then some (c.toNat - 'a'.toNat + 10)
  else if 'A' ≤ c ∧ c ≤ 'F' then some (c.toNat - 'A'.toNat + 10)
  else none

def readHex : List Char → Option (Hit Nat)
  | a :: b :: c :: d :: rest => do
    let a ← hexValue? a
    let b ← hexValue? b
    let c ← hexValue? c
    let d ← hexValue? d
    return ⟨((a * 16 + b) * 16 + c) * 16 + d, rest⟩
  | _ => none

def isHighSurrogate (n : Nat) : Bool := 0xd800 ≤ n && n ≤ 0xdbff

def isLowSurrogate (n : Nat) : Bool := 0xdc00 ≤ n && n ≤ 0xdfff

/-- The character of a `\u` escape, whose backslash and `u` have been read. A code
point beyond 16 bits is spelled by two surrogates; a lone surrogate is refused. -/
def readUnicode (text : List Char) : Option (Hit Char) := do
  let h ← readHex text
  if isHighSurrogate h.value then
    match h.rest with
    | '\\' :: 'u' :: rest =>
      let low ← readHex rest
      guard (isLowSurrogate low.value)
      return ⟨Char.ofNat (0x10000 + (h.value - 0xd800) * 0x400 + (low.value - 0xdc00)),
        low.rest⟩
    | _ => none
  else if isLowSurrogate h.value then none
  else return ⟨Char.ofNat h.value, h.rest⟩

/-- The character of an escape whose backslash has been read. -/
def readEscape : List Char → Option (Hit Char)
  | '"' :: rest => some ⟨'"', rest⟩
  | '\\' :: rest => some ⟨'\\', rest⟩
  | '/' :: rest => some ⟨'/', rest⟩
  | 'b' :: rest => some ⟨'\x08', rest⟩
  | 'f' :: rest => some ⟨'\x0c', rest⟩
  | 'n' :: rest => some ⟨'\n', rest⟩
  | 'r' :: rest => some ⟨'\r', rest⟩
  | 't' :: rest => some ⟨'\t', rest⟩
  | 'u' :: rest => readUnicode rest
  | _ => none

/-- The characters of a string whose opening quote has been read. -/
def readChars : Nat → List Char → Option (Hit (List Char))
  | 0, _ => none
  | _ + 1, [] => none
  | bound + 1, c :: cs =>
    if c == '"' then some ⟨[], cs⟩
    else if c == '\\' then do
      let e ← readEscape cs
      let h ← readChars bound e.rest
      return ⟨e.value :: h.value, h.rest⟩
    else if c.toNat < 0x20 then none
    else do
      let h ← readChars bound cs
      return ⟨c :: h.value, h.rest⟩

def readString (text : List Char) : Option (Hit String) :=
  (readChars text.length text).map fun h => ⟨String.ofList h.value, h.rest⟩

def readDigits (text : List Char) : Option (Hit (List Char)) :=
  match text.takeWhile Char.isDigit with
  | [] => none
  | digits => some ⟨digits, text.dropWhile Char.isDigit⟩

/-- Digits of which the first is no zero, unless it is the only one. -/
def readWhole (text : List Char) : Option (Hit (List Char)) := do
  let h ← readDigits text
  if h.value.head? == some '0' && h.value.length != 1 then none else some h

def readFraction : List Char → Option (Hit (List Char))
  | '.' :: rest => (readDigits rest).map fun h => ⟨'.' :: h.value, h.rest⟩
  | text => some ⟨[], text⟩

def readExponent : List Char → Option (Hit (List Char))
  | [] => some ⟨[], []⟩
  | c :: cs =>
    if c == 'e' || c == 'E' then
      match cs with
      | [] => none
      | s :: rest =>
        if s == '+' || s == '-' then
          (readDigits rest).map fun h => ⟨c :: s :: h.value, h.rest⟩
        else (readDigits cs).map fun h => ⟨c :: h.value, h.rest⟩
    else some ⟨[], c :: cs⟩

def readNumber (text : List Char) : Option (Hit Json) := do
  let (sign, text) := match text with
    | '-' :: rest => (['-'], rest)
    | _ => ([], text)
  let whole ← readWhole text
  let fraction ← readFraction whole.rest
  let exponent ← readExponent fraction.rest
  let value := if sign ++ fraction.value ++ exponent.value == [] then
      nat (Nat.ofDigitChars 10 whole.value 0)
    else number (String.ofList (sign ++ whole.value ++ fraction.value ++ exponent.value))
  return ⟨value, exponent.rest⟩

/-- A value spelled by a fixed word. -/
def readLiteral (literal : String) (value : Json) (text : List Char) : Option (Hit Json) :=
  (literal.toList.isPrefixOf? text).map fun rest => ⟨value, rest⟩

mutual

/-- The value at the start of a text, blanks before it aside. -/
def readValue : Nat → List Char → Option (Hit Json)
  | 0, _ => none
  | bound + 1, text =>
    match skipSpace text with
    | [] => none
    | c :: cs =>
      if c == '"' then (readString cs).map fun h => ⟨string h.value, h.rest⟩
      else if c == '[' then
        match skipSpace cs with
        | ']' :: rest => some ⟨array [], rest⟩
        | _ => (readItems bound cs).map fun h => ⟨array h.value, h.rest⟩
      else if c == '\x7b' then
        match skipSpace cs with
        | '\x7d' :: rest => some ⟨object [], rest⟩
        | _ => (readMembers bound cs).map fun h => ⟨object h.value, h.rest⟩
      else if c == 'n' then readLiteral "null" null (c :: cs)
      else if c == 't' then readLiteral "true" (bool true) (c :: cs)
      else if c == 'f' then readLiteral "false" (bool false) (c :: cs)
      else readNumber (c :: cs)

/-- One or more items, up to the bracket that closes them. -/
def readItems : Nat → List Char → Option (Hit (List Json))
  | 0, _ => none
  | bound + 1, text => do
    let item ← readValue bound text
    match skipSpace item.rest with
    | ',' :: rest => (readItems bound rest).map fun h => ⟨item.value :: h.value, h.rest⟩
    | ']' :: rest => some ⟨[item.value], rest⟩
    | _ => none

/-- One or more members, up to the brace that closes them. -/
def readMembers : Nat → List Char → Option (Hit (List (String × Json)))
  | 0, _ => none
  | bound + 1, text =>
    match skipSpace text with
    | '"' :: rest => do
      let key ← readString rest
      match skipSpace key.rest with
      | ':' :: rest => do
        let value ← readValue bound rest
        match skipSpace value.rest with
        | ',' :: rest =>
          (readMembers bound rest).map fun h => ⟨(key.value, value.value) :: h.value, h.rest⟩
        | '\x7d' :: rest => some ⟨[(key.value, value.value)], rest⟩
        | _ => none
      | _ => none
    | _ => none

end

def parse? (text : String) : Option Json := do
  let cs := text.toList
  let h ← readValue (2 * cs.length + 2) cs
  guard (skipSpace h.rest).isEmpty
  return h.value

end HeaderIndex.Json
