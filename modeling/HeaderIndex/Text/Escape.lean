import HeaderIndex.Text.Shape

/-! Strings in double quotes with backslash escapes. A character may be given by its
code point in four or eight hexadecimal digits. Control characters other than
the tab must be escaped. -/

namespace HeaderIndex.Text

/-- Characters that stand for themselves on a line: all but control characters, of
which only the tab is one of them. -/
def isPlain (c : Char) : Bool := c == '\t' || (0x20 ≤ c.toNat && c != '\x7f')

def isHexDigit (c : Char) : Bool :=
  c.isDigit || ('a' ≤ c && c ≤ 'f') || ('A' ≤ c && c ≤ 'F')

def hexDigit (c : Char) : Nat :=
  if c.isDigit then c.toNat - '0'.toNat
  else if 'a' ≤ c then c.toNat - 'a'.toNat + 10
  else c.toNat - 'A'.toNat + 10

/-- The character whose code point so many hexadecimal digits spell. -/
def codePoint? (count : Nat) (text : List Char) : Option (Hit Char) :=
  let digits := text.take count
  let code := digits.foldl (fun n c => 16 * n + hexDigit c) 0
  if digits.length == count && digits.all isHexDigit && code.isValidChar then
    some ⟨Char.ofNat code, text.drop count⟩
  else none

/-- The character of an escape whose backslash has been read. -/
def escaped? : List Char → Option (Hit Char)
  | '"' :: rest => some ⟨'"', rest⟩
  | '\\' :: rest => some ⟨'\\', rest⟩
  | 'b' :: rest => some ⟨'\x08', rest⟩
  | 'f' :: rest => some ⟨'\x0c', rest⟩
  | 'n' :: rest => some ⟨'\n', rest⟩
  | 'r' :: rest => some ⟨'\r', rest⟩
  | 't' :: rest => some ⟨'\t', rest⟩
  | 'u' :: rest => codePoint? 4 rest
  | 'U' :: rest => codePoint? 8 rest
  | _ => none

/-- The characters up to the closing quote, the opening one having been read. -/
def quotedChars? : Nat → List Char → Option (Hit (List Char))
  | 0, _ => none
  | _ + 1, [] => none
  | bound + 1, c :: cs =>
    if c == '"' then some ⟨[], cs⟩
    else do
      let h ← if c == '\\' then escaped? cs else if isPlain c then some ⟨c, cs⟩ else none
      let more ← quotedChars? bound h.rest
      return ⟨h.value :: more.value, more.rest⟩

/-- A string whose opening quote has been read. -/
def quoted? (text : List Char) : Option (Hit String) :=
  (quotedChars? text.length text).map fun h => ⟨String.ofList h.value, h.rest⟩

end HeaderIndex.Text
