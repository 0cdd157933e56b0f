/-! UTF-8. Bytes are read one character at a time. Where that fails the error says at
which byte the character starts, and how many bytes of it are certainly wrong; if the
bytes simply end too early it says so instead. -/

namespace HeaderIndex.Text.Utf8

structure Error where
  /-- Where the character that cannot be read starts. -/
  index : Nat
  /-- How many bytes are wrong; `none` when the last character is incomplete. -/
  length : Option Nat
  deriving DecidableEq, Repr

def Error.message (e : Error) : String :=
  match e.length with
  | some n => "invalid utf-8 sequence of " ++ toString n ++ " bytes from index " ++ toString e.index
  | none => "incomplete utf-8 byte sequence from index " ++ toString e.index

def isContinuation (b : UInt8) : Bool := 0x80 ≤ b && b ≤ 0xbf

/-- How many bytes a character takes, by its first byte; 0 if no character starts so. -/
def width (b : UInt8) : Nat :=
  if b < 0x80 then 1
  else if 0xc2 ≤ b && b ≤ 0xdf then 2
  else if 0xe0 ≤ b && b ≤ 0xef then 3
  else if 0xf0 ≤ b && b ≤ 0xf4 then 4
  else 0

/-- Whether a second byte may follow the first one. The bounds leave out forms
that are too long, surrogates and code points beyond the last one. -/
def isSecond (first second : UInt8) : Bool :=
  if first == 0xe0 then 0xa0 ≤ second && second ≤ 0xbf
  else if first == 0xed then 0x80 ≤ second && second ≤ 0x9f
  else if first == 0xf0 then 0x90 ≤ second && second ≤ 0xbf
  else if first == 0xf4 then 0x80 ≤ second && second ≤ 0x8f
  else isContinuation second

/-- The six bits that a continuation byte adds. -/
def addBits (n : Nat) (b : UInt8) : Nat := n * 64 + (b.toNat - 0x80)

/-- The characters of bytes whose first one has the given index. -/
def decodeFrom (index : Nat) : List UInt8 → Except Error (List Char)
  | [] => .ok []
  | a :: rest =>
    let wrong (n : Nat) : Except Error (List Char) := .error ⟨index, some n⟩
    let short : Except Error (List Char) := .error ⟨index, none⟩
    match width a with
    | 1 => (decodeFrom (index + 1) rest).map (Char.ofNat a.toNat :: ·)
    | 2 =>
      match rest with
      | [] => short
      | b :: rest =>
        if !isSecond a b then wrong 1
        else (decodeFrom (index + 2) rest).map (Char.ofNat (addBits (a.toNat - 0xc0) b) :: ·)
    | 3 =>
      match rest with
      | [] => short
      | [b] => if !isSecond a b then wrong 1 else short
      | b :: c :: rest =>
        if !isSecond a b then wrong 1
        else if !isContinuation c then wrong 2
        else (decodeFrom (index + 3) rest).map
          (Char.ofNat (addBits (addBits (a.toNat - 0xe0) b) c) :: ·)
    | 4 =>
      match rest with
      | [] => short
      | [b] => if !isSecond a b then wrong 1 else short
      | [b, c] =>
        if !isSecond a b then wrong 1 else if !isContinuation c then wrong 2 else short
      | b :: c :: d :: rest =>
        if !isSecond a b then wrong 1
        else if !isContinuation c then wrong 2
        else if !isContinuation d then wrong 3
        else (decodeFrom (index + 4) rest).map
          (Char.ofNat (addBits (addBits (addBits (a.toNat - 0xf0) b) c) d) :: ·)
    | _ => wrong 1

def decode (bytes : List UInt8) : Except Error (List Char) := decodeFrom 0 bytes

def encode (text : List Char) : List UInt8 := text.flatMap String.utf8EncodeChar

def bytes (text : String) : List UInt8 := encode text.toList

def text? (bytes : List UInt8) : Option String := (decode bytes).toOption.map String.ofList

/-- The text that bytes spell, or nothing. -/
def readable (bytes : List UInt8) : List Char := ((decode bytes).toOption).getD []

def Error.behind (e : Error) (bytes : List UInt8) : List UInt8 :=
  match e.length with
  | some length => bytes.drop (e.index + length)
  | none => []

/-- The text of bytes in which a replacement stands for each fault, of which there are
fewer than `bound`. -/
def replaceFaults : Nat → List UInt8 → List Char
  | 0, _ => []
  | bound + 1, bytes =>
    match decode bytes with
    | .ok text => text
    | .error e =>
      readable (bytes.take e.index) ++ '\ufffd' :: replaceFaults bound (e.behind bytes)

/-- How bytes are shown that need not spell a text. -/
def lossy (bytes : List UInt8) : List Char := replaceFaults (bytes.length + 1) bytes

/-- A text without the byte order mark that may stand at its very start. -/
def skipMark : List Char → List Char
  | '\ufeff' :: rest => rest
  | text => text

/-- The bytes up to the last line feed, that one included. -/
def wholeLines (bytes : List UInt8) : List UInt8 :=
  (bytes.reverse.dropWhile (· != 0x0a)).reverse

/-- The text of the lines before the first one that cannot be read. -/
def readableLines (bytes : List UInt8) : List Char :=
  match decode bytes with
  | .ok text => text
  | .error e => readable (wholeLines (bytes.take e.index))

end HeaderIndex.Text.Utf8
