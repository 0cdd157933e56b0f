import HeaderIndex.Config.Value
import HeaderIndex.Text.Escape
import HeaderIndex.Text.Number
import HeaderIndex.Text.Reading

/-! Numbers of a TOML document. An underscore may stand between two digits. Integers
have 64 bits with a sign; those without a sign may be hexadecimal, octal or
binary. A number with a fraction or an exponent is binary of 64 bits. -/

namespace HeaderIndex.Toml

open HeaderIndex.Text HeaderIndex.Config

/-- One or more digits, without the underscores between them. -/
def grouped? (isDigit : Char → Bool) : List Char → Option (Hit (List Char))
  | [] => none
  | [c] => if isDigit c then some ⟨[c], []⟩ else none
  | c :: d :: rest =>
    if !isDigit c then none
    else if d == '_' then (grouped? isDigit rest).map fun h => ⟨c :: h.value, h.rest⟩
    else if isDigit d then (grouped? isDigit (d :: rest)).map fun h => ⟨c :: h.value, h.rest⟩
    else some ⟨[c], d :: rest⟩

/-- The sign of a number, if it has one: whether it is negative, and the text behind it. -/
def sign : List Char → Bool × List Char
  | '-' :: rest => (true, rest)
  | '+' :: rest => (false, rest)
  | text => (false, text)

/-- The digits of a whole number, of which the first is no zero unless it stands alone. -/
def whole? : List Char → Option (Hit (List Char))
  | '0' :: rest => some ⟨['0'], rest⟩
  | text => grouped? Char.isDigit text

def integerValue? (n : Int) : Option Value :=
  if -integerLimit ≤ n ∧ n < integerLimit then some (.signed n) else none

def digitsValue (base : Nat) (digits : List Char) : Nat :=
  digits.foldl (fun n c => base * n + hexDigit c) 0

/-- An integer in another base, the mark of the base having been read. -/
def based? (base : Nat) (isDigit : Char → Bool) (text : List Char) : Option (Hit Value) := do
  let h ← grouped? isDigit text
  let value ← integerValue? (digitsValue base h.value)
  return ⟨value, h.rest⟩

def exponent? : List Char → Option (Hit Int)
  | [] => none
  | c :: cs =>
    if c == 'e' || c == 'E' then do
      let (negative, text) := sign cs
      let h ← grouped? Char.isDigit text
      let n : Int := digitsValue 10 h.value
      return ⟨if negative then -n else n, h.rest⟩
    else none

/-- A binary number, unless it exceeds all finite ones. -/
def realValue? (negative : Bool) (d : Decimal) : Option Value :=
  match Binary64.ofDecimal negative d with
  | .infinite false => none
  | number => some (.real number)

def decimalNumber? (text : List Char) : Option (Hit Value) := do
  let (negative, text) := sign text
  let whole ← whole? text
  match whole.rest with
  | '.' :: rest =>
    let fraction ← grouped? Char.isDigit rest
    let power := (exponent? fraction.rest).getD ⟨0, fraction.rest⟩
    let digits := whole.value ++ fraction.value
    let value ← realValue? negative
      ⟨digitsValue 10 digits, power.value - fraction.value.length⟩
    return ⟨value, power.rest⟩
  | rest =>
    match exponent? rest with
    | some power =>
      let value ← realValue? negative ⟨digitsValue 10 whole.value, power.value⟩
      return ⟨value, power.rest⟩
    | none =>
      let n : Int := digitsValue 10 whole.value
      let value ← integerValue? (if negative then -n else n)
      return ⟨value, rest⟩

def namedNumber? (text : List Char) : Option (Hit Value) :=
  let (negative, text) := sign text
  match after "inf" text, after "nan" text with
  | some rest, _ => some ⟨.real (.infinite negative), rest⟩
  | none, some rest => some ⟨.real .nan, rest⟩
  | none, none => none

def isOctalDigit (c : Char) : Bool := '0' ≤ c && c ≤ '7'

def isBinaryDigit (c : Char) : Bool := c == '0' || c == '1'

def number? (text : List Char) : Option (Hit Value) :=
  match text with
  | '0' :: 'x' :: rest => based? 16 isHexDigit rest
  | '0' :: 'o' :: rest => based? 8 isOctalDigit rest
  | '0' :: 'b' :: rest => based? 2 isBinaryDigit rest
  | _ => (namedNumber? text).or (decimalNumber? text)

end HeaderIndex.Toml
