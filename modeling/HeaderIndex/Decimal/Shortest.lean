import HeaderIndex.Decimal.Binary64

/-! The shortest decimal that reads back as a given binary number, and its text. For
one digit, then two and so on, the two neighbours of the number on that decimal
grid are read back; the first grid with a hit wins, and of two hits the nearer one,
the upper one from halfway. The text has no exponent and no needless zeros. -/

namespace HeaderIndex

namespace Decimal

/-- The decimal without zeros at the end of its coefficient. -/
def normalize (d : Decimal) : Decimal :=
  if d.coefficient = 0 ∨ d.coefficient % 10 ≠ 0 then d
  else normalize ⟨d.coefficient / 10, d.exponent + 1⟩
termination_by d.coefficient
decreasing_by omega

/-- Digits with a point where the exponent puts it. -/
def positional (d : Decimal) : List Char :=
  let digits := Nat.toDigits 10 d.coefficient
  let places := (-d.exponent).toNat
  if d.exponent ≥ 0 then digits ++ List.replicate d.exponent.toNat '0'
  else if places < digits.length then
    digits.take (digits.length - places) ++ '.' :: digits.drop (digits.length - places)
  else '0' :: '.' :: List.replicate (places - digits.length) '0' ++ digits

end Decimal

namespace Binary64

/-- The least power of ten above a positive fraction. -/
def decimalScale (num den : Nat) : Int :=
  if den ≤ num then (Decimal.digitCount (num / den) : Int)
  else
    let zeros := Decimal.digitCount (den / num) - 1
    if den ≤ num * Nat.pow 10 zeros then 1 - (zeros : Int) else -(zeros : Int)

/-- The decimal of so many digits that reads back as the number, if there is one. -/
def atDigits? (mantissa : Nat) (exponent : Int) (digits : Nat) : Option Decimal :=
  let num := mantissa * Nat.pow 2 exponent.toNat
  let den := Nat.pow 2 (-exponent).toNat
  let grid := decimalScale num den - digits
  let num := num * Nat.pow 10 (-grid).toNat
  let den := den * Nat.pow 10 grid.toNat
  let below : Decimal := ⟨num / den, grid⟩
  let above : Decimal := ⟨num / den + 1, grid⟩
  let hits (d : Decimal) : Bool := ofDecimal false d == finite false mantissa exponent
  let nearer := if 2 * (num % den) < den then [below, above] else [above, below]
  nearer.find? hits

/-- Seventeen digits tell any two numbers apart. -/
def maxDigits : Nat := 17

/-- The shortest decimal that reads back as a positive finite number. -/
def shortest (mantissa : Nat) (exponent : Int) : Decimal :=
  let candidates := (List.range maxDigits).map (· + 1)
  let found := candidates.findSome? (atDigits? mantissa exponent)
  let exact : Decimal :=
    ⟨mantissa * Nat.pow 2 exponent.toNat * Nat.pow 5 (-exponent).toNat, min exponent 0⟩
  (found.getD exact).normalize

def magnitude (mantissa : Nat) (exponent : Int) : List Char :=
  if mantissa == 0 then ['0'] else (shortest mantissa exponent).positional

def signed (negative : Bool) (text : List Char) : String :=
  String.ofList (if negative then '-' :: text else text)

/-- The text of a number. Zero keeps its sign; what is no number has none. -/
def text : Binary64 → String
  | nan => "NaN"
  | infinite negative => signed negative "inf".toList
  | finite negative mantissa exponent => signed negative (magnitude mantissa exponent)

end Binary64

end HeaderIndex
