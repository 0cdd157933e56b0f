/-! Decimals and the binary numbers of 64 bits nearest to them. All arithmetic is
exact: a decimal is a fraction of natural numbers, and only the last step rounds,
to the nearest mantissa and from halfway to the even one. -/

namespace HeaderIndex

/-- The number `coefficient · 10 ^ exponent`. -/
structure Decimal where
  coefficient : Nat
  exponent : Int
  deriving DecidableEq, Repr

/-- A binary number of 64 bits. The finite ones are `± mantissa · 2 ^ exponent`. -/
inductive Binary64 where
  | nan
  | infinite (negative : Bool)
  | finite (negative : Bool) (mantissa : Nat) (exponent : Int)
  deriving DecidableEq, Repr

namespace Decimal

def digitCount (n : Nat) : Nat := (Nat.toDigits 10 n).length

def fraction (d : Decimal) : Nat × Nat :=
  (d.coefficient * Nat.pow 10 d.exponent.toNat, Nat.pow 10 (-d.exponent).toNat)

end Decimal

namespace Binary64

def minExponent : Int := -1074

def maxExponent : Int := 971

def mantissaLimit : Nat := Nat.pow 2 53

/-- The quotient rounded to the nearest number, from halfway to the even one. -/
def roundDiv (num den : Nat) : Nat :=
  let q := num / den
  let r := 2 * (num % den)
  if r < den || (r == den && q % 2 == 0) then q else q + 1

/-- The greatest power of two that is at most a positive fraction. -/
def floorLog (num den : Nat) : Int :=
  let guess : Int := (Nat.log2 num : Int) - (Nat.log2 den : Int)
  if num * Nat.pow 2 (-guess).toNat < den * Nat.pow 2 guess.toNat then guess - 1 else guess

/-- The number nearest to a fraction. A mantissa that rounds up to its limit is
halved again. -/
def ofFraction (negative : Bool) (num den : Nat) : Binary64 :=
  let exponent := max (floorLog num den - 52) minExponent
  let mantissa :=
    roundDiv (num * Nat.pow 2 (-exponent).toNat) (den * Nat.pow 2 exponent.toNat)
  let (mantissa, exponent) :=
    if mantissa == mantissaLimit then (mantissa / 2, exponent + 1) else (mantissa, exponent)
  if exponent > maxExponent then infinite negative else finite negative mantissa exponent

/-- Every finite number is below ten to this power. -/
def decimalMax : Int := 309

/-- Below ten to this power every number rounds to zero. -/
def decimalMin : Int := -324

/-- The number nearest to a decimal. Exponents far out of range are told by the
count of digits, before any power is computed. -/
def ofDecimal (negative : Bool) (d : Decimal) : Binary64 :=
  let places : Int := Decimal.digitCount d.coefficient + d.exponent
  if d.coefficient == 0 || places ≤ decimalMin then finite negative 0 minExponent
  else if places > decimalMax then infinite negative
  else ofFraction negative d.fraction.1 d.fraction.2

end Binary64

end HeaderIndex
