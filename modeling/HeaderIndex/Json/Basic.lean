import HeaderIndex.Text.Number

/-! JSON values. A number without sign, fraction and exponent is a natural number;
any other number keeps its spelling, since nothing here computes with it. An
object keeps its members as written; where a key is repeated the last one counts. -/

namespace HeaderIndex

inductive Json where
  | null
  | bool (value : Bool)
  | nat (value : Nat)
  | number (literal : String)
  | string (value : String)
  | array (items : List Json)
  | object (members : List (String × Json))
  deriving Repr

namespace Json

inductive Error where
  /-- A path in it is no text. -/
  | pathNotText
  deriving DecidableEq, Repr

def Error.message : Error → String
  | pathNotText => "path contains invalid UTF-8 characters"

/-- The value of a key, `none` when the object lacks it or this is no object. -/
def get? (key : String) : Json → Option Json
  | object members => (members.reverse.find? (·.1 == key)).map (·.2)
  | _ => none

def bool? : Json → Option Bool
  | bool b => some b
  | _ => none

def string? : Json → Option String
  | string s => some s
  | _ => none

def array? : Json → Option (List Json)
  | array items => some items
  | _ => none

/-- A natural number that fits in 64 bits. -/
def word? : Json → Option Nat
  | nat n => if n < Text.wordLimit then some n else none
  | _ => none

def list? {α : Type} (item? : Json → Option α) (j : Json) : Option (List α) := do
  (← j.array?).mapM item?

def strings? (j : Json) : Option (List String) := j.list? string?

def ofStrings (values : List String) : Json := array (values.map string)

end Json

end HeaderIndex
