import HeaderIndex.Json.Basic

/-! Reading records from JSON. A record is an object, whose unknown members do not
matter, or an array of its fields in order. A field may be required or have a
default; in an array, only fields with defaults may be missing, at the end. A
tag that stands alone is a string, or an object whose one key has the value null. -/

namespace HeaderIndex.Json

/-- The fields of a record by position, each present or not. -/
def fields? (names : List String) : Json → Option (List (Option Json))
  | object members => some (names.map fun n => (object members).get? n)
  | array items =>
    if items.length ≤ names.length then
      some (items.map some ++ List.replicate (names.length - items.length) none)
    else none
  | _ => none

def required {α : Type} (read : Json → Option α) : Option Json → Option α
  | some j => read j
  | none => none

/-- A field that has a value of its own when it is missing. -/
def optional {α : Type} (default : α) (read : Json → Option α) : Option Json → Option α
  | some j => read j
  | none => some default

def tag? : Json → Option String
  | string s => some s
  | object members =>
    match members.getLast? with
    | some (key, null) => if members.all (·.1 == key) then some key else none
    | _ => none
  | _ => none

end HeaderIndex.Json
