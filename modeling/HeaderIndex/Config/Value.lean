import HeaderIndex.Decimal.Binary64

/-! Values that settings are read from. Every source of settings is a table of such
values. Where two sources have a table in the same place the tables are merged
key by key; anything else is replaced by the later source. -/

namespace HeaderIndex.Config

inductive Value where
  | text (value : String)
  | bool (value : Bool)
  /-- An integer from a source in which integers have signs. -/
  | signed (value : Int)
  /-- A natural number from a source in which only negative numbers have signs. -/
  | unsigned (value : Nat)
  | real (value : Binary64)
  | list (items : List Value)
  | table (members : List (String × Value))
  deriving Repr

abbrev Members := List (String × Value)

namespace Members

def lookup (key : String) : Members → Option Value
  | [] => none
  | (k, v) :: rest => if k == key then some v else lookup key rest

/-- Give a key a value, in its place or behind the others. -/
def set (key : String) (value : Value) : Members → Members
  | [] => [(key, value)]
  | (k, v) :: rest => if k == key then (k, value) :: rest else (k, v) :: set key value rest

theorem lookup_set (key other : String) (value : Value) (members : Members) :
    lookup other (set key value members) =
      if key == other then some value else lookup other members := by
  induction members with
  | nil => simp [set, lookup]
  | cons head rest ih =>
    obtain ⟨k, v⟩ := head
    by_cases hk : k = key
    · subst hk
      by_cases ho : k = other <;> simp [set, lookup, ho]
    · by_cases ho : k = other
      · subst ho
        simp [set, lookup, hk, Ne.symm hk]
      · simp [set, lookup, hk, ho, ih]

end Members

mutual

/-- A value with a later one laid over it. -/
def Value.merge (old : Value) : Value → Value
  | .table new =>
    match old with
    | .table members => .table (Members.merge members new)
    | _ => .table new
  | new => new

/-- Members with later ones laid over them, one after the other. -/
def Members.merge (old : Members) : List (String × Value) → Members
  | [] => old
  | (key, new) :: rest =>
    let value := match Members.lookup key old with
      | some present => present.merge new
      | none => new
    Members.merge (Members.set key value old) rest

end

end HeaderIndex.Config
