import HeaderIndex.Config.Error

/-! Settings out of values. A section is a table, whose unknown keys do not matter, or a
list of its fields in order. A field that is missing has its standard value. Of
several faults the first by key is reported, in a list the first by position. -/

namespace HeaderIndex.Config

/-- A reader is told the path to the value it reads. -/
abbrev Reader (α : Type) := List String → Value → Except Error α

def natural : Reader Nat
  | _, .unsigned n => .ok n
  | path, .signed n => if 0 ≤ n then .ok n.toNat else .error (.negative path n)
  | path, found => .error (.wrongKind path found .natural)

def flag : Reader Bool
  | _, .bool b => .ok b
  | path, found => .error (.wrongKind path found .flag)

def text : Reader String
  | _, .text s => .ok s
  | path, found => .error (.wrongKind path found .text)

/-- The texts of a list, whose first item has the given index. -/
def textsFrom (path : List String) : Nat → List Value → Except Error (List String)
  | _, [] => .ok []
  | index, item :: rest => do
    let first ← text (path ++ [index.repr]) item
    return first :: (← textsFrom path (index + 1) rest)

def texts : Reader (List String)
  | path, .list items => textsFrom path 0 items
  | path, found => .error (.wrongKind path found .list)

def orStandard {α : Type} (standard : α) (read : Reader α) (path : List String) :
    Option Value → Except Error α
  | some value => read path value
  | none => .ok standard

def keyed {α : Type} (path : List String) (members : Members) (key : String) (standard : α)
    (read : Reader α) : Except Error α :=
  orStandard standard read (path ++ [key]) (members.lookup key)

def positioned {α : Type} (path : List String) (items : List Value) (index : Nat) (standard : α)
    (read : Reader α) : Except Error α :=
  orStandard standard read (path ++ [index.repr]) items[index]?

def scanSettings : Reader ScanSettings
  | path, .table members => do
    let extensions ← keyed path members "extensions" ScanSettings.standard.extensions texts
    let respectIgnore ← keyed path members "respect_ignore"
      ScanSettings.standard.respectIgnore flag
    let workers ← keyed path members "workers" ScanSettings.standard.workers natural
    return ⟨extensions, workers, respectIgnore⟩
  | path, .list items => do
    let extensions ← positioned path items 0 ScanSettings.standard.extensions texts
    let workers ← positioned path items 1 ScanSettings.standard.workers natural
    let respectIgnore ← positioned path items 2 ScanSettings.standard.respectIgnore flag
    return ⟨extensions, workers, respectIgnore⟩
  | path, found => .error (.wrongKind path found .scanSection)

def checkRules : Reader CheckRules
  | path, .table members => do
    let minLength ← keyed path members "min_length" CheckRules.standard.minLength natural
    let suspicious ← keyed path members "suspicious" CheckRules.standard.suspicious texts
    return ⟨minLength, suspicious⟩
  | path, .list items => do
    let minLength ← positioned path items 0 CheckRules.standard.minLength natural
    let suspicious ← positioned path items 1 CheckRules.standard.suspicious texts
    return ⟨minLength, suspicious⟩
  | path, found => .error (.wrongKind path found .checkSection)

def settings (members : Members) : Except Error Settings := do
  let check ← keyed [] members "check" CheckRules.standard checkRules
  let scan ← keyed [] members "scan" ScanSettings.standard scanSettings
  return ⟨scan, check⟩

end HeaderIndex.Config
