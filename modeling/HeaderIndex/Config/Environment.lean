import HeaderIndex.Config.Literal

/-! Settings from environment variables. A variable whose name starts with `HSYM_`, in
whatever case, sets the value at a path of keys: the rest of the name in lower
case, cut at double underscores. -/

namespace HeaderIndex.Config

open HeaderIndex.Text

/-- Variables in the order in which they are applied, the later ones over the earlier. -/
abbrev Variables := List (String × String)

namespace Variables

def get? (env : Variables) (name : String) : Option String :=
  (env.find? (·.1 == name)).map (·.2)

/-- The variables with one more, unless it is set already. -/
def addNew (env : Variables) (name value : String) : Variables :=
  if (env.get? name).isSome then env else env ++ [(name, value)]

end Variables

def namePrefix : String := "HSYM_"

def dotted : List Char → List Char
  | '_' :: '_' :: rest => '.' :: dotted rest
  | c :: cs => c :: dotted cs
  | [] => []

/-- The path of keys that a name stands for; no key may be empty. -/
def keyPath? (name : String) : Option (List String) :=
  let cs := name.toList
  let start := cs.take namePrefix.length
  if start.map Char.toUpper != namePrefix.toList then none
  else
    let keys := (trim (dotted (cs.drop namePrefix.length))).splitOn '.'
    if keys.any List.isEmpty then none
    else some (keys.map fun key => String.ofList (key.map Char.toLower))

/-- A value inside tables of one key each. -/
def nested : List String → Value → Value
  | [], value => value
  | key :: path, value => .table [(key, nested path value)]

def variableMembers (name value : String) : Members :=
  match keyPath? name with
  | some (key :: path) => [(key, nested path (Literal.read value))]
  | _ => []

def environmentMembers (env : Variables) : Members :=
  env.foldl (fun members (name, value) =>
    Members.merge members (variableMembers name value)) []

end HeaderIndex.Config
