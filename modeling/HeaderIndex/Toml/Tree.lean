import HeaderIndex.Config.Value

/-! The tables of a TOML document as its statements define them. A table is defined
once: by its own header, or by the dotted keys of one other table. Headers may
name tables below one that has no header yet, and that one may still get it. -/

namespace HeaderIndex.Toml

open HeaderIndex.Config

inductive Origin where
  /-- It has a header, or is the document itself. -/
  | header
  /-- Only the headers of tables below it name it. -/
  | implied
  /-- A dotted key made it. -/
  | dotted
  deriving DecidableEq, Repr

inductive Item where
  /-- A value, to which nothing can be added. -/
  | value (value : Value)
  | table (origin : Origin) (members : List (String × Item))
  /-- Tables that share one header; the last of them is still open. -/
  | tables (elements : List (List (String × Item)))
  deriving Repr

abbrev Branch := List (String × Item)

namespace Branch

def lookup (key : String) : Branch → Option Item
  | [] => none
  | (k, item) :: rest => if k == key then some item else lookup key rest

/-- Put an item in the place of a key, or behind the others. -/
def set (key : String) (item : Item) : Branch → Branch
  | [] => [(key, item)]
  | (k, old) :: rest => if k == key then (k, item) :: rest else (k, old) :: set key item rest

/-- Change the table at the end of a path, making tables on the way. A path of dotted
keys may not lead into a table that has a header of its own. -/
def alter (dotted : Bool) (change : Origin → Branch → Option Branch) :
    List String → Origin → Branch → Option Branch
  | [], origin, branch => change origin branch
  | key :: path, _, branch =>
    match branch.lookup key with
    | none =>
      let origin := if dotted then Origin.dotted else .implied
      (alter dotted change path origin []).map fun inner =>
        branch.set key (.table origin inner)
    | some (.value _) => none
    | some (.table origin members) =>
      if dotted && origin == .header then none
      else (alter dotted change path origin members).map fun inner =>
        branch.set key (.table origin inner)
    | some (.tables elements) =>
      (alter dotted change path .header (elements.getLastD [])).map fun inner =>
        branch.set key (.tables (elements.dropLast ++ [inner]))

/-- Give a key of a table its value. The key must be new, and the table that a dotted
key leads to must be one that dotted keys made. -/
def define (path : List String) (key : String) (value : Value) (branch : Branch) :
    Option Branch :=
  alter true (fun origin inner =>
    if !path.isEmpty && origin != .dotted then none
    else if (inner.lookup key).isSome then none
    else some (inner.set key (.value value))) path .header branch

def openTable (path : List String) (key : String) (branch : Branch) : Option Branch :=
  alter false (fun _ inner =>
    match inner.lookup key with
    | none => some (inner.set key (.table .header []))
    | some (.table .implied members) => some (inner.set key (.table .header members))
    | some _ => none) path .header branch

/-- Open one more of the tables that share a header. -/
def openElement (path : List String) (key : String) (branch : Branch) : Option Branch :=
  alter false (fun _ inner =>
    match inner.lookup key with
    | none => some (inner.set key (.tables [[]]))
    | some (.tables elements) => some (inner.set key (.tables (elements ++ [[]])))
    | some _ => none) path .header branch

end Branch

mutual

def Item.toValue : Item → Value
  | .value v => v
  | .table _ members => .table (membersOf members)
  | .tables elements => .list (elementsOf elements)

/-- The members of a table as values. -/
def membersOf : List (String × Item) → List (String × Value)
  | [] => []
  | (key, item) :: rest => (key, item.toValue) :: membersOf rest

/-- The tables under one header as values. -/
def elementsOf : List (List (String × Item)) → List Value
  | [] => []
  | members :: rest => .table (membersOf members) :: elementsOf rest

end

end HeaderIndex.Toml
