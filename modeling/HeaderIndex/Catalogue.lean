import HeaderIndex.Path
import HeaderIndex.Symbol

/-! The catalogue: the symbols of every file, in path order. A second record for
the same path replaces the symbols and keeps the first spelling of the path. -/

namespace HeaderIndex

structure Record where
  path : Path
  symbols : List Symbol
  deriving DecidableEq, Repr

structure Catalogue where
  records : List Record
  deriving DecidableEq, Repr

namespace Catalogue

def empty : Catalogue := ⟨[]⟩

/-- Put a record in its place in path order. -/
def place (record : Record) : List Record → List Record
  | [] => [record]
  | r :: rest =>
    match record.path.order r.path with
    | .lt => record :: r :: rest
    | .eq => ⟨r.path, record.symbols⟩ :: rest
    | .gt => r :: place record rest

def insert (c : Catalogue) (record : Record) : Catalogue := ⟨place record c.records⟩

def extend (c : Catalogue) (records : List Record) : Catalogue := records.foldl insert c

def ofRecords (records : List Record) : Catalogue := empty.extend records

/-- The symbols of a path, however it is spelled. -/
def get? (c : Catalogue) (path : Path) : Option (List Symbol) :=
  (c.records.find? fun r => r.path.same path).map (·.symbols)

def size (c : Catalogue) : Nat := c.records.length

def isEmpty (c : Catalogue) : Bool := c.records.isEmpty

def symbolCount (c : Catalogue) : Nat :=
  c.records.foldr (fun record count => record.symbols.length + count) 0

def paths (c : Catalogue) : List Path := c.records.map (·.path)

/-- The names of each file, whatever their kind. -/
def names (c : Catalogue) : List (Path × List String) :=
  c.records.map fun r => (r.path, r.symbols.map (·.name))

def namesOf (kind : Kind) (symbols : List Symbol) : List String :=
  (symbols.filter (·.kind == kind)).map (·.name)

/-- The kinds among some symbols with their names, in report order. -/
def groups (symbols : List Symbol) : List (Kind × List String) :=
  (Kind.all.map fun kind => (kind, namesOf kind symbols)).filter fun g => !g.2.isEmpty

def byKind (c : Catalogue) : List (Path × List (Kind × List String)) :=
  c.records.map fun r => (r.path, groups r.symbols)

end Catalogue

end HeaderIndex
