import HeaderIndex.Codec.Catalogue
import HeaderIndex.Json.Printer
import HeaderIndex.Table

/-! Listings: the names of each file, plain or by kind, as JSON or as a table. A table shows
every path; JSON cannot hold one that is no text, and then there is no listing. -/

namespace HeaderIndex

inductive Format where
  | json
  | table
  | raw
  deriving DecidableEq, Repr

namespace Format

def ofText? : String → Option Format
  | "json" => some json
  | "table" => some table
  | "raw" => some raw
  | _ => none

end Format

namespace Listing

def namesJson (c : Catalogue) : Except Json.Error Json :=
  Json.byPath (c.names.map fun (path, names) => (path, .ofStrings names))

/-- An object from paths to objects from kinds to names. -/
def kindsJson (c : Catalogue) : Except Json.Error Json :=
  Json.byPath (c.byKind.map fun (path, groups) =>
    (path, .object (groups.map fun (kind, names) => (kind.text, .ofStrings names))))

def toJson (c : Catalogue) (byKind : Bool) : Except Json.Error Json :=
  if byKind then kindsJson c else namesJson c

/-- Rows of one file: its path stands on the first row only, and a file without
entries has one row of dashes. -/
def fileRows (path : Path) (width : Nat) : List (List String) → List (List String)
  | [] => [path.display :: List.replicate width "-"]
  | entry :: rest => (path.display :: entry) :: rest.map ("" :: ·)

def nameRows (c : Catalogue) : List (List String) :=
  c.names.flatMap fun (path, names) => fileRows path 1 (names.map fun n => [n])

def kindRows (c : Catalogue) : List (List String) :=
  c.byKind.flatMap fun (path, groups) =>
    fileRows path 2 (groups.flatMap fun (kind, names) => names.map fun n => [kind.text, n])

def table (c : Catalogue) (byKind : Bool) (limit : Option Nat) : String :=
  if c.isEmpty then "(no files)"
  else if byKind then Table.render ["file", "kind", "symbol"] (kindRows c) limit
  else Table.render ["file", "symbol"] (nameRows c) limit

/-- The listing of a catalogue; only a table heeds the limit. -/
def render (c : Catalogue) (format : Format) (byKind : Bool) (limit : Option Nat) :
    Except Json.Error String :=
  match format with
  | .json => (toJson c byKind).map Json.renderIndented
  | .raw => (toJson c byKind).map Json.render
  | .table => .ok (table c byKind limit)

end Listing

end HeaderIndex
