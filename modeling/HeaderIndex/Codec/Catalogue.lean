import HeaderIndex.Catalogue
import HeaderIndex.Codec.Fields

/-! Kinds, symbols, records and catalogues as JSON. What has a path that is no text cannot
be written. A catalogue is an object from
paths to symbols; its members are read in the order of their keys' characters,
and of a repeated key the last one counts. -/

namespace HeaderIndex

open Json (required)

def Kind.toJson (k : Kind) : Json := .string k.text

def Kind.ofJson? (j : Json) : Option Kind := j.tag?.bind Kind.ofText?

def Symbol.toJson (s : Symbol) : Json :=
  .object [("name", .string s.name), ("kind", s.kind.toJson)]

def Symbol.ofJson? (j : Json) : Option Symbol := do
  match ← j.fields? ["name", "kind"] with
  | [name, kind] => return ⟨← required Json.string? name, ← required Kind.ofJson? kind⟩
  | _ => none

def symbolsToJson (symbols : List Symbol) : Json := .array (symbols.map Symbol.toJson)

def symbolsOfJson? (j : Json) : Option (List Symbol) := j.list? Symbol.ofJson?

/-- The text of a path, where JSON asks for one. -/
def Path.jsonText (p : Path) : Except Json.Error String :=
  match p.text? with
  | some text => .ok text
  | none => .error .pathNotText

def Json.byPath (values : List (Path × Json)) : Except Json.Error Json := do
  let members ← values.mapM fun (path, value) => do return (← path.jsonText, value)
  return .object members

def Path.toJson (p : Path) : Except Json.Error Json := p.jsonText.map .string

def Path.ofJson? (j : Json) : Option Path := j.string?.map Path.ofText

def Record.toJson (r : Record) : Except Json.Error Json := do
  return .object [("path", ← r.path.toJson), ("symbols", symbolsToJson r.symbols)]

def Record.ofJson? (j : Json) : Option Record := do
  match ← j.fields? ["path", "symbols"] with
  | [path, symbols] =>
    return ⟨← required Path.ofJson? path, ← required symbolsOfJson? symbols⟩
  | _ => none

namespace Catalogue

def toJson (c : Catalogue) : Except Json.Error Json :=
  Json.byPath (c.records.map fun r => (r.path, symbolsToJson r.symbols))

/-- The members of an object by key, without those that a later one replaces. -/
def sortMembers (members : List (String × Json)) : List (String × Json) :=
  (members.reverse.eraseDupsBy fun a b => a.1 == b.1).mergeSort fun a b => a.1 ≤ b.1

def ofJson? : Json → Option Catalogue
  | .object members => do
    let records ← (sortMembers members).mapM fun (key, value) => do
      return (⟨.ofText key, ← symbolsOfJson? value⟩ : Record)
    return ofRecords records
  | _ => none

end Catalogue

end HeaderIndex
