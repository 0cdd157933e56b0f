import HeaderIndex.FileSystem.Make
import HeaderIndex.Json.Parser

/-! File systems as JSON: a list of entries, each an object with a path. Its `text` or
its bytes as `hex` make it a file, its `link` a symbolic link; an entry that has
none of them is a folder. Entries are made in their order. -/

namespace HeaderIndex

open HeaderIndex.Text

structure Entry where
  path : Path
  node : Node

def hexBytes? : List Char → Option (List UInt8)
  | [] => some []
  | a :: b :: rest => do
    let a ← Json.hexValue? a
    let b ← Json.hexValue? b
    return UInt8.ofNat (a * 16 + b) :: (← hexBytes? rest)
  | _ => none

def textNode (text : String) : Node := .file (.ok (Utf8.bytes text))

/-- The entry that JSON describes, or the member that is missing or wrong. -/
def Entry.ofJson (j : Json) : Except String Entry :=
  let member (name : String) : Option String := (j.get? name).bind Json.string?
  match member "path" with
  | none => .error "path"
  | some path =>
    match member "text", member "hex", member "link" with
    | some text, _, _ => .ok ⟨.ofText path, textNode text⟩
    | none, some hex, _ =>
      match hexBytes? hex.toList with
      | some bytes => .ok ⟨.ofText path, .file (.ok bytes)⟩
      | none => .error "hex"
    | none, none, some target => .ok ⟨.ofText path, .link (Utf8.bytes target)⟩
    | none, none, none => .ok ⟨.ofText path, .folder []⟩

namespace FileSystem

def empty (here : List Name) : FileSystem :=
  ⟨(Node.folder []).put (.folder []) here, here, none⟩

/-- The file system that a list of entries describes, or what is wrong: a member of an
entry, or the tree if an entry cannot be made. -/
def ofJson (here : List Name) (entries : List Json) : Except String FileSystem :=
  entries.foldlM (fun fs j => do
    let entry ← Entry.ofJson j
    (fs.make entry.path entry.node).mapError fun _ => "tree") (empty here)

end FileSystem

end HeaderIndex
