import HeaderIndex.Path

/-! A file system as a value: folders, files and symbolic links below one root, and
a working folder for relative paths. A path is followed part by part. Links are
followed wherever they occur, up to a number of them that stops circles. -/

namespace HeaderIndex

open HeaderIndex.Text

/-- Why a path cannot be followed or a file not read. -/
inductive FileError where
  | notFound
  | denied
  | notFolder
  | isFolder
  | tooManyLinks
  | nulInName
  | alreadyThere
  deriving DecidableEq, Repr

def FileError.message : FileError → String
  | notFound => "No such file or directory (os error 2)"
  | denied => "Permission denied (os error 13)"
  | notFolder => "Not a directory (os error 20)"
  | isFolder => "Is a directory (os error 21)"
  | tooManyLinks => "Too many levels of symbolic links (os error 40)"
  | nulInName => "file name contained an unexpected NUL byte"
  | alreadyThere => "File exists (os error 17)"

inductive Node where
  /-- A file has its bytes, or a reason why it cannot be read although it is there. -/
  | file (contents : Except FileError (List UInt8))
  | link (target : Name)
  | folder (entries : List (Name × Node))
  deriving Repr

namespace Node

def isFolder : Node → Bool
  | folder _ => true
  | _ => false

def entryNamed (name : Name) : List (Name × Node) → Option Node
  | [] => none
  | (n, node) :: rest => if n == name then some node else entryNamed name rest

/-- The entries of a folder; nothing else has any. -/
def entries : Node → List (Name × Node)
  | folder entries => entries
  | _ => []

def child? (node : Node) (name : Name) : Option Node := entryNamed name node.entries

/-- The node below another one along some names, links not followed. -/
def at? (node : Node) : List Name → Option Node
  | [] => some node
  | name :: rest => (node.child? name).bind (·.at? rest)

/-- Put a node in the place of a name, or behind the others. -/
def setEntry (name : Name) (node : Node) : List (Name × Node) → List (Name × Node)
  | [] => [(name, node)]
  | (n, old) :: rest => if n == name then (n, node) :: rest else (n, old) :: setEntry name node rest

/-- Put a node at the end of some names; folders that are missing are made. -/
def put (old : Node) (node : Node) : List Name → Node
  | [] => node
  | name :: rest =>
    let entries := old.entries
    let below := (entryNamed name entries).getD (folder [])
    folder (setEntry name (below.put node rest) entries)

end Node

structure FileSystem where
  root : Node
  /-- The working folder, as the names that lead to it from the root. -/
  here : List Name
  /-- The ignore file that the user keeps for all folders, if there is one. -/
  userIgnore : Option Path
  deriving Repr

namespace FileSystem

/-- The parts of a path. A slash at the end asks for a folder, as `.` does. -/
def parts (path : Name) : List Name :=
  let pieces := path.splitOn slash
  let named := pieces.filter (!·.isEmpty)
  if pieces.getLast? == some [] && !named.isEmpty then named ++ [[dot]] else named

/-- Where following a path has led. -/
inductive Stop where
  /-- All parts are taken; the names lead to what was found. -/
  | arrived (place : List Name)
  /-- A folder has no entry of the name, and parts may be left. -/
  | missing (folder : List Name) (name : Name) (rest : List Name)
  /-- A link stands at the end of some names, and parts are left. -/
  | atLink (target : Name) (folder rest : List Name)
  | failed (error : FileError)

/-- Follow parts from a place up to the first link. -/
def stride (root : Node) (place : List Name) : List Name → Stop
  | [] => .arrived place
  | part :: rest =>
    match root.at? place with
    | some (.folder entries) =>
      if part == [dot] then stride root place rest
      else if part == [dot, dot] then stride root place.dropLast rest
      else
        match Node.entryNamed part entries with
        | none => .missing place part rest
        | some (.link target) => .atLink target place rest
        | some _ => stride root (place ++ [part]) rest
    | _ => .failed .notFolder

/-- Where a path starts that is read in some folder. -/
def origin (path : Name) (folder : List Name) : List Name :=
  if path.head? == some slash then [] else folder

/-- What a path leads to: something, or a name that is free in a folder. -/
inductive Spot where
  | taken (place : List Name)
  | free (folder : List Name) (name : Name) (rest : List Name)

/-- Follow parts from a place through at most `links` links. -/
def reach (root : Node) : Nat → List Name → List Name → Except FileError Spot
  | links, place, rest =>
    match stride root place rest with
    | .arrived found => .ok (.taken found)
    | .missing folder name more => .ok (.free folder name more)
    | .failed e => .error e
    | .atLink target folder more =>
      match links with
      | 0 => .error .tooManyLinks
      | left + 1 =>
        if target.isEmpty then .error .notFound
        else reach root left (origin target folder) (parts target ++ more)

/-- Follow parts to something that is there. -/
def follow (root : Node) (links : Nat) (place rest : List Name) :
    Except FileError (List Name) := do
  match ← reach root links place rest with
  | .taken found => .ok found
  | .free _ _ _ => .error .notFound

def maxLinks : Nat := 40

/-- The names that lead to what a path means, without links and without `..`. -/
def resolve (fs : FileSystem) (path : Path) : Except FileError (List Name) :=
  if path.bytes.contains 0 then .error .nulInName
  else if path.bytes.isEmpty then .error .notFound
  else follow fs.root maxLinks (origin path.bytes fs.here) (parts path.bytes)

def find (fs : FileSystem) (path : Path) : Except FileError Node := do
  let names ← fs.resolve path
  match fs.root.at? names with
  | some node => .ok node
  | none => .error .notFound

def exists? (fs : FileSystem) (path : Path) : Bool := (fs.find path).isOk

def read (fs : FileSystem) (path : Path) : Except FileError (List UInt8) := do
  match ← fs.find path with
  | .file contents => contents
  | .folder _ => .error .isFolder
  | .link _ => .error .notFound

def herePath (fs : FileSystem) : Path := ⟨slash :: [slash].intercalate fs.here⟩

/-- A path from the root. Repeated slashes and `.` are dropped, `..` and a slash at
the end stay, and so do exactly two slashes at the start. -/
def absolute (fs : FileSystem) (path : Path) : Path :=
  let start :=
    if !path.isAbsolute then fs.herePath
    else if [slash, slash].isPrefixOf path.bytes &&
      !([slash, slash, slash].isPrefixOf path.bytes) then ⟨[slash, slash]⟩
    else ⟨[slash]⟩
  let names := (path.components.filter fun c => c != .root && c != .here).map Component.bytes
  let body := names.foldl Path.below start
  if path.bytes.getLast? == some slash then body.below [] else body

end FileSystem

end HeaderIndex
