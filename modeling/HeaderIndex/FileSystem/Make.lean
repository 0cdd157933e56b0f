import HeaderIndex.FileSystem

/-! Making entries of a file system. Folders on the way to an entry are made where they
are missing. A path leads through links here as it does in reading, so an entry
below a link to a folder is made in that folder, and a file written to a link is
made where the link points. Only a link itself is made at the very name it has. -/

namespace HeaderIndex.FileSystem

/-- The file system with a node in the place of whatever was there. -/
def put (fs : FileSystem) (place : List Name) (node : Node) : FileSystem :=
  { fs with root := fs.root.put node place }

/-- Follow parts from a place and make a folder for each that is missing. A link that
leads nowhere keeps its name from being used for a folder. -/
def makeFolders (fs : FileSystem) (place : List Name) :
    List Name → Except FileError (FileSystem × List Name)
  | [] => if (fs.root.at? place).any Node.isFolder then .ok (fs, place) else .error .notFolder
  | part :: rest => do
    match ← reach fs.root maxLinks place [part] with
    | .taken next => makeFolders fs next rest
    | .free folder name _ =>
      if folder == place && name == part then
        makeFolders (fs.put (place ++ [part]) (.folder [])) (place ++ [part]) rest
      else .error .alreadyThere

/-- Write a file in a folder. A name that is a link stands for where it leads. -/
def writeFile (fs : FileSystem) (folder : List Name) (name : Name)
    (contents : Except FileError (List UInt8)) :
    Except FileError FileSystem := do
  match ← reach fs.root maxLinks folder [name] with
  | .taken place =>
    if (fs.root.at? place).any Node.isFolder then .error .isFolder
    else .ok (fs.put place (.file contents))
  | .free folder name [] => .ok (fs.put (folder ++ [name]) (.file contents))
  | .free _ _ (_ :: _) => .error .notFound

/-- Make a link in a folder, under a name that is free. -/
def makeLink (fs : FileSystem) (folder : List Name) (name target : Name) :
    Except FileError FileSystem :=
  if target.isEmpty then .error .notFound
  else if name == [dot, dot] || (fs.root.at? (folder ++ [name])).isSome then .error .alreadyThere
  else .ok (fs.put (folder ++ [name]) (.link target))

/-- Make a node at a path. A folder that is there already stays as it is, and nothing
but a folder may have a path that ends in a slash. -/
def make (fs : FileSystem) (path : Path) (node : Node) : Except FileError FileSystem := do
  let start := origin path.bytes fs.here
  let all := parts path.bytes
  let names := all.filter (· != [dot])
  if path.bytes.contains 0 then .error .nulInName
  else
    match node, (if all.getLast? == some [dot] then none else names.getLast?) with
    | .folder _, _ => return (← fs.makeFolders start names).1
    | _, none => .error .isFolder
    | .file contents, some name =>
      let (fs, folder) ← fs.makeFolders start names.dropLast
      fs.writeFile folder name contents
    | .link target, some name =>
      let (fs, folder) ← fs.makeFolders start names.dropLast
      fs.makeLink folder name target

end HeaderIndex.FileSystem
