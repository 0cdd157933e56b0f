import HeaderIndex.Scan.Extension
import HeaderIndex.Scan.Ignore

/-! Collecting files. A root that is a file is taken if its name fits. A root that
is a folder is walked: its files are taken if their names fit, its folders are
entered, and links in it are neither taken nor followed. Where ignore files are
respected, what they ignore and what is hidden is passed over; the rules of a
folder's parents hold in it too. -/

namespace HeaderIndex

open HeaderIndex.Text

inductive WalkMode where
  | raw
  | respectIgnore
  deriving DecidableEq, Repr

namespace Walk

/-- The names of ignore files, those that overrule others first. -/
def ignoreFiles : List Name :=
  [".hsymignore", ".ignore", ".gitignore", ".git/info/exclude"].map Utf8.bytes

/-- The folder that a walk never enters where ignore files are respected. -/
def ownFolder : Name := Utf8.bytes ".hsym"

/-- The ignore rules of one folder, a list for each of its ignore files, and the
names that lead from it to the entry at hand. -/
structure Level where
  rules : List (List Ignore.Rule)
  way : List Name

/-- The rules of an ignore file; a file that cannot be read has none. -/
def rulesOf (fs : FileSystem) (file : Path) : List Ignore.Rule :=
  match fs.read file with
  | .ok bytes => Ignore.ofText (Utf8.readableLines bytes)
  | .error _ => []

def Level.of (fs : FileSystem) (folder : Path) (way : List Name) : Level :=
  ⟨ignoreFiles.map fun name => rulesOf fs (folder.below name), way⟩

/-- The level as an entry below sees it. -/
def Level.down (level : Level) (name : Name) : Level :=
  { level with way := level.way ++ [name] }

/-- The verdict of one kind of ignore file, by its place in the list. Of several
folders the nearest one that has a verdict decides. -/
def verdictOf? (levels : List Level) (isFolder : Bool) (file : Nat) : Option Ignore.Verdict :=
  levels.findSome? fun level =>
    Ignore.verdict? (level.rules[file]?.getD []) ([slash].intercalate level.way) isFolder

/-- A path as the user's ignore file sees it: from the working folder, if its spelling
starts so. -/
def fromHere (fs : FileSystem) (path : Path) : Name :=
  match fs.herePath.bytes.isPrefixOf? path.bytes with
  | some (b :: rest) => if b == slash then rest else b :: rest
  | some [] => []
  | none => path.bytes

def userVerdict? (fs : FileSystem) (path : Path) (isFolder : Bool) : Option Ignore.Verdict := do
  Ignore.verdict? (rulesOf fs (← fs.userIgnore)) (fromHere fs path) isFolder

/-- The verdict on an entry: that of the first kind of ignore file that has one, the user's
file being the last. -/
def verdict? (fs : FileSystem) (levels : List Level) (path : Path) (isFolder : Bool) :
    Option Ignore.Verdict :=
  (List.range ignoreFiles.length).findSome? (verdictOf? levels isFolder) <|>
    userVerdict? fs path isFolder

def isHidden (name : Name) : Bool := name.head? == some dot

/-- Whether an entry is passed over. Being kept by a rule outweighs being hidden. -/
def isSkipped (mode : WalkMode) (fs : FileSystem) (levels : List Level) (path : Path) (name : Name)
    (isFolder : Bool) : Bool :=
  match mode with
  | .raw => false
  | .respectIgnore =>
    match verdict? fs levels path isFolder with
    | some .ignore => true
    | some .keep => isFolder && name == ownFolder
    | none => isHidden name || (isFolder && name == ownFolder)

/-- The level that a folder adds, where ignore files are respected. -/
def added (mode : WalkMode) (fs : FileSystem) (folder : Path) : List Level :=
  match mode with
  | .raw => []
  | .respectIgnore => [Level.of fs folder []]

mutual

/-- The files that an entry of a folder stands for. The levels are those of the
folder, nearest first. -/
def entryFiles (mode : WalkMode) (filter : ExtensionFilter) (fs : FileSystem)
    (levels : List Level) (folder : Path) (name : Name) : Node → List Path
  | .link _ => []
  | .file _ =>
    if isSkipped mode fs (levels.map (·.down name)) (folder.below name) name false then []
    else if filter.admits (folder.below name) then [folder.below name]
    else []
  | .folder entries =>
    let seen := levels.map (·.down name)
    if isSkipped mode fs seen (folder.below name) name true then []
    else
      folderFiles mode filter fs (added mode fs (folder.below name) ++ seen) (folder.below name)
        entries

def folderFiles (mode : WalkMode) (filter : ExtensionFilter) (fs : FileSystem)
    (levels : List Level) (folder : Path) : List (Name × Node) → List Path
  | [] => []
  | (name, node) :: rest =>
    entryFiles mode filter fs levels folder name node ++
      folderFiles mode filter fs levels folder rest

end

/-- The levels above a folder, given by the names that lead to it, nearest first. -/
def parentLevels (mode : WalkMode) (fs : FileSystem) (names : List Name) : List Level :=
  match mode with
  | .raw => []
  | .respectIgnore =>
    (List.range names.length).reverse.map fun n =>
      Level.of fs ⟨slash :: [slash].intercalate (names.take n)⟩ (names.drop n)

/-- The files of a root, which is given from the root of the file system. -/
def rootFiles (mode : WalkMode) (filter : ExtensionFilter) (fs : FileSystem) (root : Path) :
    List Path :=
  match fs.resolve root with
  | .error _ => []
  | .ok names =>
    match fs.root.at? names with
    | some (.file _) => if filter.admits root then [root] else []
    | some (.folder entries) =>
      folderFiles mode filter fs (added mode fs root ++ parentLevels mode fs names) root entries
    | _ => []

/-- Paths in order, of those that name the same path only the first. -/
def distinct : List Path → List Path
  | [] => []
  | [p] => [p]
  | p :: q :: rest =>
    match distinct (q :: rest) with
    | [] => [p]
    | r :: more => if p.same r then p :: more else p :: r :: more

/-- Every file of the given roots whose name fits, in path order and each once. -/
def collect (fs : FileSystem) (roots : List Path) (mode : WalkMode) (extensions : List String) :
    Except ScanError (List Path) := do
  let filter ← ExtensionFilter.make extensions
  let files ← roots.mapM fun root =>
    if fs.exists? root then .ok (rootFiles mode filter fs (fs.absolute root))
    else .error (.missingRoot root)
  return distinct (files.flatten.mergeSort Path.le)

end Walk

end HeaderIndex
