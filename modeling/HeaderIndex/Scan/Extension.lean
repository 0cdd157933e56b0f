import HeaderIndex.Glob.Match
import HeaderIndex.Glob.Parser
import HeaderIndex.Scan.Error
import HeaderIndex.Settings

/-! The extension filter: which files a scan reads, by the ends of their names. An
extension may be a glob pattern; the dots it starts with do not count. -/

namespace HeaderIndex

structure ExtensionFilter where
  patterns : List (List Glob.Token)

namespace ExtensionFilter

/-- The pattern of an extension whose dots are stripped. -/
def patternOf (extension : String) : Except ScanError (List Glob.Token) :=
  match Glob.parse false (ScanError.pattern extension) with
  | .ok pattern => .ok pattern
  | .error cause => .error (.extension extension cause)

/-- The filter of all extensions that are more than dots. The first that is no
pattern is an error; having none left is another. -/
def make (extensions : List String) : Except ScanError ExtensionFilter := do
  let patterns ← ((extensions.map stripDots).filter (!·.isEmpty)).mapM patternOf
  if patterns.isEmpty then .error .noExtensions else .ok ⟨patterns⟩

def admitsName (f : ExtensionFilter) (name : Name) : Bool :=
  f.patterns.any fun pattern => Glob.matchesText false pattern name

/-- Whether a path has a file name, and one that is read. -/
def admits (f : ExtensionFilter) (path : Path) : Bool := path.fileName?.any f.admitsName

end ExtensionFilter

end HeaderIndex
