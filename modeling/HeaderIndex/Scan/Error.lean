import HeaderIndex.FileSystem
import HeaderIndex.Glob.Basic
import HeaderIndex.Text.Quoted
import HeaderIndex.Text.Utf8

/-! What can go wrong with a scan, and how it is said. -/

namespace HeaderIndex

open HeaderIndex.Text

inductive ScanError where
  | missingRoot (path : Path)
  | read (path : Path) (cause : FileError)
  | decode (path : Path) (cause : Utf8.Error)
  | extension (ext : String) (cause : Glob.Error)
  | noExtensions
  | noWorkers
  /-- The system did not start the threads; the cause is in its words. -/
  | pool (cause : String)
  deriving DecidableEq, Repr

namespace ScanError

/-- The pattern that an extension stands for. -/
def pattern (extension : String) : String := "*." ++ extension

/-- The messages of the errors behind this one, each the cause of the one before it. A pool
error has that of the library between itself and the system, in the same words. -/
def causes : ScanError → List String
  | read _ cause => [cause.message]
  | decode _ cause => [cause.message]
  | extension ext cause =>
    ["error parsing glob '" ++ pattern ext ++ "': " ++ cause.message]
  | pool cause => [cause, cause]
  | _ => []

def message : ScanError → String
  | missingRoot path => "no such file or directory: " ++ path.display
  | read _ cause => "read failed: " ++ cause.message
  | decode _ cause => "invalid UTF-8: " ++ cause.message
  | extension ext cause =>
    "invalid extension " ++ quoted ext ++ ": error parsing glob '" ++ pattern ext ++
      "': " ++ cause.message
  | noExtensions => "no usable extension given"
  | noWorkers => "worker count must be at least 1"
  | pool cause => "thread pool error: " ++ cause

def path? : ScanError → Option Path
  | missingRoot path => some path
  | read path _ => some path
  | decode path _ => some path
  | _ => none

end ScanError

end HeaderIndex
