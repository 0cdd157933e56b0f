import HeaderIndex.Config.Value
import HeaderIndex.Decimal.Shortest
import HeaderIndex.Settings
import HeaderIndex.Text.Quoted

/-! Why settings cannot be loaded, and how that is said. -/

namespace HeaderIndex.Config

open HeaderIndex.Text

inductive Expected where
  | natural
  | text
  | flag
  | list
  | scanSection
  | checkSection
  deriving DecidableEq, Repr

def Expected.name : Expected → String
  | natural => "usize"
  | text => "a string"
  | flag => "a boolean"
  | list => "a sequence"
  | scanSection => "struct ScanConfig"
  | checkSection => "struct CheckConfig"

def Value.description : Value → String
  | .text s => "string " ++ quoted s
  | .bool true => "bool true"
  | .bool false => "bool false"
  | .signed n => "signed int `" ++ n.repr ++ "`"
  | .unsigned n => "unsigned int `" ++ n.repr ++ "`"
  | .real x => "float `" ++ x.text ++ "`"
  | .list _ => "sequence"
  | .table _ => "map"

inductive Error where
  /-- A file is no text, or no TOML document. -/
  | malformed
  /-- The value at a path is of the wrong kind. -/
  | wrongKind (path : List String) (found : Value) (expected : Expected)
  /-- The value at a path must not be negative. -/
  | negative (path : List String) (value : Int)
  /-- The settings are read, but cannot be used. -/
  | unusable (cause : SettingsError)
  deriving Repr

namespace Error

def detail : Error → String
  | malformed => "malformed document"
  | wrongKind _ found expected =>
    "invalid type: found " ++ found.description ++ ", expected " ++ expected.name
  | negative _ value =>
    "invalid value " ++ (Value.signed value).description ++ ", expected " ++ Expected.natural.name
  | unusable cause => cause.message

/-- Where the value is, with dots between the keys. -/
def place (path : List String) : String := ".".intercalate path

def message : Error → String
  | malformed => "Configuration error: " ++ malformed.detail
  | wrongKind path found expected =>
    "Configuration error: " ++ (wrongKind path found expected).detail ++ " for " ++ place path
  | negative path value =>
    "Configuration error: " ++ (negative path value).detail ++ " for " ++ place path
  | unusable cause => cause.message

end Error

end HeaderIndex.Config
