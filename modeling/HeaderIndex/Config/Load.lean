import HeaderIndex.Config.Boxed
import HeaderIndex.Config.Dotenv
import HeaderIndex.Config.Reader
import HeaderIndex.Toml.Parser

/-! Loading the settings of a run. The user's file comes first, the project's file is
laid over it, and the environment over both. Only what comes out of that is read
and checked, so a value that is laid over does no harm. -/

namespace HeaderIndex.Config

open HeaderIndex.Text

structure Sources where
  user : Option (List UInt8)
  project : Option (List UInt8)
  env : Variables

/-- The members of the table in a file, if there is one, with their boxes opened. -/
def fileMembers : Option (List UInt8) → Except Error Members
  | none => .ok []
  | some bytes =>
    match Utf8.decode bytes with
    | .error _ => .error .malformed
    | .ok text =>
      match (Toml.parse? text).bind unboxMembers? with
      | some members => .ok members
      | none => .error .malformed

/-- Members of three sources laid over each other. -/
def layered (user project environment : Members) : Members :=
  (user.merge project).merge environment

def usable (members : Members) : Except Error Settings := do
  let found ← settings members
  match found.validate with
  | .ok () => .ok found
  | .error cause => .error (.unusable cause)

/-- The settings that the sources give. Every file must be readable, whatever it says. -/
def load (sources : Sources) : Except Error Settings := do
  let user ← fileMembers sources.user
  let project ← fileMembers sources.project
  usable (layered user project (environmentMembers sources.env))

end HeaderIndex.Config
