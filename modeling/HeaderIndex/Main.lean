import HeaderIndex.Codec.FileSystem
import HeaderIndex.Program

/-! The command line. The files to scan come as one JSON object on standard input:
`here` is the working folder, `tree` the entries, `env` the environment and
`settings` the user's settings file. -/

namespace HeaderIndex.Program

open HeaderIndex.Text

def folderNames (path : String) : List Name :=
  ((Utf8.bytes path).splitOn slash).filter (!·.isEmpty)

def environment? : Json → Option Config.Variables
  | .object members => members.mapM fun (name, value) => value.string?.map (name, ·)
  | _ => none

/-- The input of a run from its arguments and a description of all else. -/
def input? (arguments : List String) (j : Json) : Option Input := do
  let here := folderNames (((j.get? "here").bind Json.string?).getD "/")
  let files ← (FileSystem.ofJson here (((j.get? "tree").bind Json.array?).getD [])).toOption
  let env ← environment? ((j.get? "env").getD (.object []))
  let settings := ((j.get? "settings").bind Json.string?).map Utf8.bytes
  return ⟨arguments.map Utf8.bytes, env, settings, files, fun _ => none⟩

end HeaderIndex.Program

open HeaderIndex

def main (arguments : List String) : IO UInt32 := do
  let description ← (← IO.getStdin).readToEnd
  match (Json.parse? description).bind (Program.input? arguments) with
  | none =>
    (← IO.getStderr).putStrLn "hsym error: no description of the files on standard input"
    return 1
  | some input =>
    let output := Program.run input
    (← IO.getStdout).putStr output.out
    (← IO.getStderr).putStr output.err
    return UInt32.ofNat output.status
