import HeaderIndex.Arguments
import HeaderIndex.Check
import HeaderIndex.Config.Load

/-! The program as a function: from arguments, environment and files to an exit status
and the text on both output channels. The listing of what could be read comes
first, whatever files fail; the check only adds lines behind everything else. -/

namespace HeaderIndex

open HeaderIndex.Config HeaderIndex.Text

/-- The file of a name in the working folder, or in the nearest folder above that has it. -/
def FileSystem.nearest? (fs : FileSystem) (name : Name) : Option (List UInt8) :=
  let depths := (List.range (fs.here.length + 1)).reverse
  depths.findSome? fun depth =>
    match fs.read ⟨((fs.here.take depth ++ [name]).map (slash :: ·)).flatten⟩ with
    | .ok bytes => some bytes
    | .error _ => none

namespace Program

/-- All that a run depends on. -/
structure Input where
  arguments : List Name
  /-- The variables that are text; no other counts. -/
  env : Variables
  /-- The user's settings file, if there is one. -/
  userSettings : Option (List UInt8)
  files : FileSystem
  threads : Scan.Threads

structure Output where
  status : Nat
  out : String
  err : String
  deriving DecidableEq, Repr

def name : String := "hsym"

def version : String := name ++ " 0.1.0\n"

def usage : String :=
  "List the symbols declared in Objective-C and C headers\n\n" ++
  "Usage: hsym [OPTIONS] <DIRS>...\n\n" ++
  "Arguments:\n" ++
  "  <DIRS>...  Directories (or single files) to scan\n\n" ++
  "Options:\n" ++
  "      --check            Flag likely false positives after the listing\n" ++
  "  -e, --ext <EXT>        File extension to scan; repeatable, replaces the configured list\n" ++
  "  -j, --workers <N>      Number of files processed concurrently\n" ++
  "      --respect-ignore   Honour .gitignore and .hsymignore, skip hidden entries\n" ++
  "      --by-kind          Group each file's symbols by the matcher that found them\n" ++
  "  -f, --format <FORMAT>  Output format: json, table, raw [default: json] " ++
  "[possible values: json, table, raw]\n" ++
  "  -q, --quiet            Quiet mode (errors only, no progress bar)\n" ++
  "  -v, --verbose          Verbose mode (debug logging)\n" ++
  "  -h, --help             Print help\n" ++
  "  -V, --version          Print version\n"

/-- Where the settings of the project are, from its folder. -/
def projectSettings : Name := Utf8.bytes ".hsym/config.toml"

/-- Where variables for the project are, from its folder or one above it. -/
def variablesFile : Name := Utf8.bytes ".env"

/-- The environment, completed by the file of variables. -/
def environment (input : Input) : Variables :=
  match input.files.nearest? variablesFile with
  | some bytes => Dotenv.load input.env bytes
  | none => input.env

/-- The project's settings file. It is looked for only if something has its name in the
working folder. -/
def projectFile (files : FileSystem) : Option (List UInt8) :=
  if files.exists? ⟨projectSettings⟩ then files.nearest? projectSettings else none

def sources (input : Input) : Sources :=
  ⟨input.userSettings, projectFile input.files, environment input⟩

/-- Tables narrower than this are not asked for. -/
def minColumns : Nat := 40

/-- The width that the environment allows a table. -/
def columns? (env : Variables) : Option Nat := do
  let width ← natural? (← env.get? "COLUMNS").toList
  if minColumns ≤ width then some width else none

inductive Failure where
  | settings (cause : Config.Error)
  | workers (cause : ScanError)
  | files (cause : ScanError)
  | start (cause : ScanError)
  | listing (cause : Json.Error)

/-- The message of a scan error, and of its causes behind it. -/
def chain (e : ScanError) : String := ": ".intercalate (e.message :: e.causes)

def Failure.message : Failure → String
  | settings cause => "failed to load configuration: " ++ cause.message
  | workers cause => "invalid --workers: " ++ chain cause
  | files cause => "failed to collect header files: " ++ chain cause
  | start cause => "failed to start workers: " ++ chain cause
  | listing cause => cause.message

/-- What a run finds before anything is written. -/
structure Findings where
  settings : Settings
  report : Report

/-- Load the settings, then collect the files and scan them. -/
def find (input : Input) (a : Arguments) : Except Failure Findings := do
  let settings ← (load (sources input)).mapError Failure.settings
  let options := a.scanOptions settings.scan
  (Scan.checkWorkers options.workers).mapError Failure.workers
  let paths ← (Walk.collect input.files a.dirs options.mode options.extensions).mapError
    Failure.files
  let report ← (Scan.dispatch input.threads options.workers input.files paths 0).mapError
    Failure.start
  return ⟨settings, report⟩

def lines (texts : List String) : String := String.join (texts.map (· ++ "\n"))

/-- The listing of what could be read. -/
def listing (input : Input) (a : Arguments) (f : Findings) : Except Failure String :=
  (Listing.render f.report.catalogue a.format a.byKind (columns? input.env)).mapError
    Failure.listing

def failureLines (f : Findings) : String :=
  lines (f.report.failures.map fun failure => name ++ ": " ++ failure.message)

/-- A line for each problem, if they are asked for. -/
def problemLines (a : Arguments) (f : Findings) : String :=
  if a.check then lines ((f.report.catalogue.check f.settings.check).map Problem.message) else ""

/-- What a run with a listing shows. Problems do not go where a JSON document is. -/
def present (a : Arguments) (f : Findings) (listing : String) : Output :=
  let problems := problemLines a f
  let (out, err) := if a.format == .json then ("", problems) else (problems, "")
  { status := if f.report.hasFailures then 1 else 0
    out := lines [listing] ++ out
    err := failureLines f ++ err }

def complete (input : Input) (a : Arguments) : Except Failure Output := do
  let findings ← find input a
  return present a findings (← listing input a findings)

def perform (input : Input) (a : Arguments) : Output :=
  match complete input a with
  | .ok output => output
  | .error failure => ⟨1, "", lines [name ++ " error: " ++ failure.message]⟩

/-- The program. Arguments that it does not understand give status 2. -/
def run (input : Input) : Output :=
  match Arguments.parse input.arguments with
  | .ok a => perform input a
  | .error .help => ⟨0, usage, ""⟩
  | .error .version => ⟨0, version, ""⟩
  | .error _ => ⟨2, "", ""⟩

end Program

end HeaderIndex
