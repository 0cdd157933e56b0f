import HeaderIndex.Header.Extract
import HeaderIndex.Report
import HeaderIndex.Scan.Walk

/-! Scanning: reading files and reporting their symbols. Each file is read on its
own; one that cannot be read becomes a failure and leaves the others alone. -/

namespace HeaderIndex.Scan

open HeaderIndex.Text

structure Options where
  extensions : List String
  workers : Nat
  mode : WalkMode
  deriving DecidableEq, Repr

def file (fs : FileSystem) (path : Path) : Except ScanError Record :=
  match fs.read path with
  | .error cause => .error (.read path cause)
  | .ok bytes =>
    match Utf8.decode bytes with
    | .error cause => .error (.decode path cause)
    | .ok text => .ok ⟨path, Header.symbols (String.ofList text)⟩

def outcome (fs : FileSystem) (path : Path) : Except Failure Record :=
  match file fs path with
  | .ok record => .ok record
  | .error e => .error ⟨path, e.message⟩

def records (outcomes : List (Except Failure Record)) : List Record :=
  outcomes.filterMap Except.toOption

def failures (outcomes : List (Except Failure Record)) : List Failure :=
  outcomes.filterMap fun
    | .ok _ => none
    | .error f => some f

/-- The report on outcomes, which are given in the order of their files. -/
def report (outcomes : List (Except Failure Record)) (elapsedMs : Nat) : Report :=
  .make (.ofRecords (records outcomes)) (failures outcomes) elapsedMs

/-- Scan files that are already known. -/
def files (fs : FileSystem) (paths : List Path) (elapsedMs : Nat) : Report :=
  report (paths.map (outcome fs)) elapsedMs

/-- There must be someone to do the work. -/
def checkWorkers (workers : Nat) : Except ScanError Unit :=
  if workers == 0 then .error .noWorkers else .ok ()

/-- What a system says when it is asked for a number of threads: why it cannot start them, or
nothing if it does. -/
abbrev Threads := Nat → Option String

def startPool (threads : Threads) (workers : Nat) : Except ScanError Unit :=
  match threads workers with
  | none => .ok ()
  | some cause => .error (.pool cause)

/-- Start the workers and let them scan files. -/
def dispatch (threads : Threads) (workers : Nat) (fs : FileSystem) (paths : List Path)
    (elapsedMs : Nat) : Except ScanError Report := do
  startPool threads workers
  return files fs paths elapsedMs

/-- Collect files and scan them: the files, and the report on them. -/
def run (threads : Threads) (fs : FileSystem) (roots : List Path) (options : Options)
    (elapsedMs : Nat) : Except ScanError (List Path × Report) := do
  checkWorkers options.workers
  let paths ← Walk.collect fs roots options.mode options.extensions
  return (paths, ← dispatch threads options.workers fs paths elapsedMs)

end HeaderIndex.Scan
