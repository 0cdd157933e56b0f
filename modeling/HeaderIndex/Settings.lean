import HeaderIndex.Check

/-! Settings of a run: what is scanned and how, and what the check looks for. -/

namespace HeaderIndex

structure ScanSettings where
  /-- Extensions of the files to read, with or without leading dots. -/
  extensions : List String
  /-- How many files may be read at once. -/
  workers : Nat
  /-- Whether ignore files are heeded and hidden entries passed over. -/
  respectIgnore : Bool
  deriving DecidableEq, Repr

def ScanSettings.standard : ScanSettings where
  extensions := ["h"]
  workers := 4
  respectIgnore := false

structure Settings where
  scan : ScanSettings
  check : CheckRules
  deriving DecidableEq, Repr

def Settings.standard : Settings := ⟨.standard, .standard⟩

def stripDots (extension : String) : String :=
  String.ofList (extension.toList.dropWhile (· == '.'))

inductive SettingsError where
  | noWorkers
  | noExtensions
  deriving DecidableEq, Repr

namespace SettingsError

def field : SettingsError → String
  | noWorkers => "scan.workers"
  | noExtensions => "scan.extensions"

def reason : SettingsError → String
  | noWorkers => "must be at least 1"
  | noExtensions => "at least one non-empty extension is required"

def message (e : SettingsError) : String :=
  "Invalid configuration value for '" ++ e.field ++ "': " ++ e.reason

end SettingsError

/-- Scanning needs a worker, and an extension that is more than dots. -/
def ScanSettings.validate (s : ScanSettings) : Except SettingsError Unit :=
  if s.workers == 0 then .error .noWorkers
  else if s.extensions.all fun e => (stripDots e).isEmpty then .error .noExtensions
  else .ok ()

def Settings.validate (s : Settings) : Except SettingsError Unit := s.scan.validate

end HeaderIndex
