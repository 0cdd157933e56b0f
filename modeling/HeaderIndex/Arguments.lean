import HeaderIndex.Listing
import HeaderIndex.Scan.Basic
import HeaderIndex.Settings
import HeaderIndex.Text.Number

/-! Arguments of the command line. They are bytes, as names of files are; what is no text can
name a folder but not be the value of an option. An option that takes a value has it attached,
or in the next argument; that argument must not look like an option. A value is looked at when
the next known option, or the end, shows that it is complete, so an unknown option behind a
bad value is what gets reported. -/

namespace HeaderIndex

open HeaderIndex.Text

structure Arguments where
  /-- The folders and files to scan. -/
  dirs : List Path
  check : Bool
  extensions : List String
  workers : Option Nat
  respectIgnore : Bool
  byKind : Bool
  format : Format
  quiet : Bool
  verbose : Bool
  deriving DecidableEq, Repr

namespace Arguments

@[match_pattern]
def dash : UInt8 := 0x2d

def equals : UInt8 := 0x3d

inductive Flag where
  | check
  | respectIgnore
  | byKind
  | quiet
  | verbose
  | help
  | version
  deriving DecidableEq, Repr

inductive Setting where
  | extension
  | workers
  | format
  deriving DecidableEq, Repr

inductive Choice where
  | flag (flag : Flag)
  | setting (setting : Setting)
  deriving DecidableEq, Repr

def long? : String → Option Choice
  | "check" => some (.flag .check)
  | "respect-ignore" => some (.flag .respectIgnore)
  | "by-kind" => some (.flag .byKind)
  | "quiet" => some (.flag .quiet)
  | "verbose" => some (.flag .verbose)
  | "help" => some (.flag .help)
  | "version" => some (.flag .version)
  | "ext" => some (.setting .extension)
  | "workers" => some (.setting .workers)
  | "format" => some (.setting .format)
  | _ => none

def short? (letter : Char) : Option Choice :=
  if letter == 'q' then some (.flag .quiet)
  else if letter == 'v' then some (.flag .verbose)
  else if letter == 'h' then some (.flag .help)
  else if letter == 'V' then some (.flag .version)
  else if letter == 'e' then some (.setting .extension)
  else if letter == 'j' then some (.setting .workers)
  else if letter == 'f' then some (.setting .format)
  else none

inductive Stop where
  | help
  | version
  | noDirs
  | emptyDir
  | unknown (option : Name)
  | repeated
  | quietAndVerbose
  | noValue (setting : Setting)
  | needlessValue (flag : Flag)
  | notText (setting : Setting)
  | badFormat (value : String)
  | badNumber (value : String)
  deriving DecidableEq, Repr

/-- What has been read and not been looked at yet. -/
inductive Pending where
  | nothing
  | setting (setting : Setting) (value : Option Name)
  | dirs (texts : List Name)
  deriving DecidableEq, Repr

structure Progress where
  flags : List Flag
  extensions : List String
  workers : Option Nat
  format : Option Format
  dirs : List Path
  pending : Pending

namespace Progress

def start : Progress := ⟨[], [], none, none, [], .nothing⟩

/-- Whether a setting may not be given any more. Only extensions may be given again. -/
def isSet (p : Progress) : Setting → Bool
  | .extension => false
  | .workers => p.workers.isSome
  | .format => p.format.isSome

def take (p : Progress) (setting : Setting) (value : String) : Except Stop Progress :=
  match setting with
  | .extension => .ok { p with extensions := p.extensions ++ [value] }
  | .workers =>
    match natural? value.toList with
    | some n => .ok { p with workers := some n }
    | none => .error (.badNumber value)
  | .format =>
    match Format.ofText? value with
    | some format => .ok { p with format := some format }
    | none => .error (.badFormat value)

def set (p : Progress) (setting : Setting) (value : Name) : Except Stop Progress :=
  if p.isSet setting then .error .repeated
  else
    match Utf8.text? value with
    | some text => p.take setting text
    | none => .error (.notText setting)

/-- Look at what is pending. -/
def settle (p : Progress) : Except Stop Progress :=
  let settled := { p with pending := .nothing }
  match p.pending with
  | .nothing => .ok settled
  | .setting setting none => .error (.noValue setting)
  | .setting setting (some value) => settled.set setting value
  | .dirs texts =>
    if texts.any List.isEmpty then .error .emptyDir
    else .ok { settled with dirs := p.dirs ++ texts.map Path.mk }

def raise (p : Progress) (flag : Flag) : Except Stop Progress := do
  let p ← p.settle
  match flag with
  | .help => .error .help
  | .version => .error .version
  | _ =>
    if p.flags.contains flag then .error .repeated
    else .ok { p with flags := p.flags ++ [flag] }

/-- Start a setting, whose value may be attached. -/
def give (p : Progress) (setting : Setting) : Option Name → Except Stop Progress
  | some value => do (← p.settle).set setting value
  | none => do return { ← p.settle with pending := .setting setting none }

def positional (p : Progress) (text : Name) : Except Stop Progress :=
  match p.pending with
  | .dirs texts => .ok { p with pending := .dirs (texts ++ [text]) }
  | _ => do return { ← p.settle with pending := .dirs [text] }

/-- The letters of one argument. The first that takes a value takes all that follow. -/
def letters (p : Progress) : Name → Except Stop Progress
  | [] => .ok p
  | letter :: rest =>
    match short? (Char.ofUInt8 letter) with
    | none => .error (.unknown (letter :: rest))
    | some (.flag flag) => do (← p.raise flag).letters rest
    | some (.setting setting) =>
      p.give setting (match rest with
        | [] => none
        | sign :: value => some (if sign == equals then value else sign :: value))

/-- An option by its long name, with what stands behind an equals sign. -/
def long (p : Progress) (name : Name) (value : Option Name) : Except Stop Progress :=
  match (Utf8.text? name).bind long? with
  | none => .error (.unknown name)
  | some (.setting setting) => p.give setting value
  | some (.flag flag) => if value.isSome then .error (.needlessValue flag) else p.raise flag

/-- An argument that may be an option. A single dash is none. -/
def argument (p : Progress) (text : Name) : Except Stop Progress :=
  match text with
  | dash :: dash :: rest =>
    match rest.dropWhile (· != equals) with
    | [] => p.long rest none
    | _ :: value => p.long (rest.takeWhile (· != equals)) (some value)
  | dash :: letter :: rest => p.letters (letter :: rest)
  | _ =>
    match p.pending with
    | .setting setting none => .ok { p with pending := .setting setting (some text) }
    | _ => p.positional text

/-- All arguments; behind `--` none is an option. -/
def arguments (p : Progress) : List Name → Except Stop Progress
  | [] => p.settle
  | text :: rest =>
    if text == [dash, dash] then do (← rest.foldlM positional p).settle
    else do (← p.argument text).arguments rest

end Progress

def parse (texts : List Name) : Except Stop Arguments := do
  let p ← Progress.start.arguments texts
  if p.flags.contains .quiet && p.flags.contains .verbose then .error .quietAndVerbose
  else if p.dirs.isEmpty then .error .noDirs
  else return {
    dirs := p.dirs
    check := p.flags.contains .check
    extensions := p.extensions
    workers := p.workers
    respectIgnore := p.flags.contains .respectIgnore
    byKind := p.flags.contains .byKind
    format := p.format.getD .json
    quiet := p.flags.contains .quiet
    verbose := p.flags.contains .verbose }

/-- The options of a scan: what the arguments leave open comes from the settings. -/
def scanOptions (a : Arguments) (settings : ScanSettings) : Scan.Options where
  extensions := if a.extensions.isEmpty then settings.extensions else a.extensions
  workers := a.workers.getD settings.workers
  mode := if a.respectIgnore || settings.respectIgnore then .respectIgnore else .raw

end Arguments

end HeaderIndex
