import HeaderIndex.Glob.Match
import HeaderIndex.Glob.Parser
import HeaderIndex.Text.CharClass
import HeaderIndex.Text.Lines

/-! Ignore files. Each line is a rule: a pattern that ignores what it matches or,
behind an exclamation mark, keeps it. The last rule of a file that matches a path
decides. A pattern without a slash inside matches names at any depth, another one
matches paths from the folder of its file. -/

namespace HeaderIndex.Ignore

open HeaderIndex.Text

inductive Verdict where
  | ignore
  | keep
  deriving DecidableEq, Repr

structure Rule where
  pattern : List Glob.Token
  verdict : Verdict
  /-- The rule is about folders only. -/
  foldersOnly : Bool

/-- A line without the blanks at its end, unless the last one is escaped. -/
def trimLine (line : List Char) : List Char :=
  if [' ', '\\'].isPrefixOf line.reverse then line else trimEnd line

/-- What a line says before its pattern is read: the verdict, whether it starts at
the folder of the file, and the text of the pattern. -/
def head (line : List Char) : Verdict × Bool × List Char :=
  match line with
  | '\\' :: '!' :: rest => (.ignore, false, '!' :: rest)
  | '\\' :: '#' :: rest => (.ignore, false, '#' :: rest)
  | '!' :: '/' :: rest => (.keep, true, rest)
  | '!' :: rest => (.keep, false, rest)
  | '/' :: rest => (.ignore, true, rest)
  | _ => (.ignore, false, line)

/-- A pattern without the slash at its end, and whether there was one. A backslash
before that slash goes with it. -/
def dropSlash (text : List Char) : Bool × List Char :=
  match text.reverse with
  | '/' :: '\\' :: rest => (true, rest.reverse)
  | '/' :: rest => (true, rest.reverse)
  | _ => (false, text)

/-- Whether a pattern already starts at any depth. -/
def startsAnywhere (text : List Char) : Bool :=
  ['*', '*', '/'].isPrefixOf text || text == ['*', '*']

/-- The pattern of a rule in full: a name is looked for at any depth, and `/**` at
the end does not match the folder itself. -/
def complete (anchored : Bool) (text : List Char) : List Char :=
  let text :=
    if anchored || text.contains '/' || startsAnywhere text then text
    else ['*', '*', '/'] ++ text
  if ['*', '*', '/'].isPrefixOf text.reverse then text ++ ['/', '*'] else text

/-- The rule of a line. Blank lines, comments and lines whose pattern cannot be
read have none. -/
def ofLine? (line : List Char) : Option Rule :=
  if line.head? == some '#' then none
  else
    match trimLine line with
    | [] => none
    | line =>
      let (verdict, anchored, text) := head line
      let (foldersOnly, text) := dropSlash text
      match Glob.parse true (String.ofList (complete anchored text)) with
      | .ok pattern => some ⟨pattern, verdict, foldersOnly⟩
      | .error _ => none

/-- The rules of an ignore file; byte order marks at its start do not count. -/
def ofText (text : List Char) : List Rule :=
  (Lines.bare (text.dropWhile (· == '\ufeff'))).filterMap ofLine?

/-- Whether a rule is about a path, given from the folder of its file. -/
def Rule.applies (rule : Rule) (path : Name) (isFolder : Bool) : Bool :=
  (isFolder || !rule.foldersOnly) && Glob.matchesText true rule.pattern path

/-- The verdict of the last rule that is about a path. -/
def verdict? (rules : List Rule) (path : Name) (isFolder : Bool) : Option Verdict :=
  (rules.reverse.find? (·.applies path isFolder)).map (·.verdict)

end HeaderIndex.Ignore
