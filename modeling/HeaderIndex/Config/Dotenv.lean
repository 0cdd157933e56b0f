import HeaderIndex.Config.Environment
import HeaderIndex.Text.Alphanumeric
import HeaderIndex.Text.Lines
import HeaderIndex.Text.Utf8

/-! Environment variables from a file of assignments. An assignment takes one line, or
more where a quote is still open at the end of a line. A variable that is set
already keeps its value. Whatever cannot be read ends the reading, and what was
set before it stays. -/

namespace HeaderIndex.Config.Dotenv

open HeaderIndex.Text

/-- What the end of a line finds open. -/
inductive Quoting where
  | closed
  | afterBlank
  | escape
  | strong
  | strongEscape
  | weak
  | weakEscape
  deriving DecidableEq, Repr

namespace Quoting

/-- The state behind a character; `none` where a comment starts. -/
def step (c : Char) : Quoting → Option Quoting
  | afterBlank =>
    if c == '#' then none
    else some (if c == '\\' then escape else if c == '"' then weak
      else if c == '\'' then strong else closed)
  | closed =>
    some (if isBlank c && c != '\n' && c != '\r' then afterBlank else if c == '\\' then escape
      else if c == '"' then weak else if c == '\'' then strong else closed)
  | escape => some closed
  | strong => some (if c == '\\' then strongEscape else if c == '\'' then closed else strong)
  | strongEscape => some strong
  | weak => some (if c == '\\' then weakEscape else if c == '"' then closed else weak)
  | weakEscape => some weak

end Quoting

inductive LineEnd where
  | at (state : Quoting)
  /-- A comment starts behind this much of the line. -/
  | comment (before : List Char)

def lineEnd (state : Quoting) : List Char → LineEnd
  | [] => .at state
  | c :: cs =>
    match state.step c with
    | none => .comment []
    | some next =>
      match lineEnd next cs with
      | .at state => .at state
      | .comment before => .comment (c :: before)

/-- Whole assignments: lines are joined while a quote is open. The last one is `none`
if the lines end too early. `start` is what has been joined so far. -/
def assignments (start : List Char) (state : Quoting) :
    List (List Char) → List (Option (List Char))
  | [] => if state == .closed then [] else [none]
  | line :: rest =>
    let joined := start ++ line
    if (trimStart joined).head? == some '#' then some [] :: assignments [] .closed rest
    else
      match lineEnd state line with
      | .comment before => some (start ++ before) :: assignments [] .closed rest
      | .at .closed => some (Lines.dropEnd joined) :: assignments [] .closed rest
      | .at state => assignments joined state rest

def isKeyStart (c : Char) : Bool := c.isAlpha || c == '_'

def isKeyChar (c : Char) : Bool := c.isAlphanum || c == '_' || c == '.'

/-- The name of a variable, and the text behind it and behind blanks. -/
def key? (text : List Char) : Option (Hit String) :=
  if text.head?.any isKeyStart then
    some ⟨String.ofList (text.takeWhile isKeyChar), trimStart (text.dropWhile isKeyChar)⟩
  else none

/-- The name that is assigned to, and the text behind the equals sign. The word
`export` may stand before the name, or be the name. -/
def target? (text : List Char) : Option (Hit String) := do
  let first ← key? text
  match first.rest with
  | '=' :: rest => return ⟨first.value, rest⟩
  | _ =>
    guard (first.value == "export")
    let second ← key? first.rest
    match second.rest with
    | '=' :: rest => return ⟨second.value, rest⟩
    | _ => none

/-- Where the reading of a value stands. -/
inductive Place where
  | plain
  | strong
  | weak
  /-- Behind a backslash, inside double quotes or not. -/
  | escape ( inWeak : Bool)
  /-- In a name behind a dollar sign, and whether braces hold it. -/
  | name (braced : Bool) (name : List Char) ( inWeak : Bool)
  /-- Behind the value, where only blanks and a comment may follow. -/
  | done

/-- The text so far, last character first, and the place. -/
structure Progress where
  output : List Char
  place : Place

def Place.unquoted ( inWeak : Bool) : Place := if inWeak then .weak else .plain

def unescape? (c : Char) : Option Char :=
  if c == '\\' || c == '\'' || c == '"' || c == '$' || c == ' ' then some c
  else if c == 'n' then some '\n'
  else none

/-- One character more. A name behind a dollar sign without braces ends at the first
character that is no letter or digit; that character counts as itself. -/
def advance? (value : List Char → List Char) (c : Char) (p : Progress) : Option Progress :=
  let put (c : Char) (place : Place) : Option Progress := some ⟨c :: p.output, place⟩
  let move (place : Place) : Option Progress := some ⟨p.output, place⟩
  match p.place with
  | .done => if c == ' ' || c == '\t' then move .done else none
  | .escape inWeak => (unescape? c).bind fun c => put c (.unquoted inWeak)
  | .strong => if c == '\'' then move .plain else put c .strong
  | .name braced name inWeak =>
    if isAlphanumeric c then move (.name braced (c :: name) inWeak)
    else if braced then
      if c == '\x7d' then some ⟨(value name.reverse).reverse ++ p.output, .unquoted inWeak⟩
      else move (.name true (c :: name) inWeak)
    else if c == '\x7b' && name.isEmpty then move (.name true [] inWeak)
    else
      let output := (value name.reverse).reverse ++ p.output
      if c == '$' then some ⟨output, .name false [] inWeak⟩
      else some ⟨c :: output, .unquoted inWeak⟩
  | .weak =>
    if c == '$' then move (.name false [] true)
    else if c == '"' then move .plain
    else if c == '\\' then move (.escape true)
    else put c .weak
  | .plain =>
    if c == '$' then move (.name false [] false)
    else if c == '\'' then move .strong
    else if c == '"' then move .weak
    else if c == '\\' then move (.escape false)
    else if c == ' ' || c == '\t' then move .done
    else put c .plain

/-- The text of a value, `value` giving what names stand for. -/
def value? (value : List Char → List Char) (p : Progress) : List Char → Option (List Char)
  | [] =>
    match p.place with
    | .strong | .weak | .escape true | .name true _ _ | .name false _ true => none
    | .name false name false => some (p.output.reverse ++ value name.reverse)
    | .plain | .escape false | .done => some p.output.reverse
  | c :: cs =>
    match p.place with
    | .done =>
      if c == '#' then some p.output.reverse else (advance? value c p).bind (value? value · cs)
    | _ => (advance? value c p).bind (value? value · cs)

/-- What a name stands for: the variable if it is set, else what an earlier line gave. -/
def substitute (env earlier : Variables) (name : List Char) : List Char :=
  let name := String.ofList name
  match env.get? name, earlier.get? name with
  | some text, _ => text.toList
  | none, some text => text.toList
  | none, none => []

inductive Parsed where
  | nothing
  | failed
  | assigned (name value : String)

def parse (env earlier : Variables) (text : List Char) : Parsed :=
  let text := trimStart (trimEnd text)
  if text.isEmpty || text.head? == some '#' then .nothing
  else
    match target? text with
    | none => .failed
    | some h =>
      let rest := trimStart h.rest
      if rest.isEmpty || rest.head? == some '#' then .assigned h.value ""
      else
        match value? (substitute env earlier) ⟨[], .plain⟩ rest with
        | some value => .assigned h.value (String.ofList value)
        | none => .failed

/-- Carry out assignments up to the first that fails. `earlier` has what the lines so
far assigned, the last assignment of a name first. -/
def apply (env earlier : Variables) : List (Option (List Char)) → Variables
  | [] => env
  | none :: _ => env
  | some text :: rest =>
    match parse env earlier text with
    | .nothing => apply env earlier rest
    | .failed => env
    | .assigned name value =>
      apply (env.addNew name value) ((name, value) :: earlier) rest

/-- The variables with those of a file added. -/
def load (env : Variables) (bytes : List UInt8) : Variables :=
  let lines := Lines.kept (Utf8.skipMark (Utf8.readableLines bytes))
  apply env [] (assignments [] .closed lines)

end HeaderIndex.Config.Dotenv
