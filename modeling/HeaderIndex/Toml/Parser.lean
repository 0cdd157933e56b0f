import HeaderIndex.Text.Utf8
import HeaderIndex.Toml.Moment
import HeaderIndex.Toml.Number
import HeaderIndex.Toml.String
import HeaderIndex.Toml.Tree

/-! Reading a TOML document: first its statements, one to a line, then the tables that
they define. The readers that call each other count down a bound; since two calls
in a row consume a character, twice the length of the text is enough. -/

namespace HeaderIndex.Toml

open HeaderIndex.Text HeaderIndex.Config

/-- Keys have fewer parts than this, and values are nested less deep. -/
def depthLimit : Nat := 80

def isBareKeyChar (c : Char) : Bool := c.isAlphanum || c == '_' || c == '-'

def keyPart? (text : List Char) : Option (Hit String) :=
  match lineString? text with
  | some h => some h
  | none =>
    match text.takeWhile isBareKeyChar with
    | [] => none
    | name => some ⟨String.ofList name, text.dropWhile isBareKeyChar⟩

/-- The parts of a key, with dots between them and blanks around them. -/
def keyParts? : Nat → List Char → Option (Hit (List String))
  | 0, _ => none
  | bound + 1, text => do
    let part ← keyPart? (skipBlanks text)
    match skipBlanks part.rest with
    | '.' :: rest => (keyParts? bound rest).map fun h => ⟨part.value :: h.value, h.rest⟩
    | rest => some ⟨[part.value], rest⟩

/-- A key: the path of tables it leads through, and its last part. -/
structure Key where
  path : List String
  last : String
  deriving DecidableEq, Repr

def key? (text : List Char) : Option (Hit Key) := do
  let h ← keyParts? text.length text
  guard (h.value.length < depthLimit)
  let last ← h.value.getLast?
  return ⟨⟨h.value.dropLast, last⟩, h.rest⟩

def inlineTable? (pairs : List (Key × Value)) : Option Value := do
  let branch ← pairs.foldlM
    (fun branch (key, value) => Branch.define key.path key.last value branch) []
  return .table (membersOf branch)

def word? (word : String) (value : Value) (text : List Char) : Option (Hit Value) :=
  (after word text).map fun rest => ⟨value, rest⟩

/-- A value that holds no others. A date or time counts as a table without members. -/
def scalar? (text : List Char) : Option (Hit Value) :=
  match text with
  | [] => none
  | c :: _ =>
    if c == '"' || c == '\'' then (string? text).map fun h => ⟨.text h.value, h.rest⟩
    else if c == 't' then word? "true" (.bool true) text
    else if c == 'f' then word? "false" (.bool false) text
    else
      match afterMoment text with
      | some rest => some ⟨.table [], rest⟩
      | none => number? text

mutual

/-- The value at the start of a text, at a depth. -/
def value? : Nat → Nat → List Char → Option (Hit Value)
  | 0, _, _ => none
  | bound + 1, depth, text =>
    match text with
    | '[' :: rest =>
      if depthLimit ≤ depth + 1 then none
      else (items? bound (depth + 1) rest).map fun h => ⟨.list h.value, h.rest⟩
    | '\x7b' :: rest =>
      if depthLimit ≤ depth + 1 then none
      else
        match skipBlanks rest with
        | '\x7d' :: rest => some ⟨.table [], rest⟩
        | rest => do
          let h ← pairs? bound (depth + 1) rest
          return ⟨← inlineTable? h.value, h.rest⟩
    | _ => scalar? text

/-- Items up to the closing bracket; a comma may stand before it. -/
def items? : Nat → Nat → List Char → Option (Hit (List Value))
  | 0, _, _ => none
  | bound + 1, depth, text =>
    match skipLayout false text with
    | ']' :: rest => some ⟨[], rest⟩
    | text => do
      let item ← value? bound depth text
      match skipLayout false item.rest with
      | ',' :: rest => (items? bound depth rest).map fun h => ⟨item.value :: h.value, h.rest⟩
      | ']' :: rest => some ⟨[item.value], rest⟩
      | _ => none

/-- One or more pairs up to the closing brace, on one line. -/
def pairs? : Nat → Nat → List Char → Option (Hit (List (Key × Value)))
  | 0, _, _ => none
  | bound + 1, depth, text => do
    let key ← key? text
    match key.rest with
    | '=' :: rest =>
      let value ← value? bound depth (skipBlanks rest)
      match skipBlanks value.rest with
      | ',' :: rest =>
        (pairs? bound depth rest).map fun h => ⟨(key.value, value.value) :: h.value, h.rest⟩
      | '\x7d' :: rest => some ⟨[(key.value, value.value)], rest⟩
      | _ => none
    | _ => none

end

inductive Statement where
  /-- The header of a table. -/
  | table (key : Key)
  /-- The header of one of several tables. -/
  | element (key : Key)
  | pair (key : Key) (value : Value)

def statement? (text : List Char) : Option (Hit Statement) :=
  match text with
  | '[' :: '[' :: rest => do
    let key ← key? rest
    let rest ← after "]]" key.rest
    return ⟨.element key.value, rest⟩
  | '[' :: rest => do
    let key ← key? rest
    let rest ← after "]" key.rest
    return ⟨.table key.value, rest⟩
  | _ => do
    let key ← key? text
    let rest ← after "=" key.rest
    let value ← value? (2 * rest.length + 2) 0 (skipBlanks rest)
    return ⟨.pair key.value value.value, value.rest⟩

/-- The statements of a text, each on lines of its own. -/
def statements? : Nat → List Char → Option (List Statement)
  | 0, _ => none
  | bound + 1, text =>
    match skipLayout false text with
    | [] => some []
    | text => do
      let h ← statement? text
      let rest ← finishLine h.rest
      return h.value :: (← statements? bound rest)

/-- The tables defined so far, and the path to the one that is open. -/
structure Document where
  branch : Branch
  here : List String

namespace Document

def empty : Document := ⟨[], []⟩

/-- A document with one more statement. -/
def add? (d : Document) : Statement → Option Document
  | .table key =>
    (Branch.openTable key.path key.last d.branch).map (⟨·, key.path ++ [key.last]⟩)
  | .element key =>
    (Branch.openElement key.path key.last d.branch).map (⟨·, key.path ++ [key.last]⟩)
  | .pair key value =>
    (Branch.alter false (fun _ inner => inner.define key.path key.last value)
      d.here .header d.branch).map (⟨·, d.here⟩)

end Document

/-- The members of the table that a document spells. -/
def parse? (text : List Char) : Option Members := do
  let statements ← statements? (text.length + 1) (Utf8.skipMark text)
  let document ← statements.foldlM Document.add? .empty
  return membersOf document.branch

end HeaderIndex.Toml
