import HeaderIndex.Glob.Basic

/-! Reading the text of a pattern from left to right. A stack holds the groups
that are still open. A class takes characters as they are, so a backslash has no
meaning there; a closing bracket that comes first belongs to the class. Where
that is allowed, a bracket that is never closed stands for itself. -/

namespace HeaderIndex.Glob

/-- A group that is still open: its earlier alternatives and the tokens before it,
both last first. -/
structure Frame where
  alternatives : List (List Token)
  outer : List Token

/-- What has been read: the open groups, innermost first, and the tokens of the
pattern at hand, last first. -/
structure Progress where
  frames : List Frame
  current : List Token
  /-- Brackets stand for themselves since one of them was found to be unclosed. -/
  plainBrackets : Bool

namespace Progress

def start : Progress := ⟨[], [], false⟩

def push (p : Progress) (t : Token) : Progress := { p with current := t :: p.current }

def inGroup (p : Progress) : Bool := !p.frames.isEmpty

def openGroup (p : Progress) : Progress :=
  { p with frames := ⟨[], p.current⟩ :: p.frames, current := [] }

/-- A comma starts a new alternative inside a group and is plain outside. -/
def comma (p : Progress) : Progress :=
  match p.frames with
  | [] => p.push (.literal ',')
  | f :: rest =>
    let f := { f with alternatives := p.current :: f.alternatives }
    { p with frames := f :: rest, current := [] }

def closeGroup (p : Progress) : Except Error Progress :=
  match p.frames with
  | [] => .error .unopenedGroup
  | f :: rest =>
    let alternatives := ((p.current :: f.alternatives).map List.reverse).reverse
    .ok { p with frames := rest, current := .choice alternatives :: f.outer }

/-- The finished pattern, unless a group is still open. -/
def finish (p : Progress) : Except Error (List Token) :=
  if p.inGroup then .error .unclosedGroup else .ok p.current.reverse

/-- Put a folder token in the place of the slash before it; folders that take
everything already stay as they are. -/
def foldersAfterSlash (t : Token) : List Token → List Token
  | .leadingFolders :: rest => .leadingFolders :: rest
  | .everythingBelow :: rest => .everythingBelow :: rest
  | _ :: rest => t :: rest
  | [] => [t]

/-- Whether a part of the path starts behind a character: behind a slash, and in a
group behind what starts an alternative. -/
def startsPart (p : Progress) (prev : Option Char) : Bool :=
  prev == some '/' || (p.inGroup && (prev == some ',' || prev == some '\x7b'))

/-- Two stars, and the text behind them. They stand for folders where they fill a
whole part of the path, and for a run of bytes elsewhere. -/
def twoStars (p : Progress) (prev : Option Char) (text : List Char) : Progress × List Char :=
  let asRuns := ((p.push .run).push .run, text)
  if p.current.isEmpty then
    match text with
    | [] => (p.push .leadingFolders, [])
    | '/' :: rest => (p.push .leadingFolders, rest)
    | _ => asRuns
  else if p.startsPart prev then
    match text with
    | [] => ({ p with current := foldersAfterSlash .everythingBelow p.current }, [])
    | c :: rest =>
      if c == '/' then ({ p with current := foldersAfterSlash .innerFolders p.current }, rest)
      else if p.inGroup && (c == ',' || c == '\x7d') then
        ({ p with current := foldersAfterSlash .everythingBelow p.current }, text)
      else asRuns
  else asRuns

end Progress

/-- End the last range of a class at a character. -/
def closeRange (c : Char) : List (Char × Char) → Except Error (List (Char × Char))
  | [] => .ok [(c, c)]
  | (low, _) :: rest => if c < low then .error (.badRange low c) else .ok ((low, c) :: rest)

/-- The ranges of a class, last first, and the text behind its bracket; `none` if the
bracket is missing. `dash` says that a range waits for its end. -/
def readRanges (first dash : Bool) (ranges : List (Char × Char)) :
    List Char → Except Error (Option (List (Char × Char) × List Char))
  | [] => .ok none
  | c :: cs =>
    if c == ']' && !first then
      .ok (some (if dash then ('-', '-') :: ranges else ranges, cs))
    else if c == '-' && !first && !dash then readRanges false true ranges cs
    else if dash then do readRanges false false (← closeRange c ranges) cs
    else readRanges false false ((c, c) :: ranges) cs

/-- A class whose opening bracket has been read. -/
def readClass (text : List Char) : Except Error (Option (Token × List Char)) := do
  let (negated, text) := match text with
    | '!' :: rest => (true, rest)
    | '^' :: rest => (true, rest)
    | _ => (false, text)
  match ← readRanges true false [] text with
  | some (ranges, rest) => return some (.oneOf negated ranges.reverse, rest)
  | none => return none

/-- Read on behind `prev`. Every step takes a character, so the length of the text
is enough of a `bound`. -/
def readFrom (lenient : Bool) : Nat → Option Char → Progress → List Char →
    Except Error (List Token)
  | _, _, p, [] => p.finish
  | 0, _, p, _ :: _ => p.finish
  | bound + 1, prev, p, c :: cs =>
    match c with
    | '?' => readFrom lenient bound (some c) (p.push .any) cs
    | '*' =>
      match cs with
      | '*' :: rest =>
        let (next, text) := p.twoStars prev rest
        let last := if text.length < rest.length then '/' else '*'
        readFrom lenient bound (some last) next text
      | _ => readFrom lenient bound (some c) (p.push .run) cs
    | '[' =>
      if p.plainBrackets then readFrom lenient bound (some c) (p.push (.literal c)) cs
      else do
        match ← readClass cs with
        | some (token, rest) => readFrom lenient bound (some ']') (p.push token) rest
        | none =>
          if lenient then
            readFrom lenient bound (some c) { p.push (.literal c) with plainBrackets := true } cs
          else .error .unclosedClass
    | '\x7b' => readFrom lenient bound (some c) p.openGroup cs
    | '\x7d' => do readFrom lenient bound (some c) (← p.closeGroup) cs
    | ',' => readFrom lenient bound (some c) p.comma cs
    | '\\' =>
      match cs with
      | [] => .error .danglingEscape
      | e :: rest => readFrom lenient bound (some e) (p.push (.literal e)) rest
    | _ => readFrom lenient bound (some c) (p.push (.literal c)) cs

/-- The pattern that a text spells. A `lenient` reader takes unclosed brackets as
they are. -/
def parse (lenient : Bool) (text : String) : Except Error (List Token) :=
  readFrom lenient text.length none .start text.toList

end HeaderIndex.Glob
