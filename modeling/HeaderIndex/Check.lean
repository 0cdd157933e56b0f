import HeaderIndex.Catalogue
import HeaderIndex.Text.Reading

/-! The check: symbols that look as if a search went wrong. It only reports; a
symbol it names stays in the catalogue. -/

namespace HeaderIndex

structure CheckRules where
  /-- Names with fewer characters are too short. -/
  minLength : Nat
  /-- Texts that rarely belong in a name. -/
  suspicious : List String
  deriving DecidableEq, Repr

def CheckRules.standard : CheckRules where
  minLength := 2
  suspicious := ["@", "void", "while", "if", "switch", "property", "interface", "protocol",
    "class", "implementation", "typedef", "#", "define"]

inductive Reason where
  | tooShort
  /-- The name contains this token, the first listed that it contains. -/
  | suspicious (token : String)
  deriving DecidableEq, Repr

structure Problem where
  path : Path
  symbol : String
  reason : Reason
  deriving DecidableEq, Repr

def Problem.message (p : Problem) : String := "Problem: " ++ p.symbol ++ " in " ++ p.path.display

namespace CheckRules

def isShort (rules : CheckRules) (name : String) : Bool := name.length < rules.minLength

def token? (rules : CheckRules) (name : String) : Option String :=
  rules.suspicious.find? fun t => Text.contains t.toList name.toList

/-- What is wrong with a name. One name may be both too short and suspicious. -/
def reasons (rules : CheckRules) (name : String) : List Reason :=
  (if rules.isShort name then [Reason.tooShort] else []) ++
    ((rules.token? name).map Reason.suspicious).toList

end CheckRules

def Record.check (rules : CheckRules) (record : Record) : List Problem :=
  record.symbols.flatMap fun s => (rules.reasons s.name).map (⟨record.path, s.name, ·⟩)

/-- The problems of all files, in path order and then in symbol order. -/
def Catalogue.check (c : Catalogue) (rules : CheckRules) : List Problem :=
  c.records.flatMap (Record.check rules)

end HeaderIndex
