import HeaderIndex.Header.Extract

/-! Well-formed headers: lists of declarations, each written on lines of its own, and
the symbols each of them declares. A line is a list of tokens, so that it is known of
every character whether the grammar or an identifier wrote it. -/

namespace HeaderIndex.Header

open HeaderIndex.Text

/-! ## Tokens -/

/-- An identifier that no search takes for a keyword: it holds none of the keywords that are
found inside words, and is none of those that are found as whole words. -/
structure Identifier where
  text : String
  start : text.toList.head?.any isNameStart = true := by decide
  chars : ∀ c ∈ text.toList, isAsciiWordChar c = true := by
    exact List.all_eq_true.mp (by decide)
  holdsNone : ∀ keyword ∈ ["typedef", "property", "NS_ENUM", "NS_OPTIONS"],
    ¬ keyword.toList <:+: text.toList := by decide
  isNone : text ∉ ["enum", "struct", "if", "while", "switch"] := by decide

structure Digits where
  text : String
  ne_empty : text.toList ≠ [] := by decide
  chars : ∀ c ∈ text.toList, c.isDigit = true := by exact List.all_eq_true.mp (by decide)

inductive Token where
  | literal (text : String)
  | name (i : Identifier)
  | number (n : Digits)

instance : Coe String Token := ⟨.literal⟩
instance : Coe Identifier Token := ⟨.name⟩
instance : Coe Digits Token := ⟨.number⟩

def Token.text : Token → List Char
  | literal s => s.toList
  | name i => i.text.toList
  | number n => n.text.toList

abbrev Line := List Token

def Line.text (line : Line) : List Char := line.flatMap Token.text

/-! ## Declarations -/

inductive EnumMacro where
  | nsEnum
  | nsOptions
  deriving DecidableEq, Repr

def EnumMacro.form : EnumMacro → Enumeration.Form
  | nsEnum => .nsEnum
  | nsOptions => .nsOptions

def EnumMacro.keyword : EnumMacro → String
  | nsEnum => "NS_ENUM"
  | nsOptions => "NS_OPTIONS"

/-- What a type alias with parentheses declares. -/
inductive Callable where
  | block
  | pointer
  deriving DecidableEq, Repr

def Callable.mark : Callable → String
  | block => "^"
  | pointer => "*"

structure Enumerator where
  name : Identifier
  value : Option Digits

structure BitField where
  name : Identifier
  width : Digits

structure Method where
  (result name type parameter : Identifier)

/-- The lines between two braces, of which there is at least one. -/
abbrev Body (α : Type) := { members : List α // members ≠ [] }

inductive Decl where
  | define (name : Identifier) (value : Digits)
  | externConstant (type name : Identifier)
  | staticConstant (type name : Identifier) (value : Digits) (fraction : Option Digits)
  | macroEnum (call : EnumMacro) (type name : Identifier) (body : Body Enumerator)
  | forwardEnum (type name : Identifier)
  | plainEnum (body : Body Enumerator)
  | typedefEnum (body : Body Enumerator) (name : Identifier)
  | struct (body : Body BitField) (name : Identifier)
  | typeAlias (type name : Identifier)
  | callable (form : Callable) (result name parameter : Identifier)
  | function (result name type parameter : Identifier)
  | pointerFunction (result name : Identifier)
  | interface (name super : Identifier) (methods : List Method)
  | category (name extension : Identifier) (methods : List Method)
  | protocol (name parent : Identifier) (methods : List Method)
  | forwardProtocols (name : Identifier) (more : List Identifier)
  | forwardClass (name : Identifier)

/-! ## How they are written -/

def Enumerator.line (e : Enumerator) : Line :=
  match e.value with
  | none => [e.name, ","]
  | some value => [e.name, " = ", value, ","]

def BitField.line (f : BitField) : Line := ["unsigned int ", f.name, " : ", f.width, ";"]

def Method.line (m : Method) : Line :=
  ["- (", m.result, ")", m.name, ":(", m.type, ")", m.parameter, ";"]

/-- Lines up to the one that closes them. -/
def closed (inner : List Line) (last : Line) : List Line := inner ++ [last]

/-- Methods up to the end of the class or protocol they belong to. -/
def ended (methods : List Method) : List Line := closed (methods.map Method.line) ["@end"]

/-- Names that commas part, up to a semicolon. -/
def listed : Identifier → List Identifier → Line
  | name, [] => [name, ";"]
  | name, next :: more => .cons name (.cons ", " (listed next more))

def Decl.lines : Decl → List Line
  | define name value => [["#define ", name, " ", value]]
  | externConstant type name => [["extern ", type, " *const ", name, ";"]]
  | staticConstant type name value none =>
    [["static const ", type, " ", name, " = ", value, ";"]]
  | staticConstant type name value (some fraction) =>
    [["static const ", type, " ", name, " = ", value, ".", fraction, ";"]]
  | macroEnum call type name body =>
    ["typedef ", call.keyword, "(", type, ", ", name, ") \x7b"] ::
      closed (body.1.map Enumerator.line) ["\x7d;"]
  | forwardEnum type name => [["typedef NS_ENUM(", type, ", ", name, ");"]]
  | plainEnum body => ["enum \x7b"] :: closed (body.1.map Enumerator.line) ["\x7d;"]
  | typedefEnum body name =>
    ["typedef enum \x7b"] :: closed (body.1.map Enumerator.line) ["\x7d ", name, ";"]
  | struct body name =>
    ["typedef struct \x7b"] :: closed (body.1.map BitField.line) ["\x7d ", name, ";"]
  | typeAlias type name => [["typedef ", type, " ", name, ";"]]
  | callable form result name parameter =>
    [["typedef ", result, " (", form.mark, name, ")(", parameter, ");"]]
  | function result name type parameter => [[result, " ", name, "(", type, " ", parameter, ");"]]
  | pointerFunction result name => [[result, " *", name, "(void);"]]
  | interface name super methods =>
    ["@interface ", name, " : ", super] :: ended methods
  | category name extension methods =>
    ["@interface ", name, " (", extension, ")"] :: ended methods
  | protocol name parent methods =>
    ["@protocol ", name, " <", parent, ">"] :: ended methods
  | forwardProtocols name more => [.cons "@protocol " (listed name more)]
  | forwardClass name => [["@class ", name, ";"]]

/-- The text of some lines, each ended by a line feed. -/
def written (lines : List Line) : List Char := lines.flatMap fun line => line.text ++ ['\n']

/-- The header with some declarations, one below the other. -/
def render (decls : List Decl) : String := String.ofList (written (decls.flatMap Decl.lines))

/-! ## What they declare -/

/-- The names a declaration declares, and their kind. A forward declaration and a
category declare none. -/
def Decl.declares : Decl → Option (Kind × List Identifier)
  | define name _ => some (.define, [name])
  | externConstant _ name => some (.constant, [name])
  | staticConstant _ name _ _ => some (.constant, [name])
  | macroEnum _ _ name body => some (.enum, name :: body.1.map Enumerator.name)
  | plainEnum body => some (.enum, body.1.map Enumerator.name)
  | typedefEnum body name => some (.enum, name :: body.1.map Enumerator.name)
  | struct body name => some (.struct, name :: body.1.map BitField.name)
  | typeAlias _ name => some (.typedef, [name])
  | callable _ _ name _ => some (.typedef, [name])
  | function _ name _ _ => some (.function, [name])
  | pointerFunction _ name => some (.function, [name])
  | interface name _ _ => some (.interface, [name])
  | protocol name _ _ => some (.protocol, [name])
  | forwardEnum .. | category .. | forwardProtocols .. | forwardClass .. => none

def Decl.names (kind : Kind) (d : Decl) : List String :=
  match d.declares with
  | some (k, names) => if k = kind then names.map Identifier.text else []
  | none => []

def Decl.form? : Decl → Option Enumeration.Form
  | macroEnum call .. => some call.form
  | plainEnum .. | typedefEnum .. => some .plain
  | _ => none

/-- The names of one kind that a header declares. They stand in the order of their
declarations, but enumerations are sorted by their form; a macro, a class or a protocol
that is declared again is named once. -/
def declared (kind : Kind) (decls : List Decl) : List String :=
  let inOrder := fun ds : List Decl => ds.flatMap (Decl.names kind)
  match kind with
  | .enum => Enumeration.Form.all.flatMap fun form => inOrder (decls.filter (·.form? == some form))
  | .define | .interface | .protocol => (inOrder decls).eraseDups
  | .constant | .struct | .typedef | .function => inOrder decls

end HeaderIndex.Header
