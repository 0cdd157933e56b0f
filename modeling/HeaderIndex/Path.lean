import HeaderIndex.Text.Utf8

/-! Paths of a file system with one root. Names are bytes, as the system keeps them, and
need not spell a text. A path is kept as it is spelled and compared by its
components: repeated slashes, a slash at the end and every `.` but a leading one
make no difference. -/

namespace HeaderIndex

open HeaderIndex.Text

abbrev Name := List UInt8

def slash : UInt8 := 0x2f

def dot : UInt8 := 0x2e

inductive Component where
  | root
  | here
  | parent
  | name (bytes : Name)
  deriving DecidableEq, Repr

namespace Component

/-- The place of each kind of component in the order of paths. -/
def rank : Component → Nat
  | root => 0
  | here => 1
  | parent => 2
  | name _ => 3

/-- Components are ordered by kind, names by their bytes. -/
def order : Component → Component → Ordering
  | name s, name t => compare s t
  | a, b => compare a.rank b.rank

def bytes : Component → Name
  | root => [slash]
  | here => [dot]
  | parent => [dot, dot]
  | name s => s

/-- The component a piece between slashes stands for; empty pieces and `.` stand for none. -/
def ofPiece? (piece : Name) : Option Component :=
  if piece == [] || piece == [dot] then none
  else if piece == [dot, dot] then some parent
  else some (name piece)

end Component

structure Path where
  bytes : List UInt8
  deriving DecidableEq, Repr

namespace Path

def ofText (text : String) : Path := ⟨Utf8.bytes text⟩

def text? (p : Path) : Option String := Utf8.text? p.bytes

/-- How a path is shown, whether it spells a text or not. -/
def display (p : Path) : String := String.ofList (Utf8.lossy p.bytes)

def isAbsolute (p : Path) : Bool := p.bytes.head? == some slash

/-- What a path starts with: the `.` that it spells, the root, or nothing. -/
def start (pieces : List Name) : List Component :=
  if pieces.head? == some [dot] then [.here]
  else if pieces.head? == some [] && 1 < pieces.length then [.root]
  else []

def components (p : Path) : List Component :=
  let pieces := p.bytes.splitOn slash
  start pieces ++ pieces.filterMap Component.ofPiece?

/-- Paths are ordered component by component. -/
def order (p q : Path) : Ordering := List.compareLex Component.order p.components q.components

/-- Whether two spellings name the same path. -/
def same (p q : Path) : Bool := p.components == q.components

def le (p q : Path) : Bool := (order p q).isLE

/-- The last component, if it is a name. -/
def fileName? (p : Path) : Option Name :=
  match p.components.getLast? with
  | some (.name s) => some s
  | _ => none

/-- One path below another: a slash is put between them unless one is there. -/
def below (p : Path) (name : Name) : Path :=
  if p.bytes.isEmpty || p.bytes.getLast? == some slash then ⟨p.bytes ++ name⟩
  else ⟨p.bytes ++ slash :: name⟩

end Path

end HeaderIndex
