/-! Symbols: the names a header declares, each with the kind of declaration that
introduces it. -/

namespace HeaderIndex

/-- The kinds of declaration, in the order in which they are reported. -/
inductive Kind where
  | constant
  | define
  | enum
  | struct
  | typedef
  | function
  | interface
  | protocol
  deriving DecidableEq, Repr

namespace Kind

def all : List Kind :=
  [constant, define, enum, struct, typedef, function, interface, protocol]

def text : Kind → String
  | constant => "constant"
  | define => "define"
  | enum => "enum"
  | struct => "struct"
  | typedef => "typedef"
  | function => "function"
  | interface => "interface"
  | protocol => "protocol"

def ofText? (s : String) : Option Kind := all.find? fun k => k.text == s

theorem mem_all (k : Kind) : k ∈ all := by cases k <;> decide

theorem ofText?_text (k : Kind) : ofText? k.text = some k := by cases k <;> decide

end Kind

structure Symbol where
  name : String
  kind : Kind
  deriving DecidableEq, Repr

end HeaderIndex
