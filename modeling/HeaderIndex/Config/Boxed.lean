import HeaderIndex.Config.Value

/-! Boxed values. A table in a file may stand for a value, which it holds under a key of
its own; the other members of such a box do not count. A second key is kept for
marks that no file can give, so a table that has it cannot be read. Neither key
means anything among the members of the file itself. -/

namespace HeaderIndex.Config

def boxKey : String := "___figment_value_value"

/-- The key that a table must not have. -/
def markKey : String := "___figment_value_id"

/-- What a table stands for, if it has no mark. -/
def unboxTable? (members : Members) : Option Value :=
  if (members.lookup markKey).isSome then none
  else some ((members.lookup boxKey).getD (.table members))

mutual

/-- A value in which every box is opened. -/
def Value.unbox? : Value → Option Value
  | .table members => (unboxMembers? members).bind unboxTable?
  | .list items => (unboxItems? items).map .list
  | value => some value

def unboxItems? : List Value → Option (List Value)
  | [] => some []
  | item :: rest => do return (← item.unbox?) :: (← unboxItems? rest)

def unboxMembers? : List (String × Value) → Option Members
  | [] => some []
  | (key, value) :: rest => do return (key, ← value.unbox?) :: (← unboxMembers? rest)

end

end HeaderIndex.Config
