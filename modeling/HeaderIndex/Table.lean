import HeaderIndex.Text.CharClass

/-! Tables of aligned columns. A column is as wide as its longest cell, its header
and six characters ask for. Where a limit is given, the widest columns are
narrowed one character at a time until the table fits, though never below their
header and six characters. A cell that is too long for its column is cut: a path
keeps its end, any other text its start. -/

namespace HeaderIndex.Table

open HeaderIndex.Text

/-- A column's width, and the width it is never narrowed below. -/
structure Column where
  width : Nat
  least : Nat
  deriving DecidableEq, Repr

/-- The least width of a column. A header counts by the bytes of its UTF-8 form. -/
def leastWidth (header : String) : Nat := max header.utf8ByteSize 6

/-- The column at an index, wide enough for all its cells. -/
def column (header : String) (rows : List (List String)) (index : Nat) : Column where
  width := (rows.filterMap fun row => row[index]?.map String.length).foldl max (leastWidth header)
  least := leastWidth header

def columns (headers : List String) (rows : List (List String)) : List Column :=
  headers.mapIdx fun index header => column header rows index

/-- The width of a line: all columns, and two blanks between neighbours. -/
def total (cols : List Column) : Nat :=
  cols.foldr (fun col width => col.width + width) 0 + 2 * (cols.length - 1)

namespace Column

def canShrink (c : Column) : Bool := c.least < c.width

/-- The width of the widest column that can be narrowed, 0 when there is none. -/
def widest (cols : List Column) : Nat := ((cols.filter canShrink).map (·.width)).foldl max 0

/-- Narrow the first column that can be narrowed and has the given width. -/
def shrinkFirst (width : Nat) : List Column → List Column
  | [] => []
  | c :: rest =>
    if c.canShrink && c.width == width then { c with width := c.width - 1 } :: rest
    else c :: shrinkFirst width rest

end Column

/-- Narrow the widest column until the table fits or no column can be narrowed;
`steps` bounds how often. -/
def narrow (limit : Nat) : Nat → List Column → List Column
  | 0, cols => cols
  | steps + 1, cols =>
    if total cols ≤ limit then cols
    else if cols.any Column.canShrink then
      narrow limit steps (Column.shrinkFirst (Column.widest cols) cols)
    else cols

/-- Columns that fit a limit as far as they can. Every step takes one character, so
the total width bounds their number. -/
def fit (limit : Option Nat) (cols : List Column) : List Column :=
  match limit with
  | none => cols
  | some m => narrow m (total cols) cols

/-- A cell of at most `width` characters. -/
def cut (width : Nat) (cell : List Char) : List Char :=
  if cell.length ≤ width then cell
  else if width ≤ 1 then ['…']
  else if cell.head? == some '/' then '…' :: cell.drop (cell.length - (width - 1))
  else cell.take (width - 1) ++ ['…']

/-- A cell of exactly `width` characters, if it was not longer. -/
def pad (width : Nat) (cell : List Char) : List Char :=
  cell ++ List.replicate (width - cell.length) ' '

/-- Cells side by side, two blanks between them. -/
def besides : List (List Char) → List Char
  | [] => []
  | [cell] => cell
  | cell :: rest => cell ++ ' ' :: ' ' :: besides rest

/-- The cell of a row at each column; a dash where the row is too short. -/
def cells (row : List String) (cols : List Column) : List (List Char) :=
  cols.mapIdx fun index c => pad c.width (cut c.width ((row[index]?.getD "-").toList))

/-- The lines of a table before the blanks at their ends are dropped. -/
def lines (headers : List String) (rows : List (List String)) (cols : List Column) :
    List (List Char) :=
  let head := besides (cells headers cols)
  head :: List.replicate head.length '-' :: rows.map fun row => besides (cells row cols)

def render (headers : List String) (rows : List (List String)) (limit : Option Nat) : String :=
  let cols := fit limit (columns headers rows)
  "\n".intercalate ((lines headers rows cols).map fun line => String.ofList (trimEnd line))

end HeaderIndex.Table
