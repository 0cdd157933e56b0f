/-! Glob patterns. A pattern is a sequence of tokens; a group in braces offers
alternatives, which are patterns themselves. -/

namespace HeaderIndex.Glob

inductive Token where
  /-- The character itself. -/
  | literal (c : Char)
  /-- One byte, `?`. -/
  | any
  /-- Any run of bytes, `*`. -/
  | run
  /-- Any number of folders at the start, `**/`. -/
  | leadingFolders
  /-- Any number of folders between two others, `/**/`. -/
  | innerFolders
  /-- Everything below a folder, `/**`. -/
  | everythingBelow
  /-- One byte of a class, or one outside it. -/
  | oneOf (negated : Bool) (ranges : List (Char × Char))
  /-- One of several patterns. -/
  | choice (alternatives : List (List Token))

inductive Error where
  | unclosedClass
  | badRange (low high : Char)
  | unclosedGroup
  | unopenedGroup
  | danglingEscape
  deriving DecidableEq, Repr

def Error.message : Error → String
  | unclosedClass => "unclosed character class; missing ']'"
  | badRange low high => "invalid range; '" ++ low.toString ++ "' > '" ++ high.toString ++ "'"
  | unclosedGroup =>
    "unclosed alternate group; missing '\x7d' (maybe escape '\x7b' with '[\x7b]'?)"
  | unopenedGroup =>
    "unopened alternate group; missing '\x7b' (maybe escape '\x7d' with '[\x7d]'?)"
  | danglingEscape => "dangling '\\'"

end HeaderIndex.Glob
