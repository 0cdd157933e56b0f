/-! Shapes: what a scan looks for. A shape is tried at each place of a text from
left to right; after a hit the scan goes on behind it, so hits never overlap.
A scan cuts the text into pieces, which have two views: the values hit, in
order, and the text with each hit replaced. -/

namespace HeaderIndex.Text

/-- A value read at some place, and the text behind it. -/
structure Hit (α : Type) where
  value : α
  rest : List Char

/-- A shape sees the character before a place and the text from there on. -/
abbrev Shape (α : Type) := Option Char → List Char → Option (Hit α)

inductive Piece (α : Type) where
  | plain (c : Char)
  | hit (value : α)

namespace Piece

def value? {α : Type} : Piece α → Option α
  | plain _ => none
  | hit v => some v

/-- A plain character stands for itself, a hit for what `f` makes of it. -/
def render {α : Type} (f : α → List Char) : Piece α → List Char
  | plain c => [c]
  | hit v => f v

end Piece

namespace Shape

variable {α : Type}

/-- Scan a text, first passing over the `skip` characters that a hit still covers. -/
def scan (s : Shape α) : Nat → Option Char → List Char → List (Piece α)
  | _, _, [] => []
  | skip + 1, _, c :: cs => scan s skip (some c) cs
  | 0, before, c :: cs =>
    match s before (c :: cs) with
    | some h => .hit h.value :: scan s (cs.length - h.rest.length) (some c) cs
    | none => .plain c :: scan s 0 (some c) cs

def pieces (s : Shape α) (text : List Char) : List (Piece α) := s.scan 0 none text

/-- The values of all hits, from left to right. -/
def occurrences (s : Shape α) (text : List Char) : List α :=
  (s.pieces text).filterMap Piece.value?

/-- The text with each hit replaced by what `f` makes of its value. -/
def replace (s : Shape α) (f : α → List Char) (text : List Char) : List Char :=
  (s.pieces text).flatMap (Piece.render f)

def occursIn (s : Shape α) (text : List Char) : Bool := !(s.occurrences text).isEmpty

end Shape

end HeaderIndex.Text
