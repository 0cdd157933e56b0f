/-! Lines of a text. A line ends with its line feed; the last one may lack it. -/

namespace HeaderIndex.Text.Lines

/-- The lines with their ends, so that joining them gives the text back. -/
def kept : List Char → List (List Char)
  | [] => []
  | c :: cs =>
    if c == '\n' then [c] :: kept cs
    else match kept cs with
      | [] => [[c]]
      | line :: rest => (c :: line) :: rest

/-- A line without its line feed and without one carriage return before that. -/
def dropEnd (line : List Char) : List Char :=
  match line.reverse with
  | '\n' :: '\r' :: body => body.reverse
  | '\n' :: body => body.reverse
  | _ => line

def bare (text : List Char) : List (List Char) := (kept text).map dropEnd

theorem flatten_kept (text : List Char) : (kept text).flatten = text := by
  induction text with
  | nil => rfl
  | cons c cs ih =>
    simp only [kept]
    split
    · simp [ih]
    · split
      · rename_i h
        simp only [h, List.flatten_nil] at ih
        simp [← ih]
      · rename_i h
        simp only [h, List.flatten_cons] at ih
        simp [← ih]

end HeaderIndex.Text.Lines
