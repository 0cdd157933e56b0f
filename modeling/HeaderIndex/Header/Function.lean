import HeaderIndex.Header.Exclusion
import HeaderIndex.Header.Span
import HeaderIndex.Text.Lines

/-! Functions. A name directly before a parenthesis that opens no block is a
candidate. It is reported unless its line starts inside an at-definition or an
exclusion fires on what stands before it on its line, or on the name itself. -/

namespace HeaderIndex.Header.Function

open HeaderIndex.Text

/-- Whether blanks, an opening parenthesis and one more character other than `^` follow. -/
def opensCall (text : List Char) : Bool :=
  match trimStart text with
  | '(' :: c :: _ => c != '^'
  | _ => false

/-- Whether a call opens in a text that goes on in the lines below it. These are only
read as far as they matter. -/
def isCall (text : List Char) (below : List (List Char)) : Bool :=
  match trimStart text, below with
  | [], line :: below => isCall line below
  | ['('], below => below.flatten.head?.any (· != '^')
  | '(' :: c :: _, _ => c != '^'
  | _, _ => false

theorem isCall_eq (text : List Char) (below : List (List Char)) :
    isCall text below = opensCall (text ++ below.flatten) := by
  induction below generalizing text with
  | nil =>
    unfold isCall opensCall
    rw [List.flatten_nil, List.append_nil]
    split <;> simp_all
  | cons line below ih =>
    have hsplit : trimStart (text ++ (line :: below).flatten) =
        if (trimStart text).isEmpty then trimStart (line ++ below.flatten)
        else trimStart text ++ (line ++ below.flatten) := List.dropWhile_append
    unfold isCall
    rw [opensCall, hsplit]
    cases trimStart text with
    | nil => simp [ih, opensCall]
    | cons c cs =>
      cases cs with
      | cons d ds => by_cases hc : c = '(' <;> simp [hc]
      | nil =>
        by_cases hc : c = '('
        · subst hc
          cases hf : line ++ below.flatten <;> simp [hf]
        · simp [hc]

def isAdmitted (lead name : List Char) : Bool :=
  Exclusion.admits Exclusion.ofFunction lead && Exclusion.admits Exclusion.ofFunction name

/-- The functions of one line. `lead` is the part of the line already passed,
last character first; `below` are the lines that follow. -/
def onLine (below : List (List Char)) (lead : List Char) : List Char → List String
  | [] => []
  | c :: cs =>
    let rest := onLine below (c :: lead) cs
    match name? lead.head? (c :: cs) with
    | some h =>
      if isCall h.rest below && isAdmitted lead.reverse h.value then
        String.ofList h.value :: rest
      else rest
    | none => rest

/-- The functions of the lines that start outside an at-definition. -/
def onLines : Span → List (List Char) → List String
  | _, [] => []
  | state, line :: rest =>
    (if state == .outside then onLine rest [] line else []) ++
      onLines (state.step line) rest

def find (text : List Char) : List String := onLines .outside (Lines.kept text)

end HeaderIndex.Header.Function
