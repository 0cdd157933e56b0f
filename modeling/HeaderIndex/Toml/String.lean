import HeaderIndex.Toml.Layout

/-! Strings of a TOML document. They stand between double quotes, where escapes count,
or between single quotes, where they do not. Three quotes open a string of several
lines; the line end right behind them does not belong to it. -/

namespace HeaderIndex.Toml

open HeaderIndex.Text

/-- A string in single quotes, the opening one having been read. -/
def literal? (text : List Char) : Option (Hit (List Char)) :=
  let inside (c : Char) : Bool := isPlain c && c != '\''
  match text.dropWhile inside with
  | '\'' :: rest => some ⟨text.takeWhile inside, rest⟩
  | _ => none

/-- The text behind a backslash at the end of a line, and behind all blanks and
line ends that follow it. -/
def continuation? (text : List Char) : Option (List Char) :=
  (afterLineEnd (skipBlanks text)).map skipBlankLines

/-- The characters of a string of several lines, up to its closing quotes. Up to two
quotes may stand right before those. -/
def block? (quote : Char) (escapes : Bool) : Nat → List Char → Option (Hit (List Char))
  | 0, _ => none
  | bound + 1, text =>
    let quotes := min (text.takeWhile (· == quote)).length 5
    if 3 ≤ quotes then some ⟨List.replicate (quotes - 3) quote, text.drop quotes⟩
    else do
      let h : Hit (List Char) ← match afterLineEnd text with
        | some rest => some ⟨['\n'], rest⟩
        | none =>
          match text with
          | [] => none
          | c :: cs =>
            if escapes && c == '\\' then
              match continuation? cs with
              | some rest => some ⟨[], rest⟩
              | none => (escaped? cs).map fun e => ⟨[e.value], e.rest⟩
            else if isPlain c then some ⟨[c], cs⟩
            else none
      let more ← block? quote escapes bound h.rest
      return ⟨h.value ++ more.value, more.rest⟩

/-- A string of several lines, its opening quotes having been read. -/
def lines? (quote : Char) (escapes : Bool) (text : List Char) : Option (Hit (List Char)) :=
  let text := (afterLineEnd text).getD text
  block? quote escapes (text.length + 1) text

def lineString? : List Char → Option (Hit String)
  | '"' :: rest => quoted? rest
  | '\'' :: rest => (literal? rest).map fun h => ⟨String.ofList h.value, h.rest⟩
  | _ => none

def string? (text : List Char) : Option (Hit String) :=
  let block := match text with
    | '"' :: '"' :: '"' :: rest => some (lines? '"' true rest)
    | '\'' :: '\'' :: '\'' :: rest => some (lines? '\'' false rest)
    | _ => none
  match block with
  | some found => found.map fun h => ⟨String.ofList h.value, h.rest⟩
  | none => lineString? text

end HeaderIndex.Toml
