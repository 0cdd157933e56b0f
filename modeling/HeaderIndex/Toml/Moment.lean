import HeaderIndex.Text.Number
import HeaderIndex.Text.Shape

/-! Dates and times of a TOML document: a date, a time of day, or both, the latter
with an offset or without. No setting is a date, so only the form is checked. -/

namespace HeaderIndex.Toml

open HeaderIndex.Text

/-- A number of exactly so many digits, within bounds. -/
def field? (count low high : Nat) (text : List Char) : Option (Hit Nat) := do
  let n ← digits? (text.take count)
  if (text.take count).length == count && low ≤ n && n ≤ high then some ⟨n, text.drop count⟩
  else none

def expect? (c : Char) : List Char → Option (List Char)
  | [] => none
  | d :: rest => if d == c then some rest else none

def isLeapYear (year : Nat) : Bool := year % 4 == 0 && (year % 100 != 0 || year % 400 == 0)

def daysInMonth (year month : Nat) : Nat :=
  if month == 2 then if isLeapYear year then 29 else 28
  else if month == 4 || month == 6 || month == 9 || month == 11 then 30
  else 31

def afterDate (text : List Char) : Option (List Char) := do
  let year ← field? 4 0 9999 text
  let month ← field? 2 1 12 (← expect? '-' year.rest)
  let day ← field? 2 1 31 (← expect? '-' month.rest)
  guard (day.value ≤ daysInMonth year.value month.value)
  return day.rest

/-- The text behind a time of day; the second may be a leap second and have a fraction. -/
def afterTime (text : List Char) : Option (List Char) := do
  let hour ← field? 2 0 23 text
  let minute ← field? 2 0 59 (← expect? ':' hour.rest)
  let second ← field? 2 0 60 (← expect? ':' minute.rest)
  match second.rest with
  | '.' :: rest =>
    if rest.head?.any Char.isDigit then some (rest.dropWhile Char.isDigit) else none
  | rest => some rest

def afterOffset : List Char → Option (List Char)
  | [] => some []
  | c :: cs =>
    if c == 'Z' || c == 'z' then some cs
    else if c == '+' || c == '-' then do
      let hour ← field? 2 0 23 cs
      let minute ← field? 2 0 59 (← expect? ':' hour.rest)
      return minute.rest
    else some (c :: cs)

/-- The text behind a date or time. A blank behind a date need not announce a time. -/
def afterMoment (text : List Char) : Option (List Char) :=
  match afterDate text with
  | none => afterTime text
  | some [] => some []
  | some (c :: cs) =>
    if c == 'T' || c == 't' || c == ' ' then
      match afterTime cs with
      | some rest => afterOffset rest
      | none => some (c :: cs)
    else some (c :: cs)

end HeaderIndex.Toml
