import HeaderIndex.Text.Reading

/-! Type aliases. At each `typedef` two forms are tried in order: a callable,
`typedef R (^Name)(…);` or `typedef R (*Name)(…);`, and a plain alias,
`typedef T Name;`, named by the last word before a semicolon on its line. An
alias inside a parenthesis that is still open is read over and not reported. -/

namespace HeaderIndex.Header.Typedef

open HeaderIndex.Text

/-- The name a typedef introduces and how many parentheses are open before it. -/
structure Alias where
  name : List Char
  depth : Int

/-- A block or function pointer: the first parenthesis holds a `^` or `*` before
it closes, and a name behind that. -/
def callable? (text : List Char) : Option (Hit Alias) := do
  let rest ← after "(" (text.dropWhile fun c => c != '(' && c != ';' && c != '\x7b')
  let rest := rest.dropWhile fun c => c != '^' && c != '*' && c != ';' && c != ')'
  let rest ← after "^" rest <|> after "*" rest
  let h ← name? none (trimStart rest)
  let rest ← afterFirst ';' h.rest
  return ⟨⟨h.value, 0⟩, rest⟩

/-- How a character changes the number of open parentheses. -/
def deepen (c : Char) : Int := if c == '(' then 1 else if c == ')' then -1 else 0

/-- The text behind the last semicolon before a further word or an opening brace. -/
def finish? (text : List Char) : Option (List Char) :=
  afterLast (fun c => !isWordChar c && c != '\x7b') ';' text

/-- The first name on the line that a semicolon ends, before any `;` or brace. -/
def plain? (prev : Char) (depth : Int) : List Char → Option (Hit Alias)
  | [] => none
  | c :: cs =>
    let found : Option (Hit Alias) := do
      let h ← name? (some prev) (c :: cs)
      let rest ← finish? h.rest
      return ⟨⟨h.value, depth⟩, rest⟩
    match found with
    | some h => some h
    | none =>
      if c == ';' || c == '\x7b' || c == '\n' then none
      else plain? c (depth + deepen c) cs

def shape : Shape Alias := fun _ text => do
  let rest ← after "typedef" text
  callable? rest <|> plain? 'f' 0 rest

def find (text : List Char) : List String :=
  ((shape.occurrences text).filter (·.depth ≤ 0)).map fun a => String.ofList a.name

end HeaderIndex.Header.Typedef
