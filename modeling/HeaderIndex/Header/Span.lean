import HeaderIndex.Text.Reading

/-! At-definitions: what stands between an opener such as `@interface Name` and
the `@end` that closes it. A search that goes line by line carries along whether
it stands inside one. The last event of a line decides the state behind it. -/

namespace HeaderIndex.Header

open HeaderIndex.Text

inductive Span where
  | outside
  | inside
  deriving DecidableEq, Repr

namespace Span

/-- The text behind a comma and the word that follows it, blanks aside. -/
def listed? (text : List Char) : Option (List Char) := do
  let rest ← after "," (trimStart text)
  let h ← word? (trimStart rest)
  return h.rest

/-- The text behind as many listed words as there are; `fuel` bounds their number. -/
def skipListed : Nat → List Char → List Char
  | 0, text => text
  | fuel + 1, text =>
    match listed? text with
    | some rest => skipListed fuel rest
    | none => text

/-- A forward declaration of one or more protocols: `@protocol A, B;`. -/
def forward : Shape Unit := fun _ text => do
  let rest ← after "@protocol" text
  let rest ← afterBlanks rest
  let h ← word? rest
  let rest ← after ";" (trimStart (skipListed h.rest.length h.rest))
  return ⟨(), rest⟩

/-- The head of a definition: a keyword, blanks and a word. -/
def opener? (text : List Char) : Option (List Char) := do
  let rest ← after "@interface" text <|> after "@implementation" text <|> after "@protocol" text
  let rest ← afterBlanks rest
  let h ← word? rest
  return h.rest

/-- An `@end` that no word character follows. -/
def closer? (text : List Char) : Option (List Char) := do
  let rest ← after "@end" text
  if rest.head?.any isWordChar then none else return rest

/-- What happens to the state at some place of a line. An opener counts only when
no forward declaration stands there or later on the line. -/
def event : Shape Span := fun _ text =>
  match opener? text with
  | some rest => if forward.occursIn text then none else some ⟨inside, rest⟩
  | none => (closer? text).map fun rest => ⟨outside, rest⟩

def step (state : Span) (line : List Char) : Span :=
  (event.occurrences line).getLast?.getD state

end Span

end HeaderIndex.Header
