import HeaderIndex.Proofs.Header.Event
import HeaderIndex.Proofs.Header.Keyword

/-! At-definitions line by line. Nothing happens on a line without an `@`; on a line that
starts with its only `@`, what stands there decides. A search that goes line by line
passes over every declaration that starts with one (`GoesByLine.pass_at`). -/

namespace HeaderIndex.Header

open HeaderIndex.Text

namespace Span

theorem step_opener_line {first : String} (hfirst : first = "@interface " ∨ first = "@protocol ")
    (name : Identifier) {tail : Line}
    (hend : ∀ rest, wordBoundary (tail.text ++ rest).head? = true)
    (hat : tail.all (Token.avoids '@') = true) (hsemi : tail.all (Token.avoids ';') = true)
    {ending : List Char} (h : ending = [] ∨ ending = ['\n']) (state : Span) :
    step state (Line.text (.cons first (.cons name tail)) ++ ending) = .inside := by
  obtain ⟨keyword, hk, hsplit⟩ : ∃ keyword ∈ openers,
      first.toList = keyword.toList ++ " ".toList := by
    rcases hfirst with rfl | rfl
    · exact ⟨"@interface", by decide, rfl⟩
    · exact ⟨"@protocol", by decide, rfl⟩
  have htext : Line.text (.cons first (.cons name tail)) ++ ending =
      keyword.toList ++ (" ".toList ++ (name.text.toList ++ (tail.text ++ ending))) := by
    simp [Line.text, Token.text, hsplit]
  have hmark : ∀ mark, isWordChar mark = false → mark ≠ '\n' →
    tail.all (Token.avoids mark) = true →
      mark ∉ tail.text ++ ending := by
    intro mark hm hfeed havoids
    rw [List.mem_append, not_or]
    exact ⟨Line.not_mem_text hm havoids, by rcases h with rfl | rfl <;> simp [hfeed]⟩
  rw [htext]
  exact step_opener hk (by simp) (by simp) name.isName.toIsWord (hend ending)
    (hmark '@' (by decide) (by decide) hat) (hmark ';' (by decide) (by decide) hsemi) state

theorem step_end {ending : List Char} (h : ending = [] ∨ ending = ['\n']) (state : Span) :
    step state (Line.text ["@end"] ++ ending) = .outside := by
  rcases h with rfl | rfl <;> rfl

theorem step_class (name : Identifier) {ending : List Char} (h : ending = [] ∨ ending = ['\n'])
    (state : Span) : step state (Line.text ["@class ", name, ";"] ++ ending) = state := by
  have hat : '@' ∉ Line.text ["class ", name, ";"] ++ ending := by
    rw [List.mem_append, not_or]
    exact ⟨Line.not_mem_text (by decide) rfl, by rcases h with rfl | rfl <;> decide⟩
  have hevent : event none ('@' :: (Line.text ["class ", name, ";"] ++ ending)) = none := rfl
  have hstep := step_at hat state
  rw [hevent] at hstep
  exact hstep

theorem listed_text (name : Identifier) (more : List Identifier) : (listed name more).text =
    name.text.toList ++ (more.flatMap fun next => ", ".toList ++ next.text.toList) ++ [';'] := by
  induction more generalizing name with
  | nil => simp [listed, Line.text, Token.text]
  | cons next more ih =>
    rw [listed, Line.text_cons, Line.text_cons, ih next]
    simp [Token.text]

/-- The forward declaration of identifiers on one line. -/
def forwardOf (name : Identifier) (more : List Identifier) : Forward where
  gap := " ".toList
  first := name.text.toList
  more := more.map fun next =>
    { lead := [], gap := " ".toList, name := next.text.toList, isWord := next.isName.toIsWord }
  trail := []
  isWord := name.isName.toIsWord

theorem forwardOf_text (name : Identifier) (more : List Identifier) :
    Line.text (.cons "@protocol " (listed name more)) = (forwardOf name more).text := by
  rw [Line.text_cons, listed_text, Forward.text_eq]
  simp [forwardOf, Forward.tail, Token.text, List.flatMap_map, ListedName.text]

theorem step_forwardOf (name : Identifier) (more : List Identifier) {ending : List Char}
    (h : ending = [] ∨ ending = ['\n']) (state : Span) :
    step state (Line.text (.cons "@protocol " (listed name more)) ++ ending) = state := by
  rw [forwardOf_text]
  exact step_forward _ (by rcases h with rfl | rfl <;> decide) state

end Span

/-! ## Searches that go line by line -/

def Decl.isAt : Decl → Bool
  | .interface .. | .category .. | .protocol .. | .forwardProtocols .. | .forwardClass .. => true
  | _ => false

/-- A search that reads one line after the other, each with its ending, and passes over
the lines inside an at-definition, over silent ones, and over those that start with an `@`. -/
structure GoesByLine (onLines : Span → List (List Char) → List String) (ending : List Char)
    (silent : Line → Bool) : Prop where
  ends : ending = [] ∨ ending = ['\n']
  inside : ∀ line rest, onLines .inside (line :: rest) = onLines (Span.step .inside line) rest
  outside : ∀ line, silent line = true → ∀ rest,
    onLines .outside ((line.text ++ ending) :: rest) =
      onLines (Span.step .outside (line.text ++ ending)) rest
  marked : ∀ (first : String) tail, first.toList.head? = some '@' →
    silent (.cons first tail) = true

namespace GoesByLine

variable {onLines : Span → List (List Char) → List String} {ending : List Char}
  {silent : Line → Bool}

theorem step_quiet (hs : GoesByLine onLines ending silent) {line : Line}
    (h : line.all (Token.avoids '@') = true) (state : Span) :
    Span.step state (line.text ++ ending) = state := by
  refine Span.step_of_not_mem ?_ state
  rw [List.mem_append, not_or]
  exact ⟨Line.not_mem_text (by decide) h, by rcases hs.ends with he | he <;> rw [he] <;> decide⟩

theorem quiet (hs : GoesByLine onLines ending silent) {lines : List Line}
    (h : ∀ line ∈ lines, (silent line && line.all (Token.avoids '@')) = true)
    (rest : List (List Char)) :
    onLines .outside (lines.map (·.text ++ ending) ++ rest) = onLines .outside rest := by
  induction lines with
  | nil => rfl
  | cons line lines ih =>
    obtain ⟨hsilent, hat⟩ := Bool.and_eq_true_iff.mp (h line (by simp))
    rw [List.map_cons, List.cons_append, hs.outside line hsilent, hs.step_quiet hat]
    exact ih fun l hl => h l (by simp [hl])

theorem ended (hs : GoesByLine onLines ending silent) (methods : List Method)
    (rest : List (List Char)) :
    onLines .inside ((ended methods).map (·.text ++ ending) ++ rest) = onLines .outside rest := by
  induction methods with
  | nil =>
    show onLines .inside ((Line.text ["@end"] ++ ending) :: rest) = onLines .outside rest
    rw [hs.inside, Span.step_end hs.ends]
  | cons m methods ih =>
    show onLines .inside ((m.line.text ++ ending) ::
      ((Header.ended methods).map (·.text ++ ending) ++ rest)) = onLines .outside rest
    rw [hs.inside, hs.step_quiet rfl]
    exact ih

theorem opened (hs : GoesByLine onLines ending silent) {first : Line}
    (hsilent : silent first = true)
    (hstep : Span.step .outside (first.text ++ ending) = .inside) (methods : List Method)
    (rest : List (List Char)) :
    onLines .outside ((first :: Header.ended methods).map (·.text ++ ending) ++ rest) =
      onLines .outside rest := by
  rw [List.map_cons, List.cons_append, hs.outside first hsilent, hstep, hs.ended]

/-- A declaration that starts with an `@` is passed over. -/
theorem pass_at (hs : GoesByLine onLines ending silent) {d : Decl} (hd : d.isAt = true)
    (rest : List (List Char)) :
    onLines .outside (d.lines.map (·.text ++ ending) ++ rest) = onLines .outside rest := by
  cases d with
  | interface name super methods =>
    exact hs.opened (hs.marked _ _ rfl)
      (Span.step_opener_line (.inl rfl) name (fun _ => rfl) rfl rfl hs.ends _) methods rest
  | category name extension methods =>
    exact hs.opened (hs.marked _ _ rfl)
      (Span.step_opener_line (.inl rfl) name (fun _ => rfl) rfl rfl hs.ends _) methods rest
  | protocol name parent methods =>
    exact hs.opened (hs.marked _ _ rfl)
      (Span.step_opener_line (.inr rfl) name (fun _ => rfl) rfl rfl hs.ends _) methods rest
  | forwardProtocols name more =>
    refine (hs.outside _ (hs.marked _ _ rfl) rest).trans ?_
    rw [Span.step_forwardOf name more hs.ends]
  | forwardClass name =>
    refine (hs.outside _ (hs.marked _ _ rfl) rest).trans ?_
    rw [Span.step_class name hs.ends]
  | _ => cases hd

/-- What the lines of a header give is what the lines of its declarations do. -/
theorem decls {f : Decl → List String} (h : ∀ (d : Decl) rest,
      onLines .outside (d.lines.map (·.text ++ ending) ++ rest) = f d ++ onLines .outside rest)
    (hnil : onLines .outside [] = []) (decls : List Decl) :
    onLines .outside ((decls.flatMap Decl.lines).map (·.text ++ ending)) = decls.flatMap f := by
  induction decls with
  | nil => exact hnil
  | cons d decls ih => rw [List.flatMap_cons, List.map_append, h, ih, List.flatMap_cons]

end GoesByLine

end HeaderIndex.Header
