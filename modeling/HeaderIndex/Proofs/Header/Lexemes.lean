import HeaderIndex.Proofs.Header.Declared.Braced
import HeaderIndex.Proofs.Text.Words

/-! Texts in lexemes. A text is written as words, marks and blocks in braces, with any blanks
between them (`Writes`). Only a word has to be kept apart from what follows it. A search for
a keyword passes over every lexeme that does not hold it (`pass_lexemes`). -/

namespace HeaderIndex.Header

open HeaderIndex.Text

/-! ## Keywords in parts of a text -/

/-- Whether the keyword is found in a part of a text: as a word if it counts only as one,
anywhere otherwise. -/
def Keyword.isIn (k : Keyword) (part : List Char) : Bool :=
  if k.isWhole then (words part).any (·.word == k.text.toList) else contains k.text.toList part

/-- A word that starts a text ends before the next word boundary. -/
theorem prefix_of_boundary {w tail part rest : List Char} (hw : ∀ c ∈ w, isWordChar c = true)
    (hrest : wordBoundary rest.head? = true) (h : part ++ rest = w ++ tail) :
    ∃ more, part = w ++ more ∧ tail = more ++ rest := by
  rcases List.append_eq_append_iff.mp h with ⟨gap, rfl, hgap⟩ | ⟨more, hpart, htail⟩
  · cases gap with
    | nil => exact ⟨[], by simp, by simpa using hgap.symm⟩
    | cons c gap =>
      rw [hgap] at hrest
      simp [wordBoundary, hw c (by simp)] at hrest
  · exact ⟨more, hpart, htail⟩

/-- A keyword that is not in a part of a text does not start there. -/
theorem Keyword.not_stands {k : Keyword} (hk : IsWord k.text.toList)
    {part lead here rest : List Char} {prev : Option Char} (h : k.isIn part = false)
    (hpart : part = lead ++ here) (hrest : wordBoundary rest.head? = true) :
    ¬ k.Stands (lead.getLast?.or prev) (here ++ rest) := by
  rintro ⟨tail, htext, hwhole⟩
  obtain ⟨more, rfl, rfl⟩ := prefix_of_boundary hk.chars hrest htext
  rw [isIn] at h
  split at h
  · rename_i hword
    obtain ⟨hstart, hend⟩ := hwhole hword
    have hlead : wordBoundary lead.getLast? = true := by
      cases hl : lead.getLast? with
      | none => rfl
      | some c => rwa [hl, Option.some_or] at hstart
    have hmore : wordBoundary more.head? = true := by
      cases more with
      | nil => rfl
      | cons c more => exact hend
    have hmem := ((words_enumerate part).mem_iff ⟨lead, k.text.toList, more⟩).mpr
      ⟨hpart, hk, hlead, hmore⟩
    simpa using List.any_eq_false.mp h _ hmem
  · rw [← Bool.not_eq_true, contains_iff] at h
    exact h ⟨lead, more, by simp [hpart]⟩

/-! ## Lexemes -/

structure Word where
  text : List Char
  isWord : IsWord text := by decide

/-- The keywords of declarations with a body. -/
def Keyword.openers : List Keyword := [nsEnum, nsOptions, enum, struct]

theorem Keyword.not_isIn {part : List Char} (h : (openers.any fun k => k.isIn part) = false)
    {k : Keyword} (hk : k ∈ openers) : k.isIn part = false := by
  simpa using List.any_eq_false.mp h k hk

/-- A word that holds no keyword. -/
structure Label extends Word where
  free : (Keyword.openers.any fun k => k.isIn text) = false := by decide +kernel

/-- What stands between braces. -/
structure Block where
  text : List Char
  ne_nil : text ≠ [] := by decide
  noBrace : '\x7d' ∉ text := by decide
  free : (Keyword.openers.any fun k => k.isIn text) = false := by decide +kernel

inductive Mark where
  | opening
  | comma
  | closing
  | semicolon
  deriving DecidableEq, Repr

def Mark.char : Mark → Char
  | opening => '('
  | comma => ','
  | closing => ')'
  | semicolon => ';'

inductive Lexeme where
  | word (w : Word)
  | mark (m : Mark)
  | block (b : Block)

namespace Lexeme

def text : Lexeme → List Char
  | word w => w.text
  | mark m => [m.char]
  | block b => '\x7b' :: (b.text ++ ['\x7d'])

def isWord : Lexeme → Bool
  | word _ => true
  | _ => false

/-- Where a keyword may be found in a lexeme. -/
def content : Lexeme → List Char
  | word w => w.text
  | mark _ => []
  | block b => b.text

end Lexeme

/-- The text is the lexemes, with blanks before each of them and at the end. -/
inductive Writes : List Lexeme → List Char → Prop where
  | done {blanks : List Char} (blank : ∀ c ∈ blanks, isBlank c = true) : Writes [] blanks
  | next {l : Lexeme} {later : List Lexeme} {blanks rest : List Char}
      (blank : ∀ c ∈ blanks, isBlank c = true)
      (apart : l.isWord = true → wordBoundary rest.head? = true) (h : Writes later rest) :
      Writes (l :: later) (blanks ++ (l.text ++ rest))

def isWritten : List Lexeme → List Char → Bool
  | [], text => text.all isBlank
  | l :: later, text =>
    match l.text.isPrefixOf? (trimStart text) with
    | some rest => (!l.isWord || wordBoundary rest.head?) && isWritten later rest
    | none => false

theorem writes_of_isWritten {lexemes : List Lexeme} {text : List Char}
    (h : isWritten lexemes text = true) : Writes lexemes text := by
  induction lexemes generalizing text with
  | nil => exact .done (List.all_eq_true.mp h)
  | cons l later ih =>
    rw [isWritten] at h
    split at h
    · rename_i rest hrest
      obtain ⟨hapart, hlater⟩ := Bool.and_eq_true_iff.mp h
      obtain ⟨blanks, hblanks, htext⟩ := trimStart_eq text
      rw [← List.isPrefixOf?_eq_some_iff_append_eq.mp hrest] at htext
      rw [htext]
      exact .next hblanks (fun hword => by simpa [hword] using hapart) (ih hlater)
    · cases h

/-! ## Passing over lexemes -/

/-- No word runs on over the place. -/
def Seam (prev : Option Char) (text : List Char) : Prop :=
  wordBoundary prev = true ∨ wordBoundary text.head? = true

section Pass

variable {α : Type} {s : Shape α} {k : Keyword} (hs : Needs s k) (hk : IsWord k.text.toList)

include hs hk

theorem hits_mark {c : Char} (hc : isWordChar c = false) (prev : Option Char) (rest : List Char) :
    s.hits prev (c :: rest) = s.hits (some c) rest := by
  refine Shape.hits_plain ?_
  cases hhit : s prev (c :: rest) with
  | none => rfl
  | some found =>
    obtain ⟨tail, htext, _⟩ := hs _ _ _ hhit
    obtain ⟨d, w, hw⟩ := List.exists_cons_of_ne_nil hk.ne_nil
    rw [hw] at htext
    have hd := hk.chars d (by simp [hw])
    rw [← (List.cons.inj htext).1, hc] at hd
    cases hd

theorem hits_blanks {blanks : List Char} (h : ∀ c ∈ blanks, isBlank c = true)
    (prev : Option Char) (rest : List Char) :
    s.hits prev (blanks ++ rest) = s.hits (blanks.getLast?.or prev) rest := by
  induction blanks generalizing prev with
  | nil => rfl
  | cons c blanks ih =>
    rw [List.cons_append, hits_mark hs hk (isWordChar_of_isBlank (h c (by simp))), ih fun d hd =>
      h d (by simp [hd]), Shape.last_cons]

/-- A part of a text that ends at a word boundary is passed over, if the keyword is not in it. -/
theorem hits_part {part rest : List Char} (h : k.isIn part = false)
    (hrest : wordBoundary rest.head? = true) (prev : Option Char) :
    s.hits prev (part ++ rest) = s.hits (part.getLast?.or prev) rest := by
  refine Shape.hits_pass fun lead here hsplit hne => ?_
  cases hhit : s (lead.getLast?.or prev) (here ++ rest) with
  | none => rfl
  | some found => exact absurd (hs _ _ _ hhit) (Keyword.not_stands hk h hsplit hrest)

/-- A lexeme is passed over, if the keyword is not in it. -/
theorem hits_lexeme {l : Lexeme} (h : k.isIn l.content = false) {rest : List Char}
    (hapart : l.isWord = true → wordBoundary rest.head? = true) (prev : Option Char) :
    ∃ prev', Seam prev' rest ∧ s.hits prev (l.text ++ rest) = s.hits prev' rest := by
  cases l with
  | word w => exact ⟨_, .inr (hapart rfl), hits_part hs hk h (hapart rfl) prev⟩
  | mark m =>
    have hm : isWordChar m.char = false := by cases m <;> decide
    exact ⟨some m.char, .inl (by simp [wordBoundary, hm]), hits_mark hs hk hm prev rest⟩
  | block b =>
    have hbody : k.isIn b.text = false := h
    have hclosing : wordBoundary ('\x7d' :: rest).head? = true := rfl
    refine ⟨some '\x7d', .inl rfl, ?_⟩
    rw [Lexeme.text, List.cons_append, List.append_assoc, List.singleton_append,
      hits_mark hs hk (by decide), hits_part hs hk hbody hclosing, hits_mark hs hk (by decide)]

/-- Lexemes are passed over, if the keyword is in none of them. -/
theorem pass_lexemes {lexemes later : List Lexeme} (h : ∀ l ∈ lexemes, k.isIn l.content = false)
    {prev : Option Char} {text : List Char} (hseam : Seam prev text)
    (hwrites : Writes (lexemes ++ later) text) : ∃ prev' rest, Seam prev' rest ∧
      Writes later rest ∧ s.hits prev text = s.hits prev' rest := by
  induction lexemes generalizing prev text with
  | nil => exact ⟨prev, text, hseam, hwrites, rfl⟩
  | cons l lexemes ih =>
    rw [List.cons_append] at hwrites
    cases hwrites with
    | @next _ _ blanks rest hblank hapart hrest =>
      obtain ⟨prev', hseam', hpass⟩ :=
        hits_lexeme hs hk (h l (by simp)) hapart (blanks.getLast?.or prev)
      obtain ⟨prev'', rest', hseam'', hlater, hhits⟩ :=
        ih (fun l' hl => h l' (by simp [hl])) hseam' hrest
      exact ⟨prev'', rest', hseam'', hlater, by rw [hits_blanks hs hk hblank, hpass, hhits]⟩

/-- The next word, behind the blanks before it. -/
theorem hits_nextWord {w : Word} {later : List Lexeme} {prev : Option Char} {text : List Char}
    (hseam : Seam prev text) (hwrites : Writes (.word w :: later) text) :
    ∃ prev' rest, wordBoundary prev' = true ∧ wordBoundary rest.head? = true ∧
      Writes later rest ∧ s.hits prev text = s.hits prev' (w.text ++ rest) := by
  cases hwrites with
  | @next _ _ blanks rest hblank hapart hrest =>
    refine ⟨blanks.getLast?.or prev, rest, ?_, hapart rfl, hrest,
      hits_blanks hs hk hblank prev _⟩
    refine wordBoundary_last (fun c hc => isWordChar_of_isBlank (hblank c hc)) ?_
    rcases hseam with hprev | hhead
    · exact .inr hprev
    · -- the text starts with no word character, so it starts with a blank
      refine .inl fun hnil => ?_
      obtain ⟨c, tail, hw⟩ := List.exists_cons_of_ne_nil w.isWord.ne_nil
      have hc := w.isWord.chars c (by simp [hw])
      simp [hnil, Lexeme.text, hw, wordBoundary, hc] at hhead

/-- A keyword at which nothing is read is passed over, since none starts further inside it. -/
theorem hits_missed {prev : Option Char} {rest : List Char} (hrest : wordBoundary rest.head? = true)
    (hmiss : s prev (k.text.toList ++ rest) = none) :
    s.hits prev (k.text.toList ++ rest) = s.hits (k.text.toList.getLast?.or prev) rest := by
  refine Shape.hits_pass fun lead here hsplit hne => ?_
  cases hhit : s (lead.getLast?.or prev) (here ++ rest) with
  | none => rfl
  | some found =>
    obtain ⟨tail, htext, _⟩ := hs _ _ _ hhit
    obtain ⟨more, hhere, _⟩ := prefix_of_boundary hk.chars hrest htext
    have hlength := congrArg List.length hsplit
    rw [hhere, List.length_append, List.length_append] at hlength
    have hlead : lead = [] := List.eq_nil_of_length_eq_zero (by omega)
    rw [hlead, List.nil_append] at hsplit
    rw [hlead, ← hsplit, List.getLast?_nil, Option.none_or, hmiss] at hhit
    cases hhit

end Pass

end HeaderIndex.Header
