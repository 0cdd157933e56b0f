import HeaderIndex.Header.Braced
import HeaderIndex.Proofs.Header.Grammar
import HeaderIndex.Proofs.Header.Layout.Scrub
import HeaderIndex.Proofs.Text.Words

/-! The names of a body, told by where they stand in it. Dropping directives leaves the words
on other lines, with what is behind them (`words_dropDirectives`), and a scan for names goes
from word to word (`nameThen_occurrences`). So the names of an enumeration are the words of its body
that start as identifiers do and stand on no directive, and the bit fields of a structure are
those with a colon behind them. -/

namespace HeaderIndex.Text.Place

open HeaderIndex.Header

def line (p : Place) : List Char := p.lead ++ (p.word ++ p.behind.takeWhile (· != '\n'))

/-- What is behind a word on its line, and on the lines below without their directives. -/
def visible (p : Place) : List Char :=
  p.behind.takeWhile (· != '\n') ++ dropDirectives (p.behind.dropWhile (· != '\n'))

/-- Whether the word is a name that stands on no directive. -/
def isMember (p : Place) : Bool := p.startsName && !isDirective p.line

/-- Whether the next visible character that is no blank is a colon. -/
def isBitField (p : Place) : Bool := p.isMember && (trimStart p.visible).head? == some ':'

end HeaderIndex.Text.Place

namespace HeaderIndex.Header

open HeaderIndex.Text

def bodyNames (body : List Char) : List String :=
  ((words body).filter Place.isMember).map fun p => String.ofList p.word

def bitFields (body : List Char) : List String :=
  ((words body).filter Place.isBitField).map fun p => String.ofList p.word

/-! ## Without directives -/

theorem dropDirectives_feed (below : List Char) :
    dropDirectives ('\n' :: below) = '\n' :: dropDirectives below := by
  have hline := dropDirectives_line List.not_mem_nil (.inr ⟨below, rfl⟩)
  rwa [List.nil_append, ite_self] at hline

theorem dropDirectives_append {line rest : List Char} (h : '\n' ∉ line)
    (hrest : rest = [] ∨ ∃ below, rest = '\n' :: below) :
    dropDirectives (line ++ rest) = (if isDirective line then [] else line) ++
      dropDirectives rest := by
  have hnone : dropDirectives ([] ++ rest) = _ := dropDirectives_line List.not_mem_nil hrest
  rw [List.nil_append, ite_self, List.nil_append] at hnone
  rw [dropDirectives_line h hrest, hnone]

/-- Every word of a line sees the same line, and the same behind it. -/
theorem line_of_mem {above line rest : List Char} (habove : Lines.Ended above)
    (hline : '\n' ∉ line) (hrest : rest = [] ∨ ∃ below, rest = '\n' :: below) {p : Place}
    (hp : p ∈ wordsFrom above line) :
    Place.line ⟨p.before, p.word, p.behind ++ rest⟩ = line ∧
      Place.visible ⟨p.before, p.word, p.behind ++ rest⟩ = p.behind ++ dropDirectives rest := by
  obtain ⟨lead, hbefore, hsplit⟩ := split_of_mem_wordsFrom habove hp
  have hlead : '\n' ∉ lead := fun hmem => hline (by simp [hsplit, hmem])
  have hbehind : ∀ c ∈ p.behind, (c != '\n') = true :=
    run_of_not_mem fun hmem => hline (by simp [hsplit, hmem])
  have hstop : StopsRun (· != '\n') rest := by
    rcases hrest with rfl | ⟨below, rfl⟩
    · exact stopsRun_nil _
    · exact stopsRun_cons.mpr (by decide)
  rw [Place.line, Place.visible, takeWhile_run hbehind hstop, dropWhile_run hbehind hstop, hbefore,
    Place.lead_eq habove hlead]
  exact ⟨hsplit.symm, rfl⟩

def seen (p : Place) : List Char × List Char := (p.word, p.behind)

/-- A word with what is behind it when directives are dropped. -/
def shown (p : Place) : List Char × List Char := (p.word, p.visible)

section Line

variable {above line rest : List Char} (habove : Lines.Ended above) (hline : '\n' ∉ line)
    (hrest : rest = [] ∨ ∃ below, rest = '\n' :: below)

include hrest

theorem wordBoundary_lineEnd :
    wordBoundary rest.head? = true ∧ wordBoundary (dropDirectives rest).head? = true := by
  have hfeed : wordBoundary (some '\n') = true := by decide
  rcases hrest with rfl | ⟨below, rfl⟩
  · exact ⟨rfl, rfl⟩
  · rw [dropDirectives_feed]
    exact ⟨hfeed, hfeed⟩

include habove hline

/-- The words of a line are shown or dropped all alike. -/
theorem shown_line :
    (((wordsFrom above line).map fun p => ⟨p.before, p.word, p.behind ++ rest⟩).filter fun p =>
        !isDirective p.line).map shown =
      if isDirective line then []
      else (wordsFrom above line).map fun p => (p.word, p.behind ++ dropDirectives rest) := by
  have hmem := fun p hp => line_of_mem habove hline hrest (p := p) hp
  rw [List.filter_map, List.map_map]
  split
  · rename_i hdirective
    refine List.map_eq_nil_iff.mpr (List.filter_eq_nil_iff.mpr fun p hp => ?_)
    simp [(hmem p hp).1, hdirective]
  · rename_i hdirective
    have hall : ∀ p ∈ wordsFrom above line,
        ((fun p : Place => !isDirective p.line) ∘ fun p =>
          ⟨p.before, p.word, p.behind ++ rest⟩) p = true := by
      intro p hp
      simp [(hmem p hp).1, hdirective]
    rw [List.filter_eq_self.mpr hall]
    refine List.map_congr_left fun p hp => ?_
    simp [shown, (hmem p hp).2]

theorem words_line {above' : List Char} (habove' : Lines.Ended above')
    (hlater : ∀ lead lead', (wordsFrom lead' (dropDirectives rest)).map seen =
      ((wordsFrom lead rest).filter fun p => !isDirective p.line).map shown) :
    (wordsFrom above' (dropDirectives (line ++ rest))).map seen =
      ((wordsFrom above (line ++ rest)).filter fun p => !isDirective p.line).map shown := by
  obtain ⟨hend, hend'⟩ := wordBoundary_lineEnd hrest
  have hplace := wordBoundary_ended habove
  have hplace' := wordBoundary_ended habove'
  rw [dropDirectives_append hline hrest, wordsFrom_append (.inl hplace) hend, List.filter_append,
    List.map_append, shown_line habove hline hrest]
  split
  · rw [List.nil_append, List.nil_append, hlater]
  · have hsame :=
      congrArg (List.map fun w : List Char × List Char => (w.1, w.2 ++ dropDirectives rest))
      (wordsFrom_behind (hplace'.trans hplace.symm) line)
    rw [List.map_map, List.map_map] at hsame
    rw [wordsFrom_append (.inl hplace') hend', List.map_append, hlater, List.map_map]
    exact congrArg (· ++ _) hsame

end Line

theorem wordsFrom_dropDirectives {above above' : List Char} (habove : Lines.Ended above)
    (habove' : Lines.Ended above') (text : List Char) :
    (wordsFrom above' (dropDirectives text)).map seen = ((wordsFrom above text).filter fun p =>
      !isDirective p.line).map shown := by
  induction text using mark_induct '\n' generalizing above above' with
  | last line hline =>
    have hwords := words_line habove hline (.inl rfl) habove' fun _ _ => rfl
    rwa [List.append_nil] at hwords
  | marked line below hline ih =>
    refine words_line habove hline (.inr ⟨below, rfl⟩) habove' fun lead lead' => ?_
    rw [dropDirectives_feed, wordsFrom_mark (by decide), wordsFrom_mark (by decide)]
    exact ih (Lines.ended_concat lead) (Lines.ended_concat lead')

/-- Dropping directives leaves the words on other lines. -/
theorem words_dropDirectives (text : List Char) : (words (dropDirectives text)).map seen =
    ((words text).filter fun p => !isDirective p.line).map shown :=
  wordsFrom_dropDirectives (.inl rfl) (.inl rfl) text

/-- What is told of words and what is behind them can be told without dropping directives. -/
theorem filter_words_dropDirectives (g : List Char → List Char → Bool) (text : List Char) :
    ((words (dropDirectives text)).filter fun p => g p.word p.behind).map Place.word =
      ((words text).filter fun p => g p.word p.visible && !isDirective p.line).map Place.word := by
  have hwords :=
    congrArg (fun l => (l.filter fun w => g w.1 w.2).map Prod.fst) (words_dropDirectives text)
  simpa [List.filter_map, Function.comp_def, seen, shown] using hwords

/-! ## From word to word -/

/-- A name, and then whatever `tail` reads. -/
def nameThen (tail : List Char → Option (List Char)) : Shape (List Char) := fun prev text => do
  let h ← name? prev text
  let rest ← tail h.rest
  return ⟨h.value, rest⟩

section NameThen

variable (tail : List Char → Option (List Char))

theorem nameThen_eq_none {prev : Option Char} {c : Char}
    (h : wordBoundary prev = false ∨ isNameStart c = false) (rest : List Char) :
    nameThen tail prev (c :: rest) = none := by
  have hname : name? prev (c :: rest) = none := by
    rw [name?, if_neg]
    rcases h with h | h <;> simp [h]
  simp [nameThen, hname]

theorem nameThen_name {prev : Option Char} {w rest : List Char} (hw : IsName w)
    (hprev : wordBoundary prev = true) (hrest : wordBoundary rest.head? = true) :
    nameThen tail prev (w ++ rest) = (tail rest).map fun rest => ⟨w, rest⟩ := by
  have hname := name?_eq_some_iff.mpr ⟨hprev, rfl, hw, hrest⟩
  simp only [nameThen, hname, Option.bind_eq_bind, Option.bind_some]
  cases tail rest <;> rfl

/-- A text without word characters is passed over. -/
theorem nameThen_marks {marks : List Char} (h : ∀ c ∈ marks, isWordChar c = false)
    (prev : Option Char) (rest : List Char) :
    (nameThen tail).hits prev (marks ++ rest) =
      (nameThen tail).hits (marks.getLast?.or prev) rest := by
  refine Shape.hits_pass fun lead here hsplit hne => ?_
  obtain ⟨c, here, rfl⟩ := List.exists_cons_of_ne_nil hne
  exact nameThen_eq_none tail (.inr (isNameStart_of_isWordChar (h c (by simp [hsplit])))) _

/-- A word that is no hit is passed over. -/
theorem nameThen_word {w rest : List Char} (hw : IsWord w) {prev : Option Char}
    (h : nameThen tail prev (w ++ rest) = none) :
    (nameThen tail).hits prev (w ++ rest) = (nameThen tail).hits w.getLast? rest := by
  rw [← Shape.last_of_ne_nil hw.ne_nil prev]
  refine Shape.hits_pass fun lead here hsplit hne => ?_
  cases lead using List.reverseRecOn with
  | nil =>
    obtain rfl : w = here := hsplit
    exact h
  | append_singleton lead d =>
    obtain ⟨c, here, rfl⟩ := List.exists_cons_of_ne_nil hne
    have hd : wordBoundary (some d) = false := by simp [wordBoundary, hw.chars d (by simp [hsplit])]
    exact nameThen_eq_none tail (.inl (by simpa using hd)) _

variable
  (htail : ∀ text rest, tail text = some rest → ∃ gap, text = gap ++ rest ∧ ∀ c ∈ gap,
    isWordChar c = false)

include htail

/-- A word is a hit or passed over, and the scan goes on behind it. -/
theorem nameThen_step {prev : Option Char} {w rest : List Char} (hprev : wordBoundary prev = true)
    (hw : IsWord w) (hrest : wordBoundary rest.head? = true) :
    (nameThen tail).hits prev
      (w ++ rest) = (if w.head?.any isNameStart && (tail rest).isSome then [w] else []) ++
      (nameThen tail).hits w.getLast? rest := by
  cases hstart : w.head?.any isNameStart with
  | false =>
    refine nameThen_word tail hw ?_
    obtain ⟨c, w, rfl⟩ := List.exists_cons_of_ne_nil hw.ne_nil
    exact nameThen_eq_none tail (.inr (by simpa using hstart)) _
  | true =>
    have hread := nameThen_name tail ⟨hw, hstart⟩ hprev hrest
    cases hr : tail rest with
    | none => exact nameThen_word tail hw (by rw [hread, hr]; rfl)
    | some r =>
      obtain ⟨gap, rfl, hgap⟩ := htail rest r hr
      rw [hr, Option.map_some, ← List.append_assoc] at hread
      rw [← List.append_assoc, Shape.hits_hit (by simp [hw.ne_nil]) hread,
        nameThen_marks tail hgap, List.getLast?_append]
      rfl

/-- A scan for names finds the words that start as one and have the right thing behind them. -/
theorem nameThen_occurrences (text : List Char) : (nameThen tail).occurrences text =
    ((words text).filter fun p => p.startsName && (tail p.behind).isSome).map Place.word := by
  refine word_induct (motive := fun prev text => ∀ before : List Char,
    wordBoundary before.getLast? = wordBoundary prev →
    (nameThen tail).hits prev text = ((wordsFrom before text).filter fun p =>
      p.startsName && (tail p.behind).isSome).map Place.word)
    ?nil ?mark ?word none text (.inl rfl) [] rfl
  case nil =>
    intro prev before _
    simp [wordsFrom]
  case mark =>
    intro prev c cs hc ih before _
    have hpass := nameThen_marks tail (List.forall_mem_singleton.mpr hc) prev cs
    rw [List.singleton_append] at hpass
    rw [wordsFrom_mark hc, ← ih (before ++ [c]) (by simp)]
    exact hpass
  case word =>
    intro prev w rest hprev hw hrest ih before hbefore
    have hlater := ih (before ++ w) (by rw [List.getLast?_append_of_ne_nil before hw.ne_nil])
    rw [wordsFrom_word (hbefore.trans hprev) hw hrest, nameThen_step tail htail hprev hw hrest,
      hlater, List.filter_cons, Place.startsName]
    split <;> rfl

/-- A scan of a body goes over the names that stand on no directive. -/
theorem nameThen_body (body : List Char) :
    ((nameThen tail).occurrences (dropDirectives body)).map String.ofList =
      ((words body).filter fun p => p.isMember && (tail p.visible).isSome).map fun p =>
      String.ofList p.word := by
  have hmember : (fun p : Place => (p.word.head?.any isNameStart && (tail p.visible).isSome) &&
    !isDirective p.line) =
      fun p => p.isMember && (tail p.visible).isSome := by
    funext p
    rw [Place.isMember, Place.startsName, Bool.and_right_comm]
  have hwords :=
    filter_words_dropDirectives
    (fun w behind => w.head?.any isNameStart && (tail behind).isSome) body
  rw [hmember] at hwords
  rw [nameThen_occurrences tail htail]
  simp only [Place.startsName, hwords, List.map_map]
  rfl

end NameThen

/-! ## The names of a body -/

theorem name?_eq : name? = nameThen some := by
  funext prev text
  rw [nameThen]
  cases name? prev text <;> rfl

theorem names_eq (body : List Char) : Braced.names body = bodyNames body := by
  have hnames := nameThen_body some (fun text rest h => ⟨[], Option.some.inj h, by simp⟩) body
  simp only [Option.isSome_some, Bool.and_true] at hnames
  rw [Braced.names, name?_eq, hnames]
  rfl

theorem isSome_after_colon (text : List Char) :
    (after ":" text).isSome = (text.head? == some ':') := by
  cases text with
  | nil => rfl
  | cons c cs =>
    by_cases hc : c = ':'
    · simp [after, List.isPrefixOf?, hc]
    · simp [after, List.isPrefixOf?, hc, Ne.symm hc]

theorem members_eq (body : List Char) : Struct.members body = bitFields body := by
  have htail : ∀ text rest, after ":" (trimStart text) = some rest →
      ∃ gap, text = gap ++ rest ∧ ∀ c ∈ gap, isWordChar c = false := by
    intro text rest h
    obtain ⟨blanks, hblanks, htext⟩ := trimStart_eq text
    refine ⟨blanks ++ [':'], ?_, fun c hc => ?_⟩
    · rw [htext, after_eq_some_iff.mp h]
      simp
    · rcases List.mem_append.mp hc with hc | hc
      · exact isWordChar_of_isBlank (hblanks c hc)
      · rw [List.mem_singleton.mp hc]
        decide
  have hmembers := nameThen_body (fun text => after ":" (trimStart text)) htail body
  simp only [isSome_after_colon] at hmembers
  exact hmembers

end HeaderIndex.Header
