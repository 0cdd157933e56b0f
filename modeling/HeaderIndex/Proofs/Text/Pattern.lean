import HeaderIndex.Proofs.Text.Reading
import HeaderIndex.Proofs.Text.Scan

/-! Patterns, and what it means to match one. A pattern may match in several ways, of which some
are preferred: a run takes as many characters as it can or as few, and the first of two
patterns comes before the second. The way taken is the first one from which everything behind
it matches too (`first`). A run that nothing behind it can share gives nothing back, so it may
be read in one go: up to its end if it takes as many characters as it can (`longest_eq`), and
if it takes as few, up to the first place where something behind it matches
(`shortest_run`, `shortest_eq`). -/

namespace HeaderIndex.Text

inductive Pattern where
  | one (accepts : Char → Bool)
  /-- As many characters as possible. -/
  | many (accepts : Char → Bool)
  /-- As few characters as possible. -/
  | few (accepts : Char → Bool)
  /-- An end of a word. -/
  | boundary
  | empty
  | seq (p q : Pattern)
  | either (p q : Pattern)
  | group (label : String) (p : Pattern)

/-- A part of a text that is matched by a group: what there is from its start on, and behind it. -/
structure Capture where
  label : String
  start : List Char
  rest : List Char

def Capture.value (c : Capture) : List Char := before c.rest c.start

/-- How far a match has come. -/
structure Match where
  prev : Option Char
  text : List Char
  captures : List Capture

namespace Match

def capture? (m : Match) (label : String) : Option Capture := m.captures.find? (·.label == label)

/-- What a group has matched, if it has. -/
def value? (m : Match) (label : String) : Option (List Char) := (m.capture? label).map Capture.value

end Match

/-- Whether a word ends or starts between two characters. -/
def isBoundary (prev next : Option Char) : Bool := prev.any isWordChar != next.any isWordChar

namespace Pattern

section First

variable {α : Type}

/-- Take as many characters as possible, then fewer and fewer. -/
def longest (accepts : Char → Bool) (more : Match → Option α) (captures : List Capture) :
    Option Char → List Char → Option α
  | prev, [] => more ⟨prev, [], captures⟩
  | prev, c :: cs =>
    (if accepts c then longest accepts more captures (some c) cs else none).or
      (more ⟨prev, c :: cs, captures⟩)

/-- Take as few characters as possible, then more and more. -/
def shortest (accepts : Char → Bool) (more : Match → Option α) (captures : List Capture) :
    Option Char → List Char → Option α
  | prev, [] => more ⟨prev, [], captures⟩
  | prev, c :: cs => (more ⟨prev, c :: cs, captures⟩).or
      (if accepts c then shortest accepts more captures (some c) cs else none)

/-- What `more` makes of the first way to match a pattern from which it makes anything. -/
def first : Pattern → (Match → Option α) → Match → Option α
  | one accepts, more, m =>
    match m.text with
    | [] => none
    | c :: cs => if accepts c then more ⟨some c, cs, m.captures⟩ else none
  | many accepts, more, m => longest accepts more m.captures m.prev m.text
  | few accepts, more, m => shortest accepts more m.captures m.prev m.text
  | boundary, more, m => if isBoundary m.prev m.text.head? then more m else none
  | empty, more, m => more m
  | seq p q, more, m => p.first (q.first more) m
  | either p q, more, m => (p.first more m).or (q.first more m)
  | group label p, more, m =>
    p.first (fun n => more { n with captures := ⟨label, m.text, n.text⟩ :: n.captures }) m

end First

/-- Patterns one behind the other. -/
def all : List Pattern → Pattern
  | [] => empty
  | p :: ps => seq p (all ps)

def mark (c : Char) : Pattern := one (· == c)

def literal (text : String) : Pattern := all (text.toList.map mark)

def word : Pattern := seq (one isWordChar) (many isWordChar)

/-- A word that starts as an identifier does. -/
def name : Pattern := seq (one isNameStart) (many isWordChar)

/-- What a search for a pattern hits at a place, by what is read off the match. -/
def shape {α : Type} (p : Pattern) (read : List Char → Match → α) : Shape α :=
  fun prev text =>
  p.first (fun m => some ⟨read text m, m.text⟩) ⟨prev, text, []⟩

/-! ## Step by step -/

section Steps

variable {α : Type} {more : Match → Option α} {captures : List Capture} {prev : Option Char}
  {text : List Char}

theorem first_all_nil : (all []).first more = more := rfl

theorem first_all_cons (p : Pattern) (ps : List Pattern) :
    (all (p :: ps)).first more = p.first ((all ps).first more) := rfl

theorem first_seq (p q : Pattern) : (seq p q).first more = p.first (q.first more) := rfl

theorem first_either (p q : Pattern) (m : Match) :
    (either p q).first more m = (p.first more m).or (q.first more m) := rfl

theorem first_empty : empty.first more = more := rfl

theorem first_one_cons (accepts : Char → Bool) (c : Char) (cs : List Char) :
    (one accepts).first more ⟨prev, c :: cs, captures⟩ =
      if accepts c then more ⟨some c, cs, captures⟩ else none := rfl

theorem first_mark_cons (mark c : Char) (cs : List Char) :
    (Pattern.mark mark).first more ⟨prev, c :: cs, captures⟩ =
      if c == mark then more ⟨some c, cs, captures⟩ else none := rfl

theorem first_group (label : String) (p : Pattern) (m : Match) : (group label p).first more m =
    p.first (fun n => more { n with captures := ⟨label, m.text, n.text⟩ :: n.captures }) m :=
      rfl

theorem first_many (accepts : Char → Bool) (m : Match) :
    (many accepts).first more m = longest accepts more m.captures m.prev m.text := rfl

theorem first_few (accepts : Char → Bool) (m : Match) :
    (few accepts).first more m = shortest accepts more m.captures m.prev m.text := rfl

theorem first_boundary (m : Match) : boundary.first more m =
    if isBoundary m.prev m.text.head? then more m else none := rfl

theorem first_marks (cs : List Char) : (all (cs.map mark)).first more ⟨prev, text, captures⟩ =
    (cs.isPrefixOf? text).bind fun rest => more ⟨cs.getLast?.or prev, rest, captures⟩ := by
  induction cs generalizing prev text with
  | nil => rfl
  | cons c cs ih =>
    cases text with
    | nil => rfl
    | cons d text =>
      rw [List.map_cons, first_all_cons, first_mark_cons, List.isPrefixOf?]
      by_cases h : d = c
      · subst h
        rw [if_pos (beq_self_eq_true d), if_pos (beq_self_eq_true d), ih, Shape.last_cons]
      · rw [if_neg (by simpa using h), if_neg (by simpa using Ne.symm h)]
        rfl

/-- A literal is matched in one way. -/
theorem first_literal (literal : String) :
    (Pattern.literal literal).first more ⟨prev, text, captures⟩ = (after literal text).bind
      fun rest => more ⟨literal.toList.getLast?.or prev, rest, captures⟩ := first_marks _

theorem first_mark (d : Char) : (mark d).first more ⟨prev, text, captures⟩ =
    ([d].isPrefixOf? text).bind fun rest => more ⟨some d, rest, captures⟩ :=
  first_marks [d]

end Steps

/-! ## Runs -/

section Runs

variable {α β : Type}

/-- Nothing goes on where an accepted character comes next. -/
def Excludes (accepts : Char → Bool) (more : Match → Option α) : Prop :=
  ∀ (m : Match) (c : Char) (cs : List Char), m.text = c :: cs →
  accepts c = true → more m = none

/-- Nothing is gained by giving an accepted character back: what goes on before it goes on behind
it, whatever has been captured. -/
def Keeps (accepts : Char → Bool) (more : Match → Option α) : Prop :=
  ∀ (m n : Match) (c : Char), m.text = c :: n.text → accepts c = true → more n = none →
    more m = none

theorem Excludes.keeps {accepts : Char → Bool} {more : Match → Option α}
    (h : Excludes accepts more) : Keeps accepts more :=
  fun m n c htext hc _ => h m c n.text htext hc

/-- A character that is not accepted has to come first. -/
theorem excludes_one {accepts other : Char → Bool}
    (h : ∀ c, accepts c = true → other c = false) (more : Match → Option α) :
    Excludes accepts ((one other).first more) := by
  rintro ⟨prev, text, captures⟩ c cs rfl hc
  rw [first_one_cons, h c hc, if_neg Bool.false_ne_true]

theorem excludes_mark {accepts : Char → Bool} {d : Char} (h : accepts d = false)
    (more : Match → Option α) : Excludes accepts ((mark d).first more) := by
  refine excludes_one (fun c hc => ?_) more
  rw [beq_eq_false_iff_ne]
  rintro rfl
  rw [h] at hc
  cases hc

theorem excludes_literal {accepts : Char → Bool} {literal : String} {d : Char}
    (hliteral : literal.toList.head? = some d) (h : accepts d = false)
    (more : Match → Option α) : Excludes accepts ((Pattern.literal literal).first more) := by
  obtain ⟨rest, hrest⟩ := List.head?_eq_some_iff.mp hliteral
  rw [Pattern.literal, hrest, List.map_cons, first_all_cons]
  exact excludes_mark h _

theorem excludes_word {accepts : Char → Bool}
    (h : ∀ c, accepts c = true → isWordChar c = false) (more : Match → Option α) :
    Excludes accepts (word.first more) :=
  excludes_one h _

theorem isWordChar_of_isNameStart {c : Char} (h : isNameStart c = true) : isWordChar c = true :=
  isWordChar_of_isAscii (isAsciiWordChar_of_isNameStart h)

theorem excludes_name {accepts : Char → Bool}
    (h : ∀ c, accepts c = true → isWordChar c = false) (more : Match → Option α) :
    Excludes accepts (name.first more) := by
  refine excludes_one (fun c hc => ?_) _
  cases hstart : isNameStart c with
  | false => rfl
  | true =>
    have hword := h c hc
    rw [isWordChar_of_isNameStart hstart] at hword
    cases hword

theorem excludes_group {accepts : Char → Bool} {p : Pattern}
    (h : ∀ more : Match → Option α, Excludes accepts (p.first more)) (label : String)
    (more : Match → Option α) : Excludes accepts ((group label p).first more) :=
  fun m c cs htext hc => h _ m c cs htext hc

theorem Excludes.captured {accepts : Char → Bool} {more : Match → Option α}
    (h : Excludes accepts more) (label : String) (start : List Char) :
    Excludes accepts fun n =>
      more { n with captures := ⟨label, start, n.text⟩ :: n.captures } :=
  fun _ c cs htext hc => h _ c cs htext hc

theorem excludes_blank (label : String) (more : Match → Option α) :
    Excludes isBlank ((group label word).first more) :=
  excludes_group (excludes_word fun _ hc => isWordChar_of_isBlank hc) label more

theorem excludes_noWord (more : Match → Option α) :
    Excludes (fun c => !isWordChar c) (word.first more) :=
  excludes_word (fun c hc => by simpa using hc) more

theorem excludes_many_mark {accepts inRun : Char → Bool} {d : Char}
    (h : ∀ c, accepts c = true → inRun c = false ∧ c ≠ d) (more : Match → Option α) :
    Excludes accepts ((many inRun).first ((mark d).first more)) := by
  rintro ⟨prev, text, captures⟩ c cs rfl hc
  obtain ⟨hrun, hne⟩ := h c hc
  rw [first_many, longest, hrun, if_neg Bool.false_ne_true, Option.none_or, first_mark_cons,
    if_neg (by simpa using hne)]

theorem isBlank_of_isWordChar {c : Char} (h : isWordChar c = true) : isBlank c = false := by
  cases hc : isBlank c with
  | false => rfl
  | true => rw [isWordChar_of_isBlank hc] at h; cases h

theorem ne_of_isWordChar {c d : Char} (hd : isWordChar d = false) (hc : isWordChar c = true) :
    c ≠ d := by
  rintro rfl
  rw [hd] at hc
  cases hc

/-- No part of a word is blank, or a mark behind blanks. -/
theorem excludes_blanks_mark {d : Char} (hd : isWordChar d = false) (more : Match → Option α) :
    Excludes isWordChar ((many isBlank).first ((mark d).first more)) :=
  excludes_many_mark (fun _ hc => ⟨isBlank_of_isWordChar hc, ne_of_isWordChar hd hc⟩) more

theorem keeps_some (accepts : Char → Bool) (result : Match → α) :
    Keeps accepts fun m => some (result m) := by
  intro m n c htext hc hnone
  cases hnone

section Congr

variable {accepts : Char → Bool} {more : Match → Option α} {more' : Match → Option β}
  {captures captures' : List Capture} (h : ∀ prev text,
    more ⟨prev, text, captures⟩ = none → more' ⟨prev, text, captures'⟩ = none)

include h

theorem longest_none_congr {prev : Option Char} {text : List Char}
    (hnone : longest accepts more captures prev text = none) :
    longest accepts more' captures' prev text = none := by
  induction text generalizing prev with
  | nil => exact h _ _ hnone
  | cons c cs ih =>
    rw [longest, Option.or_eq_none_iff] at hnone ⊢
    refine ⟨?_, h _ _ hnone.2⟩
    by_cases hc : accepts c = true
    · rw [if_pos hc] at hnone ⊢
      exact ih hnone.1
    · rw [if_neg hc]

theorem shortest_none_congr {prev : Option Char} {text : List Char}
    (hnone : shortest accepts more captures prev text = none) :
    shortest accepts more' captures' prev text = none := by
  induction text generalizing prev with
  | nil => exact h _ _ hnone
  | cons c cs ih =>
    rw [shortest, Option.or_eq_none_iff] at hnone ⊢
    refine ⟨h _ _ hnone.1, ?_⟩
    by_cases hc : accepts c = true
    · rw [if_pos hc] at hnone ⊢
      exact ih hnone.2
    · rw [if_neg hc]

end Congr

/-- Whether a pattern matches does not depend on what has been captured. -/
theorem first_none_congr (p : Pattern) {more : Match → Option α} {more' : Match → Option β}
    (h : ∀ prev text captures captures', more ⟨prev, text, captures⟩ = none →
      more' ⟨prev, text, captures'⟩ = none)
    {prev : Option Char} {text : List Char} {captures captures' : List Capture}
    (hnone : p.first more ⟨prev, text, captures⟩ = none) :
    p.first more' ⟨prev, text, captures'⟩ = none := by
  induction p generalizing more more' prev text captures captures' with
  | one accepts =>
    cases text with
    | nil => rfl
    | cons c cs =>
      rw [first_one_cons] at hnone ⊢
      by_cases hc : accepts c = true
      · rw [if_pos hc] at hnone ⊢
        exact h _ _ _ _ hnone
      · rw [if_neg hc]
  | many accepts => exact longest_none_congr (fun _ _ => h _ _ _ _) hnone
  | few accepts => exact shortest_none_congr (fun _ _ => h _ _ _ _) hnone
  | boundary =>
    rw [first_boundary] at hnone ⊢
    by_cases hb : isBoundary prev text.head? = true
    · rw [if_pos hb] at hnone ⊢
      exact h _ _ _ _ hnone
    · rw [if_neg hb]
  | empty => exact h _ _ _ _ hnone
  | seq p q ihp ihq => exact ihp (fun _ _ _ _ hq => ihq h hq) hnone
  | either p q ihp ihq =>
    obtain ⟨hp, hq⟩ := Option.or_eq_none_iff.mp hnone
    exact Option.or_eq_none_iff.mpr ⟨ihp h hp, ihq h hq⟩
  | group label p ih =>
    rw [first_group] at hnone ⊢
    refine ih ?_ hnone
    exact fun _ _ _ _ hp => h _ _ _ _ hp

variable {accepts : Char → Bool} {more : Match → Option α} {captures : List Capture}

/-- If nothing is gained by giving one character back, nothing is by giving back all. -/
theorem Keeps.none_of_run (h : Keeps accepts more) (prev : Option Char) (text : List Char)
    (hend : more ⟨(text.takeWhile accepts).getLast?.or prev, text.dropWhile accepts, captures⟩ =
      none) : more ⟨prev, text, captures⟩ = none := by
  induction text generalizing prev with
  | nil => exact hend
  | cons c cs ih =>
    by_cases hc : accepts c = true
    · rw [List.takeWhile_cons_of_pos hc, List.dropWhile_cons_of_pos hc, Shape.last_cons] at hend
      exact h _ ⟨some c, cs, captures⟩ c rfl hc (ih _ hend)
    · rw [List.takeWhile_cons_of_neg hc, List.dropWhile_cons_of_neg hc] at hend
      exact hend

/-- A run that takes as many characters as it can is read to its end, if nothing is gained by
giving one back. -/
theorem longest_eq (h : Keeps accepts more) (prev : Option Char) (text : List Char) :
    longest accepts more captures prev text =
      more ⟨(text.takeWhile accepts).getLast?.or prev, text.dropWhile accepts, captures⟩ := by
  induction text generalizing prev with
  | nil => rfl
  | cons c cs ih =>
    by_cases hc : accepts c = true
    · rw [longest, if_pos hc, ih, List.takeWhile_cons_of_pos hc, List.dropWhile_cons_of_pos hc,
        Shape.last_cons]
      cases hend : more ⟨(cs.takeWhile accepts).getLast?.or (some c), cs.dropWhile accepts,
          captures⟩ with
      | none =>
        have hsome := h.none_of_run _ _ hend
        rw [h ⟨prev, c :: cs, captures⟩ _ c rfl hc hsome, Option.or_none]
      | some result => rw [Option.some_or]
    · rw [longest, if_neg hc, List.takeWhile_cons_of_neg hc, List.dropWhile_cons_of_neg hc]
      rfl

/-- A run that takes as few characters as it can passes over those at which nothing goes on. -/
theorem shortest_run {run : List Char} (hrun : ∀ c ∈ run, accepts c = true)
    (hnone : ∀ c ∈ run, ∀ prev cs, more ⟨prev, c :: cs, captures⟩ = none)
    (prev : Option Char) (rest : List Char) :
    shortest accepts more captures prev (run ++ rest) =
      shortest accepts more captures (run.getLast?.or prev) rest := by
  induction run generalizing prev with
  | nil => rfl
  | cons c run ih =>
    obtain ⟨hc, hrun⟩ := List.forall_mem_cons.mp hrun
    obtain ⟨hnonec, hnone⟩ := List.forall_mem_cons.mp hnone
    rw [List.cons_append, shortest, hnonec, if_pos hc, Option.none_or, ih hrun hnone,
      Shape.last_cons]

/-- At the end of a run there is nothing more to take. -/
theorem shortest_of_stopsRun {text : List Char} (h : StopsRun accepts text) (prev : Option Char) :
    shortest accepts more captures prev text = more ⟨prev, text, captures⟩ := by
  cases text with
  | nil => rfl
  | cons c cs => rw [shortest, stopsRun_cons.mp h, if_neg Bool.false_ne_true, Option.or_none]

/-- It stops at the first place from which something goes on. -/
theorem shortest_eq_some {prev : Option Char} {text : List Char} {result : α}
    (h : shortest accepts more captures prev text = some result) :
    ∃ lead here, text = lead ++ here ∧
      more ⟨lead.getLast?.or prev, here, captures⟩ = some result ∧
      ∀ a b, lead = a ++ b → b ≠ [] →
        more ⟨a.getLast?.or prev, b ++ here, captures⟩ = none := by
  induction text generalizing prev with
  | nil => exact ⟨[], [], rfl, h, fun a b hab hb => absurd (List.nil_eq_append_iff.mp hab).2 hb⟩
  | cons c cs ih =>
    rw [shortest] at h
    cases hhere : more ⟨prev, c :: cs, captures⟩ with
    | some result' =>
      rw [hhere, Option.some_or] at h
      refine ⟨[], c :: cs, rfl, hhere.trans h, fun a b hab hb => ?_⟩
      exact absurd (List.nil_eq_append_iff.mp hab).2 hb
    | none =>
      rw [hhere, Option.none_or, Option.ite_none_right_eq_some] at h
      obtain ⟨lead, here, rfl, hmore, hbefore⟩ := ih h.2
      refine ⟨c :: lead, here, rfl, by rw [Shape.last_cons, hmore], fun a b hab hb => ?_⟩
      cases a with
      | nil =>
        rw [List.nil_append] at hab
        rw [← hab]
        exact hhere
      | cons d a =>
        obtain ⟨rfl, rfl⟩ := List.cons.inj hab
        rw [Shape.last_cons]
        exact hbefore a b rfl hb

/-- Where all of the text is accepted, there is no such place if it stops nowhere. -/
theorem shortest_eq_none_iff {more : Match → Option (Hit β)} {prev : Option Char}
    {text : List Char} (h : ∀ c ∈ text, accepts c = true) :
    shortest accepts more captures prev text = none ↔
      Shape.Absent (fun prev here => more ⟨prev, here, captures⟩) prev text := by
  induction text generalizing prev with
  | nil => rw [shortest, Shape.absent_nil]
  | cons c cs ih =>
    obtain ⟨hc, hcs⟩ := List.forall_mem_cons.mp h
    rw [shortest, Shape.absent_cons, Option.or_eq_none_iff, if_pos hc, ih hcs]

/-- It is read to its end, if nothing goes on before that. -/
theorem shortest_eq (h : Excludes accepts more) (prev : Option Char) (text : List Char) :
    shortest accepts more captures prev text =
      more ⟨(text.takeWhile accepts).getLast?.or prev, text.dropWhile accepts, captures⟩ := by
  have hrun : ∀ c ∈ text.takeWhile accepts, accepts c = true := fun c => of_mem_takeWhile
  have hnone : ∀ c ∈ text.takeWhile accepts, ∀ prev cs,
      more ⟨prev, c :: cs, captures⟩ = none :=
    fun c hc prev cs => h _ c cs rfl (hrun c hc)
  have hrest := shortest_run hrun hnone prev (text.dropWhile accepts)
  rw [List.takeWhile_append_dropWhile] at hrest
  rw [hrest, shortest_of_stopsRun (stopsRun_dropWhile accepts text)]

theorem first_many_eq (h : Keeps accepts more) (prev : Option Char) (text : List Char) :
    (many accepts).first more ⟨prev, text, captures⟩ =
      more ⟨(text.takeWhile accepts).getLast?.or prev, text.dropWhile accepts, captures⟩ :=
  longest_eq h prev text

theorem first_few_eq (h : Excludes accepts more) (prev : Option Char) (text : List Char) :
    (few accepts).first more ⟨prev, text, captures⟩ =
      more ⟨(text.takeWhile accepts).getLast?.or prev, text.dropWhile accepts, captures⟩ :=
  shortest_eq h prev text

/-! ## Runs up to a mark -/

section Mark

variable {d : Char} (prev : Option Char) (text : List Char)

theorem first_few_mark (h : accepts d = false) :
    (few accepts).first ((mark d).first more) ⟨prev, text, captures⟩ =
      ([d].isPrefixOf? (text.dropWhile accepts)).bind fun rest =>
      more ⟨some d, rest, captures⟩ := by
  rw [first_few_eq (excludes_mark h more), first_mark]

theorem first_many_mark (h : accepts d = false) :
    (many accepts).first ((mark d).first more) ⟨prev, text, captures⟩ =
      ([d].isPrefixOf? (text.dropWhile accepts)).bind fun rest =>
      more ⟨some d, rest, captures⟩ := by
  rw [first_many_eq (excludes_mark h more).keeps, first_mark]

theorem isPrefixOf?_dropWhile (d : Char) (text : List Char) :
    [d].isPrefixOf? (text.dropWhile (· != d)) = afterFirst d text := by
  have hstop := stopsRun_dropWhile (· != d) text
  rw [afterFirst]
  cases hrest : text.dropWhile (· != d) with
  | nil => rfl
  | cons c cs =>
    rw [hrest, stopsRun_cons] at hstop
    have hc : c = d := by simpa using hstop
    simp [hc]

theorem first_upTo (d : Char) :
    (few (· != d)).first ((mark d).first more) ⟨prev, text, captures⟩ =
      (afterFirst d text).bind fun rest => more ⟨some d, rest, captures⟩ := by
  rw [first_few_mark prev text (by simp), isPrefixOf?_dropWhile]

theorem first_over (d : Char) :
    (many (· != d)).first ((mark d).first more) ⟨prev, text, captures⟩ =
      (afterFirst d text).bind fun rest => more ⟨some d, rest, captures⟩ := by
  rw [first_many_mark prev text (by simp), isPrefixOf?_dropWhile]

theorem afterFirst_cons_of_ne {c : Char} (h : c ≠ d) (cs : List Char) :
    afterFirst d (c :: cs) = afterFirst d cs := by
  rw [afterFirst, List.dropWhile_cons_of_pos (by simpa using h), afterFirst]

end Mark

/-- A mark that is looked for past other characters is found past an accepted one too. -/
theorem keeps_upTo {d : Char} (h : accepts d = false) (p : Pattern) (result : Match → α) :
    Keeps accepts ((few (· != d)).first ((mark d).first (p.first fun m => some (result m)))) := by
  rintro ⟨prev, text, captures⟩ ⟨prev', text', captures'⟩ c rfl hc hnone
  have hne : c ≠ d := by
    rintro rfl
    rw [h] at hc
    cases hc
  rw [first_upTo] at hnone ⊢
  rw [afterFirst_cons_of_ne hne]
  dsimp only at hnone ⊢
  cases hrest : afterFirst d text' with
  | none => rfl
  | some rest =>
    rw [hrest, Option.bind_some] at hnone
    refine first_none_congr p (fun _ _ _ _ hsome => ?_) hnone
    cases hsome

theorem keeps_over {d : Char} (h : accepts d = false) (result : Match → α) :
    Keeps accepts ((many (· != d)).first ((mark d).first fun m => some (result m))) := by
  intro m n c htext hc hnone
  obtain ⟨prev, text, captures⟩ := m
  obtain ⟨prev', text', captures'⟩ := n
  have hupTo :=
    keeps_upTo h empty result ⟨prev, text, captures⟩ ⟨prev', text', captures'⟩ c htext hc
  rw [first_over] at hnone ⊢
  rw [first_upTo, first_upTo] at hupTo
  exact hupTo hnone

/-- A run that takes as many characters as it can gives back those behind the last mark in it. -/
theorem longest_mark {d : Char} (h : accepts d = true) (result : Match → α) (prev : Option Char)
    (text : List Char) :
    longest accepts ((mark d).first fun m => some (result m)) captures prev text =
      (afterLast accepts d text).map fun rest => result ⟨some d, rest, captures⟩ := by
  induction text generalizing prev with
  | nil => rfl
  | cons c cs ih =>
    rw [longest, afterLast, first_mark_cons]
    by_cases hc : accepts c = true
    · rw [if_pos hc, if_pos hc, ih]
      cases afterLast accepts d cs with
      | some rest => rfl
      | none =>
        by_cases hd : c = d
        · simp [hd]
        · simp [hd]
    · have hd : c ≠ d := by
        rintro rfl
        exact hc h
      simp [hc, hd]

/-! ## Words -/

/-- A word is read to its end, if nothing is gained by giving one character back. -/
theorem first_word (h : Keeps isWordChar more) (prev : Option Char) (text : List Char) :
    word.first more ⟨prev, text, captures⟩ =
      (word? text).bind fun w => more ⟨w.value.getLast?, w.rest, captures⟩ := by
  cases text with
  | nil => rfl
  | cons c cs =>
    rw [word, first_seq, first_one_cons, word?]
    by_cases hc : isWordChar c = true
    · rw [if_pos hc, first_many, longest_eq h, List.takeWhile_cons_of_pos hc,
        List.dropWhile_cons_of_pos hc, ← Shape.last_cons c _ none, Option.or_none]
      rfl
    · rw [if_neg hc, List.takeWhile_cons_of_neg hc]
      rfl

/-- So is a name. -/
theorem first_name (h : Keeps isWordChar more) (prev : Option Char) (text : List Char) :
    name.first more ⟨prev, text, captures⟩ =
      (name? none text).bind fun w => more ⟨w.value.getLast?, w.rest, captures⟩ := by
  cases text with
  | nil => rfl
  | cons c cs =>
    by_cases hc : isNameStart c = true
    · have hsame : name.first more ⟨prev, c :: cs, captures⟩ =
          word.first more ⟨prev, c :: cs, captures⟩ := by
        rw [name, word, first_seq, first_seq, first_one_cons, first_one_cons, if_pos hc,
          if_pos (isWordChar_of_isNameStart hc)]
      rw [hsame, first_word h, name?, hc]
      rfl
    · rw [name, first_seq, first_one_cons, if_neg hc, name?]
      simp [hc]

theorem Keeps.captured (h : Keeps accepts more) (label : String) (start : List Char) :
    Keeps accepts fun n => more { n with captures := ⟨label, start, n.text⟩ :: n.captures } :=
  fun _ _ c htext hc => h _ _ c htext hc

theorem first_group_word (h : Keeps isWordChar more) (label : String) (prev : Option Char)
    (text : List Char) : (group label word).first more ⟨prev, text, captures⟩ =
      (word? text).bind fun w =>
        more ⟨w.value.getLast?, w.rest, ⟨label, text, w.rest⟩ :: captures⟩ := by
  rw [first_group, first_word (h.captured label text)]

/-- At an end of a word only a whole one is a name. -/
theorem first_boundary_name (h : Keeps isWordChar more) (label : String) (prev : Option Char)
    (text : List Char) : boundary.first ((group label name).first more) ⟨prev, text, captures⟩ =
      (name? prev text).bind fun w =>
        more ⟨w.value.getLast?, w.rest, ⟨label, text, w.rest⟩ :: captures⟩ := by
  rw [first_boundary, first_group, first_name (h.captured label text)]
  cases text with
  | nil => exact ite_self none
  | cons c cs =>
    by_cases hc : isNameStart c = true
    · have hword := isWordChar_of_isNameStart hc
      cases hprev : prev.any isWordChar with
      | false => simp [isBoundary, name?, wordBoundary, hprev, hword]
      | true => simp [isBoundary, name?, wordBoundary, hprev, hword]
    · simp [name?, hc]

end Runs

end Pattern

/-! ## What has been captured -/

namespace Match

variable {prev : Option Char} {text start rest : List Char} {label other : String}
  {captures : List Capture}

theorem capture?_cons_self : capture? ⟨prev, text, ⟨label, start, rest⟩ :: captures⟩ label =
      some ⟨label, start, rest⟩ := by
  simp [capture?]

theorem capture?_cons_of_ne (h : other ≠ label) :
    capture? ⟨prev, text, ⟨other, start, rest⟩ :: captures⟩ label =
      capture? ⟨prev, text, captures⟩ label := by
  simp [capture?, h]

/-- What a group has captured is what was read for it. -/
theorem value?_cons_self {value : List Char} (h : start = value ++ rest) :
    value? ⟨prev, text, ⟨label, start, rest⟩ :: captures⟩ label = some value := by
  rw [value?, capture?_cons_self, Option.map_some, Capture.value, h, before_append]

theorem value?_cons_of_ne (h : other ≠ label) :
    value? ⟨prev, text, ⟨other, start, rest⟩ :: captures⟩ label =
      value? ⟨prev, text, captures⟩ label := by
  rw [value?, capture?_cons_of_ne h, value?]

end Match

end HeaderIndex.Text
