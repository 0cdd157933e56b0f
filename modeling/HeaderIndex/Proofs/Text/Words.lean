import HeaderIndex.Proofs.Text.Lines
import HeaderIndex.Proofs.Text.Reading

/-! The words of a text, each where it stands. A word is a run of word characters that none
runs into or on from. A text is read word by word (`word_induct`), which gives its words
from left to right (`words`); they are all there are, and each is there once
(`words_enumerate`). -/

namespace HeaderIndex.Text

/-- A part of a text, between what is before it and what is behind it. -/
structure Place where
  before : List Char
  word : List Char
  behind : List Char

namespace Place

/-- The part is a whole word of the text. -/
structure IsWordOf (p : Place) (text : List Char) : Prop where
  text_eq : text = p.before ++ (p.word ++ p.behind)
  isWord : IsWord p.word
  start : wordBoundary p.before.getLast? = true
  stop : wordBoundary p.behind.head? = true

def startsName (p : Place) : Bool := p.word.head?.any isNameStart

/-- What stands before the word on its line. -/
def lead (p : Place) : List Char := (p.before.reverse.takeWhile (· != '\n')).reverse

def above (p : Place) : List Char := (p.before.reverse.dropWhile (· != '\n')).reverse

section Lines

variable {above lead : List Char} (habove : Lines.Ended above) (hlead : '\n' ∉ lead)
  (word behind : List Char)

include hlead in
theorem run_of_line : ∀ c ∈ lead.reverse, (c != '\n') = true :=
  run_of_not_mem fun hmem => hlead (List.mem_reverse.mp hmem)

include habove in
theorem stopsRun_of_ended : StopsRun (· != '\n') above.reverse := by
  intro c hc
  rw [List.head?_reverse] at hc
  rcases habove with rfl | hlast
  · cases hc
  · simp [Option.some.inj (hc.symm.trans hlast)]

include habove hlead

/-- What is before a word on its line, and the lines above, told by where the line starts. -/
theorem lead_eq : Place.lead ⟨above ++ lead, word, behind⟩ = lead := by
  rw [Place.lead, List.reverse_append, takeWhile_run (run_of_line hlead) (stopsRun_of_ended habove),
    List.reverse_reverse]

theorem above_eq : Place.above ⟨above ++ lead, word, behind⟩ = above := by
  rw [Place.above, List.reverse_append,
    dropWhile_run (run_of_line hlead) (stopsRun_of_ended habove), List.reverse_reverse]

end Lines

end Place

/-- The places are all that have a property, each once and from left to right. -/
structure Enumerates (places : List Place) (P : Place → Prop) : Prop where
  ordered : places.Pairwise fun p q => p.before.length < q.before.length
  mem_iff : ∀ p, p ∈ places ↔ P p

theorem Enumerates.filter {places : List Place} {P : Place → Prop} (h : Enumerates places P)
    (b : Place → Bool) : Enumerates (places.filter b) fun p => P p ∧ b p = true where
  ordered := h.ordered.filter b
  mem_iff p := by rw [List.mem_filter, h.mem_iff]

theorem Enumerates.congr {places : List Place} {P Q : Place → Prop} (h : Enumerates places P)
    (hPQ : ∀ p, P p ↔ Q p) : Enumerates places Q where
  ordered := h.ordered
  mem_iff p := (h.mem_iff p).trans (hPQ p)

/-- The first of the places is the leftmost. -/
theorem Enumerates.head?_eq_some_iff {places : List Place} {P : Place → Prop}
    (h : Enumerates places P) {p : Place} :
    places.head? = some p ↔ P p ∧ ∀ q, P q → p.before.length ≤ q.before.length := by
  cases places with
  | nil =>
    refine ⟨nofun, fun hp => ?_⟩
    exact absurd ((h.mem_iff p).mpr hp.1) List.not_mem_nil
  | cons first later =>
    obtain ⟨hfirst, _⟩ := List.pairwise_cons.mp h.ordered
    have hle : ∀ q, P q → first.before.length ≤ q.before.length := by
      intro q hq
      rcases List.mem_cons.mp ((h.mem_iff q).mpr hq) with rfl | hq
      · exact Nat.le_refl _
      · exact Nat.le_of_lt (hfirst q hq)
    rw [List.head?_cons, Option.some.injEq]
    constructor
    · rintro rfl
      exact ⟨(h.mem_iff first).mp (by simp), hle⟩
    · rintro ⟨hp, hleast⟩
      rcases List.mem_cons.mp ((h.mem_iff p).mpr hp) with rfl | hmem
      · rfl
      · have hlt := hfirst p hmem
        have hge := hleast first ((h.mem_iff first).mp (by simp))
        omega

/-! ## Word by word -/

theorem isNameStart_of_isWordChar {c : Char} (h : isWordChar c = false) :
    isNameStart c = false := by
  cases hstart : isNameStart c with
  | false => rfl
  | true => simp [isWordChar_of_isAscii (isAsciiWordChar_of_isNameStart hstart)] at h

theorem wordBoundary_append {a b : List Char} (ha : wordBoundary a.head? = true)
    (hb : wordBoundary b.head? = true) : wordBoundary (a ++ b).head? = true := by
  cases a with
  | nil => exact hb
  | cons c a => exact ha

/-- A line may start with a word. -/
theorem wordBoundary_ended {above : List Char} (h : Lines.Ended above) :
    wordBoundary above.getLast? = true := by
  rcases h with rfl | hlast
  · rfl
  · rw [hlast]
    decide

theorem wordBoundary_of_ended {above lead : List Char} (habove : Lines.Ended above)
    (hlead : wordBoundary lead.getLast? = true) : wordBoundary (above ++ lead).getLast? = true := by
  cases lead with
  | nil =>
    rw [List.append_nil]
    exact wordBoundary_ended habove
  | cons c lead => rwa [List.getLast?_append_of_ne_nil above (List.cons_ne_nil c lead)]

/-- What a text that stands behind `prev` starts with: nothing, a character that is of no
word, or a word. Whatever holds at its end and survives both steps holds of it. -/
theorem word_induct {motive : Option Char → List Char → Prop} (nil : ∀ prev, motive prev [])
    (mark : ∀ prev c cs, isWordChar c = false → motive (some c) cs → motive prev (c :: cs))
    (word : ∀ prev w rest, wordBoundary prev = true → IsWord w →
      wordBoundary rest.head? = true →
      motive w.getLast? rest → motive prev (w ++ rest))
    (prev : Option Char) (text : List Char)
    (h : wordBoundary prev = true ∨ wordBoundary text.head? = true) : motive prev text := by
  -- a word may have many characters, so the induction is on the length that is left
  induction hn : text.length using Nat.strongRecOn generalizing prev text with
  | ind n ih =>
    cases text with
    | nil => exact nil prev
    | cons c cs =>
      rw [List.length_cons] at hn
      cases hc : isWordChar c with
      | false =>
        have hboundary : wordBoundary (some c) = true := by simp [wordBoundary, hc]
        exact mark prev c cs hc (ih cs.length (by omega) _ _ (.inl hboundary) rfl)
      | true =>
        have hprev : wordBoundary prev = true := by simpa [wordBoundary, hc] using h
        have hsplit := List.takeWhile_append_dropWhile (p := isWordChar) (l := c :: cs)
        have hw : IsWord ((c :: cs).takeWhile isWordChar) :=
          ⟨by simp [hc], fun d hd => of_mem_takeWhile hd⟩
        have hrest := stopsRun_isWordChar.mp (stopsRun_dropWhile isWordChar (c :: cs))
        have hlen := congrArg List.length hsplit
        have hpos := List.length_pos_iff.mpr hw.ne_nil
        rw [List.length_append, List.length_cons] at hlen
        rw [← hsplit]
        exact word prev _ _ hprev hw hrest (ih _ (by omega) _ _ (.inr hrest) rfl)

/-- A word stands on one side of every character that is of no word. -/
theorem infix_of_mark {w a b : List Char} {c : Char} (hw : ∀ d ∈ w, isWordChar d = true)
    (hc : isWordChar c = false) (h : w <:+: a ++ c :: b) : w <:+: a ∨ w <:+: b := by
  have hmark : c ∉ w := fun hmem => by simp [hw c hmem] at hc
  obtain ⟨front, tail, h⟩ := h
  rw [List.append_assoc] at h
  rcases List.append_eq_append_iff.mp h with ⟨more, rfl, hmore⟩ | ⟨more, rfl, hmore⟩
  · rcases List.append_eq_append_iff.mp hmore with ⟨gap, rfl, _⟩ | ⟨gap, rfl, hgap⟩
    · exact .inl ⟨front, gap, by simp⟩
    · cases gap with
      | nil => exact .inl ⟨front, [], by simp⟩
      | cons d gap => exact absurd (by simp [(List.cons.inj hgap).1]) hmark
  · cases more with
    | nil =>
      cases w with
      | nil => exact .inl List.nil_infix
      | cons d w => exact absurd (by simp [(List.cons.inj hmore).1]) hmark
    | cons d more => exact .inr ⟨more, tail, by simpa using (List.cons.inj hmore).2.symm⟩

theorem not_infix_mark {w a b : List Char} {c : Char} (hw : ∀ d ∈ w, isWordChar d = true)
    (hc : isWordChar c = false) (ha : ¬ w <:+: a) (hb : ¬ w <:+: b) : ¬ w <:+: a ++ c :: b :=
  fun h => (infix_of_mark hw hc h).elim ha hb

/-- The words of a text that stands behind `before`, from left to right. -/
def wordsFrom (before : List Char) : List Char → List Place
  | [] => []
  | c :: cs =>
    if wordBoundary before.getLast? && isWordChar c then
      ⟨before, (c :: cs).takeWhile isWordChar, (c :: cs).dropWhile isWordChar⟩ :: wordsFrom
        (before ++ [c]) cs
    else wordsFrom (before ++ [c]) cs

def words (text : List Char) : List Place := wordsFrom [] text

theorem wordsFrom_mark {c : Char} (hc : isWordChar c = false) (before rest : List Char) :
    wordsFrom before (c :: rest) = wordsFrom (before ++ [c]) rest := by
  rw [wordsFrom, hc, Bool.and_false]
  rfl

/-- Inside a word no other starts. -/
theorem wordsFrom_inWord {before w : List Char} (hbefore : wordBoundary before.getLast? = false)
    (hw : ∀ c ∈ w, isWordChar c = true) (rest : List Char) :
    wordsFrom before (w ++ rest) = wordsFrom (before ++ w) rest := by
  induction w generalizing before with
  | nil => simp
  | cons c w ih =>
    have hc : wordBoundary (before ++ [c]).getLast? = false := by
      simp [wordBoundary, hw c (by simp)]
    rw [List.cons_append, wordsFrom, hbefore, Bool.false_and, if_neg Bool.false_ne_true,
      ih hc fun d hd => hw d (by simp [hd]), List.append_assoc]
    rfl

theorem wordsFrom_word {before w rest : List Char} (hbefore : wordBoundary before.getLast? = true)
    (hw : IsWord w) (hrest : wordBoundary rest.head? = true) :
    wordsFrom before (w ++ rest) = ⟨before, w, rest⟩ :: wordsFrom (before ++ w) rest := by
  have htake := takeWhile_run hw.chars (stopsRun_isWordChar.mpr hrest)
  have hdrop := dropWhile_run hw.chars (stopsRun_isWordChar.mpr hrest)
  obtain ⟨c, w, rfl⟩ := List.exists_cons_of_ne_nil hw.ne_nil
  have hc := hw.chars c (by simp)
  have hlast : wordBoundary (before ++ [c]).getLast? = false := by simp [wordBoundary, hc]
  rw [List.cons_append] at htake hdrop ⊢
  rw [wordsFrom, hbefore, hc, htake, hdrop, wordsFrom_inWord hlast fun d hd =>
    hw.chars d (by simp [hd]), List.append_assoc]
  rfl

/-- Where no word runs on, the words of a text are those of its parts. -/
theorem wordsFrom_append {before a b : List Char}
    (ha : wordBoundary before.getLast? = true ∨ wordBoundary a.head? = true)
    (hb : wordBoundary b.head? = true) :
    wordsFrom before (a ++ b) =
      (wordsFrom before a).map (fun p => ⟨p.before, p.word, p.behind ++ b⟩) ++
        wordsFrom (before ++ a) b := by
  refine word_induct (motive := fun prev a => ∀ before : List Char, before.getLast? = prev →
    wordsFrom before (a ++ b) =
      (wordsFrom before a).map (fun p => ⟨p.before, p.word, p.behind ++ b⟩) ++
      wordsFrom (before ++ a) b)
    ?nil ?mark ?word before.getLast? a ha before rfl
  case nil =>
    intro _ before _
    simp [wordsFrom]
  case mark =>
    intro _ c cs hc ih before _
    rw [List.cons_append, wordsFrom_mark hc, wordsFrom_mark hc, ih (before ++ [c]) (by simp),
      List.append_assoc]
    rfl
  case word =>
    rintro _ w rest hprev hw hrest ih before rfl
    rw [List.append_assoc, wordsFrom_word hprev hw (wordBoundary_append hrest hb),
      wordsFrom_word hprev hw hrest,
      ih (before ++ w) (List.getLast?_append_of_ne_nil before hw.ne_nil), List.append_assoc]
    rfl

/-- The words of a text, and what is behind each, do not depend on what is before the text. -/
theorem wordsFrom_behind {a b : List Char} (h : wordBoundary a.getLast? = wordBoundary b.getLast?)
    (text : List Char) :
    (wordsFrom a text).map (fun p => (p.word, p.behind)) = (wordsFrom b text).map fun p =>
      (p.word, p.behind) := by
  induction text generalizing a b with
  | nil => rfl
  | cons c cs ih =>
    have hnext : wordBoundary (a ++ [c]).getLast? = wordBoundary (b ++ [c]).getLast? := by simp
    rw [wordsFrom, wordsFrom, h]
    split
    · rw [List.map_cons, List.map_cons, ih hnext]
    · exact ih hnext

/-! ## All of them, each once -/

/-- Of two words of one text, the one that starts first ends first. -/
theorem Place.IsWordOf.end_lt {p q : Place} {text : List Char} (hp : p.IsWordOf text)
    (hq : q.IsWordOf text) (h : p.before.length < q.before.length) :
    p.before.length + p.word.length < q.before.length := by
  have hsplit : p.before ++ (p.word ++ p.behind) = q.before ++ (q.word ++ q.behind) :=
    hp.text_eq.symm.trans hq.text_eq
  -- what is before the second is what is before the first and something more
  obtain ⟨more, hmore, hword⟩ : ∃ more, q.before = p.before ++ more ∧
      p.word ++ p.behind = more ++ (q.word ++ q.behind) := by
    rcases List.append_eq_append_iff.mp hsplit with ⟨more, hb, hw⟩ | ⟨more, hb, hw⟩
    · exact ⟨more, hb, hw⟩
    · have hlen := congrArg List.length hb
      rw [List.length_append] at hlen
      omega
  have hne : more ≠ [] := by
    rintro rfl
    rw [hmore, List.append_nil] at h
    omega
  have hlast : wordBoundary more.getLast? = true := by
    have hstart := hq.start
    rwa [hmore, List.getLast?_append_of_ne_nil _ hne] at hstart
  have hbeyond := not_prefix_of_stop hp.isWord.chars hne (by simpa [wordBoundary] using hlast)
  rw [hmore, List.length_append, Nat.add_lt_add_iff_left]
  rcases List.append_eq_append_iff.mp hword with ⟨gap, hgap, _⟩ | ⟨gap, hgap, _⟩
  · have hgapne : gap ≠ [] := by
      rintro rfl
      exact hbeyond (by simp [hgap])
    rw [hgap, List.length_append]
    exact Nat.lt_add_of_pos_right (List.length_pos_iff.mpr hgapne)
  · exact absurd ⟨gap, hgap.symm⟩ hbeyond

/-- A word of a text is told by where it starts. -/
theorem Place.IsWordOf.eq_of_length {p q : Place} {text : List Char} (hp : p.IsWordOf text)
    (hq : q.IsWordOf text) (h : p.before.length = q.before.length) : p = q := by
  obtain ⟨before, word, behind⟩ := p
  obtain ⟨before', word', behind'⟩ := q
  obtain ⟨hbefore, htail⟩ := List.append_inj (hp.text_eq.symm.trans hq.text_eq) h
  obtain ⟨hword, hbehind⟩ := hp.isWord.append_inj hq.isWord hp.stop hq.stop htail
  subst hbefore hword hbehind
  rfl

/-- A word that does not start before a place starts with what stands there, or behind it. -/
theorem Place.IsWordOf.starts_behind {p : Place} {before text : List Char} {c : Char}
    (hp : p.IsWordOf (before ++ c :: text)) (hc : isWordChar c = false)
    (h : before.length ≤ p.before.length) : (before ++ [c]).length ≤ p.before.length := by
  rw [List.length_append, List.length_singleton]
  refine Nat.lt_of_le_of_ne h fun hlen => ?_
  obtain ⟨_, htail⟩ := List.append_inj hp.text_eq hlen
  obtain ⟨d, w, hw⟩ := List.exists_cons_of_ne_nil hp.isWord.ne_nil
  rw [hw] at htail
  have hd := hp.isWord.chars d (by simp [hw])
  rw [← (List.cons.inj htail).1, hc] at hd
  cases hd

/-- The words from a place on are the word at that place and those that do not start before
its end. -/
theorem Enumerates.word {before w rest : List Char} {later : List Place} {text : List Char}
    (hhere : Place.IsWordOf ⟨before, w, rest⟩ text)
    (hlater : Enumerates later fun p => p.IsWordOf text ∧
      (before ++ w).length ≤ p.before.length) :
    Enumerates (⟨before, w, rest⟩ :: later) fun p => p.IsWordOf text ∧
      before.length ≤ p.before.length := by
  simp only [List.length_append] at hlater
  have hpos := List.length_pos_iff.mpr hhere.isWord.ne_nil
  refine ⟨List.pairwise_cons.mpr ⟨fun p hp => ?_, hlater.ordered⟩, fun p => ?_⟩
  · exact Nat.lt_of_lt_of_le (Nat.lt_add_of_pos_right hpos) ((hlater.mem_iff p).mp hp).2
  · rw [List.mem_cons, hlater.mem_iff]
    constructor
    · rintro (rfl | ⟨hp, hle⟩)
      · exact ⟨hhere, Nat.le_refl _⟩
      · exact ⟨hp, Nat.le_trans (Nat.le_add_right _ _) hle⟩
    · rintro ⟨hp, hle⟩
      rcases Nat.eq_or_lt_of_le hle with heq | hlt
      · exact .inl (hp.eq_of_length hhere heq.symm)
      · exact .inr ⟨hp, Nat.le_of_lt (hhere.end_lt hp hlt)⟩

/-- From a place on, the words of a text are those that do not start before it. -/
theorem wordsFrom_enumerate (before text : List Char)
    (h : wordBoundary before.getLast? = true ∨ wordBoundary text.head? = true) :
    Enumerates (wordsFrom before text) fun p => p.IsWordOf (before ++ text) ∧
      before.length ≤ p.before.length := by
  refine word_induct (motive := fun prev text => ∀ before : List Char, before.getLast? = prev →
    Enumerates (wordsFrom before text) fun p => p.IsWordOf (before ++ text) ∧
    before.length ≤ p.before.length)
    ?nil ?mark ?word before.getLast? text h before rfl
  case nil =>
    intro _ before _
    refine ⟨.nil, fun p => ⟨fun hp => absurd hp List.not_mem_nil, ?_⟩⟩
    rintro ⟨hp, hle⟩
    have hlen := congrArg List.length hp.text_eq
    have hpos := List.length_pos_iff.mpr hp.isWord.ne_nil
    simp only [List.length_append, List.length_nil] at hlen
    omega
  case mark =>
    intro _ c cs hc ih before _
    rw [wordsFrom_mark hc]
    refine (ih (before ++ [c]) (by simp)).congr fun p => ?_
    rw [List.append_assoc]
    constructor
    · rintro ⟨hp, hle⟩
      exact ⟨hp, Nat.le_trans (by simp) hle⟩
    · rintro ⟨hp, hle⟩
      exact ⟨hp, hp.starts_behind hc hle⟩
  case word =>
    rintro _ w rest hprev hw hrest ih before rfl
    rw [wordsFrom_word hprev hw hrest]
    have hlater := ih (before ++ w) (List.getLast?_append_of_ne_nil before hw.ne_nil)
    rw [List.append_assoc] at hlater
    exact .word ⟨rfl, hw, hprev, hrest⟩ hlater

/-- Where a word of a line stands, told from the start of the line. -/
theorem split_of_mem_wordsFrom {above line : List Char} (habove : Lines.Ended above) {p : Place}
    (h : p ∈ wordsFrom above line) :
    ∃ lead, p.before = above ++ lead ∧ line = lead ++ (p.word ++ p.behind) := by
  obtain ⟨hp, hle⟩ :=
    ((wordsFrom_enumerate above line (.inl (wordBoundary_ended habove))).mem_iff p).mp h
  have hbefore : p.before <+: above ++ line := ⟨_, hp.text_eq.symm⟩
  obtain ⟨lead, hlead⟩ :=
    List.prefix_of_prefix_length_le (List.prefix_append above line) hbefore hle
  refine ⟨lead, hlead.symm, (List.append_right_inj above).mp ?_⟩
  rw [hp.text_eq, ← hlead, List.append_assoc]

theorem words_enumerate (text : List Char) : Enumerates (words text) (·.IsWordOf text) :=
  (wordsFrom_enumerate [] text (.inl rfl)).congr fun p => by simp

end HeaderIndex.Text
