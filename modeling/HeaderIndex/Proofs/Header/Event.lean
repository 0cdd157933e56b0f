import HeaderIndex.Header.Span
import HeaderIndex.Proofs.Text.Reading
import HeaderIndex.Proofs.Text.Scan

/-! What happens to the state at one place of a line: the heads of definitions, their
ends, and forward declarations of protocols as they may be written. Every event has one
`@`, its first character, so events never overlap and a line can be read character by
character (`Span.step_cons`). -/

namespace HeaderIndex.Header

open HeaderIndex.Text

/-! ## Forward declarations -/

/-- A further name of a list, behind a comma, with the blanks around that comma. -/
structure ListedName where
  lead : List Char
  gap : List Char
  name : List Char
  lead_blank : ∀ c ∈ lead, isBlank c = true := by exact List.all_eq_true.mp (by decide)
  gap_blank : ∀ c ∈ gap, isBlank c = true := by exact List.all_eq_true.mp (by decide)
  isWord : IsWord name := by decide

def ListedName.text (n : ListedName) : List Char := n.lead ++ ',' :: (n.gap ++ n.name)

/-- A forward declaration of one or more protocols. -/
structure Forward where
  gap : List Char
  first : List Char
  more : List ListedName
  trail : List Char
  gap_ne_nil : gap ≠ [] := by decide
  gap_blank : ∀ c ∈ gap, isBlank c = true := by exact List.all_eq_true.mp (by decide)
  isWord : IsWord first := by decide
  trail_blank : ∀ c ∈ trail, isBlank c = true := by exact List.all_eq_true.mp (by decide)

namespace Forward

def tail (d : Forward) : List Char := d.more.flatMap ListedName.text ++ (d.trail ++ ";".toList)

def text (d : Forward) : List Char := "@protocol".toList ++ (d.gap ++ (d.first ++ d.tail))

theorem text_eq (d : Forward) : d.text = "@protocol".toList ++ (d.gap ++ (d.first ++ d.tail)) := rfl

end Forward

/-- Behind a name stands no word character, be it further names that follow or their end. -/
theorem wordBoundary_names (more : List ListedName) {rest : List Char}
    (h : wordBoundary rest.head? = true) :
    wordBoundary (more.flatMap ListedName.text ++ rest).head? = true := by
  cases more with
  | nil => exact h
  | cons n more =>
    have hcomma : wordBoundary
        (',' :: (n.gap ++ n.name ++ (more.flatMap ListedName.text ++ rest))).head? = true :=
      rfl
    have hlead := wordBoundary_of_isBlank n.lead_blank hcomma
    simpa [ListedName.text] using hlead

/-- The further names of a list hold words, blanks and commas. -/
theorem not_mem_names {mark : Char} (hword : isWordChar mark = false)
    (hblank : isBlank mark = false) (hcomma : mark ≠ ',') (more : List ListedName) :
    mark ∉ more.flatMap ListedName.text := by
  simp only [List.mem_flatMap, not_exists, not_and]
  intro n _ hm
  simp only [ListedName.text, List.mem_append, List.mem_cons] at hm
  rcases hm with hm | hm | hm | hm
  · exact absurd (n.lead_blank mark hm) (by simp [hblank])
  · exact hcomma hm
  · exact absurd (n.gap_blank mark hm) (by simp [hblank])
  · exact absurd (n.isWord.chars mark hm) (by simp [hword])

namespace Forward

theorem wordBoundary_tail (d : Forward) (rest : List Char) :
    wordBoundary (d.tail ++ rest).head? = true := by
  have hb : wordBoundary (d.trail ++ (";".toList ++ rest)).head? = true :=
    wordBoundary_of_isBlank d.trail_blank rfl
  simpa only [tail, List.append_assoc] using wordBoundary_names d.more hb

theorem at_not_mem_tail (d : Forward) : '@' ∉ d.tail := by
  simp only [tail, List.mem_append, not_or]
  exact ⟨not_mem_names (by decide) (by decide) (by decide) d.more, fun hm =>
    absurd (d.trail_blank '@' hm) (by decide), by decide⟩

/-- A forward declaration has one `@`, its first character. -/
theorem exists_cons (d : Forward) : ∃ rest, d.text = '@' :: rest ∧ '@' ∉ rest := by
  refine ⟨"protocol".toList ++ (d.gap ++ (d.first ++ d.tail)), d.text_eq, ?_⟩
  simp only [List.mem_append, not_or]
  exact ⟨by decide, fun hm => absurd (d.gap_blank '@' hm) (by decide),
    fun hm => absurd (d.isWord.chars '@' hm) (by decide), d.at_not_mem_tail⟩

end Forward

namespace Span

theorem listed?_eq_some_iff {text rest : List Char} : listed? text = some rest ↔
    wordBoundary rest.head? = true ∧ ∃ n : ListedName, text = n.text ++ rest := by
  unfold listed?
  simp only [Option.bind_eq_bind, Option.bind_eq_some_iff, after_eq_some_iff, Option.pure_def,
    Option.some.injEq]
  constructor
  · rintro ⟨r, hcomma, ⟨w, t⟩, hword, rfl⟩
    obtain ⟨htrim, hw, hend⟩ := word?_eq_some_iff.mp hword
    obtain ⟨lead, hlead, htext⟩ := trimStart_eq text
    obtain ⟨gap, hgap, hr⟩ := trimStart_eq r
    refine ⟨hend, ⟨lead, gap, w, hlead, hgap, hw⟩, ?_⟩
    rw [htext, hcomma, hr, htrim]
    simp [ListedName.text]
  · rintro ⟨hend, n, rfl⟩
    refine ⟨n.gap ++ (n.name ++ rest), ?_, ⟨n.name, rest⟩, ?_, rfl⟩
    · have hsplit : n.text ++ rest = n.lead ++ ',' :: (n.gap ++ (n.name ++ rest)) := by
        simp [ListedName.text]
      rw [hsplit, trimStart_run n.lead_blank (stopsRun_cons.mpr (by decide))]
      rfl
    · rw [trimStart_run n.gap_blank (n.isWord.stopsBlanks rest)]
      exact word?_eq_some_iff.mpr ⟨rfl, n.isWord, hend⟩

theorem listed?_shorter {text rest : List Char} (h : listed? text = some rest) :
    rest.length < text.length := by
  obtain ⟨_, n, rfl⟩ := listed?_eq_some_iff.mp h
  simp only [ListedName.text, List.length_append, List.length_cons]
  omega

theorem skipListed_none {text : List Char} {fuel : Nat} (h : listed? text = none) :
    skipListed fuel text = text := by
  cases fuel with
  | zero => rfl
  | succ fuel => rw [skipListed, h]

/-- What is skipped are names of a list. -/
theorem exists_skipListed (fuel : Nat) (text : List Char) :
    ∃ more : List ListedName, text = more.flatMap ListedName.text ++ skipListed fuel text := by
  induction fuel generalizing text with
  | zero => exact ⟨[], rfl⟩
  | succ fuel ih =>
    rw [skipListed]
    cases hlisted : listed? text with
    | none => exact ⟨[], rfl⟩
    | some rest =>
      obtain ⟨_, n, rfl⟩ := listed?_eq_some_iff.mp hlisted
      obtain ⟨more, hmore⟩ := ih rest
      refine ⟨n :: more, ?_⟩
      rw [List.flatMap_cons, List.append_assoc, ← hmore]

/-- Names of a list are skipped, up to where no further one follows. -/
theorem skipListed_names (more : List ListedName) {rest : List Char} {fuel : Nat}
    (hfuel : more.length ≤ fuel) (hb : wordBoundary rest.head? = true)
    (hrest : listed? rest = none) :
    skipListed fuel (more.flatMap ListedName.text ++ rest) = rest := by
  induction more generalizing fuel with
  | nil => exact skipListed_none hrest
  | cons n more ih =>
    obtain ⟨fuel, rfl⟩ : ∃ k, fuel = k + 1 :=
      ⟨fuel - 1, by rw [List.length_cons] at hfuel; omega⟩
    have hlisted := listed?_eq_some_iff.mpr ⟨wordBoundary_names more hb, n, rfl⟩
    rw [List.flatMap_cons, List.append_assoc, skipListed, hlisted]
    exact ih (Nat.le_of_succ_le_succ hfuel)

theorem length_le_names (more : List ListedName) :
    more.length ≤ (more.flatMap ListedName.text).length := by
  induction more with
  | nil => simp
  | cons n more ih =>
    simp only [List.flatMap_cons, ListedName.text, List.length_append, List.length_cons]
    omega

theorem forward_eq_some_iff {prev : Option Char} {text rest : List Char} :
    forward prev text = some ⟨(), rest⟩ ↔ ∃ d : Forward, text = d.text ++ rest := by
  unfold forward
  simp only [Option.bind_eq_bind, Option.bind_eq_some_iff, after_eq_some_iff, Option.pure_def,
    Option.some.injEq, Hit.mk.injEq, true_and]
  constructor
  · rintro ⟨r₁, rfl, r₂, hblanks, ⟨w, r₃⟩, hword, r₄, hsemi, rfl⟩
    obtain ⟨gap, hne, hgap, rfl⟩ := afterBlanks_eq_some hblanks
    obtain ⟨rfl, hw, _⟩ := word?_eq_some_iff.mp hword
    obtain ⟨more, hmore⟩ := exists_skipListed r₃.length r₃
    obtain ⟨trail, htrail, hskip⟩ := trimStart_eq (skipListed r₃.length r₃)
    refine ⟨⟨gap, w, more, trail, hne, hgap, hw, htrail⟩, ?_⟩
    have hrest : r₃ = more.flatMap ListedName.text ++ (trail ++ (";".toList ++ r₄)) := by
      rw [← hsemi, ← hskip, ← hmore]
    simp only [Forward.text_eq, Forward.tail, List.append_assoc]
    rw [← hrest]
  · rintro ⟨d, rfl⟩
    have hb : wordBoundary (d.trail ++ (";".toList ++ rest)).head? = true :=
      wordBoundary_of_isBlank d.trail_blank rfl
    have htrim : trimStart (d.trail ++ (";".toList ++ rest)) = ";".toList ++ rest :=
      trimStart_run d.trail_blank (stopsRun_cons.mpr (by decide))
    have hend : listed? (d.trail ++ (";".toList ++ rest)) = none := by
      rw [listed?, htrim]
      rfl
    have htail : d.tail ++ rest = d.more.flatMap ListedName.text ++
        (d.trail ++ (";".toList ++ rest)) := by
      simp only [Forward.tail, List.append_assoc]
    have hlen : d.more.length ≤ (d.tail ++ rest).length := by
      rw [htail, List.length_append]
      exact Nat.le_add_right_of_le (length_le_names d.more)
    have hskip : skipListed (d.tail ++ rest).length (d.tail ++ rest) = d.trail ++
        (";".toList ++ rest) := by
      generalize (d.tail ++ rest).length = fuel at hlen
      rw [htail, skipListed_names d.more hlen hb hend]
    refine ⟨d.gap ++ (d.first ++ (d.tail ++ rest)),
      by simp only [Forward.text_eq, List.append_assoc], d.first ++ (d.tail ++ rest),
      afterBlanks_run d.gap_ne_nil d.gap_blank (d.isWord.stopsBlanks _),
      ⟨d.first, d.tail ++ rest⟩, ?_, rest, hskip ▸ htrim, rfl⟩
    exact word?_eq_some_iff.mpr ⟨rfl, d.isWord, d.wordBoundary_tail rest⟩

theorem forward_consumes : forward.Consumes := by
  intro prev text h hh
  obtain ⟨_, rest⟩ := h
  obtain ⟨d, rfl⟩ := forward_eq_some_iff.mp hh
  exact ⟨d.text, by simp [Forward.text_eq], rfl⟩

/-! ## Heads and ends of definitions -/

def openers : List String := ["@interface", "@implementation", "@protocol"]

theorem eq_cons_of_mem_openers {keyword : String} (h : keyword ∈ openers) :
    ∃ letters, keyword.toList = '@' :: letters ∧ IsWord letters := by
  simp only [openers, List.mem_cons, List.not_mem_nil, or_false] at h
  rcases h with rfl | rfl | rfl
  · exact ⟨"interface".toList, rfl, by decide⟩
  · exact ⟨"implementation".toList, rfl, by decide⟩
  · exact ⟨"protocol".toList, rfl, by decide⟩

theorem keyword_eq_some_iff {text rest : List Char} :
    (after "@interface" text <|> after "@implementation" text <|> after "@protocol" text) =
      some rest ↔ ∃ keyword ∈ openers, text = keyword.toList ++ rest := by
  constructor
  · intro h
    cases h₁ : after "@interface" text with
    | some r =>
      rw [h₁] at h
      exact ⟨"@interface", by decide, after_eq_some_iff.mp (h₁.trans h)⟩
    | none =>
      cases h₂ : after "@implementation" text with
      | some r =>
        rw [h₁, h₂] at h
        exact ⟨"@implementation", by decide, after_eq_some_iff.mp (h₂.trans h)⟩
      | none =>
        rw [h₁, h₂] at h
        exact ⟨"@protocol", by decide, after_eq_some_iff.mp (by simpa using h)⟩
  · rintro ⟨keyword, hk, rfl⟩
    simp only [openers, List.mem_cons, List.not_mem_nil, or_false] at hk
    rcases hk with rfl | rfl | rfl <;> rfl

theorem opener?_eq_some_iff {text rest : List Char} :
    opener? text = some rest ↔ ∃ keyword ∈ openers, ∃ blanks name,
      text = keyword.toList ++ (blanks ++ (name ++ rest)) ∧ blanks ≠ [] ∧
      (∀ c ∈ blanks, isBlank c = true) ∧ IsWord name ∧ wordBoundary rest.head? = true := by
  unfold opener?
  simp only [Option.bind_eq_bind, Option.bind_eq_some_iff, keyword_eq_some_iff, Option.pure_def,
    Option.some.injEq]
  constructor
  · rintro ⟨r₁, ⟨keyword, hk, rfl⟩, r₂, hblanks, ⟨name, r₃⟩, hword, rfl⟩
    obtain ⟨blanks, hne, hb, rfl⟩ := afterBlanks_eq_some hblanks
    obtain ⟨rfl, hw, hend⟩ := word?_eq_some_iff.mp hword
    exact ⟨keyword, hk, blanks, name, rfl, hne, hb, hw, hend⟩
  · rintro ⟨keyword, hk, blanks, name, rfl, hne, hb, hw, hend⟩
    exact ⟨_, ⟨keyword, hk, rfl⟩, name ++ rest, afterBlanks_run hne hb (hw.stopsBlanks rest),
      ⟨name, rest⟩, word?_eq_some_iff.mpr ⟨rfl, hw, hend⟩, rfl⟩

theorem closer?_eq_some_iff {text rest : List Char} : closer? text = some rest ↔
      text = "@end".toList ++ rest ∧ wordBoundary rest.head? = true := by
  unfold closer?
  simp only [Option.bind_eq_bind, Option.bind_eq_some_iff, after_eq_some_iff]
  constructor
  · rintro ⟨r, rfl, h⟩
    split at h
    · cases h
    · rename_i hword
      obtain rfl : r = rest := by simpa using h
      exact ⟨rfl, by simpa [wordBoundary] using hword⟩
  · rintro ⟨rfl, hend⟩
    refine ⟨rest, rfl, ?_⟩
    rw [if_neg (by simpa [wordBoundary] using hend)]
    rfl

/-! ## Events -/

theorem event_marked : event.Marked '@' := by
  intro prev text h hh
  unfold event at hh
  split at hh
  · rename_i rest hopen
    split at hh
    · cases hh
    · obtain rfl := Option.some.inj hh
      obtain ⟨keyword, hk, blanks, name, rfl, _, hb, hw, _⟩ := opener?_eq_some_iff.mp hopen
      obtain ⟨tail, hkeyword, hletters⟩ := eq_cons_of_mem_openers hk
      refine ⟨tail ++ (blanks ++ name), ?_, by simp [hkeyword]⟩
      simp only [List.mem_append, not_or]
      exact ⟨fun hm => absurd (hletters.chars '@' hm) (by decide), fun hm =>
        absurd (hb '@' hm) (by decide), fun hm => absurd (hw.chars '@' hm) (by decide)⟩
  · obtain ⟨rest, hclose, rfl⟩ := Option.map_eq_some_iff.mp hh
    obtain ⟨rfl, _⟩ := closer?_eq_some_iff.mp hclose
    exact ⟨"end".toList, by decide, rfl⟩

/-- The state behind a line, character by character. -/
theorem step_cons (state : Span) (c : Char) (cs : List Char) :
    step state (c :: cs) = step (((event none (c :: cs)).map Hit.value).getD state) cs := by
  have hsame : ∀ text, event (some c) text = event none text := fun _ => rfl
  rw [step, step, Shape.occurrences_eq_hits, Shape.occurrences_eq_hits, event_marked.hits_cons,
    Shape.hits_congr hsame, List.getLast?_append]
  cases (event none (c :: cs)).map Hit.value <;> cases (event.hits none cs).getLast? <;> rfl

/-- A part of a line at none of whose places anything happens leaves the state alone. -/
theorem step_quiet {line : List Char} (h : ∀ place, place <:+ line → event none place = none)
    (state : Span) : step state line = state := by
  induction line with
  | nil => rfl
  | cons c cs ih =>
    rw [step_cons, h (c :: cs) (List.suffix_refl _)]
    exact ih fun place hp => h place (hp.trans (List.suffix_cons c cs))

theorem step_of_not_mem {line : List Char} (h : '@' ∉ line) (state : Span) :
    step state line = state := by
  refine step_quiet (fun place hp => ?_) state
  cases place with
  | nil => rfl
  | cons c cs => exact event_marked.eq_none fun he => h (hp.subset (by simp [he]))

theorem step_at {tail : List Char} (h : '@' ∉ tail) (state : Span) :
    step state ('@' :: tail) = ((event none ('@' :: tail)).map Hit.value).getD state := by
  rw [step_cons, step_of_not_mem h]

theorem forward_occursIn_eq_false {text : List Char} (h : ';' ∉ text) :
    forward.occursIn text = false := by
  have habsent : forward.Absent none text := by
    intro lead here htext
    cases hh : forward (lead.getLast?.or none) here with
    | none => rfl
    | some found =>
      obtain ⟨d, rfl⟩ := forward_eq_some_iff.mp hh
      exact absurd (by simp [htext, Forward.text_eq, Forward.tail]) h
  rw [Shape.occursIn, Shape.occurrences_eq_hits, habsent.hits]
  rfl

/-- A definition opens, and no semicolon makes it a forward declaration. -/
theorem step_opener {keyword : String} (hk : keyword ∈ openers) {blanks name tail : List Char}
    (hne : blanks ≠ []) (hb : ∀ c ∈ blanks, isBlank c = true) (hw : IsWord name)
    (hend : wordBoundary tail.head? = true) (hat : '@' ∉ tail) (hsemi : ';' ∉ tail)
    (state : Span) : step state (keyword.toList ++ (blanks ++ (name ++ tail))) = .inside := by
  have hopen : opener? (keyword.toList ++ (blanks ++ (name ++ tail))) = some tail :=
    opener?_eq_some_iff.mpr ⟨keyword, hk, blanks, name, rfl, hne, hb, hw, hend⟩
  obtain ⟨rest, hrest, hmarks⟩ := eq_cons_of_mem_openers hk
  have hnot : ∀ mark, isWordChar mark = false → isBlank mark = false → mark ∉ tail →
      mark ∉ rest ++ (blanks ++ (name ++ tail)) := by
    intro mark hm hblank htail hmem
    simp only [List.mem_append] at hmem
    rcases hmem with hmem | hmem | hmem | hmem
    · exact absurd (hmarks.chars mark hmem) (by simp [hm])
    · exact absurd (hb mark hmem) (by simp [hblank])
    · exact absurd (hw.chars mark hmem) (by simp [hm])
    · exact htail hmem
  rw [hrest, List.cons_append] at hopen ⊢
  have hforward : forward.occursIn ('@' :: (rest ++ (blanks ++ (name ++ tail)))) = false := by
    refine forward_occursIn_eq_false ?_
    rw [List.mem_cons, not_or]
    exact ⟨by decide, hnot ';' (by decide) (by decide) hsemi⟩
  have hevent : event none ('@' :: (rest ++ (blanks ++ (name ++ tail)))) =
      some ⟨.inside, tail⟩ := by
    simp only [event, hopen, hforward]
    rfl
  rw [step_at (hnot '@' (by decide) (by decide) hat), hevent]
  rfl

/-- A forward declaration opens nothing. -/
theorem step_forward (d : Forward) {rest : List Char} (hat : '@' ∉ rest) (state : Span) :
    step state (d.text ++ rest) = state := by
  have hopen : opener? (d.text ++ rest) = some (d.tail ++ rest) := by
    refine opener?_eq_some_iff.mpr ⟨"@protocol",
      by decide, d.gap, d.first, ?_, d.gap_ne_nil, d.gap_blank, d.isWord,
      d.wordBoundary_tail rest⟩
    simp only [Forward.text_eq, List.append_assoc]
  have hforward : forward.occursIn (d.text ++ rest) = true :=
    Shape.occursIn_of_hit (forward_eq_some_iff.mpr ⟨d, rfl⟩)
  have hevent : event none (d.text ++ rest) = none := by
    simp only [event, hopen, hforward, if_true]
  obtain ⟨tail, htext, htail⟩ := d.exists_cons
  rw [htext, List.cons_append] at hevent ⊢
  rw [step_at (by simp [htail, hat]), hevent]
  rfl

end Span

end HeaderIndex.Header
