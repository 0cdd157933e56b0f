import HeaderIndex.Proofs.Header.Event

/-! The last event of a line. A place of a line is the text from there on. What happens at
a place is said here without the reader: a definition opens unless only a forward
declaration begins there, and an `@end` closes one. The last event decides the state
behind the line, with one exception (`last_event_decides`): an opener is overlooked when a
forward declaration begins anywhere behind it. -/

namespace HeaderIndex.Header.Span

open HeaderIndex.Text

/-- A keyword, blanks and a word stand at a place. -/
def HeadsDefinition (place : List Char) : Prop :=
  ∃ keyword ∈ openers, ∃ blanks name rest,
  place = keyword.toList ++ (blanks ++ (name ++ rest)) ∧
    blanks ≠ [] ∧ (∀ c ∈ blanks, isBlank c = true) ∧ IsWord name ∧
    wordBoundary rest.head? = true

/-- A forward declaration begins at a place. -/
def HeadsForward (place : List Char) : Prop :=
  ∃ (d : Forward) (rest : List Char), place = d.text ++ rest

/-- What happens at a place: a definition opens that is no forward declaration, or an
`@end` closes one. -/
def Happens : Span → List Char → Prop
  | inside, place => HeadsDefinition place ∧ ¬ HeadsForward place
  | outside, place => ∃ rest, place = "@end".toList ++ rest ∧ wordBoundary rest.head? = true

/-- The last event of a line and its place. -/
structure LastEvent (line : List Char) (what : Span) (here : List Char) : Prop where
  place : here <:+ line
  happens : Happens what here
  last : ∀ later what', later <:+ here → Happens what' later → later = here

/-! ## What the reader sees -/

theorem headsDefinition_iff {place : List Char} :
    HeadsDefinition place ↔ (opener? place).isSome = true := by
  rw [Option.isSome_iff_exists]
  constructor
  · intro h
    obtain ⟨keyword, hk, blanks, name, rest, hplace⟩ := h
    exact ⟨rest, opener?_eq_some_iff.mpr ⟨keyword, hk, blanks, name, hplace⟩⟩
  · intro h
    obtain ⟨rest, hopen⟩ := h
    obtain ⟨keyword, hk, blanks, name, hplace⟩ := opener?_eq_some_iff.mp hopen
    exact ⟨keyword, hk, blanks, name, rest, hplace⟩

theorem headsForward_iff {place : List Char} :
    HeadsForward place ↔ (forward none place).isSome = true := by
  rw [Option.isSome_iff_exists]
  constructor
  · intro h
    obtain ⟨d, rest, hplace⟩ := h
    exact ⟨⟨(), rest⟩, forward_eq_some_iff.mpr ⟨d, hplace⟩⟩
  · intro h
    obtain ⟨found, hforward⟩ := h
    obtain ⟨d, hplace⟩ := forward_eq_some_iff.mp hforward
    exact ⟨d, found.rest, hplace⟩

theorem happens_outside_iff {place : List Char} :
    Happens outside place ↔ (closer? place).isSome = true := by
  rw [Option.isSome_iff_exists]
  exact exists_congr fun rest => closer?_eq_some_iff.symm

instance (place : List Char) : Decidable (HeadsDefinition place) :=
  decidable_of_iff' _ headsDefinition_iff

instance (place : List Char) : Decidable (HeadsForward place) :=
  decidable_of_iff' _ headsForward_iff

instance (what : Span) (place : List Char) : Decidable (Happens what place) :=
  match what with
  | inside => inferInstanceAs (Decidable (HeadsDefinition place ∧ ¬ HeadsForward place))
  | outside => decidable_of_iff' _ happens_outside_iff

instance (line : List Char) (what : Span) (here : List Char) :
    Decidable (LastEvent line what here) :=
  decidable_of_iff (here <:+ line ∧ Happens what here ∧ ∀ later ∈ here.tails,
      (Happens inside later → later = here) ∧ (Happens outside later → later = here)) <| by
    constructor
    · intro h
      obtain ⟨hplace, hhappens, hlast⟩ := h
      refine ⟨hplace, hhappens, fun later what' hlater => ?_⟩
      have hboth := hlast later ((List.mem_tails later here).mpr hlater)
      cases what' with
      | inside => exact hboth.1
      | outside => exact hboth.2
    · intro h
      refine ⟨h.place, h.happens, fun later hlater => ?_⟩
      have hsuffix := (List.mem_tails later here).mp hlater
      exact ⟨h.last later inside hsuffix, h.last later outside hsuffix⟩

/-- The reader looks for a forward declaration at every place from here on. -/
theorem forward_occursIn_iff {text : List Char} :
    forward.occursIn text = true ↔ ∃ later, later <:+ text ∧ HeadsForward later := by
  have hne : forward.occursIn text = true ↔ forward.hits none text ≠ [] := by
    simp [Shape.occursIn, Shape.occurrences_eq_hits]
  rw [hne]
  constructor
  · intro h
    obtain ⟨v, hv⟩ := List.exists_mem_of_ne_nil _ h
    obtain ⟨lead, here, rest, htext, hhere⟩ := Shape.mem_hits forward_consumes hv
    obtain ⟨d, hd⟩ := forward_eq_some_iff.mp hhere
    exact ⟨here, ⟨lead, htext.symm⟩, d, rest, hd⟩
  · intro h
    obtain ⟨later, ⟨lead, rfl⟩, d, rest, rfl⟩ := h
    have htext : d.text ++ rest ≠ [] := by simp [Forward.text_eq]
    exact Shape.hits_ne_nil htext (forward_eq_some_iff.mpr ⟨d, rfl⟩)

theorem opener?_of_closer? {text rest : List Char} (h : closer? text = some rest) :
    opener? text = none := by
  obtain ⟨rfl, _⟩ := closer?_eq_some_iff.mp h
  rfl

theorem event_eq_inside_iff {place rest : List Char} :
    event none place = some ⟨inside, rest⟩ ↔ opener? place = some rest ∧ ¬ ∃ later,
      later <:+ place ∧ HeadsForward later := by
  rw [← forward_occursIn_iff]
  unfold event
  cases hopen : opener? place with
  | none => cases closer? place <;> simp
  | some tail => cases forward.occursIn place <;> simp

theorem event_eq_outside_iff {place rest : List Char} :
    event none place = some ⟨outside, rest⟩ ↔ closer? place = some rest := by
  unfold event
  cases hopen : opener? place with
  | none => cases closer? place <;> simp
  | some tail =>
    have hclose : closer? place = none := by
      cases hclose : closer? place with
      | none => rfl
      | some rest => rw [opener?_of_closer? hclose] at hopen; cases hopen
    cases forward.occursIn place <;> simp [hclose]

/-- Whatever the reader sees happens. -/
theorem happens_of_event {place : List Char} {h : Hit Span} (hevent : event none place = some h) :
    Happens h.value place := by
  obtain ⟨value, rest⟩ := h
  cases value with
  | inside =>
    obtain ⟨hopen, hforward⟩ := event_eq_inside_iff.mp hevent
    refine ⟨headsDefinition_iff.mpr (by rw [hopen]; rfl), fun hhead => hforward ?_⟩
    exact ⟨place, List.suffix_refl place, hhead⟩
  | outside =>
    have hclose := event_eq_outside_iff.mp hevent
    exact happens_outside_iff.mpr (by rw [hclose]; rfl)

/-! ## The last event -/

/-- The last place where the reader sees something decides. -/
theorem step_of_last {line here : List Char} {h : Hit Span} (hplace : here <:+ line)
    (hevent : event none here = some h)
    (hlast : ∀ later, later <:+ here → later ≠ here → event none later = none)
    (state : Span) : step state line = h.value := by
  obtain ⟨lead, rfl⟩ := hplace
  induction lead generalizing state with
  | nil =>
    cases here with
    | nil => cases hevent
    | cons c cs =>
      have hquiet : ∀ place, place <:+ cs → event none place = none := by
        intro place hp
        refine hlast place (hp.trans (List.suffix_cons c cs)) fun he => ?_
        have hlen := hp.length_le
        rw [he, List.length_cons] at hlen
        omega
      rw [List.nil_append, step_cons, hevent, step_quiet hquiet]
      rfl
  | cons c lead ih => rw [List.cons_append, step_cons, ih]

theorem LastEvent.event_eq_none {line here later : List Char} {what : Span}
    (h : LastEvent line what here) (hlater : later <:+ here) (hne : later ≠ here) :
    event none later = none := by
  cases hevent : event none later with
  | none => rfl
  | some found => exact absurd (h.last later found.value hlater (happens_of_event hevent)) hne

/-- Where a forward declaration begins behind the last opener, the reader sees no opener. -/
theorem LastEvent.overlooked {line here later place : List Char} (h : LastEvent line inside here)
    (hlater : later <:+ here) (hforward : HeadsForward later) (hplace : place <:+ line)
    {found : Hit Span} (hevent : event none place = some found) : found.value = outside := by
  obtain ⟨what, rest⟩ := found
  cases what with
  | outside => rfl
  | inside =>
    obtain ⟨_, hnone⟩ := event_eq_inside_iff.mp hevent
    rcases List.suffix_or_suffix_of_suffix h.place hplace with hbefore | hbehind
    · exact absurd ⟨later, hlater.trans hbefore, hforward⟩ hnone
    · have hsame := h.last place inside hbehind (happens_of_event hevent)
      rw [hsame] at hnone
      exact absurd ⟨later, hlater, hforward⟩ hnone

theorem occurrences_ne_nil_of_closer {line place : List Char} (hplace : place <:+ line)
    (h : Happens outside place) : event.occurrences line ≠ [] := by
  obtain ⟨lead, rfl⟩ := hplace
  obtain ⟨rest, hclose⟩ := Option.isSome_iff_exists.mp (happens_outside_iff.mp h)
  have hne : place ≠ [] := by
    intro hnil
    rw [hnil] at hclose
    cases hclose
  have hevent : event (lead.getLast?.or none) place = some ⟨outside, rest⟩ :=
    event_eq_outside_iff.mpr hclose
  exact Shape.hits_ne_nil hne hevent

/-- **The last event of a line decides the state behind it.** An `@end` always does; an opener
does if no forward declaration begins behind it; without events the state stays. Where a
forward declaration begins behind the last event and that is an opener, no opener of the line
counts: the state is outside if there is an `@end` somewhere on the line, and else it stays. -/
theorem last_event_decides (state : Span) (line : List Char) :
    (∀ here, LastEvent line outside here → step state line = outside) ∧
    (∀ here, LastEvent line inside here → (∀ later, later <:+ here → ¬ HeadsForward later) →
      step state line = inside) ∧
    ((∀ what place, place <:+ line → ¬ Happens what place) → step state line = state) ∧
    (∀ here later, LastEvent line inside here → later <:+ here → HeadsForward later →
      ((∃ place, place <:+ line ∧ Happens outside place) → step state line = outside) ∧
      ((∀ place, place <:+ line → ¬ Happens outside place) → step state line = state)) := by
  refine ⟨fun here h => ?_, fun here h hnone => ?_, fun hnone => ?_,
    fun here later h hlater hforward => ⟨?_, ?_⟩⟩
  · obtain ⟨rest, hclose⟩ := Option.isSome_iff_exists.mp (happens_outside_iff.mp h.happens)
    exact step_of_last h.place (event_eq_outside_iff.mpr hclose)
      (fun later => h.event_eq_none) state
  · obtain ⟨rest, hopen⟩ := Option.isSome_iff_exists.mp (headsDefinition_iff.mp h.happens.1)
    have hevent : event none here = some ⟨inside, rest⟩ := by
      refine event_eq_inside_iff.mpr ⟨hopen, fun hsome => ?_⟩
      obtain ⟨later, hlater, hforward⟩ := hsome
      exact hnone later hlater hforward
    exact step_of_last h.place hevent (fun later => h.event_eq_none) state
  · refine step_quiet (fun place hplace => ?_) state
    cases hevent : event none place with
    | none => rfl
    | some found => exact absurd (happens_of_event hevent) (hnone found.value place hplace)
  · intro hcloses
    obtain ⟨place, hplace, hhappens⟩ := hcloses
    have hne := occurrences_ne_nil_of_closer hplace hhappens
    obtain ⟨lead, last, rest, hline, hevent⟩ :=
      Shape.mem_occurrences event_marked.consumes (List.getLast_mem hne)
    rw [step, List.getLast?_eq_some_getLast hne]
    exact h.overlooked hlater hforward ⟨lead, hline.symm⟩ hevent
  · intro hcloses
    refine step_quiet (fun place hplace => ?_) state
    cases hevent : event none place with
    | none => rfl
    | some found =>
      have hhappens := happens_of_event hevent
      rw [h.overlooked hlater hforward hplace hevent] at hhappens
      exact absurd hhappens (hcloses place hplace)

/-- An opener on a line with an `@end` and a forward declaration before it. -/
theorem last_event_decides_behind_forward :
    LastEvent "@end @protocol A , B; @interface C : D".toList inside "@interface C : D".toList ∧
      step outside "@end @protocol A , B; @interface C : D".toList = inside := by
  have hlast : LastEvent "@end @protocol A , B; @interface C : D".toList inside
      "@interface C : D".toList := by
    decide +kernel
  have hnone : ∀ later ∈ "@interface C : D".toList.tails, ¬ HeadsForward later := by
    decide +kernel
  refine ⟨hlast, (last_event_decides outside _).2.1 _ hlast fun later hlater => ?_⟩
  exact hnone later ((List.mem_tails later _).mpr hlater)

/-- An opener is the last event of its line, and yet the state behind the line is outside: a
forward declaration begins behind the opener. -/
theorem opener_overlooked_before_forward :
    LastEvent "@interface A : B @protocol C;".toList inside
        "@interface A : B @protocol C;".toList ∧
      step outside "@interface A : B @protocol C;".toList = outside := by
  decide +kernel

end HeaderIndex.Header.Span
