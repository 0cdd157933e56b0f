import HeaderIndex.Proofs.Header.ForwardProtocols
import HeaderIndex.Proofs.Text.Sightings

/-! Where macros, classes and protocols are named. What stands at such a place is said here without
the reader. Nothing that a search passes over could name another, so each of the three searches
reports the names of all places (`find_every_sighting`). A class is named before its colon, so
not by a category; a protocol is named where its definition goes on, so not by a forward
declaration. -/

namespace HeaderIndex.Header

open HeaderIndex.Text

/-! ## Macros -/

namespace Define

/-- A `#`, an indent, `define`, blanks and the whole of a name. -/
def NamedAt (here name : List Char) : Prop :=
  ∃ indent blanks rest,
  here = "#".toList ++ (indent ++ ("define".toList ++ (blanks ++ (name ++ rest)))) ∧
    (∀ c ∈ indent, c = ' ' ∨ c = '\t') ∧ blanks ≠ [] ∧
    (∀ c ∈ blanks, isBlank c = true) ∧
    IsWord name ∧ wordBoundary rest.head? = true

theorem isIndent_iff {c : Char} : isIndent c = true ↔ c = ' ' ∨ c = '\t' := by
  rw [isIndent, Bool.or_eq_true, beq_iff_eq, beq_iff_eq]

theorem namedAt_iff {here name : List Char} :
    NamedAt here name ↔ ∃ h, shape none here = some h ∧ some h.value = some name := by
  constructor
  · intro h
    obtain ⟨indent, blanks, rest, htext, hindent, hrest⟩ := h
    refine ⟨⟨name, rest⟩,
      shape_eq_some_iff.mpr ⟨indent, blanks, htext, fun c hc => ?_, hrest⟩, rfl⟩
    exact isIndent_iff.mpr (hindent c hc)
  · intro h
    obtain ⟨⟨value, rest⟩, hshape, hvalue⟩ := h
    obtain rfl : value = name := Option.some.inj hvalue
    obtain ⟨indent, blanks, htext, hindent, hrest⟩ := shape_eq_some_iff.mp hshape
    exact ⟨indent, blanks, rest, htext, fun c hc => isIndent_iff.mp (hindent c hc), hrest⟩

theorem shape_marked : shape.Marked '#' := by
  intro prev text h hh
  obtain ⟨name, rest⟩ := h
  obtain ⟨indent, blanks, rfl, hindent, _, hblanks, hw, _⟩ := shape_eq_some_iff.mp hh
  refine ⟨indent ++ ("define".toList ++ (blanks ++ name)), ?_, by simp⟩
  simp only [List.mem_append, not_or]
  exact ⟨fun hm => absurd (hindent '#' hm) (by decide),
    by decide, fun hm => absurd (hblanks '#' hm) (by decide), fun hm =>
    absurd (hw.chars '#' hm) (by decide)⟩

end Define

/-! ## Classes -/

namespace Interface

/-- `@interface`, a name and a colon, with or without blanks between them. -/
def NamedAt (here name : List Char) : Prop :=
  ∃ blanks gap rest, here = "@interface".toList ++ (blanks ++ (name ++ (gap ++ ':' :: rest))) ∧
    (∀ c ∈ blanks, isBlank c = true) ∧ IsWord name ∧ (∀ c ∈ gap, isBlank c = true)

/-- The head of a category or, with nothing between the parentheses, of a class extension. -/
def HeadsCategory (here : List Char) : Prop :=
  ∃ blanks name gap rest,
  here = "@interface".toList ++ (blanks ++ (name ++ (gap ++ '(' :: rest))) ∧
    (∀ c ∈ blanks, isBlank c = true) ∧ IsWord name ∧ (∀ c ∈ gap, isBlank c = true)

theorem namedAt_iff {here name : List Char} :
    NamedAt here name ↔ ∃ h, shape none here = some h ∧ some h.value = some name := by
  constructor
  · intro h
    obtain ⟨blanks, gap, rest, h⟩ := h
    exact ⟨⟨name, rest⟩, shape_eq_some_iff.mpr ⟨blanks, gap, h⟩, rfl⟩
  · intro h
    obtain ⟨⟨value, rest⟩, hshape, hvalue⟩ := h
    obtain rfl : value = name := Option.some.inj hvalue
    obtain ⟨blanks, gap, h⟩ := shape_eq_some_iff.mp hshape
    exact ⟨blanks, gap, rest, h⟩

/-- The parenthesis is where the colon would have to be. -/
theorem HeadsCategory.not_namedAt {here : List Char} (h : HeadsCategory here) (name : List Char) :
    ¬ NamedAt here name := by
  intro hnamed
  obtain ⟨blanks, other, gap, rest, rfl, hblanks, hw, hgap⟩ := h
  obtain ⟨blanks', gap', rest', htext, hblanks', hw', hgap'⟩ := hnamed
  have hnames := congrArg trimStart (List.append_cancel_left htext)
  rw [trimStart_run hblanks (hw.stopsBlanks _),
    trimStart_run hblanks' (hw'.stopsBlanks _)] at hnames
  obtain ⟨_, hbehind⟩ :=
    hw.append_inj hw' (wordBoundary_of_isBlank hgap rfl) (wordBoundary_of_isBlank hgap' rfl) hnames
  have hmarks := congrArg trimStart hbehind
  rw [trimStart_run hgap (stopsRun_cons.mpr (by decide)),
    trimStart_run hgap' (stopsRun_cons.mpr (by decide))] at hmarks
  exact absurd (List.cons.inj hmarks).1 (by decide)

theorem shape_marked : shape.Marked '@' := by
  intro prev text h hh
  obtain ⟨name, rest⟩ := h
  obtain ⟨blanks, gap, rfl, hblanks, hw, hgap⟩ := shape_eq_some_iff.mp hh
  refine ⟨"interface".toList ++ (blanks ++ (name ++ (gap ++ ":".toList))), ?_, by simp⟩
  simp only [List.mem_append, not_or]
  exact ⟨by decide, fun hm => absurd (hblanks '@' hm) (by decide), fun hm =>
    absurd (hw.chars '@' hm) (by decide), fun hm => absurd (hgap '@' hm) (by decide), by decide⟩

end Interface

/-! ## Protocols -/

namespace Protocol

/-- How a text may go on behind the name of a protocol that is defined. -/
inductive GoesOn : List Char → Prop
  | ends {gap : List Char} : (∀ c ∈ gap, isBlank c = true) → GoesOn gap
  | marked {gap rest : List Char} {mark : Char} :
      (∀ c ∈ gap, isBlank c = true) → mark = '<' ∨ mark = ':' →
      GoesOn (gap ++ mark :: rest)
  | spaced {gap rest : List Char} {c : Char} :
      gap ≠ [] → (∀ c ∈ gap, isBlank c = true) → isBlank c = false → c ≠ ';' ∧
      c ≠ ',' ∧ c ≠ '(' →
      GoesOn (gap ++ c :: rest)

/-- `@protocol`, the whole of a name and what goes on with a definition. -/
def NamedAt (here name : List Char) : Prop :=
  ∃ blanks rest, here = "@protocol".toList ++ (blanks ++ (name ++ rest)) ∧
  (∀ c ∈ blanks, isBlank c = true) ∧
    IsWord name ∧ wordBoundary rest.head? = true ∧ GoesOn rest

/-- The first name of a forward declaration, up to the comma or the semicolon. -/
def HeadsForward (here : List Char) : Prop :=
  ∃ blanks name gap mark rest,
  here = "@protocol".toList ++ (blanks ++ (name ++ (gap ++ mark :: rest))) ∧
    (∀ c ∈ blanks, isBlank c = true) ∧ IsWord name ∧ (∀ c ∈ gap, isBlank c = true) ∧
    (mark = ';' ∨ mark = ',')

/-- Behind blanks the first other character decides; whether there are blanks counts for most
of them. -/
theorem continues_run {gap rest : List Char} {c : Char} (hgap : ∀ c ∈ gap, isBlank c = true)
    (hc : isBlank c = false) : continues (gap ++ c :: rest) = true ↔ (c = '<' ∨ c = ':') ∨
      (gap ≠ [] ∧ c ≠ ';' ∧ c ≠ ',' ∧ c ≠ '(') := by
  have hblank : (gap ++ c :: rest).head?.any isBlank = true ↔ gap ≠ [] := by
    cases gap with
    | nil => simp [hc]
    | cons b gap => simp [hgap b List.mem_cons_self]
  rw [continues, trimStart_run hgap (stopsRun_cons.mpr hc)]
  by_cases hmark : c = '<' ∨ c = ':'
  · simp [hmark]
  by_cases hstop : (c = ';' ∨ c = ',') ∨ c = '('
  · simp only [Bool.or_eq_true, beq_iff_eq, hmark, hstop, if_false, if_true, false_or]
    grind
  · simp only [Bool.or_eq_true, beq_iff_eq, hmark, hstop, if_false, hblank, false_or]
    grind

theorem continues_iff {text : List Char} : continues text = true ↔ GoesOn text := by
  constructor
  · intro h
    obtain ⟨gap, hgap, htext⟩ := trimStart_eq text
    cases htrim : trimStart text with
    | nil =>
      rw [htrim, List.append_nil] at htext
      exact htext ▸ .ends hgap
    | cons c rest =>
      have hc : isBlank c = false :=
        stopsRun_dropWhile isBlank text c (by rw [← trimStart, htrim]; rfl)
      rw [htrim] at htext
      rw [htext] at h ⊢
      rcases (continues_run hgap hc).mp h with hmark | ⟨hne, hother⟩
      · exact .marked hgap hmark
      · exact .spaced hne hgap hc hother
  · intro h
    cases h with
    | ends hgap =>
      have htrim := trimStart_run hgap (stopsRun_nil isBlank)
      rw [List.append_nil] at htrim
      rw [continues, htrim]
    | marked hgap hmark =>
      refine (continues_run hgap ?_).mpr (.inl hmark)
      rcases hmark with rfl | rfl <;> decide
    | spaced hne hgap hc hother => exact (continues_run hgap hc).mpr (.inr ⟨hne, hother⟩)

theorem namedAt_iff {here name : List Char} :
    NamedAt here name ↔ ∃ h, shape none here = some h ∧
      (if h.value.2 then some h.value.1 else none) = some name := by
  constructor
  · intro h
    obtain ⟨blanks, rest, htext, hblanks, hw, hend, hon⟩ := h
    have hshape : shape none here = some ⟨(name, true), rest⟩ :=
      shape_eq_some_iff.mpr ⟨blanks, htext, hblanks, hw, hend, continues_iff.mpr hon⟩
    exact ⟨_, hshape, rfl⟩
  · intro h
    obtain ⟨⟨⟨value, defines⟩, rest⟩, hshape, hvalue⟩ := h
    obtain ⟨rfl, rfl⟩ : defines = true ∧ value = name := by simpa using hvalue
    obtain ⟨blanks, htext, hblanks, hw, hend, hon⟩ := shape_eq_some_iff.mp hshape
    exact ⟨blanks, rest, htext, hblanks, hw, hend, continues_iff.mp hon⟩

/-- Blanks before the comma or the semicolon change nothing. -/
theorem HeadsForward.not_namedAt {here : List Char} (h : HeadsForward here) (name : List Char) :
    ¬ NamedAt here name := by
  intro hnamed
  obtain ⟨blanks, other, gap, mark, rest, htext, hblanks, hw, hgap, hmark⟩ := h
  have hstop : isBlank mark = false ∧ wordBoundary (some mark) = true ∧
      mark ≠ '<' ∧ mark ≠ ':' := by
    rcases hmark with rfl | rfl <;> decide
  have hends : continues (gap ++ mark :: rest) = false := by
    rw [Bool.eq_false_iff, ne_eq, continues_run hgap hstop.1]
    grind
  have hshape : shape none here = some ⟨(other, false), gap ++ mark :: rest⟩ :=
    shape_eq_some_iff.mpr ⟨blanks, htext, hblanks, hw,
      wordBoundary_of_isBlank hgap hstop.2.1, hends⟩
  obtain ⟨found, hfound, hname⟩ := namedAt_iff.mp hnamed
  obtain rfl := Option.some.inj (hshape.symm.trans hfound)
  cases hname

theorem defined_eq (text : List Char) :
    defined text = ((shape.occurrences text).filterMap fun p =>
      if p.2 then some p.1 else none).map String.ofList := by
  rw [defined]
  induction shape.occurrences text with
  | nil => rfl
  | cons p ps ih =>
    obtain ⟨name, defines⟩ := p
    cases defines with
    | false => exact ih
    | true => exact congrArg (String.ofList name :: ·) ih

end Protocol

/-! ## All three searches -/

/-- **The searches for macros, classes and protocols find every sighting.** Each of the three
lists that are found has the names of all places where its kind of thing is named, in the
order in which each name is seen first and with no repetitions. The head of a category is no
sighting of a class, the head of a forward declaration none of a protocol. -/
theorem find_every_sighting (text : List Char) : ∃ macros classes protocols,
    (Sightings Define.NamedAt text macros ∧ Firsts (namesOf macros) (Define.find text)) ∧
    (Sightings Interface.NamedAt text classes ∧
      Firsts (namesOf classes) (Interface.find text)) ∧
    (Sightings Protocol.NamedAt text protocols ∧
      Firsts (namesOf protocols) (Protocol.find text)) ∧
    (∀ place, Interface.HeadsCategory (text.drop place) →
      ∀ name, (place, name) ∉ classes) ∧
    (∀ place, Protocol.HeadsForward (text.drop place) →
      ∀ name, (place, name) ∉ protocols) ∧
    (Define.find text).Nodup ∧ (Interface.find text).Nodup ∧ (Protocol.find text).Nodup := by
  obtain ⟨macros, hmacros, hdefine⟩ :=
    Define.shape_marked.exists_sightings (fun _ _ => rfl) some
      (fun _ _ => Define.namedAt_iff) text
  obtain ⟨classes, hclasses, hinterface⟩ :=
    Interface.shape_marked.exists_sightings (fun _ _ => rfl) some
      (fun _ _ => Interface.namedAt_iff) text
  obtain ⟨protocols, hprotocols, hprotocol⟩ :=
    Protocol.shape_marked.exists_sightings (fun _ _ => rfl)
    (fun p => if p.2 then some p.1 else none) (fun _ _ => Protocol.namedAt_iff) text
  rw [List.filterMap_some, ← Define.find] at hdefine
  rw [List.filterMap_some, ← Interface.find] at hinterface
  rw [← Protocol.defined_eq, ← Protocol.find_eq] at hprotocol
  refine ⟨macros, classes, protocols, ⟨hmacros, hdefine⟩, ⟨hclasses, hinterface⟩,
    ⟨hprotocols, hprotocol⟩, fun place hcategory name hmem => ?_,
    fun place hforward name hmem => ?_, hdefine.nodup, hinterface.nodup, hprotocol.nodup⟩
  · exact hcategory.not_namedAt name ((hclasses.mem_iff place name).mp hmem)
  · exact hforward.not_namedAt name ((hprotocols.mem_iff place name).mp hmem)

/-- A class and a protocol that are found, though not where a category and a forward declaration
name them first. -/
theorem find_every_sighting_later :
    let text := "@interface A (B)\n@protocol C, D;\n@interface A : E\n@protocol C <F>".toList
    Interface.HeadsCategory (text.drop 0) ∧ Protocol.HeadsForward (text.drop 17) ∧
      Interface.find text = ["A"] ∧ Protocol.find text = ["C"] ∧
      ∃ classes protocols, Sightings Interface.NamedAt text classes ∧
      Sightings Protocol.NamedAt text protocols ∧
        (∀ name, (0, name) ∉ classes) ∧ ∀ name, (17, name) ∉ protocols := by
  intro text
  have hspace : ∀ c ∈ [' '], isBlank c = true := by simp
  have hclass : IsWord ['A'] :=
    ⟨List.cons_ne_nil _ _, List.forall_mem_singleton.mpr (by decide)⟩
  have hprotocol : IsWord ['C'] :=
    ⟨List.cons_ne_nil _ _, List.forall_mem_singleton.mpr (by decide)⟩
  have hcategory : Interface.HeadsCategory (text.drop 0) :=
    ⟨[' '], ['A'], [' '], text.drop 14, rfl, hspace, hclass, hspace⟩
  have hforward : Protocol.HeadsForward (text.drop 17) :=
    ⟨[' '], ['C'], [], ',', text.drop 29, rfl, hspace, hprotocol, nofun, .inr rfl⟩
  obtain ⟨_, classes, protocols, _, hclasses, hprotocols, hcategories, hforwards, _⟩ :=
    find_every_sighting text
  exact ⟨hcategory, hforward,
    by decide +kernel, by decide +kernel, classes, protocols, hclasses.1, hprotocols.1,
    hcategories 0 hcategory, hforwards 17 hforward⟩

end HeaderIndex.Header
