import HeaderIndex.Proofs.Text.Spacing

/-! Texts that are laid out anew: their line breaks are written anew and their first line
may be indented. Line by line, each line of the first text stands in the second with an
indent before it and blanks behind it, and between two of them there may be blank lines
(`Relaid.line_induct`). -/

namespace HeaderIndex.Text

/-! ## Line breaks as lines -/

/-- A line without a line feed, of blanks only. -/
structure IsBlankLine (line : List Char) : Prop where
  blanks : ∀ c ∈ line, isBlank c = true
  noFeed : '\n' ∉ line

theorem isBlankLine_nil : IsBlankLine [] := ⟨by simp, by simp⟩

theorem IsBlankLine.withFeed {line : List Char} (h : IsBlankLine line) :
    ∀ c ∈ line ++ ['\n'], isBlank c = true := by
  intro c hc
  rcases List.mem_append.mp hc with hc | hc
  · exact h.blanks c hc
  · rw [List.mem_singleton.mp hc]
    exact isBlank_feed

theorem noFeed_of_isIndent {indent : List Char} (h : ∀ c ∈ indent, isIndent c = true) :
    '\n' ∉ indent := by
  intro hm
  exact absurd (h '\n' hm) (by decide)

theorem joined_blanks {lines : List (List Char)} (h : ∀ line ∈ lines, IsBlankLine line) :
    ∀ c ∈ Lines.joined lines, isBlank c = true := by
  intro c hc
  obtain ⟨line, hline, hc⟩ := List.mem_flatMap.mp hc
  exact (h line hline).withFeed c hc

/-- A break ends a line, adds blank lines and indents the next line. -/
theorem IsBreak.lines {br : List Char} (h : IsBreak br) : ∃ first lines indent,
    br = first ++ '\n' :: (Lines.joined lines ++ indent) ∧ IsBlankLine first ∧
      (∀ line ∈ lines, IsBlankLine line) ∧ ∀ c ∈ indent, isIndent c = true := by
  obtain ⟨blanks, indent, rfl, hb, hi⟩ := h
  induction blanks with
  | nil => exact ⟨[], [], indent, rfl, isBlankLine_nil, by simp, hi⟩
  | cons c blanks ih =>
    obtain ⟨first, lines, ind, heq, hfirst, hlines, hind⟩ := ih fun d hd => hb d (by simp [hd])
    by_cases hc : c = '\n'
    · subst hc
      refine ⟨[], first :: lines, ind, ?_, isBlankLine_nil,
        List.forall_mem_cons.mpr ⟨hfirst, hlines⟩, hind⟩
      rw [List.cons_append, heq, Lines.joined_cons]
      simp
    · refine ⟨c :: first, lines, ind,
        by rw [List.cons_append, heq]; rfl, ⟨?_, ?_⟩, hlines, hind⟩
      · exact List.forall_mem_cons.mpr ⟨hb c (by simp), hfirst.blanks⟩
      · simp [Ne.symm hc, hfirst.noFeed]

theorem isBreak_lines {first indent : List Char} {lines : List (List Char)}
    (hfirst : IsBlankLine first) (hlines : ∀ line ∈ lines, IsBlankLine line)
    (hindent : ∀ c ∈ indent, isIndent c = true) :
    IsBreak (first ++ '\n' :: (Lines.joined lines ++ indent)) := by
  have hblank := joined_blanks hlines
  -- the last line feed is the one before the indent
  rcases List.eq_nil_or_concat lines with rfl | ⟨init, last, rfl⟩
  · exact ⟨first, indent, rfl, hfirst.blanks, hindent⟩
  · refine ⟨first ++ '\n' :: (Lines.joined init ++ last), indent,
      by simp [Lines.joined], ?_, hindent⟩
    intro c hc
    rcases List.mem_append.mp hc with hc | hc
    · exact hfirst.blanks c hc
    · rcases List.mem_cons.mp hc with rfl | hc
      · exact isBlank_feed
      · refine hblank c ?_
        rcases List.mem_append.mp hc with hc | hc <;> simp_all [Lines.joined]

/-! ## Texts that are laid out anew -/

/-- The second text is the first with its line breaks written anew, behind an indent. -/
def Relaid (t t' : List Char) : Prop :=
  ∃ indent s, t' = indent ++ s ∧ (∀ c ∈ indent, isIndent c = true) ∧ Respaced False t s

namespace Relaid

variable {t t' : List Char}

theorem of_respaced (h : Respaced False t t') : Relaid t t' := ⟨[], t', rfl, by simp, h⟩

theorem occurrences {α : Type} {s : Shape α} {R : α → α → Prop} (hs : s.Respects R False)
    (h : Relaid t t') : List.Forall₂ R (s.occurrences t) (s.occurrences t') := by
  obtain ⟨indent, t', rfl, hindent, h⟩ := h
  exact Shape.occurrences_respaced hs (fun c hc => isBlank_of_isIndent (hindent c hc)) h

theorem occurrences_eq {α : Type} {s : Shape α} (hs : s.Respects Eq False) (h : Relaid t t') :
    s.occurrences t' = s.occurrences t := by
  have hrel := h.occurrences hs
  rw [List.forall₂_eq_eq_eq] at hrel
  exact hrel.symm

/-- A text laid out anew, line by line. The last line is indented; every other line is
indented, followed by blanks, and possibly by blank lines. -/
theorem line_induct {motive : List Char → List Char → Prop}
    (last : ∀ line indent, '\n' ∉ line → (∀ c ∈ indent, isIndent c = true) →
      motive line (indent ++ line))
    (line : ∀ line indent trail blank rest rest', '\n' ∉ line → (∀ c ∈ indent,
      isIndent c = true) →
      IsBlankLine trail → (∀ l ∈ blank, IsBlankLine l) → Relaid rest rest' →
        motive rest rest' →
      motive (line ++ '\n' :: rest) (indent ++ (line ++ trail) ++ '\n' ::
        (Lines.joined blank ++ rest')))
    (h : Relaid t t') : motive t t' := by
  induction hn : t.length using Nat.strong_induction_on generalizing t t' with
  | _ n ih =>
    subst hn
    obtain ⟨indent, t', rfl, hindent, h⟩ := h
    have hy : '\n' ∉ t.takeWhile (· != '\n') := fun hm => by simpa using of_mem_takeWhile hm
    have hsplit := List.takeWhile_append_dropWhile (p := (· != '\n')) (l := t)
    generalize t.takeWhile (· != '\n') = y at hy hsplit
    rcases dropWhile_line t with hend | ⟨rest, hend⟩
    · rw [hend, List.append_nil] at hsplit
      subst hsplit
      obtain ⟨r', rfl, hr⟩ := Respaced.split_line (t := []) hy (by rwa [List.append_nil])
      rw [hr.eq_nil, List.append_nil]
      exact last y indent hy hindent
    · rw [hend] at hsplit
      subst hsplit
      obtain ⟨r', rfl, hr⟩ := h.split_line hy
      obtain ⟨br, rest', rfl, hbr, hrest⟩ : ∃ br rest', r' = br ++ rest' ∧ IsBreak br ∧
          Respaced False rest rest' := by
        cases hr with
        | char hc _ => exact absurd rfl hc
        | feed hbr hrest => exact ⟨_, _, rfl, hbr, hrest⟩
      obtain ⟨trail, blank, ind, rfl, htrail, hblank, hind⟩ := hbr.lines
      have hbelow : Relaid rest (ind ++ rest') := ⟨ind, rest', rfl, hind, hrest⟩
      have hshort : rest.length < (y ++ '\n' :: rest).length := by
        rw [List.length_append, List.length_cons]
        omega
      have hline := line y indent trail blank rest (ind ++ rest') hy hindent htrail hblank hbelow
        (ih _ hshort hbelow rfl)
      simpa using hline

/-- What is put together again of lines laid out anew. -/
theorem of_line {line indent trail rest rest' : List Char} {blank : List (List Char)}
    (hindent : ∀ c ∈ indent, isIndent c = true) (htrail : IsBlankLine trail)
    (hblank : ∀ l ∈ blank, IsBlankLine l) (h : Relaid rest rest') :
    Relaid (line ++ '\n' :: rest) (indent ++ (line ++ trail) ++ '\n' ::
      (Lines.joined blank ++ rest')) := by
  obtain ⟨ind, s, rfl, hind, h⟩ := h
  refine ⟨indent, line ++ (trail ++ '\n' :: (Lines.joined blank ++ ind) ++ s),
    by simp, hindent, ?_⟩
  exact (Respaced.refl line).append (.feed (isBreak_lines htrail hblank hind) h)

end Relaid

end HeaderIndex.Text
