import HeaderIndex.Proofs.Header.Declared.Span
import HeaderIndex.Proofs.Text.Lines
import HeaderIndex.Proofs.Text.Spacing

/-! Blanks around a line. What happens to the state on a line does not depend on the blanks
before it and behind it (`Span.step_pad`), be they an indent, a line end or both. -/

namespace HeaderIndex.Header.Span

open HeaderIndex.Text

variable {loose : Prop} {t t' : List Char}

/-! ## Heads and ends of definitions -/

theorem opener?_respaced (h : Respaced loose t t') :
    Option.Rel (Respaced loose) (opener? t) (opener? t') := by
  unfold opener?
  simp only [Option.bind_eq_bind, Option.pure_def]
  refine rel_bind (rel_orElse (after_respaced (by decide) h)
    (rel_orElse (after_respaced (by decide) h) (after_respaced (by decide) h))) fun r r' hr => ?_
  refine afterBlanks_bind_respaced rfl (fun r r' hr => ?_) hr
  exact rel_bind (word?_respaced hr) fun w w' hw => .some hw.rest

theorem closer?_respaced (h : Respaced loose t t') :
    Option.Rel (Respaced loose) (closer? t) (closer? t') := by
  unfold closer?
  simp only [Option.bind_eq_bind, Option.pure_def]
  refine rel_bind (after_respaced (by decide) h) fun r r' hr => ?_
  have hhead : r'.head?.any isWordChar = r.head?.any isWordChar := by
    simpa [wordBoundary] using hr.wordBoundary_head
  rw [hhead]
  split
  · exact .none
  · exact .some hr

theorem opener?_endsIn {rest : List Char} (h : opener? t = some rest) :
    ∃ c, c :: rest <:+ t ∧ isWordChar c = true := by
  obtain ⟨keyword, _, blanks, name, rfl, _, _, hw, hend⟩ := opener?_eq_some_iff.mp h
  obtain ⟨c, hc, hchar⟩ := word?_endsIn (word?_eq_some_iff.mpr ⟨rfl, hw, hend⟩)
  exact ⟨c, hc.trans ⟨keyword.toList ++ blanks, by simp⟩, hchar⟩

/-! ## Forward declarations -/

theorem listed?_respaced (h : Respaced loose t t') :
    Option.Rel (Respaced loose) (listed? t) (listed? t') := by
  unfold listed?
  simp only [Option.bind_eq_bind, Option.pure_def]
  refine rel_bind (after_respaced (by decide) h.trimStart) fun r r' hr => ?_
  exact rel_bind (word?_respaced hr.trimStart) fun w w' hw => .some hw.rest

/-- Both texts are read to the end of their lists, though one may be longer. -/
theorem skipListed_respaced {m n : Nat} (hm : t.length ≤ m) (hn : t'.length ≤ n)
    (h : Respaced loose t t') : Respaced loose (skipListed m t) (skipListed n t') := by
  induction m generalizing n t t' with
  | zero =>
    obtain rfl : t = [] := List.length_eq_zero_iff.mp (Nat.le_zero.mp hm)
    have hrel := listed?_respaced h
    have hnil : listed? [] = none := rfl
    rw [hnil] at hrel
    rwa [skipListed_none hnil, skipListed_none (eq_none_of_rel hrel)]
  | succ m ih =>
    have hrel := listed?_respaced h
    cases hl : listed? t with
    | none =>
      rw [hl] at hrel
      rwa [skipListed_none hl, skipListed_none (eq_none_of_rel hrel)]
    | some rest =>
      rw [hl] at hrel
      obtain ⟨rest', hl', hrest⟩ := exists_of_rel_some hrel
      have hshort := listed?_shorter hl
      have hshort' := listed?_shorter hl'
      obtain ⟨k, rfl⟩ : ∃ k, n = k + 1 := ⟨n - 1, by omega⟩
      rw [skipListed, skipListed, hl, hl']
      exact ih (by omega) (by omega) hrest

theorem forward_respects : forward.Respects Eq loose where
  blank := Shape.eq_none_of_isBlank fun prev c rest h hh => by
    obtain ⟨d, htext⟩ := forward_eq_some_iff.mp hh
    obtain ⟨tail, hat, _⟩ := d.exists_cons
    rw [hat] at htext
    rw [(List.cons.inj htext).1]
    decide
  ends := by
    refine ⟨false, fun prev text h hh => ⟨';', ?_, by decide⟩⟩
    obtain ⟨d, rfl⟩ := forward_eq_some_iff.mp hh
    refine ⟨"@protocol".toList ++
      (d.gap ++ (d.first ++ (d.more.flatMap ListedName.text ++ d.trail))), ?_⟩
    simp [Forward.text_eq, Forward.tail]
  alike prev prev' t t' _ h := by
    unfold forward
    simp only [Option.bind_eq_bind, Option.pure_def]
    refine rel_bind (after_respaced (by decide) h) fun r r' hr => ?_
    refine afterBlanks_bind_respaced rfl (fun r r' hr => ?_) hr
    refine rel_bind (word?_respaced hr) fun w w' hw => ?_
    have hskip := skipListed_respaced (Nat.le_refl _) (Nat.le_refl _) hw.rest
    exact rel_bind (after_respaced (by decide) hskip.trimStart) fun r r' hr => .some ⟨rfl, hr⟩

theorem forward_occursIn_respaced (h : Respaced loose t t') :
    forward.occursIn t' = forward.occursIn t := by
  have hsame : forward.occurrences ([] ++ t') = forward.occurrences t :=
    Shape.occurrences_respaced_eq forward_respects (by simp) h
  rw [Shape.occursIn, Shape.occursIn, ← hsame]
  rfl

/-! ## Events -/

theorem event_respects : event.Respects Eq loose where
  blank := Shape.eq_none_of_isBlank fun prev c rest h hh => by
    obtain ⟨taken, _, htext⟩ := event_marked _ _ _ hh
    rw [(List.cons.inj htext).1]
    decide
  ends := by
    refine ⟨true, fun prev text h hh => ?_⟩
    unfold event at hh
    split at hh
    · rename_i rest hopen
      split at hh
      · cases hh
      · obtain rfl := Option.some.inj hh
        exact opener?_endsIn hopen
    · obtain ⟨rest, hclose, rfl⟩ := Option.map_eq_some_iff.mp hh
      obtain ⟨rfl, _⟩ := closer?_eq_some_iff.mp hclose
      exact ⟨'d', ⟨"@en".toList, rfl⟩, by decide⟩
  alike prev prev' t t' _ h := by
    have hopen := opener?_respaced h
    have hclose := closer?_respaced h
    unfold event
    rw [forward_occursIn_respaced h]
    generalize opener? t = x, opener? t' = x' at hopen
    cases hopen with
    | some hr =>
      dsimp only
      split
      · exact .none
      · exact .some ⟨rfl, hr⟩
    | none =>
      generalize closer? t = y, closer? t' = y' at hclose
      cases hclose with
      | some hr => exact .some ⟨rfl, hr⟩
      | none => exact .none

/-- Blanks before a line and behind it make no difference to the state. -/
theorem step_pad (state : Span) {lead line trail : List Char}
    (hlead : ∀ c ∈ lead, isBlank c = true) (htrail : ∀ c ∈ trail, isBlank c = true) :
    step state (lead ++ (line ++ trail)) = step state line := by
  rw [step, step, Shape.occurrences_respaced_eq event_respects hlead (.padded line htrail)]

theorem step_trail (state : Span) (line : List Char) {trail : List Char}
    (htrail : ∀ c ∈ trail, isBlank c = true) :
    step state (line ++ trail) = step state line := by
  have hlead : ∀ c ∈ ([] : List Char), isBlank c = true := by simp
  exact step_pad state hlead htrail

/-- A line end is nothing that the state depends on, be it kept or dropped. -/
theorem step_kept (state : Span) (line : List Char) :
    step state (line ++ ['\n']) = step state line :=
  step_trail state line (by simpa using isBlank_feed)

theorem step_dropEnd (state : Span) (line : List Char) :
    step state (Lines.dropEnd line) = step state line := by
  obtain ⟨ending, heq, hblank⟩ := Lines.exists_dropEnd line
  have htrail := step_trail state (Lines.dropEnd line) hblank
  rw [← heq] at htrail
  exact htrail.symm

theorem step_blank (state : Span) {line : List Char} (h : ∀ c ∈ line, isBlank c = true) :
    step state line = state := by
  refine step_of_not_mem (fun hm => ?_) state
  exact absurd (h '@' hm) (by decide)

end HeaderIndex.Header.Span
