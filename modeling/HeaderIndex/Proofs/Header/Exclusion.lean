import HeaderIndex.Header.Exclusion
import HeaderIndex.Proofs.Text.Reading
import HeaderIndex.Proofs.Text.Scan

/-! When an exclusion fires. A table admits a text when none of its rules fires; a rule
for a whole word fires only on an occurrence that is free on both sides. -/

namespace HeaderIndex.Header

open HeaderIndex.Text

theorem hasWholeWord_eq_true {w : List Char} {skip : Nat} {prev : Option Char} {text : List Char}
    (h : hasWholeWord w skip prev text = true) :
    ∃ lead rest, text = lead ++ (w ++ rest) ∧ isFree (lead.getLast?.or prev) = true ∧
      isFree rest.head? = true := by
  induction text generalizing skip prev with
  | nil =>
    cases skip with
    | zero =>
      rw [hasWholeWord, Bool.and_eq_true, List.isEmpty_iff] at h
      obtain ⟨rfl, hprev⟩ := h
      exact ⟨[], [], rfl, hprev, rfl⟩
    | succ skip => cases h
  | cons c cs ih =>
    have hlater : ∀ {n}, hasWholeWord w n (some c) cs = true → ∃ lead rest,
      c :: cs = lead ++ (w ++ rest) ∧
        isFree (lead.getLast?.or prev) = true ∧ isFree rest.head? = true := by
      intro n hn
      obtain ⟨lead, rest, rfl, hlead, hrest⟩ := ih hn
      refine ⟨c :: lead, rest, rfl, ?_, hrest⟩
      rw [Shape.last_cons]
      exact hlead
    cases skip with
    | succ skip => exact hlater h
    | zero =>
      rw [hasWholeWord] at h
      split at h
      · rename_i rest hrest
        rw [Bool.or_eq_true, Bool.and_eq_true] at h
        rcases h with ⟨hprev, hend⟩ | h
        · exact ⟨[], rest, (List.isPrefixOf?_eq_some_iff_append_eq.mp hrest).symm, hprev, hend⟩
        · exact hlater h
      · exact hlater h

namespace Exclusion

theorem admits_eq_false_iff {table : List Exclusion} {text : List Char} :
    admits table text = false ↔ ∃ e ∈ table, e.fires text = true := by
  simp [admits, first?]

theorem admits_iff {table : List Exclusion} {text : List Char} :
    admits table text = true ↔ ∀ e ∈ table, e.fires text = false := by
  simp [admits, first?]

/-- What rules a part of a line out rules the line out. -/
theorem admits_ofConstantLine_of_infix {part line : List Char} (h : part <:+: line)
    (hpart : admits ofConstantLine part = false) : admits ofConstantLine line = false := by
  obtain ⟨e, he, hfires⟩ := admits_eq_false_iff.mp hpart
  refine admits_eq_false_iff.mpr ⟨e, he, ?_⟩
  have hcontains : ∀ e ∈ ofConstantLine, ∃ literal, e.rule = .contains literal := by
    simp [ofConstantLine]
  obtain ⟨literal, hrule⟩ := hcontains e he
  simp only [fires, hrule, Rule.fires, contains_iff] at hfires ⊢
  exact hfires.trans h

/-- A line without the words and the marks that rule one out may declare a constant. -/
theorem admits_ofConstantLine {line : List Char}
    (hwords : ∀ w ∈ ["typedef", "property"], ¬ w.toList <:+: line)
    (hmarks : ∀ c ∈ "#@\x7d+-(:".toList, c ∉ line) : admits ofConstantLine line = true := by
  have hrules : ∀ e ∈ ofConstantLine, ∃ literal, e.rule = .contains literal ∧
      (literal ∈ ["typedef", "property"] ∨ ∃ c ∈ "#@\x7d+-(:".toList,
        literal.toList = [c]) := by
    simp [ofConstantLine]
  refine admits_iff.mpr fun e he => ?_
  obtain ⟨literal, hrule, hliteral⟩ := hrules e he
  rw [fires, hrule, Rule.fires, ← Bool.not_eq_true, contains_iff]
  rcases hliteral with hword | ⟨c, hc, hl⟩
  · exact hwords literal hword
  · rw [hl]
    exact fun hwithin => hmarks c hc (hwithin.subset (by simp))

/-- A text with an `@` or a `#` in it leads to no function. -/
theorem admits_ofFunction_of_mem {c : Char} (hc : c = '@' ∨ c = '#') {text : List Char}
    (h : c ∈ text) : admits ofFunction text = false := by
  obtain ⟨e, he, hrule⟩ : ∃ e ∈ ofFunction, e.rule = .contains (String.ofList [c]) := by
    rcases hc with rfl | rfl
    · exact ⟨⟨"annotation", .contains "@"⟩, by simp [ofFunction], rfl⟩
    · exact ⟨⟨"preprocessor", .contains "#"⟩, by simp [ofFunction], rfl⟩
  refine admits_eq_false_iff.mpr ⟨e, he, ?_⟩
  rw [fires, hrule, Rule.fires, contains_iff, String.toList_ofList]
  obtain ⟨a, b, rfl⟩ := List.append_of_mem h
  exact ⟨a, b, by simp⟩

/-- Nor does a text that starts with `typedef`. -/
theorem admits_ofFunction_typedef (rest : List Char) (h : isFree rest.head? = true) :
    admits ofFunction ("typedef".toList ++ rest) = false := by
  refine admits_eq_false_iff.mpr ⟨⟨"typedef", .word "typedef"⟩, by simp [ofFunction], ?_⟩
  have hstart : "typedef".toList.isPrefixOf? ('t' :: ("ypedef".toList ++ rest)) = some rest :=
    after_append "typedef" rest
  have hnone : isFree none = true := rfl
  show hasWholeWord "typedef".toList 0 none ('t' :: ("ypedef".toList ++ rest)) = true
  rw [hasWholeWord, hstart]
  simp only [hnone, h, Bool.and_self, Bool.true_or]

end Exclusion

end HeaderIndex.Header
