import HeaderIndex.Proofs.Header.Layout.Scrub

/-! Directives, line by line. A scan for directives asks at every place of a text whether a line
starts there, and yet what it leaves of a line depends on that line only. So dropping directives
cuts the text at its line feeds, empties the lines that are directives and puts the line feeds
back (`dropDirectives_by_line`). -/

namespace HeaderIndex.Header

open HeaderIndex.Text

/-- Spaces and tabs, then `#`, then anything. -/
def IsDirectiveLine (line : List Char) : Prop :=
  ∃ indent rest, (∀ c ∈ indent, c = ' ' ∨ c = '\t') ∧ line = indent ++ '#' :: rest

theorem isDirective_iff {line : List Char} : isDirective line = true ↔ IsDirectiveLine line := by
  rw [isDirective, beq_iff_eq]
  constructor
  · intro h
    obtain ⟨rest, hrest⟩ := List.head?_eq_some_iff.mp h
    refine ⟨line.takeWhile isIndent, rest, fun c hc => ?_, ?_⟩
    · simpa [isIndent] using of_mem_takeWhile hc
    · rw [← hrest, List.takeWhile_append_dropWhile]
  · rintro ⟨indent, rest, hindent, rfl⟩
    rw [List.dropWhile_append_of_pos fun c hc => by simpa [isIndent] using hindent c hc]
    rfl

instance : DecidablePred IsDirectiveLine := fun _ => decidable_of_iff _ isDirective_iff

/-- What dropping directives leaves of a line. -/
def emptied (line : List Char) : List Char := if IsDirectiveLine line then [] else line

theorem emptied_eq (line : List Char) : emptied line = if isDirective line then [] else line := by
  simp only [emptied, isDirective_iff]

theorem not_mem_emptied {c : Char} {line : List Char} (h : c ∉ line) : c ∉ emptied line := by
  rw [emptied]
  split
  · exact List.not_mem_nil
  · exact h

/-- What is left of the first line does not depend on those below. -/
theorem dropDirectives_first {line : List Char} (h : '\n' ∉ line) (below : List Char) :
    dropDirectives (line ++ '\n' :: below) = emptied line ++ '\n' :: dropDirectives below := by
  rw [dropDirectives_line h (.inr ⟨below, rfl⟩), emptied_eq]
  rfl

theorem dropDirectives_eq_emptied {line : List Char} (h : '\n' ∉ line) :
    dropDirectives line = emptied line := by
  rw [dropDirectives_last h, emptied_eq]

theorem map_emptied_ne_nil (text : List Char) : (text.splitOn '\n').map emptied ≠ [] := by
  rw [ne_eq, List.map_eq_nil_iff]
  exact List.splitOn_ne_nil '\n' text

theorem dropDirectives_eq_intercalate (text : List Char) :
    dropDirectives text = ['\n'].intercalate ((text.splitOn '\n').map emptied) := by
  induction text using mark_induct '\n' with
  | last line h =>
    rw [dropDirectives_eq_emptied h, List.splitOn_eq_singleton h, List.map_singleton,
      List.intercalate_singleton]
  | marked line below h ih =>
    rw [dropDirectives_first h, ih, List.splitOn_append_cons_self_of_not_mem h, List.map_cons,
      List.intercalate_cons_of_ne_nil (map_emptied_ne_nil below), List.append_assoc,
      List.singleton_append]

theorem splitOn_dropDirectives (text : List Char) :
    (dropDirectives text).splitOn '\n' = (text.splitOn '\n').map emptied := by
  rw [dropDirectives_eq_intercalate]
  refine List.splitOn_intercalate '\n' (fun piece hpiece => ?_) (map_emptied_ne_nil text)
  obtain ⟨line, hline, rfl⟩ := List.mem_map.mp hpiece
  exact not_mem_emptied (not_mem_of_mem_splitOn hline)

theorem count_dropDirectives (text : List Char) :
    (dropDirectives text).count '\n' = text.count '\n' := by
  have hlength := congrArg List.length (splitOn_dropDirectives text)
  rw [List.length_map, length_splitOn, length_splitOn] at hlength
  exact Nat.succ.inj hlength

theorem dropDirectives_append_feed (above below : List Char) :
    dropDirectives (above ++ '\n' :: below) = dropDirectives above ++ '\n' ::
      dropDirectives below := by
  induction above using mark_induct '\n' with
  | last line h => rw [dropDirectives_first h, dropDirectives_eq_emptied h]
  | marked line above h ih =>
    rw [List.append_assoc, List.cons_append, dropDirectives_first h, ih, dropDirectives_first h,
      List.append_assoc, List.cons_append]

/-- **Directives are dropped line by line.** The text is cut at its line feeds, the lines that
are directives are emptied and the others kept, and the line feeds are put back. So there are as
many line feeds as before, every other line is where it was, and what is above a line feed has no
bearing on what is below. -/
theorem dropDirectives_by_line (text : List Char) :
    dropDirectives text = ['\n'].intercalate ((text.splitOn '\n').map emptied) ∧
    (dropDirectives text).count '\n' = text.count '\n' ∧
    (∀ (n : Nat) (line : List Char), (text.splitOn '\n')[n]? = some line →
      ¬ IsDirectiveLine line → ((dropDirectives text).splitOn '\n')[n]? = some line) ∧
    ∀ above below : List Char, dropDirectives (above ++ '\n' :: below) =
      dropDirectives above ++ '\n' :: dropDirectives below := by
  refine ⟨dropDirectives_eq_intercalate text, count_dropDirectives text,
    fun n line hline hkept => ?_, dropDirectives_append_feed⟩
  rw [splitOn_dropDirectives, List.getElem?_map, hline, Option.map_some, emptied, if_neg hkept]

/-- Two directives in a row, the second behind a tab, and a line with `#` further on. -/
theorem dropDirectives_by_line_in_a_row :
    ("#if A\n\t# b\n x # y\n\n #".toList.splitOn '\n')[2]? = some " x # y".toList ∧
      ¬ IsDirectiveLine " x # y".toList ∧
      ((dropDirectives "#if A\n\t# b\n x # y\n\n #".toList).splitOn '\n')[2]? =
        some " x # y".toList := by
  have hline : ("#if A\n\t# b\n x # y\n\n #".toList.splitOn '\n')[2]? = some " x # y".toList := by
    decide +kernel
  have hkept : ¬ IsDirectiveLine " x # y".toList := by decide +kernel
  exact ⟨hline, hkept, (dropDirectives_by_line _).2.2.1 2 _ hline hkept⟩

end HeaderIndex.Header
