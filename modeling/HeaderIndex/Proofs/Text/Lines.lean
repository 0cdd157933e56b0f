import HeaderIndex.Proofs.Text.Scan
import HeaderIndex.Text.Lines

/-! Lines as parts of a text. Every line but the last ends with its line feed, so a
line starts at the start of the text or behind a line feed, and whatever follows it
follows its own line feed. -/

namespace HeaderIndex.Text.Lines

theorem kept_line {line below : List Char} (h : '\n' ∉ line) :
    kept (line ++ '\n' :: below) = (line ++ ['\n']) :: kept below := by
  induction line with
  | nil => simp [kept]
  | cons c line ih =>
    simp only [List.mem_cons, not_or] at h
    have hc : ¬ c = '\n' := fun he => h.1 he.symm
    simp [kept, hc, ih h.2]

theorem bare_line {line : List Char} (h : '\n' ∉ line) (below : List Char) :
    bare (line ++ '\n' :: below) = dropEnd (line ++ ['\n']) :: bare below := by
  rw [bare, kept_line h]
  rfl

theorem kept_last {line : List Char} (h : '\n' ∉ line) (hne : line ≠ []) :
    kept line = [line] := by
  induction line with
  | nil => exact absurd rfl hne
  | cons c line ih =>
    rw [List.mem_cons, not_or] at h
    have hc : (c == '\n') = false := beq_false_of_ne (Ne.symm h.1)
    by_cases hline : line = []
    · subst hline
      simp [kept, hc]
    · rw [kept, hc, ih h.2 hline]
      rfl

theorem dropEnd_line {line : List Char} (h : line.getLast? ≠ some '\r') :
    dropEnd (line ++ ['\n']) = line := by
  unfold dropEnd
  rw [List.reverse_append, List.reverse_singleton, List.singleton_append]
  cases hr : line.reverse with
  | nil => simp [List.reverse_eq_nil_iff.mp hr]
  | cons c rest =>
    have hc : c ≠ '\r' := by
      intro he
      apply h
      rw [← List.head?_reverse, hr, he]
      rfl
    split
    · rename_i heq
      simp_all
    · rename_i heq
      simp only [List.cons.injEq, true_and] at heq
      rw [← heq, ← hr, List.reverse_reverse]
    · rename_i hne
      exact absurd rfl (hne _)

/-- Lines as a text, each with its line feed. -/
def joined (lines : List (List Char)) : List Char := lines.flatMap (· ++ ['\n'])

theorem joined_cons (line : List Char) (lines : List (List Char)) :
    joined (line :: lines) = line ++ '\n' :: joined lines := by
  simp [joined]

theorem kept_joined_append {lines : List (List Char)} (h : ∀ line ∈ lines, '\n' ∉ line)
    (below : List Char) :
    kept (joined lines ++ below) = lines.map (· ++ ['\n']) ++ kept below := by
  induction lines with
  | nil => rfl
  | cons line lines ih =>
    rw [joined_cons, List.append_assoc, List.cons_append, kept_line (h line (by simp)),
      ih fun l hl => h l (by simp [hl]), List.map_cons, List.cons_append]

theorem kept_joined {lines : List (List Char)} (h : ∀ line ∈ lines, '\n' ∉ line) :
    kept (joined lines) = lines.map (· ++ ['\n']) := by
  have hkept := kept_joined_append h []
  rwa [List.append_nil, kept, List.append_nil] at hkept

/-- A text of whole lines: its last line has its line feed. -/
def Ended (text : List Char) : Prop := text = [] ∨ text.getLast? = some '\n'

theorem Ended.of_cons {c : Char} {text : List Char} (h : Ended (c :: text)) : Ended text := by
  by_cases hnil : text = []
  · exact .inl hnil
  · have hlast := h.resolve_left (List.cons_ne_nil c text)
    rw [List.getLast?_cons_of_ne_nil hnil] at hlast
    exact .inr hlast

theorem ended_concat (text : List Char) : Ended (text ++ ['\n']) := .inr (by simp)

/-- Lines can be told apart at the end of any of them. -/
theorem kept_append {above : List Char} (h : Ended above) (below : List Char) :
    kept (above ++ below) = kept above ++ kept below := by
  induction above with
  | nil => rfl
  | cons c above ih =>
    have hrest := h.of_cons
    rw [List.cons_append, kept, kept, ih hrest]
    split
    · rfl
    · rename_i hc
      -- the line of `c` goes on, so there is a first line left to put it before
      have hne : above ≠ [] := by
        intro hnil
        rw [hnil] at h
        exact hc (by simpa [Ended] using h)
      obtain ⟨d, above, rfl⟩ := List.exists_cons_of_ne_nil hne
      cases hkept : kept (d :: above) with
      | nil => rw [← flatten_kept (d :: above), hkept] at hne; exact absurd rfl hne
      | cons line rest => rfl

theorem bare_append {above : List Char} (h : Ended above) (below : List Char) :
    bare (above ++ below) = bare above ++ bare below := by
  rw [bare, kept_append h, List.map_append]
  rfl

/-- Every line that another one follows ends with a line feed. -/
theorem getLast?_of_kept (text : List Char) (above : List (List Char)) (line next : List Char)
    (below : List (List Char)) (h : kept text = above ++ line :: next :: below) :
    line.getLast? = some '\n' := by
  induction text generalizing above line with
  | nil => simp [kept] at h
  | cons c cs ih =>
    simp only [kept] at h
    split at h
    · rename_i hc
      cases above with
      | nil =>
        obtain ⟨rfl, _⟩ := List.cons.inj h
        simpa using hc
      | cons first above =>
        exact ih above line (List.cons.inj h).2
    · split at h
      · have hlen := congrArg List.length h
        simp only [List.length_cons, List.length_append, List.length_nil] at hlen
        omega
      · rename_i first rest hrest
        cases above with
        | nil =>
          obtain ⟨rfl, hnext⟩ := List.cons.inj h
          have hfirst : first.getLast? = some '\n' := ih [] first (by rw [hrest, hnext]; rfl)
          rw [List.getLast?_cons, hfirst]
          rfl
        | cons _ above =>
          obtain ⟨_, hnext⟩ := List.cons.inj h
          exact ih (first :: above) line (by rw [hrest, hnext]; rfl)

/-- Where a line stands in its text. -/
theorem split_of_mem_kept {text line : List Char} (h : line ∈ kept text) :
    ∃ above below, text = above ++ (line ++ below) ∧
      (above = [] ∨ above.getLast? = some '\n') ∧
      (below = [] ∨ line.getLast? = some '\n') := by
  obtain ⟨above, below, hkept⟩ := List.append_of_mem h
  refine ⟨above.flatten, below.flatten, ?_, ?_, ?_⟩
  · rw [← flatten_kept text, hkept]
    simp
  · rcases List.eq_nil_or_concat above with rfl | ⟨first, last, rfl⟩
    · exact .inl rfl
    · have hlast : last.getLast? = some '\n' := by
        apply getLast?_of_kept text first last line below
        rw [hkept]
        simp
      right
      simp [List.getLast?_append, hlast]
  · cases below with
    | nil => exact .inl rfl
    | cons next below => exact .inr (getLast?_of_kept text above line next below hkept)

/-- What a line loses at its end: nothing, its line feed, or a carriage return and that. -/
theorem dropEnd_eq (line : List Char) :
    ∃ ending, line = dropEnd line ++ ending ∧
      (ending = [] ∨ ending = ['\n'] ∨ ending = ['\r', '\n']) := by
  unfold dropEnd
  split
  · rename_i body h
    refine ⟨['\r', '\n'], ?_, .inr (.inr rfl)⟩
    rw [← List.reverse_reverse line, h]
    simp
  · rename_i body _ h
    refine ⟨['\n'], ?_, .inr (.inl rfl)⟩
    rw [← List.reverse_reverse line, h]
    simp
  · exact ⟨[], by simp, .inl rfl⟩

end HeaderIndex.Text.Lines
