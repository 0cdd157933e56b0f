import HeaderIndex.Header.Extract
import HeaderIndex.Proofs.Header.Comment

/-! Scrubbing reaches a normal form. Dropping comments leaves none and dropping
directives leaves none, so a second pass changes nothing. Dropping directives
empties whole lines, which opens no comment, so the same holds of both together
(`scrub_normal_form`). And what a comment holds never reaches a search
(`extract_ignores_comments`). -/

namespace HeaderIndex.Header

open HeaderIndex.Text

/-! ## Directives -/

theorem directive_eq_some {prev : Option Char} {text rest v : List Char}
    (h : directive prev text = some ⟨v, rest⟩) :
    prev.all (· == '\n') = true ∧ ∃ indent, (∀ c ∈ indent, isIndent c = true) ∧
      text = indent ++ '#' :: (v ++ rest) ∧ (rest = [] ∨ ∃ below, rest = '\n' :: below) := by
  unfold directive at h
  split at h
  · rename_i hprev
    refine ⟨hprev, ?_⟩
    split at h
    · rename_i tail hd
      obtain ⟨rfl, rfl⟩ : tail.takeWhile (· != '\n') = v ∧
          tail.dropWhile (· != '\n') = rest := by
        simpa using h
      refine ⟨text.takeWhile isIndent, fun c hc => of_mem_takeWhile hc, ?_, dropWhile_line tail⟩
      rw [List.takeWhile_append_dropWhile, ← hd, List.takeWhile_append_dropWhile]
    · cases h
  · cases h

theorem directive_eq_none_iff {prev : Option Char} {text : List Char} :
    directive prev text = none ↔
      (prev.all (· == '\n') = true → (text.dropWhile isIndent).head? ≠ some '#') := by
  unfold directive
  split
  · rename_i hprev
    split
    · rename_i tail hd
      simp [hd, hprev]
    · rename_i hd
      simp only [true_iff]
      intro _ hhead
      obtain ⟨tail, ht⟩ := List.head?_eq_some_iff.mp hhead
      exact hd tail ht
  · rename_i hprev
    simp [hprev]

/-- Emptying the lines of directives splices nothing. -/
theorem directive_seamed : directive.Seamed fun _ => [] where
  consumes := by
    rintro prev text ⟨v, rest⟩ h
    obtain ⟨_, indent, _, htext, _⟩ := directive_eq_some h
    exact ⟨indent ++ '#' :: v, by simp, by simp [htext]⟩
  leaves _ := .inr rfl
  toLineEnd prev text v rest h _ := by
    obtain ⟨_, _, _, _, hend⟩ := directive_eq_some h
    exact hend
  lineFeed prev below := directive_eq_none_iff.mpr fun _ => by simp [isIndent]
  opens prev c cs h hh := by
    obtain ⟨v, rest⟩ := h
    obtain ⟨_, indent, hindent, htext, _⟩ := directive_eq_some hh
    cases indent with
    | nil =>
      obtain ⟨rfl, _⟩ := List.cons.inj htext
      decide
    | cons d indent =>
      obtain ⟨rfl, _⟩ := List.cons.inj htext
      have hc := hindent c (by simp)
      simp only [isIndent, Bool.or_eq_true, beq_iff_eq] at hc
      rcases hc with rfl | rfl <;> decide
  closes prev taken v rest h hv := by cases hv

/-- Away from a line's start, what indents the text indents the replaced text. -/
theorem head?_dropWhile_replaced {c : Char} (hc : c ≠ '\n') {cs : List Char}
    (h : ((directive.replaced (fun _ => []) (some c) cs).dropWhile isIndent).head? = some '#') :
    (cs.dropWhile isIndent).head? = some '#' := by
  induction cs generalizing c with
  | nil => simp at h
  | cons d cs ih =>
    have hnone : directive (some c) (d :: cs) = none :=
      directive_eq_none_iff.mpr (by simp [hc])
    rw [Shape.replaced_plain hnone] at h
    rw [List.dropWhile_cons] at h ⊢
    split at h
    · rename_i hd
      rw [if_pos hd]
      exact ih (by rintro rfl; exact absurd hd (by decide)) h
    · rename_i hd
      rw [if_neg hd]
      simpa using h

theorem absent_directive_replaced (prev : Option Char) (text : List Char) :
    directive.Absent prev (directive.replaced (fun _ => []) prev text) := by
  induction prev, text using Shape.scan_induct directive_seamed.consumes with
  | nil prev =>
    rw [Shape.replaced_nil]
    exact Shape.absent_nil.mpr (directive_seamed.consumes.apply_nil prev)
  | hit prev taken v rest hne hv ih =>
    rw [Shape.replaced_hit hne hv, List.nil_append]
    rcases directive_seamed.toLineEnd _ _ _ _ hv rfl with rfl | ⟨below, rfl⟩
    · rw [Shape.replaced_nil]
      exact Shape.absent_nil.mpr (directive_seamed.consumes.apply_nil prev)
    · -- the line feed behind the directive is where the next line starts
      rw [Shape.replaced_plain (directive_seamed.lineFeed _ _)] at ih ⊢
      exact Shape.absent_cons.mpr
        ⟨directive_seamed.lineFeed _ _, (Shape.absent_cons.mp ih).2⟩
  | plain prev c cs hc ih =>
    rw [Shape.replaced_plain hc]
    refine Shape.absent_cons.mpr ⟨directive_eq_none_iff.mpr ?_, ih⟩
    intro hprev hhead
    have hcs := directive_eq_none_iff.mp hc hprev
    rw [List.dropWhile_cons] at hhead hcs
    split at hhead
    · rename_i hindent
      rw [if_pos hindent] at hcs
      exact hcs (head?_dropWhile_replaced (by rintro rfl; exact absurd hindent (by decide)) hhead)
    · rename_i hindent
      rw [if_neg hindent] at hcs
      exact hcs (by simpa using hhead)

theorem dropDirectives_idempotent (text : List Char) :
    dropDirectives (dropDirectives text) = dropDirectives text :=
  (absent_directive_replaced none text).replaced

/-! ## Both together -/

theorem dropComments_idempotent (text : List Char) :
    dropComments (dropComments text) = dropComments text :=
  (Comment.commentFree_dropComments text).dropComments_eq

theorem commentFree_dropDirectives {text : List Char} (h : Comment.CommentFree text) :
    Comment.CommentFree (dropDirectives text) :=
  h.replaced directive_seamed none

theorem Scrub.apply_idempotent (m : Scrub) (text : List Char) :
    m.apply (m.apply text) = m.apply text := by
  cases m with
  | nothing => rfl
  | comments => exact dropComments_idempotent text
  | directives => exact dropDirectives_idempotent text
  | commentsAndDirectives =>
    have hfree : Comment.CommentFree (dropDirectives (dropComments text)) :=
      commentFree_dropDirectives (Comment.commentFree_dropComments text)
    simp only [Scrub.apply, hfree.dropComments_eq, dropDirectives_idempotent]

theorem extract_eq (kind : Kind) (text : String) :
    extract kind text = find kind (dropComments text.toList) := rfl

/-- **Scrubbing reaches a normal form and keeps what is found.** No `//` is left and
no `/*` with a `*/` behind it; a second pass changes nothing, in any mode; and a
search sees no difference between a text and its scrubbed form. -/
theorem scrub_normal_form (text : List Char) :
    ¬ "//".toList <:+: dropComments text ∧
    (∀ body, ¬ ("/*".toList ++ body ++ "*/".toList) <:+: dropComments text) ∧
    (∀ m : Scrub, m.apply (m.apply text) = m.apply text) ∧
    ∀ kind, extract kind (String.ofList (dropComments text)) =
      extract kind (String.ofList text) := by
  obtain ⟨hline, hblock⟩ := Comment.commentFree_iff.mp (Comment.commentFree_dropComments text)
  refine ⟨hline, hblock, fun m => m.apply_idempotent text, fun kind => ?_⟩
  rw [extract_eq, extract_eq, String.toList_ofList, String.toList_ofList, dropComments_idempotent]

/-! ## What a comment holds -/

theorem dropComments_ignores_block {a c : List Char} (ha : Comment.settled a = true)
    (hc : ¬ ['*', '/'] <:+: c) (b : List Char) :
    dropComments (a ++ (Comment.block c).source ++ b) = dropComments (a ++ [' '] ++ b) := by
  rw [List.append_assoc, Comment.dropComments_append ha, List.append_assoc,
    Comment.dropComments_append ha, Comment.dropComments_comment (v := .block c) hc trivial,
    List.cons_append,
    Comment.dropComments_plain (by decide)]
  rfl

theorem dropComments_ignores_line {a c : List Char} (ha : Comment.settled a = true)
    (hc : '\n' ∉ c) (b : List Char) :
    dropComments (a ++ (Comment.line c).source ++ '\n' :: b) = dropComments (a ++ '\n' :: b) := by
  rw [List.append_assoc, Comment.dropComments_append ha, Comment.dropComments_append ha,
    Comment.dropComments_comment (v := .line c) hc (Or.inr ⟨b, rfl⟩)]
  rfl

theorem extractAll_congr {s t : String} (h : ∀ kind, extract kind s = extract kind t) :
    extractAll s = extractAll t ∧ symbols s = symbols t := by
  simp only [extractAll, symbols, h, and_self]

/-- **Comments never influence what is found.** Behind a text that leaves no comment
open, a block comment counts as a blank and a line comment as nothing, whatever they
hold; so two texts that differ only inside such a comment have the same symbols. -/
theorem extract_ignores_comments (a b : String) (ha : Comment.settled a.toList = true) :
    (∀ c : String, ¬ "*/".toList <:+: c.toList → ∀ kind,
      extract kind (a ++ "/*" ++ c ++ "*/" ++ b) = extract kind (a ++ " " ++ b)) ∧
    (∀ c : String, '\n' ∉ c.toList → ∀ kind,
      extract kind (a ++ "//" ++ c ++ "\n" ++ b) = extract kind (a ++ "\n" ++ b)) ∧
    (∀ c d : String, ¬ "*/".toList <:+: c.toList → ¬ "*/".toList <:+: d.toList →
      extractAll (a ++ "/*" ++ c ++ "*/" ++ b) = extractAll (a ++ "/*" ++ d ++ "*/" ++ b) ∧
      symbols (a ++ "/*" ++ c ++ "*/" ++ b) = symbols (a ++ "/*" ++ d ++ "*/" ++ b)) ∧
    (∀ c d : String, '\n' ∉ c.toList → '\n' ∉ d.toList →
      extractAll (a ++ "//" ++ c ++ "\n" ++ b) = extractAll (a ++ "//" ++ d ++ "\n" ++ b) ∧
      symbols (a ++ "//" ++ c ++ "\n" ++ b) = symbols (a ++ "//" ++ d ++ "\n" ++ b)) := by
  have hblock : ∀ c : String, ¬ "*/".toList <:+: c.toList → ∀ kind,
      extract kind (a ++ "/*" ++ c ++ "*/" ++ b) = extract kind (a ++ " " ++ b) := by
    intro c hc kind
    have h := dropComments_ignores_block ha hc b.toList
    rw [extract_eq, extract_eq]
    congr 1
    simpa [Comment.source] using h
  have hline : ∀ c : String, '\n' ∉ c.toList → ∀ kind,
      extract kind (a ++ "//" ++ c ++ "\n" ++ b) = extract kind (a ++ "\n" ++ b) := by
    intro c hc kind
    have h := dropComments_ignores_line ha hc b.toList
    rw [extract_eq, extract_eq]
    congr 1
    simpa [Comment.source] using h
  refine ⟨hblock, hline, fun c d hc hd => ?_, fun c d hc hd => ?_⟩
  · exact extractAll_congr fun kind => (hblock c hc kind).trans (hblock d hd kind).symm
  · exact extractAll_congr fun kind => (hline c hc kind).trans (hline d hd kind).symm

theorem extract_ignores_comments_between :
    Comment.settled "int a; /* // */ b // /*\n".toList = true ∧
      extract .define
          ("int a; /* // */ b // /*\n" ++ "/*" ++ "//\n#define X /*" ++ "*/" ++ "#define Y") =
        extract .define ("int a; /* // */ b // /*\n" ++ " " ++ "#define Y") := by
  have ha : Comment.settled "int a; /* // */ b // /*\n".toList = true := by decide
  exact ⟨ha, (extract_ignores_comments _ _ ha).1 _ (by decide) _⟩

end HeaderIndex.Header
