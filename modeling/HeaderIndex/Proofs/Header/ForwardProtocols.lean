import HeaderIndex.Proofs.Header.AtDefinition
import HeaderIndex.Proofs.Header.Grammar

/-! Forward declarations of protocols between other texts. The search for protocols passes
over one wherever its line breaks are. The search for constants goes line by line and does
so if the declaration is on one line or starts a new one right behind its keyword; if it
is broken anywhere else, its first line looks like the head of a definition
(`forward_transparent`). -/

namespace HeaderIndex.Header

open HeaderIndex.Text

/-! ## The search for protocols -/

namespace Protocol

/-- The protocols a text defines, in order and with repetitions. -/
def defined (text : List Char) : List String :=
  ((shape.occurrences text).filter (·.2)).map fun p => String.ofList p.1

theorem find_eq (text : List Char) : find text = (defined text).eraseDups := rfl

theorem shape_marked : shape.Marked '@' := by
  intro prev text h hh
  obtain ⟨⟨name, defines⟩, rest⟩ := h
  obtain ⟨blanks, rfl, hb, hw, _⟩ := shape_eq_some_iff.mp hh
  refine ⟨"protocol".toList ++ (blanks ++ name), ?_, by simp⟩
  simp only [List.mem_append, not_or]
  exact ⟨by decide, fun hm => absurd (hb '@' hm) (by decide), fun hm =>
    absurd (hw.chars '@' hm) (by decide)⟩

/-- Behind whole lines, an `@` is no more than another token. -/
theorem continues_append {text rest : List Char} (hrest : rest.head? = some '@')
    (hne : text ≠ []) : continues (text ++ rest) = continues text := by
  obtain ⟨tail, rfl⟩ := List.head?_eq_some_iff.mp hrest
  obtain ⟨c, text, rfl⟩ := List.exists_cons_of_ne_nil hne
  unfold continues
  rw [trimStart_append]
  cases htrim : trimStart (c :: text) with
  | cons d more => rfl
  | nil =>
    have hc : isBlank c = true := by
      cases hc : isBlank c with
      | true => rfl
      | false =>
        rw [trimStart, List.dropWhile_cons, hc] at htrim
        cases htrim
    have hat : trimStart ('@' :: tail) = '@' :: tail := rfl
    simp [hat, hc]

/-- A line feed never ends a text that ends with a word. -/
theorem getLast?_word {name : List Char} (hw : IsWord name) (lead : List Char) :
    (lead ++ name).getLast? ≠ some '\n' := by
  intro h
  rw [List.getLast?_append_of_ne_nil lead hw.ne_nil] at h
  exact absurd (hw.chars '\n' (List.mem_of_getLast? h)) (by decide)

/-- A name with something behind it is read alike when an `@` follows all of that. -/
theorem shape_append_iff {prev : Option Char} {text rest name behind : List Char} {defines : Bool}
    (hrest : rest.head? = some '@') (hne : behind ≠ []) :
    shape prev (text ++ rest) = some ⟨(name, defines), behind ++ rest⟩ ↔
      shape prev text = some ⟨(name, defines), behind⟩ := by
  have hbound : (behind ++ rest).head? = behind.head? := by
    obtain ⟨c, behind, rfl⟩ := List.exists_cons_of_ne_nil hne
    rfl
  rw [shape_eq_some_iff, shape_eq_some_iff, hbound, continues_append hrest hne]
  refine exists_congr fun blanks => and_congr_left fun _ => ?_
  rw [← List.append_assoc name, ← List.append_assoc blanks,
    ← List.append_assoc "@protocol".toList]
  exact List.append_left_inj rest

/-- What is read at a place of whole lines does not depend on an `@` behind them. -/
theorem shape_append {prev : Option Char} {text rest : List Char} (hrest : rest.head? = some '@')
    (hend : text.getLast? = some '\n') :
    (shape prev (text ++ rest)).map Hit.value = (shape prev text).map Hit.value := by
  -- the lines end with a line feed, so no name reaches their end
  have hbehind : ∀ {name behind blanks : List Char}, IsWord name →
      text = "@protocol".toList ++ (blanks ++ (name ++ behind)) → behind ≠ [] := by
    intro name behind blanks hw htext hnil
    rw [htext, hnil, List.append_nil, ← List.append_assoc] at hend
    exact getLast?_word hw _ hend
  cases h : shape prev text with
  | some found =>
    obtain ⟨⟨name, defines⟩, behind⟩ := found
    obtain ⟨blanks, htext, _, hw, _⟩ := shape_eq_some_iff.mp h
    rw [(shape_append_iff hrest (hbehind hw htext)).mpr h]
    rfl
  | none =>
    cases h' : shape prev (text ++ rest) with
    | none => rfl
    | some found =>
      obtain ⟨⟨name, defines⟩, tail⟩ := found
      have hne : text ≠ [] := fun hnil => by rw [hnil] at hend; cases hend
      obtain ⟨behind, rfl⟩ : ∃ behind, tail = behind ++ rest :=
        shape_marked.exists_rest hne hrest h'
      obtain ⟨blanks, htext, _, hw, _⟩ := shape_eq_some_iff.mp h'
      have htext : text = "@protocol".toList ++ (blanks ++ (name ++ behind)) := by
        refine List.append_cancel_right (htext.trans ?_)
        simp only [List.append_assoc]
      rw [(shape_append_iff hrest (hbehind hw htext)).mp h'] at h
      cases h

theorem hits_append {rest : List Char} (hrest : rest.head? = some '@') (prev : Option Char)
    {text : List Char} (hend : Lines.Ended text) :
    shape.hits prev (text ++ rest) =
      shape.hits prev text ++ shape.hits (text.getLast?.or prev) rest := by
  induction text generalizing prev with
  | nil => simp
  | cons c text ih =>
    have hlast := hend.resolve_left (List.cons_ne_nil c text)
    rw [List.cons_append, shape_marked.hits_cons, shape_marked.hits_cons, ih (some c) hend.of_cons,
      ← List.cons_append, shape_append hrest hlast, List.append_assoc, Shape.last_cons]

/-- Behind the first name of a forward declaration stands a comma or the semicolon. -/
theorem continues_tail (d : Forward) (rest : List Char) : continues (d.tail ++ rest) = false := by
  have htrim : ∃ c more, trimStart (d.tail ++ rest) = c :: more ∧ (c = ';' ∨ c = ',') := by
    cases hmore : d.more with
    | nil =>
      refine ⟨';', rest, ?_, .inl rfl⟩
      have htail : d.tail ++ rest = d.trail ++ ';' :: rest := by
        simp [Forward.tail, hmore]
      rw [htail, trimStart_run d.trail_blank (stopsRun_cons.mpr (by decide))]
    | cons n names =>
      refine ⟨',', n.gap ++
        (n.name ++ (names.flatMap ListedName.text ++ (d.trail ++ ';' :: rest))), ?_, .inr rfl⟩
      have htail : d.tail ++ rest =
          n.lead ++ ',' :: (n.gap ++ (n.name ++ (names.flatMap ListedName.text ++ (d.trail ++
            ';' :: rest)))) := by
        simp [Forward.tail, ListedName.text, hmore]
      rw [htail, trimStart_run n.lead_blank (stopsRun_cons.mpr (by decide))]
  obtain ⟨c, more, htrim, hc⟩ := htrim
  rw [continues, htrim]
  rcases hc with rfl | rfl <;> rfl

/-- A forward declaration is read, and as one that defines nothing. -/
theorem shape_forward (d : Forward) (prev : Option Char) (rest : List Char) :
    shape prev (d.text ++ rest) = some ⟨(d.first, false), d.tail ++ rest⟩ := by
  refine shape_eq_some_iff.mpr ⟨d.gap, ?_, d.gap_blank, d.isWord, d.wordBoundary_tail rest,
    continues_tail d rest⟩
  simp only [Forward.text_eq, List.append_assoc]

theorem defined_forward (d : Forward) {pre : List Char} (hend : Lines.Ended pre)
    (post : List Char) :
    defined (pre ++ (d.text ++ '\n' :: post)) = defined pre ++ defined post := by
  obtain ⟨tail, htext, htail⟩ := d.exists_cons
  have hsame : ∀ prev text, shape.hits prev text = shape.hits none text := fun _ =>
    Shape.hits_congr fun _ => rfl
  have hfeed : '@' ∉ tail ++ ['\n'] := by
    simpa using htail
  have hsplit : d.text ++ '\n' :: post = '@' :: ((tail ++ ['\n']) ++ post) := by
    simp [htext]
  have hhits : shape.hits none (d.text ++ '\n' :: post) = (d.first, false) ::
      shape.hits none post := by
    rw [hsplit, shape_marked.hits_cons, ← hsplit, shape_forward,
      shape_marked.hits_pass hfeed, hsame]
    rfl
  have hhead : (d.text ++ '\n' :: post).head? = some '@' := by
    rw [hsplit]
    rfl
  rw [defined, Shape.occurrences_eq_hits, hits_append hhead none hend, hsame _ (d.text ++ _), hhits,
    List.filter_append, List.map_append]
  rfl

theorem find_forward (d : Forward) : find d.text = [] := by
  obtain ⟨tail, htext, htail⟩ := d.exists_cons
  have hpass : shape.hits (some '@') (tail ++ []) = shape.hits (tail.getLast?.or (some '@')) [] :=
    shape_marked.hits_pass htail []
  have hread := shape_forward d none []
  rw [List.append_nil, htext] at hread
  rw [List.append_nil, Shape.hits_nil] at hpass
  rw [find_eq, defined, Shape.occurrences_eq_hits, htext, shape_marked.hits_cons, hread, hpass]
  rfl

end Protocol

/-! ## The lines of a forward declaration -/

theorem Span.foldl_of_fixed {lines : List (List Char)} {state : Span}
    (h : ∀ line ∈ lines, Span.step state line = state) :
    lines.foldl Span.step state = state := by
  induction lines with
  | nil => rfl
  | cons line lines ih =>
    rw [List.foldl_cons, h line (by simp)]
    exact ih fun l hl => h l (by simp [hl])

/-- Without an `@` in a text, none of its lines changes the state. -/
theorem Span.step_of_mem_bare {text line : List Char} (hat : '@' ∉ text)
    (h : line ∈ Lines.bare text) (state : Span) : Span.step state line = state := by
  obtain ⟨whole, hwhole, rfl⟩ := List.mem_map.mp h
  obtain ⟨above, below, rfl, _⟩ := Lines.split_of_mem_kept hwhole
  rw [Span.step_dropEnd]
  exact Span.step_of_not_mem (fun hm => hat (by simp [hm])) state

namespace Forward

/-- The first line goes beyond the keyword, and is not the last. -/
def Wrapped (d : Forward) : Prop := '\n' ∉ d.gap ∧ '\n' ∈ d.tail

instance (d : Forward) : Decidable d.Wrapped := inferInstanceAs (Decidable (_ ∧ _))

theorem feed_not_mem_head {d : Forward} (h : '\n' ∉ d.gap) :
    '\n' ∉ "@protocol".toList ++ (d.gap ++ d.first) := by
  simp only [List.mem_append, not_or]
  exact ⟨by decide, h, fun hm => absurd (d.isWord.chars '\n' hm) (by decide)⟩

theorem step_of_not_wrapped {d : Forward} (h : ¬ d.Wrapped) {line : List Char}
    (hline : line ∈ Lines.bare (d.text ++ ['\n'])) (state : Span) :
    Span.step state line = state := by
  by_cases hgap : '\n' ∈ d.gap
  · -- the keyword stands alone on the first line
    obtain ⟨blanks, more, hsplit, hfeed⟩ := List.eq_append_cons_of_mem hgap
    have htext : d.text ++ ['\n'] =
        ("@protocol".toList ++ blanks) ++ '\n' :: (more ++ (d.first ++ (d.tail ++ ['\n']))) := by
      simp [text_eq, hsplit]
    have hblank : ∀ c ∈ blanks, isBlank c = true :=
      fun c hc => d.gap_blank c (by simp [hsplit, hc])
    have hmore : ∀ c ∈ more, isBlank c = true :=
      fun c hc => d.gap_blank c (by simp [hsplit, hc])
    have hkeyword : '\n' ∉ "@protocol".toList ++ blanks := by
      simpa using hfeed
    rw [htext, Lines.bare_line hkeyword] at hline
    rcases List.mem_cons.mp hline with rfl | hline
    · rw [Span.step_bare, Span.step_trail _ _ hblank]
      cases state <;> decide
    · refine Span.step_of_mem_bare ?_ hline state
      simp only [List.mem_append, not_or]
      exact ⟨fun hm => absurd (hmore '@' hm) (by decide), fun hm =>
        absurd (d.isWord.chars '@' hm) (by decide), d.at_not_mem_tail, by decide⟩
  · have htail : '\n' ∉ d.tail := fun hm => h ⟨hgap, hm⟩
    have hfeed : '\n' ∉ d.text := by
      have hhead := d.feed_not_mem_head hgap
      simp only [text_eq, List.mem_append, not_or] at hhead ⊢
      exact ⟨hhead.1, hhead.2.1, hhead.2.2, htail⟩
    rw [Lines.bare_line hfeed] at hline
    obtain rfl : line = Lines.dropEnd (d.text ++ ['\n']) := by
      simpa [Lines.bare, Lines.kept] using hline
    rw [Span.step_bare]
    have hstep := Span.step_forward d List.not_mem_nil state
    rwa [List.append_nil] at hstep

/-- No semicolon stands before the last line of a forward declaration. -/
theorem semicolon_not_mem {d : Forward} {above below : List Char}
    (h : d.tail = above ++ '\n' :: below) : ';' ∉ above := by
  have hnames : ';' ∉ d.more.flatMap ListedName.text ++ d.trail := by
    rw [List.mem_append, not_or]
    exact ⟨not_mem_names (by decide) (by decide) (by decide) d.more,
      fun hm => absurd (d.trail_blank ';' hm) (by decide)⟩
  rw [tail, ← List.append_assoc] at h
  rcases List.append_eq_append_iff.mp h with ⟨more, rfl, hmore⟩ | ⟨more, hmore, _⟩
  · cases more with
    | nil => exact absurd (List.cons.inj hmore).1 (by decide)
    | cons c more => exact absurd (List.cons.inj hmore).2 (by simp)
  · rw [hmore, List.mem_append, not_or] at hnames
    exact hnames.1

/-- The first line of a wrapped declaration looks like the head of a definition. -/
theorem exists_lines_of_wrapped {d : Forward} (h : d.Wrapped) :
    ∃ first others, Lines.bare (d.text ++ ['\n']) = first :: others ∧
      Span.step .outside first = .inside ∧ ∀ line ∈ others,
      Span.step .inside line = .inside := by
  obtain ⟨hgap, hfeed⟩ := h
  obtain ⟨above, below, hsplit, habove⟩ := List.eq_append_cons_of_mem hfeed
  have hat := d.at_not_mem_tail
  have hend := d.wordBoundary_tail []
  rw [List.append_nil] at hend
  rw [hsplit, List.mem_append, List.mem_cons, not_or, not_or] at hat
  have hbound : wordBoundary above.head? = true := by
    cases above with
    | nil => rfl
    | cons c above => rwa [hsplit] at hend
  have hline : '\n' ∉ "@protocol".toList ++ (d.gap ++ (d.first ++ above)) := by
    have hhead := d.feed_not_mem_head hgap
    simp only [List.mem_append, not_or] at hhead ⊢
    exact ⟨hhead.1, hhead.2.1, hhead.2.2, habove⟩
  have htext : d.text ++ ['\n'] =
      "@protocol".toList ++ (d.gap ++ (d.first ++ above)) ++ '\n' :: (below ++ ['\n']) := by
    simp [text_eq, hsplit]
  refine ⟨_, _, htext ▸ Lines.bare_line hline _, ?_, fun line hl => ?_⟩
  · rw [Span.step_bare]
    exact Span.step_opener (by decide) d.gap_ne_nil d.gap_blank d.isWord hbound hat.1
      (semicolon_not_mem hsplit) _
  · refine Span.step_of_mem_bare ?_ hl _
    simpa using hat.2.2

end Forward

/-! ## The search for constants -/

namespace Constant

/-- Behind whole lines that leave the state outside, a search starts anew. -/
theorem find_append {pre : List Char} (hend : Lines.Ended pre)
    (hpre : (Lines.bare pre).foldl Span.step .outside = .outside) (post : List Char) :
    find (pre ++ post) = find pre ++ find post := by
  rw [find, Lines.bare_append hend, onLines_append, hpre]
  rfl

theorem onLines_eq_nil {lines : List (List Char)}
    (h : ∀ line ∈ lines, Span.step .inside line = .inside) : onLines .inside lines = [] := by
  induction lines with
  | nil => rfl
  | cons line lines ih =>
    rw [onLines_inside, h line (by simp)]
    exact ih fun l hl => h l (by simp [hl])

/-- Behind a declaration that leaves the state alone a search goes on. -/
theorem find_forward {d : Forward} (h : ¬ d.Wrapped) (post : List Char) :
    find (d.text ++ '\n' :: post) = find (d.text ++ ['\n']) ++ find post := by
  have hstep := Span.foldl_of_fixed fun line hl => d.step_of_not_wrapped h hl .outside
  have hsplit : d.text ++ '\n' :: post = (d.text ++ ['\n']) ++ post := by simp
  rw [hsplit, find_append (Lines.ended_concat d.text) hstep]

/-- Behind a wrapped declaration a search goes on as inside a definition. -/
theorem find_wrapped {d : Forward} (h : d.Wrapped) (post : List Char) :
    find (d.text ++ '\n' :: post) = onLines .inside (Lines.bare post) := by
  obtain ⟨first, others, hlines, hfirst, hothers⟩ := d.exists_lines_of_wrapped h
  have hsplit : d.text ++ '\n' :: post = (d.text ++ ['\n']) ++ post := by simp
  have hopen : ∀ below, onLines .outside (first :: below) = onLines .inside below := by
    intro below
    simp [onLines, hfirst]
  rw [find, hsplit, Lines.bare_append (Lines.ended_concat d.text), hlines, List.cons_append, hopen,
    onLines_append, onLines_eq_nil hothers, Span.foldl_of_fixed hothers]
  rfl

end Constant

/-- **Forward declarations of protocols define nothing.** Behind whole lines that leave the
state outside, the search for protocols passes over one. So does the search for constants,
which then finds what stands before it, what its own lines hold, and what stands behind it;
but if the declaration is wrapped, what stands behind it is searched as the inside of a
definition. -/
theorem forward_transparent (d : Forward) (pre post : List Char) (hend : Lines.Ended pre)
    (hpre : (Lines.bare pre).foldl Span.step .outside = .outside) :
    Protocol.find d.text = [] ∧
    Protocol.find (pre ++ (d.text ++ '\n' :: post)) =
      (Protocol.defined pre ++ Protocol.defined post).eraseDups ∧
    (¬ d.Wrapped →
      (∀ line ∈ Lines.bare (d.text ++ ['\n']), Span.step .outside line = .outside) ∧
      Constant.find (pre ++ (d.text ++ '\n' :: post)) =
        Constant.find pre ++ Constant.find (d.text ++ ['\n']) ++ Constant.find post) ∧
    (d.Wrapped →
      Constant.find (pre ++ (d.text ++ '\n' :: post)) =
        Constant.find pre ++ Constant.onLines .inside (Lines.bare post)) := by
  refine ⟨Protocol.find_forward d, ?_, fun h => ⟨?_, ?_⟩, fun h => ?_⟩
  · rw [Protocol.find_eq, Protocol.defined_forward d hend]
  · intro line hl
    exact d.step_of_not_wrapped h hl .outside
  · rw [Constant.find_append hend hpre, Constant.find_forward h, List.append_assoc]
  · rw [Constant.find_append hend hpre, Constant.find_wrapped h]

/-- A list of two that is broken right behind its keyword, with a constant before it and one
behind it. Its own second line looks like one more. -/
theorem forward_transparent_broken_early :
    ∃ d : Forward, d.text = "@protocol\n  First , Second;".toList ∧
      Constant.find ("extern int a;\n".toList ++ (d.text ++ '\n' :: "extern int b;\n".toList)) =
        ["a", "Second", "b"] := by
  let second : ListedName := { lead := [' '], gap := [' '], name := "Second".toList }
  let d : Forward :=
    { gap := "\n  ".toList, first := "First".toList, more := [second], trail := [] }
  obtain ⟨_, _, hfound, _⟩ :=
    forward_transparent d "extern int a;\n".toList "extern int b;\n".toList
    (.inr (by decide)) (by decide +kernel)
  have hlist : Constant.find "extern int a;\n".toList ++ Constant.find (d.text ++ ['\n']) ++
      Constant.find "extern int b;\n".toList = ["a", "Second", "b"] := by
    decide +kernel
  exact ⟨d, by decide, (hfound (by decide)).2.trans hlist⟩

/-- With its semicolon on a line of its own, a declaration hides the constant behind it. -/
theorem constant_hidden_by_wrapped_forward :
    ∃ d : Forward, d.text = "@protocol A\n;".toList ∧
      ¬ ∃ own, Constant.find (d.text ++ '\n' :: "extern int b;\n".toList) =
        own ++ Constant.find "extern int b;\n".toList := by
  let d : Forward := { gap := [' '], first := ['A'], more := [], trail := ['\n'] }
  have hhidden : Constant.find (d.text ++ '\n' :: "extern int b;\n".toList) = [] := by
    decide +kernel
  have hfound : Constant.find "extern int b;\n".toList = ["b"] := by
    decide +kernel
  refine ⟨d, by decide, ?_⟩
  intro hsplit
  obtain ⟨own, hown⟩ := hsplit
  rw [hhidden, hfound] at hown
  exact List.append_ne_nil_of_right_ne_nil own (by simp) hown.symm

end HeaderIndex.Header
