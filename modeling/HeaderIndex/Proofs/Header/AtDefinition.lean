import HeaderIndex.Header.Extract
import HeaderIndex.Proofs.Header.Declared.Function
import HeaderIndex.Proofs.Header.Layout.Span
import HeaderIndex.Proofs.Text.Lines

/-! At-definitions are passed over. A search that goes line by line carries the state from
line to line, so it can be cut where the state is known (`Constant.onLines_append`,
`Function.onLines_append`). A function's parenthesis may stand on a later line, but none
is looked for beyond a line that starts with an `@`. -/

namespace HeaderIndex.Header

open HeaderIndex.Text

/-- The lines of an at-definition: one that opens it, its body, and one that closes it. -/
structure AtDefinition where
  opener : List Char
  body : List (List Char)
  closer : List Char
  opens : Span.step .outside opener = .inside
  marked : (trimStart opener).head? = some '@'
  stays : ∀ line ∈ body, Span.step .inside line = .inside
  closes : Span.step .inside closer = .outside

namespace AtDefinition

def lines (d : AtDefinition) : List (List Char) := d.opener :: d.body ++ [d.closer]

/-- A search that sees nothing on the lines inside and on the opener goes on behind the closer.
It may see each line with an ending of its own, as long as that leaves the states alone. -/
theorem passed {onLines : Span → List (List Char) → List String}
    {seen : List Char → List Char}
    (hseen : ∀ state line, Span.step state (seen line) = Span.step state line)
    (hinside : ∀ line rest,
      onLines .inside (line :: rest) = onLines (Span.step .inside line) rest)
    (d : AtDefinition)
    (hopener : ∀ rest, onLines .outside (seen d.opener :: rest) = onLines .inside rest)
    (rest : List (List Char)) :
    onLines .outside (d.lines.map seen ++ rest) = onLines .outside rest := by
  have hbody : ∀ body : List (List Char),
    (∀ line ∈ body, Span.step .inside line = .inside) →
      onLines .inside (body.map seen ++ seen d.closer :: rest) = onLines .outside rest := by
    intro body hstays
    induction body with
    | nil =>
      rw [List.map_nil, List.nil_append, hinside, hseen, d.closes]
    | cons line body ih =>
      rw [List.map_cons, List.cons_append, hinside, hseen, hstays line (by simp)]
      exact ih fun l hl => hstays l (by simp [hl])
  have hlines : d.lines.map seen ++ rest = seen d.opener ::
      (d.body.map seen ++ seen d.closer :: rest) := by
    simp [lines]
  rw [hlines, hopener, hbody d.body d.stays]

end AtDefinition

theorem Span.foldl_seen {seen : List Char → List Char}
    (hseen : ∀ state line, Span.step state (seen line) = Span.step state line) (state : Span)
    (lines : List (List Char)) :
    (lines.map seen).foldl Span.step state = lines.foldl Span.step state := by
  rw [List.foldl_map]
  exact congrArg (fun f => lines.foldl f state) (funext₂ hseen)

theorem Span.step_bare (state : Span) (line : List Char) :
    Span.step state (Lines.dropEnd (line ++ ['\n'])) = Span.step state line := by
  rw [Span.step_dropEnd, Span.step_kept]

/-! ## Constants -/

namespace Constant

theorem onLines_inside (line : List Char) (rest : List (List Char)) :
    onLines .inside (line :: rest) = onLines (Span.step .inside line) rest := by
  simp [onLines]

theorem onLines_append (state : Span) (above below : List (List Char)) :
    onLines state (above ++ below) =
      onLines state above ++ onLines (above.foldl Span.step state) below := by
  induction above generalizing state with
  | nil => rfl
  | cons line above ih =>
    rw [List.cons_append, onLines, onLines, List.foldl_cons, ih]
    split
    · rw [List.append_assoc]
    · rfl

theorem find_joined {lines : List (List Char)} (h : ∀ line ∈ lines, '\n' ∉ line) :
    find (Lines.joined lines) = onLines .outside (lines.map fun line =>
      Lines.dropEnd (line ++ ['\n'])) := by
  rw [find, Lines.bare, Lines.kept_joined h, List.map_map]
  rfl

theorem onLines_definition (d : AtDefinition) (rest : List (List Char)) :
    onLines .outside ((d.lines.map fun line => Lines.dropEnd (line ++ ['\n'])) ++ rest) =
      onLines .outside rest := by
  refine d.passed Span.step_bare onLines_inside (fun rest => ?_) rest
  simp [onLines, Span.step_bare, d.opens]

end Constant

/-! ## Functions -/

namespace Function

theorem onLines_inside (line : List Char) (rest : List (List Char)) :
    onLines .inside (line :: rest) = onLines (Span.step .inside line) rest := by
  simp [onLines]

/-- Names behind an `@` that stands first on its line are no functions. -/
theorem onLine_at {below : List (List Char)} {line : List Char}
    (h : (trimStart line).head? = some '@') : onLine below [] line = [] := by
  refine onLine_eq_nil fun a w rest htext hw => .inr ?_
  obtain ⟨blanks, hb, hline⟩ := trimStart_eq line
  obtain ⟨tail, htrim⟩ := List.head?_eq_some_iff.mp h
  obtain ⟨c, w, rfl⟩ := List.exists_cons_of_ne_nil hw.ne_nil
  have hc := hw.chars c (by simp)
  -- the name starts behind the `@`: before it there are blanks only
  have hat : '@' ∈ a := by
    rw [htrim, htext] at hline
    rcases List.append_eq_append_iff.mp hline with ⟨more, rfl, hmore⟩ | ⟨more, rfl, hmore⟩
    · cases more with
      | nil =>
        rw [(List.cons.inj hmore).1] at hc
        exact absurd hc (by decide)
      | cons d more =>
        rw [(List.cons.inj hmore).1, isWordChar_of_isBlank (hb d (by simp))] at hc
        cases hc
    · cases more with
      | nil =>
        rw [← (List.cons.inj hmore).1] at hc
        exact absurd hc (by decide)
      | cons d more =>
        rw [← (List.cons.inj hmore).1]
        simp
  rw [isAdmitted, List.reverse_nil, List.nil_append,
    Exclusion.admits_ofFunction_of_mem (.inl rfl) hat, Bool.false_and]

/-- No parenthesis is looked for beyond a line that starts with an `@`. -/
theorem opensCall_append {text below : List Char} (htext : text = [] ∨ text.getLast? = some '\n')
    (hbelow : (trimStart below).head? = some '@') : opensCall (text ++ below) = opensCall text := by
  obtain ⟨tail, htail⟩ := List.head?_eq_some_iff.mp hbelow
  rw [opensCall, opensCall, trimStart_append]
  cases ht : trimStart text with
  | nil =>
    rw [List.isEmpty_nil, if_pos rfl, htail]
    rfl
  | cons c rest =>
    rw [List.isEmpty_cons, if_neg Bool.false_ne_true]
    cases rest with
    | cons d rest => by_cases hc : c = '(' <;> simp [hc]
    | nil =>
      -- the text ends with a line feed, so its last character is none that stops the blanks
      obtain ⟨blanks, _, hsplit⟩ := trimStart_eq text
      rw [ht] at hsplit
      have hlast : text.getLast? = some '\n' := htext.resolve_left (by rw [hsplit]; simp)
      have hc : c = '\n' := by
        rw [hsplit] at hlast
        simpa using hlast
      have hstop := stopsRun_dropWhile isBlank text c (by rw [← trimStart, ht]; rfl)
      rw [hc] at hstop
      exact absurd isBlank_feed (by simp [hstop])

theorem onLine_congr {below below' : List (List Char)} {lead line : List Char}
    (h : ∀ rest, rest <:+ line → isCall rest below = isCall rest below') :
    onLine below lead line = onLine below' lead line := by
  induction line generalizing lead with
  | nil => rfl
  | cons c cs ih =>
    have htail : onLine below (c :: lead) cs = onLine below' (c :: lead) cs :=
      ih fun rest hrest => h rest (hrest.trans (List.suffix_cons c cs))
    rw [onLine, onLine, htail]
    cases hname : name? lead.head? (c :: cs) with
    | none => rfl
    | some found =>
      obtain ⟨_, htext, _, _⟩ := name?_eq_some_iff.mp hname
      simp only [h found.rest ⟨found.value, htext.symm⟩]

/-- Lines that end with their line feeds, and any tail of the first. -/
theorem getLast?_lines {first rest : List Char} {lines : List (List Char)}
    (h : ∀ line ∈ first :: lines, line.getLast? = some '\n') (hrest : rest <:+ first) :
    rest ++ lines.flatten = [] ∨ (rest ++ lines.flatten).getLast? = some '\n' := by
  rcases List.eq_nil_or_concat lines with rfl | ⟨init, last, rfl⟩
  · rw [List.flatten_nil, List.append_nil]
    obtain ⟨lead, rfl⟩ := hrest
    have hfirst := h (lead ++ rest) (by simp)
    by_cases hne : rest = []
    · exact .inl hne
    · rw [List.getLast?_append_of_ne_nil _ hne] at hfirst
      exact .inr hfirst
  · have hlast := h last (by simp)
    right
    simp [List.getLast?_append, hlast]

theorem onLines_append (state : Span) {above : List (List Char)}
    (habove : ∀ line ∈ above, line.getLast? = some '\n') {line : List Char}
    (hline : (trimStart line).head? = some '@') (below : List (List Char)) :
    onLines state (above ++ line :: below) =
      onLines state above ++ onLines (above.foldl Span.step state) (line :: below) := by
  have hat := head?_trimStart_append hline below.flatten
  induction above generalizing state with
  | nil => rfl
  | cons first above ih =>
    have hfirst : ∀ rest, rest <:+ first →
        isCall rest (above ++ line :: below) = isCall rest above := by
      intro rest hrest
      rw [isCall_eq, isCall_eq, List.flatten_append, List.flatten_cons, ← List.append_assoc]
      exact opensCall_append (getLast?_lines habove hrest) hat
    rw [List.cons_append, onLines, onLines, List.foldl_cons, onLine_congr hfirst,
      ih _ fun l hl => habove l (List.mem_cons_of_mem first hl), List.append_assoc]

theorem find_joined {lines : List (List Char)} (h : ∀ line ∈ lines, '\n' ∉ line) :
    find (Lines.joined lines) = onLines .outside (lines.map (· ++ ['\n'])) := by
  rw [find, Lines.kept_joined h]

theorem onLines_definition (d : AtDefinition) (rest : List (List Char)) :
    onLines .outside (d.lines.map (· ++ ['\n']) ++ rest) = onLines .outside rest := by
  refine d.passed Span.step_kept onLines_inside (fun rest => ?_) rest
  rw [onLines, onLine_at (head?_trimStart_append d.marked _), Span.step_kept, d.opens]
  rfl

end Function

/-- **At-definitions are erased.** Where a text is outside before the opener of an at-definition,
the searches for constants and for functions find what stands before it and what stands
behind it, and nothing else. -/
theorem find_erases_definition (d : AtDefinition) (pre post : List (List Char))
    (hlines : ∀ line ∈ pre ++ d.lines ++ post, '\n' ∉ line)
    (hpre : pre.foldl Span.step .outside = .outside) :
    ∀ kind ∈ [Kind.constant, Kind.function],
      find kind (Lines.joined (pre ++ d.lines ++ post)) =
        find kind (Lines.joined pre) ++ find kind (Lines.joined post) := by
  have hpre' : ∀ line ∈ pre, '\n' ∉ line := fun l hl => hlines l (by simp [hl])
  have hpost' : ∀ line ∈ post, '\n' ∉ line := fun l hl => hlines l (by simp [hl])
  intro kind hkind
  simp only [List.mem_cons, List.not_mem_nil, or_false] at hkind
  rcases hkind with rfl | rfl
  · show Constant.find _ = Constant.find _ ++ Constant.find _
    rw [Constant.find_joined hlines, Constant.find_joined hpre', Constant.find_joined hpost',
      List.map_append, List.map_append, List.append_assoc, Constant.onLines_append,
      Span.foldl_seen Span.step_bare, hpre, Constant.onLines_definition]
  · show Function.find _ = Function.find _ ++ Function.find _
    rw [Function.find_joined hlines, Function.find_joined hpre', Function.find_joined hpost',
      List.map_append, List.map_append, List.append_assoc]
    have habove : ∀ line ∈ pre.map (· ++ ['\n']), line.getLast? = some '\n' := by
      simp
    have hcut := Function.onLines_append .outside habove (head?_trimStart_append d.marked ['\n'])
      ((d.body ++ [d.closer]).map (· ++ ['\n']) ++ post.map (· ++ ['\n']))
    rw [Span.foldl_seen Span.step_kept, hpre] at hcut
    rw [← Function.onLines_definition d (post.map _)]
    exact hcut

/-- A method that goes on over two lines, with calls on the second of them. -/
theorem find_erases_definition_method :
    ∃ d : AtDefinition,
      d.lines = ["\t@interface F : G".toList, "- (void)a:(int)a".toList,
        "  b:(int)b NAMED(a(b:));".toList, "h(@end) i(".toList] ∧
      find .function (Lines.joined (["void f(void); g".toList] ++ d.lines ++
        ["(void j(int));".toList])) = ["f", "j"] := by
  let d : AtDefinition :=
    { opener := "\t@interface F : G".toList
      body := ["- (void)a:(int)a".toList, "  b:(int)b NAMED(a(b:));".toList]
      closer := "h(@end) i(".toList
      opens := by decide +kernel
      marked := by decide
      stays := by decide +kernel
      closes := by decide +kernel }
  have herased := find_erases_definition d ["void f(void); g".toList] ["(void j(int));".toList]
    (by decide) (by decide +kernel) .function (by decide)
  exact ⟨d, rfl, herased.trans (by decide +kernel)⟩

end HeaderIndex.Header
