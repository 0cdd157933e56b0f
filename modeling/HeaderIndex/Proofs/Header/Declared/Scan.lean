import HeaderIndex.Proofs.Header.Keyword

/-! What the searches find that scan the whole text. Of each declaration it is said what a
search yields on its lines, whatever stands below them (`Yields`); a header yields what
its declarations do, one after the other (`Yields.occurrences`). -/

namespace HeaderIndex.Header

open HeaderIndex.Text

variable {α : Type} {s : Shape α} {k : Keyword} {g : α → List String}

/-! ## Yields -/

/-- No semicolon stands before the first word of the text. -/
def Fresh (text : List Char) : Prop := ';' ∉ text.takeWhile fun c => !isWordChar c

/-- On a text that stands at the start of a line, and before anything fresh, the search
gives the names and goes on at the line below. -/
def Yields (s : Shape α) (g : α → List String) (text : List Char) (names : List String) :
    Prop :=
  ∀ prev rest, wordBoundary prev = true → Fresh rest →
    (s.hits prev (text ++ rest)).flatMap g = names ++ (s.hits (some '\n') rest).flatMap g

theorem Yields.of_lacks (hs : Needs s k) {first : Line} {lines : List Line}
    (h : ∀ line ∈ first :: lines, line.lacks k = true) :
    Yields s g (written (first :: lines)) [] := by
  intro prev rest _ _
  rw [written_cons, hits_line hs (h first (by simp)), hits_lines hs fun l hl => h l (by simp [hl])]
  rfl

theorem Decl.lines_eq_cons (d : Decl) : ∃ first lines, d.lines = first :: lines := by
  cases d with
  | staticConstant type name value fraction => cases fraction <;> exact ⟨_, _, rfl⟩
  | _ => exact ⟨_, _, rfl⟩

/-- A declaration without the keyword of a search yields nothing. -/
theorem Yields.of_keyword (hs : Needs s k) {d : Decl} (h : k ∉ d.keywords) :
    Yields s g (written d.lines) [] := by
  have hlacks := Decl.lacks h
  obtain ⟨first, lines, hlines⟩ := d.lines_eq_cons
  rw [hlines] at hlacks ⊢
  exact Yields.of_lacks hs hlacks

theorem fresh_cons {c : Char} {rest : List Char} (hc : c ≠ ';') (h : Fresh rest) :
    Fresh (c :: rest) := by
  unfold Fresh
  rw [List.takeWhile_cons]
  split
  · rw [List.mem_cons, not_or]
    exact ⟨Ne.symm hc, h⟩
  · exact List.not_mem_nil

theorem fresh_word {w rest : List Char} (hw : IsWord w) : Fresh (w ++ rest) := by
  obtain ⟨c, w, rfl⟩ := List.exists_cons_of_ne_nil hw.ne_nil
  simp [Fresh, hw.chars c (by simp)]

theorem Decl.fresh (d : Decl) (rest : List Char) : Fresh (written d.lines ++ rest) := by
  have hword : ∀ (c : Char) (cs : List Char), isWordChar c = true → Fresh (c :: cs) := by
    intro c cs hc
    simp [Fresh, hc]
  cases d with
  | define name value => exact fresh_cons (by decide) (hword 'd' _ (by decide))
  | externConstant type name => exact hword 'e' _ (by decide)
  | staticConstant type name value fraction => cases fraction <;> exact hword 's' _ (by decide)
  | plainEnum body => exact hword 'e' _ (by decide)
  | function result name type parameter =>
    rw [Decl.lines, written_cons, Line.text_cons, List.append_assoc]
    exact fresh_word result.isName.toIsWord
  | pointerFunction result name =>
    rw [Decl.lines, written_cons, Line.text_cons, List.append_assoc]
    exact fresh_word result.isName.toIsWord
  | interface name super methods => exact fresh_cons (by decide) (hword 'i' _ (by decide))
  | category name extension methods => exact fresh_cons (by decide) (hword 'i' _ (by decide))
  | protocol name parent methods => exact fresh_cons (by decide) (hword 'p' _ (by decide))
  | forwardProtocols name more => exact fresh_cons (by decide) (hword 'p' _ (by decide))
  | forwardClass name => exact fresh_cons (by decide) (hword 'c' _ (by decide))
  | _ => exact hword 't' _ (by decide)

theorem written_append (a b : List Line) : written (a ++ b) = written a ++ written b :=
  List.flatMap_append

theorem Yields.occurrences {f : Decl → List String}
    (h : ∀ d : Decl, Yields s g (written d.lines) (f d)) (decls : List Decl) :
    (s.occurrences (written (decls.flatMap Decl.lines))).flatMap g = decls.flatMap f := by
  have hrun : ∀ prev, wordBoundary prev = true →
      (s.hits prev (written (decls.flatMap Decl.lines))).flatMap g = decls.flatMap f := by
    induction decls with
    | nil => intro prev _; rw [List.flatMap_nil, List.flatMap_nil, written, List.flatMap_nil]; simp
    | cons d decls ih =>
      intro prev hprev
      have hfresh : Fresh (written (decls.flatMap Decl.lines)) := by
        cases decls with
        | nil => exact List.not_mem_nil
        | cons next decls =>
          rw [List.flatMap_cons, written_append]
          exact next.fresh _
      rw [List.flatMap_cons, written_append, h d prev _ hprev hfresh, ih _ (by decide),
        List.flatMap_cons]
  exact hrun none rfl

/-- A hit that starts the text, when nothing more is found behind it. -/
theorem Yields.of_hit (hs : Needs s k) (v : α) (front : List Char) (tail : Line) (more : List Line)
    {text : List Char} {names : List String} (hnames : g v = names) (hne : front ≠ [])
    (htext : text = front ++ written (tail :: more))
    (hlacks : ∀ line ∈ tail :: more, line.lacks k = true)
    (hhit : ∀ prev rest, wordBoundary prev = true → Fresh rest →
      s prev (front ++ (tail.text ++ '\n' :: (written more ++ rest))) =
        some ⟨v, tail.text ++ '\n' :: (written more ++ rest)⟩) :
    Yields s g text names := by
  intro prev rest hprev hfresh
  rw [htext, List.append_assoc, written_cons, Shape.hits_hit hne (hhit prev rest hprev hfresh),
    hits_line hs (hlacks tail (by simp)), hits_lines hs fun l hl => hlacks l (by simp [hl]),
    List.flatMap_cons, hnames]

/-- A keyword that starts the text, but no hit. -/
theorem Yields.of_miss (hs : Needs s k) (c : Char) (tail : Line) (more : List Line)
    {text : List Char}
    (htext : text = c :: written (tail :: more))
    (hlacks : ∀ line ∈ tail :: more, line.lacks k = true)
    (hmiss : ∀ prev rest, s prev (c :: (tail.text ++ '\n' :: rest)) = none) :
    Yields s g text [] := by
  intro prev rest _ _
  rw [htext, List.cons_append, written_cons, Shape.hits_plain (hmiss prev _),
    hits_line hs (hlacks tail (by simp)), hits_lines hs fun l hl => hlacks l (by simp [hl])]
  rfl

theorem Yields.behind (hs : Needs s k) {text : List Char} {names : List String} (t : Token)
    (ht : t.lacks k = true) (hcloses : t.closesApart = true)
    (hlast : wordBoundary t.text.getLast? = true) (hne : t.text ≠ [])
    (h : Yields s g text names) : Yields s g (t.text ++ text) names := by
  intro prev rest hprev hfresh
  rw [List.append_assoc, hits_token hs ht prev (.inl hcloses), Shape.last_of_ne_nil hne]
  exact h _ rest hlast hfresh

/-! ## Words that a mark ends -/

/-- Behind a run of the class stands the mark. -/
def RunsTo (p : Char → Bool) (mark : Char) (text : List Char) : Prop :=
  ∃ rest, text.dropWhile p = mark :: rest

theorem not_runsTo {p : Char → Bool} {mark : Char} (run : List Char) {rest : List Char}
    (hrun : ∀ c ∈ run, p c = true) (hstop : StopsRun p rest)
    (hmark : rest.head? ≠ some mark) : ¬ RunsTo p mark (run ++ rest) := by
  intro h
  obtain ⟨tail, htail⟩ := h
  rw [dropWhile_run hrun hstop] at htail
  exact hmark (by rw [htail]; rfl)

/-- The shape reads a word and wants the mark behind a run of the class. -/
def ReadsWord (s : Shape (List Char)) (p : Char → Bool) (mark : Char) : Prop :=
  ∀ prev text h, s prev text = some h → ∃ w rest, text = w ++ rest ∧ IsWord w ∧
    wordBoundary rest.head? = true ∧ RunsTo p mark rest

theorem ReadsWord.hits_word {s : Shape (List Char)} {p : Char → Bool} {mark : Char}
    (hs : ReadsWord s p mark) {w rest : List Char} (hw : IsWord w)
    (hend : wordBoundary rest.head? = true) (hmark : ¬ RunsTo p mark rest) (prev : Option Char) :
    s.hits prev (w ++ rest) = s.hits w.getLast? rest := by
  rw [← Shape.last_of_ne_nil hw.ne_nil prev]
  refine Shape.hits_pass fun lead here htext hne => ?_
  cases hhit : s (lead.getLast?.or prev) (here ++ rest) with
  | none => rfl
  | some found =>
    obtain ⟨v, behind, hsplit, hv, hb, hruns⟩ := hs _ _ _ hhit
    have hhere : IsWord here := ⟨hne, fun c hc => hw.chars c (by simp [htext, hc])⟩
    obtain ⟨_, rfl⟩ := hhere.append_inj hv hend hb hsplit
    exact absurd hruns hmark

theorem ReadsWord.hits_mark {s : Shape (List Char)} {p : Char → Bool} {mark c : Char}
    (hs : ReadsWord s p mark) (hc : isWordChar c = false) (prev : Option Char) (rest : List Char) :
    s.hits prev (c :: rest) = s.hits (some c) rest := by
  refine Shape.hits_plain ?_
  cases hhit : s prev (c :: rest) with
  | none => rfl
  | some found =>
    obtain ⟨w, behind, htext, hw, _⟩ := hs _ _ _ hhit
    obtain ⟨d, w, rfl⟩ := List.exists_cons_of_ne_nil hw.ne_nil
    obtain ⟨rfl, _⟩ := List.cons.inj htext
    exact absurd (hw.chars c (by simp)) (by simp [hc])

/-! ## Macros, classes, protocols -/

theorem Define.shape_needs : Needs Define.shape .hash := by
  intro prev text h hhit
  obtain ⟨name, rest⟩ := h
  obtain ⟨indent, blanks, rfl, _⟩ := Define.shape_eq_some_iff.mp hhit
  exact ⟨_, rfl, nofun⟩

theorem Define.yields (d : Decl) :
    Yields Define.shape (fun w => [String.ofList w]) (written d.lines) (d.names .define) := by
  cases d with
  | define name value =>
    refine .of_hit Define.shape_needs name.text.toList
      ("#define ".toList ++ name.text.toList) [" ", value] []
      (by simp [Decl.names, Decl.declares]) (by simp)
      (by simp [Decl.lines, written, Line.text, Token.text]) (by simp; rfl) fun prev rest _ _ => ?_
    exact Define.shape_eq_some_iff.mpr ⟨[], " ".toList, by simp, by simp, by simp, by simp,
      name.isName.toIsWord, rfl⟩
  | macroEnum call type name body =>
    exact .of_keyword Define.shape_needs
      (by cases call <;> simp [Decl.keywords, EnumMacro.toKeyword])
  | _ => exact .of_keyword Define.shape_needs (by simp [Decl.keywords])

theorem Interface.shape_needs : Needs Interface.shape .interface := by
  intro prev text h hhit
  obtain ⟨name, rest⟩ := h
  obtain ⟨blanks, gap, rfl, _⟩ := Interface.shape_eq_some_iff.mp hhit
  exact ⟨_, rfl, nofun⟩

/-- What follows the name decides whether a class is declared. -/
theorem Interface.shape_named {prev : Option Char} {blanks name tail : List Char}
    (hb : ∀ c ∈ blanks, isBlank c = true) (hw : IsWord name)
    (hend : wordBoundary tail.head? = true) :
    Interface.shape prev ("@interface".toList ++ (blanks ++ (name ++ tail))) =
      (after ":" (trimStart tail)).map fun rest => ⟨name, rest⟩ := by
  have hword : word? (trimStart (blanks ++ (name ++ tail))) = some ⟨name, tail⟩ := by
    rw [trimStart_run hb (hw.stopsBlanks tail)]
    exact word?_eq_some_iff.mpr ⟨rfl, hw, hend⟩
  unfold Interface.shape
  simp only [after_append, Option.bind_eq_bind, Option.bind_some, hword]
  cases after ":" (trimStart tail) <;> rfl

theorem Interface.yields (d : Decl) :
    Yields Interface.shape (fun w => [String.ofList w]) (written d.lines) (d.names .interface) := by
  cases d with
  | interface name super methods =>
    refine .of_hit Interface.shape_needs name.text.toList
      ("@interface ".toList ++ (name.text.toList ++ " :".toList))
      [" ", super] (ended methods) (by simp [Decl.names, Decl.declares]) (by simp)
      ?_ ?_ fun prev rest _ _ => ?_
    · simp [Decl.lines, written, Line.text, Token.text]
    · exact List.forall_mem_cons.mpr ⟨rfl, ended_lacks methods .interface⟩
    · exact Interface.shape_eq_some_iff.mpr ⟨" ".toList, " ".toList, by simp, by simp,
        name.isName.toIsWord, by simp⟩
  | category name extension methods =>
    refine .of_miss Interface.shape_needs '@' ["interface ", name, " (", extension,
      ")"] (ended methods)
      rfl (List.forall_mem_cons.mpr ⟨rfl, ended_lacks methods .interface⟩) fun prev rest => ?_
    have htext : '@' :: (Line.text ["interface ", name, " (", extension, ")"] ++ '\n' :: rest) =
        "@interface".toList ++ (" ".toList ++ (name.text.toList ++ (" (".toList ++
          (extension.text.toList ++ (")".toList ++ '\n' :: rest))))) := by
      simp [Line.text, Token.text]
    rw [htext, Interface.shape_named (by simp) name.isName.toIsWord rfl]
    rfl
  | macroEnum call type name body =>
    exact .of_keyword Interface.shape_needs
      (by cases call <;> simp [Decl.keywords, EnumMacro.toKeyword])
  | _ => exact .of_keyword Interface.shape_needs (by simp [Decl.keywords])

theorem Protocol.shape_needs : Needs Protocol.shape .protocol := by
  intro prev text h hhit
  obtain ⟨⟨name, defines⟩, rest⟩ := h
  obtain ⟨blanks, rfl, _⟩ := Protocol.shape_eq_some_iff.mp hhit
  exact ⟨_, rfl, nofun⟩

theorem Protocol.yields (d : Decl) :
    Yields Protocol.shape (fun p => if p.2 then [String.ofList p.1] else []) (written d.lines)
      (d.names .protocol) := by
  cases d with
  | protocol name parent methods =>
    refine .of_hit Protocol.shape_needs (name.text.toList, true)
      ("@protocol ".toList ++ name.text.toList) [" <", parent, ">"]
      (ended methods)
      (by simp [Decl.names, Decl.declares]) (by simp) ?_ ?_ fun prev rest _ _ => ?_
    · simp [Decl.lines, written, Line.text, Token.text]
    · exact List.forall_mem_cons.mpr ⟨rfl, ended_lacks methods .protocol⟩
    · exact Protocol.shape_eq_some_iff.mpr ⟨" ".toList,
        by simp, by simp, name.isName.toIsWord, rfl, rfl⟩
  | forwardProtocols name more =>
    -- the names that follow, or the semicolon, make it a forward declaration
    obtain ⟨tail, htail, hlacks, hcont⟩ : ∃ tail : Line,
      listed name more = .cons name tail ∧
        tail.lacks .protocol = true ∧ ∀ rest, wordBoundary (tail.text ++ rest).head? = true ∧
          Protocol.continues (tail.text ++ rest) = false := by
      cases more with
      | nil => exact ⟨[";"], rfl, rfl, fun rest => ⟨rfl, rfl⟩⟩
      | cons next more =>
        exact ⟨", " :: listed next more, rfl, Line.lacks_cons rfl rfl (listed_lacks next more _),
          fun rest => ⟨rfl, rfl⟩⟩
    refine .of_hit Protocol.shape_needs (name.text.toList, false)
      ("@protocol ".toList ++ name.text.toList) tail [] rfl (by simp) ?_ ?_ fun prev rest _ _ => ?_
    · simp [Decl.lines, htail, written, Line.text, Token.text]
    · exact List.forall_mem_singleton.mpr hlacks
    · obtain ⟨hend, hforward⟩ := hcont ('\n' :: rest)
      exact Protocol.shape_eq_some_iff.mpr ⟨" ".toList, by simp [written], by simp,
        name.isName.toIsWord, hend, hforward⟩
  | macroEnum call type name body =>
    exact .of_keyword Protocol.shape_needs
      (by cases call <;> simp [Decl.keywords, EnumMacro.toKeyword])
  | _ => exact .of_keyword Protocol.shape_needs (by simp [Decl.keywords])

end HeaderIndex.Header
