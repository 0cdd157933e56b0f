import HeaderIndex.Proofs.Header.Declared.Scan

/-! What is found of type aliases. The reading of a plain alias goes from word to word and
stops at the first that a semicolon ends, so a line is read token by token. -/

namespace HeaderIndex.Header.Typedef

open HeaderIndex.Text

/-! ## The end of an alias -/

theorem finish?_eq_none (marks : List Char) {rest : List Char}
    (hmarks : marks.all (fun c => !isWordChar c && c != '\x7b') = true) (hsemi : ';' ∉ marks)
    (hrest : StopsRun (fun c => !isWordChar c && c != '\x7b') rest) :
    finish? (marks ++ rest) = none := by
  refine afterLast_eq_none ?_
  rw [takeWhile_run (List.all_eq_true.mp hmarks) hrest]
  exact hsemi

theorem mem_takeWhile_of_imp {p q : Char → Bool} (hpq : ∀ c, p c = true → q c = true)
    {text : List Char} {c : Char} (h : c ∈ text.takeWhile p) : c ∈ text.takeWhile q := by
  induction text with
  | nil => exact h
  | cons d text ih =>
    rw [List.takeWhile_cons] at h ⊢
    split at h
    · rename_i hd
      rw [if_pos (hpq d hd)]
      rcases List.mem_cons.mp h with rfl | h
      · exact List.mem_cons_self
      · exact List.mem_cons_of_mem _ (ih h)
    · cases h

theorem finish?_eq_some (marks : List Char) {rest : List Char}
    (hmarks : marks.all (fun c => !isWordChar c && c != '\x7b') = true) (hrest : Fresh rest) :
    finish? (marks ++ ';' :: rest) = some rest := by
  refine afterLast_run (List.all_eq_true.mp hmarks) (by decide) fun hmem => hrest ?_
  exact mem_takeWhile_of_imp (fun c hc => (Bool.and_eq_true_iff.mp hc).1) hmem

/-! ## Reading a line -/

/-- Whether a character ends the reading. -/
def isStop (c : Char) : Bool := c == ';' || c == '\x7b' || c == '\n'

/-- One step of the reading: no name that a semicolon ends starts here. -/
theorem plain?_step {prev c : Char} {depth : Int} {rest : List Char} (hc : isStop c = false)
    (hfound : ∀ h, name? (some prev) (c :: rest) = some h → finish? h.rest = none) :
    plain? prev depth (c :: rest) = plain? c (depth + deepen c) rest := by
  rw [isStop] at hc
  cases hname : name? (some prev) (c :: rest) with
  | none => simp [plain?, hname, hc]
  | some h => simp [plain?, hname, hfound h hname, hc]

/-- Whether a character stands between words. -/
def isMark (c : Char) : Bool := !isStop c && !isWordChar c && !isNameStart c

theorem plain?_mark {prev c : Char} {depth : Int} {rest : List Char} (hc : isMark c = true) :
    plain? prev depth (c :: rest) = plain? c (depth + deepen c) rest := by
  simp only [isMark, Bool.and_eq_true, Bool.not_eq_true'] at hc
  refine plain?_step hc.1.1 fun h hname => ?_
  simp [name?, hc.2] at hname

theorem plain?_brace {prev : Char} {depth : Int} {rest : List Char} :
    plain? prev depth ('\x7b' :: rest) = none := by
  simp [plain?, name?, show isNameStart '\x7b' = false by decide]

/-- The reading of a word ends nowhere and leaves the depth as it is. -/
theorem isStop_of_isWordChar {c : Char} (h : isWordChar c = true) :
    isStop c = false ∧ deepen c = 0 := by
  have hne : ∀ mark, isWordChar mark = false → c ≠ mark := by
    intro mark hm he
    rw [← he, h] at hm
    cases hm
  simp [isStop, deepen, hne ';' (by decide), hne '\x7b' (by decide), hne '\n' (by decide),
    hne '(' (by decide), hne ')' (by decide)]

/-- A word that no semicolon ends is passed over, and the mark behind it. -/
theorem plain?_word {prev c : Char} {depth : Int} {w rest : List Char} (hw : IsWord w)
    (hc : isMark c = true) (hfinish : finish? (c :: rest) = none) :
    plain? prev depth (w ++ c :: rest) = plain? c (depth + deepen c) rest := by
  have hend : wordBoundary (c :: rest).head? = true := by
    simp only [isMark, Bool.and_eq_true, Bool.not_eq_true'] at hc
    simp [wordBoundary, hc.1.2]
  have hrun : ∀ part, (∀ d ∈ part, isWordChar d = true) → ∀ prev,
      plain? prev depth (part ++ c :: rest) = plain? c (depth + deepen c) rest := by
    intro part hpart
    induction part with
    | nil => intro prev; exact plain?_mark hc
    | cons d part ih =>
      intro prev
      obtain ⟨hd, hdepth⟩ := isStop_of_isWordChar (hpart d (by simp))
      have hword : IsWord (d :: part) := ⟨by simp, hpart⟩
      -- a name that starts inside the word reaches to its end
      have hfound : ∀ h, name? (some prev) (d :: (part ++ c :: rest)) = some h →
          finish? h.rest = none := by
        intro h hname
        obtain ⟨_, hsplit, hw, hb⟩ := name?_eq_some_iff.mp hname
        obtain ⟨_, hrest⟩ := hword.append_inj hw.toIsWord hend hb hsplit
        rw [← hrest]
        exact hfinish
      rw [List.cons_append, plain?_step hd hfound, hdepth, Int.add_zero]
      exact ih (fun e he => hpart e (by simp [he])) d
  exact hrun w hw.chars prev

theorem plain?_found {prev : Char} {depth : Int} {w rest behind : List Char}
    (hprev : wordBoundary (some prev) = true) (hw : IsName w)
    (hend : wordBoundary rest.head? = true) (hfinish : finish? rest = some behind) :
    plain? prev depth (w ++ rest) = some ⟨⟨w, depth⟩, behind⟩ := by
  obtain ⟨c, w, rfl⟩ := List.exists_cons_of_ne_nil hw.ne_nil
  have hname := name?_eq_some_iff.mpr ⟨hprev, rfl, hw, hend⟩
  rw [List.cons_append] at hname ⊢
  simp [plain?, hname, hfinish]

theorem finish?_word (marks : List Char) {w rest : List Char}
    (hmarks : marks.all (fun c => !isWordChar c && c != '\x7b') = true) (hsemi : ';' ∉ marks)
    (hw : IsWord w) : finish? (marks ++ (w ++ rest)) = none :=
  finish?_eq_none marks hmarks hsemi
    (hw.stopsRun (fun c hc => by simpa using (Bool.and_eq_true_iff.mp hc).1) rest)

/-! ## Aliases in a macro call -/

/-- The reading of a macro call comes to its second argument, one parenthesis deep. -/
theorem plain?_arguments {keyword : List Char} (hk : IsWord keyword) (type name : Identifier)
    (tail : List Char) :
    plain? 'f' 0 (" ".toList ++ (keyword ++ ("(".toList ++ (type.text.toList ++ (", ".toList ++
      (name.text.toList ++ tail)))))) = plain? ' ' 1 (name.text.toList ++ tail) := by
  have hopen : finish?
      ('(' :: (type.text.toList ++ ',' :: ' ' :: (name.text.toList ++ tail))) = none :=
    finish?_word ['('] (by decide) (by decide) type.isName.toIsWord
  have hcomma : finish? (',' :: ' ' :: (name.text.toList ++ tail)) = none :=
    finish?_word [',', ' '] (by decide) (by decide) name.isName.toIsWord
  calc plain? 'f' 0 (' ' :: (keyword ++ '(' :: (type.text.toList ++ ',' :: ' ' ::
    (name.text.toList ++ tail))))
      = plain? ' ' 0 (keyword ++ '(' :: (type.text.toList ++ ',' :: ' ' ::
        (name.text.toList ++ tail))) :=
        plain?_mark (by decide)
    _ = plain? '(' 1 (type.text.toList ++ ',' :: ' ' :: (name.text.toList ++ tail)) :=
        plain?_word hk (by decide) hopen
    _ = plain? ',' 1 (' ' :: (name.text.toList ++ tail)) :=
        plain?_word type.isName.toIsWord (by decide) hcomma
    _ = plain? ' ' 1 (name.text.toList ++ tail) := plain?_mark (by decide)

/-! ## Callables -/

/-- The characters of a line other than its marks. -/
theorem ne_of_mem_text {c mark : Char} {line : Line} (h : c ∈ line.text)
    (hmark : isWordChar mark = false) (havoids : line.all (Token.avoids mark) = true) :
    (c != mark) = true := by
  rw [bne_iff_ne]
  intro he
  exact Line.not_mem_text hmark havoids (he ▸ h)

/-- Whether a line has none of the marks that the reading of a callable looks for first. -/
def leadsToCall (line : Line) : Bool :=
  line.all (Token.avoids '(') && line.all (Token.avoids ';') && line.all (Token.avoids '\x7b')

theorem leadsToCall_chars {line : Line} (h : leadsToCall line = true) :
    ∀ c ∈ line.text, (c != '(' && c != ';' && c != '\x7b') = true := by
  simp only [leadsToCall, Bool.and_eq_true] at h
  intro c hc
  simp only [Bool.and_eq_true]
  exact ⟨⟨ne_of_mem_text hc (by decide) h.1.1, ne_of_mem_text hc (by decide) h.1.2⟩,
    ne_of_mem_text hc (by decide) h.2⟩

/-- A semicolon or a brace before any parenthesis: no callable. -/
theorem callable?_eq_none (line : Line) (h : leadsToCall line = true) {c : Char} (rest : List Char)
    (hc : c = ';' ∨ c = '\x7b') : callable? (line.text ++ c :: rest) = none := by
  have hstop : StopsRun (fun c => c != '(' && c != ';' && c != '\x7b') (c :: rest) :=
    stopsRun_cons.mpr (by rcases hc with rfl | rfl <;> decide)
  rw [callable?, dropWhile_run (leadsToCall_chars h) hstop]
  rcases hc with rfl | rfl <;> rfl

/-- A parenthesis that closes without a mark: no callable. -/
theorem callable?_eq_none_of_closed (line inner : Line) (h : leadsToCall line = true)
    (hinner : (inner.all (Token.avoids '^') && inner.all (Token.avoids '*') &&
      inner.all (Token.avoids ';') && inner.all (Token.avoids ')')) = true) (rest : List Char) :
    callable? (line.text ++ '(' :: (inner.text ++ ')' :: rest)) = none := by
  simp only [Bool.and_eq_true] at hinner
  have hchars : ∀ c ∈ inner.text, (c != '^' && c != '*' && c != ';' && c != ')') = true := by
    intro c hc
    simp only [Bool.and_eq_true]
    exact ⟨⟨⟨ne_of_mem_text hc (by decide) hinner.1.1.1,
      ne_of_mem_text hc (by decide) hinner.1.1.2⟩, ne_of_mem_text hc (by decide) hinner.1.2⟩,
      ne_of_mem_text hc (by decide) hinner.2⟩
  have hopen : StopsRun (fun c => c != '(' && c != ';' && c != '\x7b')
      ('(' :: (inner.text ++ ')' :: rest)) :=
    stopsRun_cons.mpr (by decide)
  have hclose : StopsRun (fun c => c != '^' && c != '*' && c != ';' && c != ')') (')' :: rest) :=
    stopsRun_cons.mpr (by decide)
  rw [callable?, dropWhile_run (leadsToCall_chars h) hopen]
  have hafter : after "(" ('(' :: (inner.text ++ ')' :: rest)) = some (inner.text ++ ')' :: rest) :=
    rfl
  simp only [hafter, Option.bind_eq_bind, Option.bind_some, dropWhile_run hchars hclose]
  rfl

/-! ## What a declaration yields -/

theorem shape_eq (prev : Option Char) (text : List Char) :
    shape prev ("typedef".toList ++ text) = (callable? text <|> plain? 'f' 0 text) := by
  simp only [shape, after_append, Option.bind_eq_bind, Option.bind_some]

theorem shape_needs : Needs shape .typedef := by
  intro prev text found hhit
  obtain ⟨a, rest⟩ := found
  obtain ⟨_, _, _, rfl, _⟩ := shape_eq_some hhit
  exact ⟨_, rfl, nofun⟩

/-- The name of an alias, unless a parenthesis is open before it. -/
def reported (a : Alias) : List String := if a.depth ≤ 0 then [String.ofList a.name] else []

/-- In a macro call the reading comes to the second argument. -/
theorem shape_call (prev : Option Char) (call : EnumMacro) (type name : Identifier)
    (tail : List Char) :
    shape prev ("typedef".toList ++ (" ".toList ++ (call.keyword.toList ++ ("(".toList ++
        (type.text.toList ++ (", ".toList ++ (name.text.toList ++ (")".toList ++ tail)))))))) =
      plain? ' ' 1 (name.text.toList ++ (")".toList ++ tail)) := by
  have hword : IsWord call.keyword.toList := by cases call <;> decide
  have hcall : callable? (" ".toList ++ (call.keyword.toList ++ ("(".toList ++ (type.text.toList ++
      (", ".toList ++ (name.text.toList ++ (")".toList ++ tail))))))) = none := by
    have hclosed := callable?_eq_none_of_closed [" ", call.keyword] [type, ", ", name]
      (by cases call <;> rfl) rfl tail
    simpa [Line.text, Token.text] using hclosed
  rw [shape_eq, hcall, plain?_arguments hword]
  rfl

theorem shape_call_brace (prev : Option Char) (call : EnumMacro) (type name : Identifier)
    (rest : List Char) :
    shape prev ("typedef".toList ++ (" ".toList ++ (call.keyword.toList ++ ("(".toList ++
      (type.text.toList ++ (", ".toList ++ (name.text.toList ++ (")".toList ++
        (" \x7b".toList ++ rest))))))))) = none := by
  have hfinish : finish? (')' :: ' ' :: '\x7b' :: rest) = none :=
    finish?_eq_none [')', ' '] (by decide) (by decide) (stopsRun_cons.mpr (by decide))
  have hplain : plain? ' ' 1 (name.text.toList ++ ')' :: ' ' :: '\x7b' :: rest) = none := by
    rw [plain?_word name.isName.toIsWord (by decide) hfinish, plain?_mark (by decide), plain?_brace]
  exact (shape_call prev call type name _).trans hplain

/-- What a macro call declares ahead is read with its parenthesis still open. -/
theorem shape_call_ended (prev : Option Char) (call : EnumMacro) (type name : Identifier)
    {rest : List Char}
    (hfresh : Fresh rest) :
    shape prev ("typedef".toList ++ (" ".toList ++ (call.keyword.toList ++ ("(".toList ++
      (type.text.toList ++ (", ".toList ++ (name.text.toList ++ (")".toList ++
        (";".toList ++ rest))))))))) =
        some ⟨⟨name.text.toList, 1⟩, rest⟩ := by
  have hfinish : finish? (')' :: ';' :: rest) = some rest :=
    finish?_eq_some [')'] (by decide) hfresh
  have hplain : plain? ' ' 1 (name.text.toList ++ ')' :: ';' :: rest) =
      some ⟨⟨name.text.toList, 1⟩, rest⟩ :=
    plain?_found rfl name.isName rfl hfinish
  exact (shape_call prev call type name _).trans hplain

/-- An enumeration or a structure that a brace opens has no alias of its own. -/
theorem shape_brace (prev : Option Char) (keyword : String) (hword : IsWord keyword.toList)
    (hcall : leadsToCall [" ", keyword, " "] = true) (rest : List Char) :
    shape prev ("typedef".toList ++ (" ".toList ++ (keyword.toList ++
      (" \x7b".toList ++ rest)))) = none := by
  have hfinish : finish? (' ' :: '\x7b' :: rest) = none :=
    finish?_eq_none [' '] (by decide) (by decide) (stopsRun_cons.mpr (by decide))
  have hplain : plain? 'f' 0 (' ' :: (keyword.toList ++ ' ' :: '\x7b' :: rest)) = none := by
    rw [plain?_mark (by decide), plain?_word hword (by decide) hfinish, plain?_brace]
  have hnone := callable?_eq_none [" ", keyword, " "] hcall rest (.inr rfl)
  have hcallable : callable? (' ' :: (keyword.toList ++ ' ' :: '\x7b' :: rest)) = none := by
    simpa [Line.text, Token.text] using hnone
  calc shape prev ("typedef".toList ++ (' ' :: (keyword.toList ++ ' ' :: '\x7b' :: rest)))
      = (callable? (' ' :: (keyword.toList ++ ' ' :: '\x7b' :: rest)) <|>
          plain? 'f' 0 (' ' :: (keyword.toList ++ ' ' :: '\x7b' :: rest))) := shape_eq prev _
    _ = none := by rw [hcallable, hplain]; rfl

theorem shape_alias (prev : Option Char) (type name : Identifier) {rest : List Char}
    (hfresh : Fresh rest) :
    shape prev ("typedef".toList ++ (" ".toList ++ (type.text.toList ++ (" ".toList ++
      (name.text.toList ++ ';' :: rest))))) = some ⟨⟨name.text.toList, 0⟩, rest⟩ := by
  have hcall : callable? (" ".toList ++ (type.text.toList ++ (" ".toList ++
      (name.text.toList ++ ';' :: rest)))) = none := by
    have hnone := callable?_eq_none [" ", type, " ", name] rfl rest (.inl rfl)
    simpa [Line.text, Token.text] using hnone
  have htype : finish? (' ' :: (name.text.toList ++ ';' :: rest)) = none :=
    finish?_word [' '] (by decide) (by decide) name.isName.toIsWord
  have hname : finish? (';' :: rest) = some rest := finish?_eq_some [] (by simp) hfresh
  have hplain : plain? 'f' 0 (' ' :: (type.text.toList ++ ' ' :: (name.text.toList ++ ';' :: rest))) =
      some ⟨⟨name.text.toList, 0⟩, rest⟩ := by
    rw [plain?_mark (by decide), plain?_word type.isName.toIsWord (by decide) htype]
    exact plain?_found rfl name.isName rfl hname
  rw [shape_eq, hcall]
  exact hplain

theorem shape_callable (prev : Option Char) (form : Callable) (result name parameter : Identifier)
    (rest : List Char) :
    shape prev ("typedef".toList ++ (" ".toList ++ (result.text.toList ++ (" (".toList ++
      (form.mark.toList ++ (name.text.toList ++ (")(".toList ++ (parameter.text.toList ++
        (");".toList ++ rest))))))))) = some ⟨⟨name.text.toList, 0⟩, rest⟩ := by
  obtain ⟨mark, hmark, hform⟩ : ∃ mark, (mark = '^' ∨ mark = '*') ∧
      form.mark.toList = [mark] := by
    cases form
    · exact ⟨'^', .inl rfl, rfl⟩
    · exact ⟨'*', .inr rfl, rfl⟩
  have hsemi : ';' ∉ Line.text [")(", parameter, ")"] := Line.not_mem_text (by decide) rfl
  have hcall : callable? (Line.text [" ", result, " "] ++ '(' :: ([] ++ mark ::
      ([] ++ (name.text.toList ++ (Line.text [")(", parameter, ")"] ++ ';' :: rest))))) =
      some ⟨⟨name.text.toList, 0⟩, rest⟩ :=
    callable?_eq_some_iff.mpr ⟨_, [], mark, [], _, rfl, leadsToCall_chars rfl,
      by simp, hmark, by simp, name.isName, rfl, afterFirst_run hsemi, rfl⟩
  have htext : " ".toList ++ (result.text.toList ++ (" (".toList ++ (form.mark.toList ++
    (name.text.toList ++ (")(".toList ++ (parameter.text.toList ++ (");".toList ++ rest))))))) =
      Line.text [" ", result, " "] ++ '(' :: ([] ++ mark :: ([] ++ (name.text.toList ++
        (Line.text [")(", parameter, ")"] ++ ';' :: rest)))) := by
    simp [Line.text, Token.text, hform]
  rw [shape_eq, htext, hcall]
  rfl

theorem yields (d : Decl) : Yields shape reported (written d.lines) (d.names .typedef) := by
  cases d with
  | macroEnum call type name body =>
    refine .of_miss shape_needs 't' ["ypedef ", call.keyword, "(", type, ", ", name, ") \x7b"]
      (closed (body.1.map Enumerator.line) ["\x7d;"]) rfl ?_ fun prev rest => ?_
    · exact List.forall_mem_cons.mpr
        ⟨by cases call <;> rfl, forall_mem_closed (·.line_lacks _) rfl⟩
    · have hshape := shape_call_brace prev call type name ('\n' :: rest)
      simpa [Line.text, Token.text] using hshape
  | forwardEnum type name =>
    refine .of_hit shape_needs ⟨name.text.toList, 1⟩
      ("typedef NS_ENUM(".toList ++
        (type.text.toList ++ (", ".toList ++ (name.text.toList ++ ");".toList)))) []
      [] rfl (by simp) ?_
      (List.forall_mem_singleton.mpr rfl) fun prev rest _ hfresh => ?_
    · simp [Decl.lines, written, Line.text, Token.text]
    · have hshape :=
        shape_call_ended prev .nsEnum type name (fresh_cons (c := '\n') (by decide) hfresh)
      simpa [written, Line.text, EnumMacro.keyword] using hshape
  | typedefEnum body name =>
    refine .of_miss shape_needs 't' ["ypedef enum \x7b"]
      (closed (body.1.map Enumerator.line) ["\x7d ", name, ";"]) rfl ?_ fun prev rest => ?_
    · exact List.forall_mem_cons.mpr ⟨rfl, forall_mem_closed (·.line_lacks _) rfl⟩
    · exact shape_brace prev "enum" (by decide) rfl ('\n' :: rest)
  | struct body name =>
    refine .of_miss shape_needs 't' ["ypedef struct \x7b"]
      (closed (body.1.map BitField.line) ["\x7d ", name, ";"]) rfl ?_ fun prev rest => ?_
    · exact List.forall_mem_cons.mpr ⟨rfl, forall_mem_closed (·.line_lacks _) rfl⟩
    · exact shape_brace prev "struct" (by decide) rfl ('\n' :: rest)
  | typeAlias type name =>
    refine .of_hit shape_needs ⟨name.text.toList, 0⟩
      ("typedef".toList ++
        (" ".toList ++ (type.text.toList ++ (" ".toList ++ (name.text.toList ++ ";".toList))))) []
      [] ?_ (by simp) ?_
      (List.forall_mem_singleton.mpr rfl) fun prev rest _ hfresh => ?_
    · simp [reported, Decl.names, Decl.declares]
    · simp [Decl.lines, written, Line.text, Token.text]
    · have hshape := shape_alias prev type name (fresh_cons (c := '\n') (by decide) hfresh)
      simpa [written, Line.text] using hshape
  | callable form result name parameter =>
    refine .of_hit shape_needs ⟨name.text.toList, 0⟩
      ("typedef".toList ++ (" ".toList ++ (result.text.toList ++ (" (".toList ++
        (form.mark.toList ++ (name.text.toList ++ (")(".toList ++ (parameter.text.toList ++
          ");".toList)))))))) [] [] ?_ (by simp) ?_ (List.forall_mem_singleton.mpr rfl)
      fun prev rest _ _ => ?_
    · simp [reported, Decl.names, Decl.declares]
    · simp [Decl.lines, written, Line.text, Token.text]
    · have hshape := shape_callable prev form result name parameter ('\n' :: rest)
      simpa [written, Line.text] using hshape
  | _ => exact .of_keyword shape_needs (by simp [Decl.keywords])

end HeaderIndex.Header.Typedef
