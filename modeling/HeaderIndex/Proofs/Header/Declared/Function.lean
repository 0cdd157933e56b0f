import HeaderIndex.Proofs.Header.Declared.Span
import HeaderIndex.Proofs.Header.Exclusion

/-! What is found of functions. A line is read word by word: a word that no parenthesis
follows, or that an exclusion rules out, is passed over. -/

namespace HeaderIndex.Header.Function

open HeaderIndex.Text

variable {below : List (List Char)} {lead : List Char}

/-! ## Steps of the reading -/

theorem onLine_mark {c : Char} (hc : isNameStart c = false) (rest : List Char) :
    onLine below lead (c :: rest) = onLine below (c :: lead) rest := by
  simp [onLine, name?, hc]

theorem onLine_step {c : Char} {rest : List Char}
    (h : ∀ found, name? lead.head? (c :: rest) = some found →
      (isCall found.rest below && isAdmitted lead.reverse found.value) = false) :
    onLine below lead (c :: rest) = onLine below (c :: lead) rest := by
  cases hname : name? lead.head? (c :: rest) with
  | none => simp only [onLine, hname]
  | some found =>
    simp only [onLine, hname, h found hname]
    rfl

/-- Inside a word no name starts. -/
theorem onLine_inWord {c : Char} (hc : isWordChar c = true) {w : List Char}
    (hw : ∀ d ∈ w, isWordChar d = true) (rest : List Char) :
    onLine below (c :: lead) (w ++ rest) = onLine below (w.reverse ++ c :: lead) rest := by
  induction w generalizing c lead with
  | nil => rfl
  | cons d w ih =>
    have hd := hw d (by simp)
    rw [List.cons_append, onLine_step fun found hname => ?_, ih hd fun e he => hw e (by simp [he])]
    · simp
    · obtain ⟨hprev, _⟩ := name?_eq_some_iff.mp hname
      simp [wordBoundary, hc] at hprev

/-- A word is read as one: it is a function or it is passed over. -/
theorem onLine_word {w rest : List Char} (hw : IsName w) (hprev : wordBoundary lead.head? = true)
    (hend : wordBoundary rest.head? = true) :
    onLine below lead (w ++ rest) =
      (if isCall rest below && isAdmitted lead.reverse w then [String.ofList w] else []) ++
        onLine below (w.reverse ++ lead) rest := by
  have hname := name?_eq_some_iff.mpr ⟨hprev, rfl, hw, hend⟩
  obtain ⟨c, w, rfl⟩ := List.exists_cons_of_ne_nil hw.ne_nil
  have htail : onLine below (c :: lead) (w ++ rest) =
      onLine below ((c :: w).reverse ++ lead) rest := by
    rw [onLine_inWord (hw.chars c (by simp)) fun d hd => hw.chars d (by simp [hd])]
    simp
  rw [List.cons_append] at hname ⊢
  simp only [onLine, hname, htail]
  split <;> rfl

theorem onLine_noCall {w rest : List Char} (hw : IsName w) (hprev : wordBoundary lead.head? = true)
    (hend : wordBoundary rest.head? = true) (hcall : isCall rest below = false) :
    onLine below lead (w ++ rest) = onLine below (w.reverse ++ lead) rest := by
  rw [onLine_word hw hprev hend, hcall]
  rfl

/-! ## Lines that declare no function -/

/-- A line on which every name is no call, or is ruled out, declares no function. -/
theorem onLine_eq_nil {line : List Char}
    (h : ∀ a w rest, line = a ++ (w ++ rest) → IsName w →
      isCall rest below = false ∨ isAdmitted (lead.reverse ++ a) w = false) :
    onLine below lead line = [] := by
  induction line generalizing lead with
  | nil => rfl
  | cons c cs ih =>
    rw [onLine_step fun found hname => ?_]
    · refine ih fun a w rest htext hw => ?_
      have hlater := h (c :: a) w rest (by rw [htext]; rfl) hw
      simpa using hlater
    · obtain ⟨_, htext, hw, _⟩ := name?_eq_some_iff.mp hname
      have hhere := h [] found.value found.rest htext hw
      rw [List.append_nil] at hhere
      rcases hhere with hhere | hhere <;> simp [hhere]

/-- Behind a part of the line that is ruled out stands no function. -/
theorem onLine_ruledOut {line : List Char}
    (h : ∀ a, Exclusion.admits Exclusion.ofFunction (lead.reverse ++ a) = false) :
    onLine below lead line = [] := by
  refine onLine_eq_nil fun a w rest _ _ => .inr ?_
  rw [isAdmitted, h a, Bool.false_and]

/-- A line that starts with an `@` or a `#`. -/
theorem onLine_marked {c : Char} (hc : c = '@' ∨ c = '#') (rest : List Char) :
    onLine below [] (c :: rest) = [] := by
  have hstart : isNameStart c = false := by rcases hc with rfl | rfl <;> decide
  rw [onLine_mark hstart]
  exact onLine_ruledOut fun a => Exclusion.admits_ofFunction_of_mem hc (by simp)

/-- A line that starts with `typedef`. -/
theorem onLine_typedef (rest : List Char) :
    onLine below [] ("typedef".toList ++ ' ' :: rest) = [] := by
  have hname : IsName "typedef".toList := by decide
  have hruledOut : isAdmitted [] "typedef".toList = false := by decide
  rw [onLine_word hname rfl rfl, List.reverse_nil, hruledOut, Bool.and_false,
    onLine_mark (by decide)]
  exact onLine_ruledOut fun a => Exclusion.admits_ofFunction_typedef (' ' :: a) rfl

/-- A text whose first character behind blanks is no parenthesis opens no call. -/
theorem opensCall_eq_false {text rest : List Char} (hopen : '(' ∉ text)
    (hblank : ∃ c ∈ text, isBlank c = false) : opensCall (text ++ rest) = false := by
  induction text with
  | nil =>
    obtain ⟨c, hc, _⟩ := hblank
    cases hc
  | cons d text ih =>
    rw [List.mem_cons, not_or] at hopen
    cases hd : isBlank d with
    | true =>
      have htrim : trimStart (d :: (text ++ rest)) = trimStart (text ++ rest) := by
        simp [trimStart, hd]
      rw [List.cons_append, opensCall, htrim]
      refine ih hopen.2 ?_
      obtain ⟨c, hc, hcb⟩ := hblank
      rcases List.mem_cons.mp hc with rfl | hc
      · rw [hd] at hcb
        cases hcb
      · exact ⟨c, hc, hcb⟩
    | false =>
      have htrim : trimStart (d :: (text ++ rest)) = d :: (text ++ rest) := by
        simp [trimStart, hd]
      rw [List.cons_append, opensCall, htrim]
      split
      · rename_i heq
        exact absurd (List.cons.inj heq).1.symm hopen.1
      · rfl

/-- A line without parentheses that ends in a mark. -/
theorem onLine_noParenthesis {line : List Char} {mark : Char} (hopen : '(' ∉ line ++ [mark])
    (hword : isWordChar mark = false) (hblank : isBlank mark = false) :
    onLine below lead (line ++ [mark, '\n']) = [] := by
  refine onLine_eq_nil fun a w rest htext hw => .inl ?_
  have hmarks : ∀ c ∈ [mark, '\n'], isWordChar c = false := by
    simp [hword, show isWordChar '\n' = false by decide]
  obtain ⟨gap, rfl, rfl⟩ := hw.before_marks hmarks htext
  have hsplit : gap ++ [mark, '\n'] ++ below.flatten = (gap ++ [mark]) ++
      ('\n' :: below.flatten) := by
    simp
  rw [isCall_eq, hsplit]
  refine opensCall_eq_false (fun hmem => hopen ?_) ⟨mark, by simp, hblank⟩
  rw [List.mem_append] at hmem ⊢
  exact hmem.imp_left fun hgap => by simp [hgap]

/-- Whether a token is a literal that ends in a mark. -/
def endsInMark : Token → Bool
  | .literal s => s.toList.getLast?.any fun c => !isWordChar c && !isBlank c
  | _ => false

theorem text_of_endsInMark {line : Line} (h : line.getLast?.any endsInMark = true) :
    ∃ text mark, line.text = text ++ [mark] ∧ isWordChar mark = false ∧
      isBlank mark = false := by
  cases hlast : line.getLast? with
  | none => simp [hlast] at h
  | some t =>
    rw [hlast, Option.any_some] at h
    obtain ⟨init, rfl⟩ := List.getLast?_eq_some_iff.mp hlast
    cases t with
    | literal s =>
      rw [endsInMark] at h
      cases hmark : s.toList.getLast? with
      | none => simp [hmark] at h
      | some mark =>
        obtain ⟨front, hs⟩ := List.getLast?_eq_some_iff.mp hmark
        have hclass : isWordChar mark = false ∧ isBlank mark = false := by simpa [hmark] using h
        refine ⟨Line.text init ++ front, mark, ?_, hclass⟩
        simp [Line.text, Token.text, hs]
    | name i => cases h
    | number n => cases h

/-- Whether the way a line starts, or that it has no parenthesis, keeps it from declaring a
function. -/
def isSilent (line : Line) : Bool :=
  line.head?.any (fun
    | .literal s => s.toList.head? == some '@' || s.toList.head? == some '#' ||
        "typedef ".toList.isPrefixOf s.toList
    | _ => false) ||
  (line.all (Token.avoids '(') && line.getLast?.any endsInMark)

theorem onLine_silent {line : Line} (h : isSilent line = true) :
    onLine below [] (line.text ++ ['\n']) = [] := by
  rw [isSilent, Bool.or_eq_true] at h
  rcases h with h | h
  · cases line with
    | nil => cases h
    | cons t line =>
      cases t with
      | literal s =>
        simp only [List.head?_cons, Option.any_some, Bool.or_eq_true, beq_iff_eq,
          List.isPrefixOf_iff_prefix] at h
        rw [Line.text_cons, Token.text, List.append_assoc]
        rcases h with (h | h) | ⟨rest, hrest⟩
        · obtain ⟨rest, hrest⟩ := List.head?_eq_some_iff.mp h
          rw [hrest]
          exact onLine_marked (.inl rfl) _
        · obtain ⟨rest, hrest⟩ := List.head?_eq_some_iff.mp h
          rw [hrest]
          exact onLine_marked (.inr rfl) _
        · rw [← hrest]
          exact onLine_typedef _
      | name i => cases h
      | number n => cases h
  · rw [Bool.and_eq_true] at h
    obtain ⟨text, mark, htext, hword, hblank⟩ := text_of_endsInMark h.2
    have hopen : '(' ∉ line.text := Line.not_mem_text (by decide) h.1
    rw [htext] at hopen ⊢
    rw [List.append_assoc]
    exact onLine_noParenthesis hopen hword hblank

theorem goesByLine : GoesByLine onLines ['\n'] isSilent where
  ends := .inr rfl
  inside line rest := by simp [onLines]
  outside line hsilent rest := by simp [onLines, onLine_silent hsilent]
  marked first tail h := by simp [isSilent, h]

/-! ## Lines that declare one -/

theorem isCall_eq_false (text : List Char) {rest : List Char} (hopen : '(' ∉ text)
    (hblank : ∃ c ∈ text, isBlank c = false) : isCall (text ++ rest) below = false := by
  rw [isCall_eq, List.append_assoc]
  exact opensCall_eq_false hopen hblank

theorem isCall_word {w : List Char} (hw : IsWord w) (rest : List Char) :
    isCall (' ' :: (w ++ rest)) below = false := by
  have hopen : '(' ∉ ' ' :: w := by
    rw [List.mem_cons, not_or]
    exact ⟨by decide, fun hmem => absurd (hw.chars '(' hmem) (by decide)⟩
  refine isCall_eq_false (' ' :: w) hopen ?_
  obtain ⟨c, w, rfl⟩ := List.exists_cons_of_ne_nil hw.ne_nil
  refine ⟨c, by simp, ?_⟩
  cases hc : isBlank c with
  | false => rfl
  | true => exact absurd (hw.chars c (by simp)) (by simp [isWordChar_of_isBlank hc])

theorem isCall_open {w : List Char} (hw : IsWord w) (rest : List Char) :
    isCall ('(' :: (w ++ rest)) below = true := by
  obtain ⟨c, w, rfl⟩ := List.exists_cons_of_ne_nil hw.ne_nil
  have hcaret : c ≠ '^' := by
    intro he
    exact absurd (hw.chars c (by simp)) (by rw [he]; decide)
  rw [isCall_eq]
  show (c != '^') = true
  simpa using hcaret

section Leads

/-! What stands before the name of a function: an identifier and marks. -/

variable (i : Identifier) (marks : List Char) (hmarks : ∀ c ∈ marks, c = ' ' ∨ c = '*')
include hmarks

theorem not_contains_lead {c : Char} (hword : isWordChar c = false) (hc : c ≠ ' ' ∧ c ≠ '*') :
    contains [c] (i.text.toList ++ marks) = false := by
  rw [← Bool.not_eq_true, contains_iff]
  intro hwithin
  have hmem : c ∈ i.text.toList ++ marks := List.IsInfix.subset hwithin (by simp)
  rcases List.mem_append.mp hmem with hmem | hmem
  · exact absurd (i.isName.chars c hmem) (by simp [hword])
  · exact (hmarks c hmem).elim hc.1 hc.2

theorem not_hasWholeWord_lead {w : String} (hw : IsWord w.toList) (hne : i.text ≠ w) :
    hasWholeWord w.toList 0 none (i.text.toList ++ marks) = false := by
  have hmark : ∀ c ∈ marks, isWordChar c = false := by
    intro c hc
    rcases hmarks c hc with rfl | rfl <;> decide
  rw [← Bool.not_eq_true]
  intro hwhole
  obtain ⟨lead, rest, htext, hlead, hrest⟩ := hasWholeWord_eq_true hwhole
  obtain ⟨gap, rfl, hi⟩ := hw.before_marks hmark htext
  rw [isFree, Bool.not_eq_true'] at hlead hrest
  exact hne (String.toList_inj.mp (eq_of_whole i.chars hi hlead hrest))

omit hmarks in
theorem not_isMethodMarker_lead : isMethodMarker (i.text.toList ++ marks) = false := by
  have htrim : trimStart ([] ++ (i.text.toList ++ marks)) = i.text.toList ++ marks :=
    trimStart_run (by simp) (i.isName.stopsBlanks marks)
  rw [List.nil_append] at htrim
  obtain ⟨c, w, hi⟩ := List.exists_cons_of_ne_nil i.isName.ne_nil
  have hc : isWordChar c = true := i.isName.chars c (by simp [hi])
  have hne : c ≠ '-' ∧ c ≠ '+' := by
    constructor <;> intro he <;> rw [he] at hc <;> exact absurd hc (by decide)
  rw [isMethodMarker, htrim, hi]
  simp [hne]

/-- An identifier rules no function out, alone or with marks behind it. -/
theorem admits_lead : Exclusion.admits Exclusion.ofFunction (i.text.toList ++ marks) = true := by
  have hkeyword : ∀ w ∈ ["typedef", "while", "if", "switch"], i.text ≠ w := by
    have hsome := i.holdsNone
    have hnone := i.isNone
    simp only [List.mem_cons, List.not_mem_nil, or_false, forall_eq_or_imp, forall_eq,
      not_or] at hsome hnone ⊢
    refine ⟨fun he => hsome.1 ?_, hnone.2.2.2.1, hnone.2.2.1, hnone.2.2.2.2⟩
    exact he ▸ List.infix_refl _
  have hword : ∀ w ∈ ["typedef", "while", "if", "switch"],
      hasWholeWord w.toList 0 none (i.text.toList ++ marks) = false := by
    intro w hw
    refine not_hasWholeWord_lead i marks hmarks ?_ (hkeyword w hw)
    simp only [List.mem_cons, List.not_mem_nil, or_false] at hw
    rcases hw with rfl | rfl | rfl | rfl <;> decide
  refine Exclusion.admits_iff.mpr fun e he => ?_
  simp only [Exclusion.ofFunction, List.mem_cons, List.not_mem_nil, or_false] at he
  rcases he with rfl | rfl | rfl | rfl | rfl | rfl | rfl
  · exact not_contains_lead i marks hmarks (c := '@') (by decide) (by decide)
  · exact not_contains_lead i marks hmarks (c := '#') (by decide) (by decide)
  · exact hword "typedef" (by simp)
  · exact hword "while" (by simp)
  · exact hword "if" (by simp)
  · exact hword "switch" (by simp)
  · exact not_isMethodMarker_lead i marks

theorem isAdmitted_lead (name : Identifier) :
    isAdmitted (i.text.toList ++ marks) name.text.toList = true := by
  have hname := admits_lead name [] (by simp)
  rw [List.append_nil] at hname
  rw [isAdmitted, admits_lead i marks hmarks, hname]
  rfl

end Leads

/-- The end of a prototype: its last word, and marks. -/
theorem onLine_close {w : List Char} (hw : IsName w) (hprev : wordBoundary lead.head? = true) :
    onLine below lead (w ++ [')', ';', '\n']) = [] := by
  have hcall : isCall [')', ';', '\n'] below = false :=
    isCall_eq_false [')'] (by decide) ⟨')', by simp, by decide⟩
  rw [onLine_noCall hw hprev rfl hcall, onLine_mark (by decide), onLine_mark (by decide),
    onLine_mark (by decide)]
  rfl

/-- The name of a prototype, behind its result, up to the first word in parentheses. -/
theorem onLine_prototype (result name : Identifier) (marks : List Char) {w rest : List Char}
    (hmarks : ∀ c ∈ marks, c = ' ' ∨ c = '*')
    (hlead : lead.reverse = result.text.toList ++ marks)
    (hprev : wordBoundary lead.head? = true) (hw : IsWord w) :
    onLine below lead (name.text.toList ++ '(' :: (w ++ rest)) =
      name.text :: onLine below ('(' :: (name.text.toList.reverse ++ lead)) (w ++ rest) := by
  rw [onLine_word name.isName hprev rfl, isCall_open hw, hlead, isAdmitted_lead result marks hmarks,
    onLine_mark (by decide)]
  simp

theorem onLine_function (result name type parameter : Identifier) :
    onLine below [] (Line.text [result, " ", name, "(", type, " ", parameter, ");"] ++ ['\n']) =
      [name.text] := by
  have htext : Line.text [result, " ", name, "(", type, " ", parameter, ");"] ++ ['\n'] =
      result.text.toList ++ ' ' :: (name.text.toList ++ '(' :: (type.text.toList ++
        ' ' :: (parameter.text.toList ++ [')', ';', '\n']))) := by
    simp [Line.text, Token.text]
  rw [htext, onLine_noCall result.isName rfl rfl (isCall_word name.isName.toIsWord _),
    onLine_mark (by decide), onLine_prototype result name [' '] (by simp)
      (by simp) rfl type.isName.toIsWord,
    onLine_noCall type.isName rfl rfl (isCall_word parameter.isName.toIsWord _),
    onLine_mark (by decide), onLine_close parameter.isName rfl]

theorem onLine_pointerFunction (result name : Identifier) :
    onLine below [] (Line.text [result, " *", name, "(void);"] ++ ['\n']) = [name.text] := by
  have htext : Line.text [result, " *", name, "(void);"] ++
    ['\n'] = result.text.toList ++ ' ' :: '*' ::
      (name.text.toList ++ '(' :: ("void".toList ++ [')', ';', '\n'])) := by
    simp [Line.text, Token.text]
  have hvoid : IsName "void".toList := by decide
  have hcall : isCall
    (' ' :: '*' :: (name.text.toList ++ '(' :: ("void".toList ++ [')', ';', '\n']))) below =
      false := isCall_eq_false [' ', '*'] (by decide) ⟨'*', by simp, by decide⟩
  rw [htext, onLine_noCall result.isName rfl rfl hcall, onLine_mark (by decide),
    onLine_mark (by decide), onLine_prototype result name [' ', '*'] (by simp)
    (by simp) rfl hvoid.toIsWord, onLine_close hvoid rfl]

theorem onLines_declared {line : Line} {name : String}
    (hone : ∀ below, onLine below [] (line.text ++ ['\n']) = [name])
    (hat : line.all (Token.avoids '@') = true) (rest : List (List Char)) :
    onLines .outside ((line.text ++ ['\n']) :: rest) = name :: onLines .outside rest := by
  simp [onLines, hone, goesByLine.step_quiet hat]

theorem onLines_decl (d : Decl) (rest : List (List Char)) :
    onLines .outside (d.lines.map (·.text ++ ['\n']) ++ rest) =
      d.names .function ++ onLines .outside rest := by
  have henumerator : ∀ e : Enumerator,
      (isSilent e.line && e.line.all (Token.avoids '@')) = true := by
    intro e
    obtain ⟨name, value⟩ := e
    cases value <;> rfl
  cases d with
  | function result name type parameter =>
    exact onLines_declared (fun _ => onLine_function result name type parameter) rfl rest
  | pointerFunction result name =>
    exact onLines_declared (fun _ => onLine_pointerFunction result name) rfl rest
  | staticConstant type name value fraction =>
    cases fraction <;> exact goesByLine.quiet (List.forall_mem_singleton.mpr rfl) rest
  | macroEnum call type name body =>
    exact goesByLine.quiet (List.forall_mem_cons.mpr
      ⟨by cases call <;> rfl, forall_mem_closed henumerator rfl⟩) rest
  | plainEnum body =>
    exact goesByLine.quiet
      (List.forall_mem_cons.mpr ⟨rfl, forall_mem_closed henumerator rfl⟩) rest
  | typedefEnum body name =>
    exact goesByLine.quiet
      (List.forall_mem_cons.mpr ⟨rfl, forall_mem_closed henumerator rfl⟩) rest
  | struct body name =>
    exact goesByLine.quiet
      (List.forall_mem_cons.mpr ⟨rfl, forall_mem_closed (fun _ => rfl) rfl⟩) rest
  | callable form result name parameter =>
    exact goesByLine.quiet (List.forall_mem_singleton.mpr (by cases form <;> rfl)) rest
  | interface name super methods => exact goesByLine.pass_at rfl rest
  | category name extension methods => exact goesByLine.pass_at rfl rest
  | protocol name parent methods => exact goesByLine.pass_at rfl rest
  | forwardProtocols name more => exact goesByLine.pass_at rfl rest
  | forwardClass name => exact goesByLine.pass_at rfl rest
  | _ => exact goesByLine.quiet (List.forall_mem_singleton.mpr rfl) rest

end HeaderIndex.Header.Function
