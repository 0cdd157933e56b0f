import HeaderIndex.Proofs.Header.Declared.Scan
import HeaderIndex.Proofs.Header.Declared.Span
import HeaderIndex.Proofs.Header.Exclusion

/-! What is found of constants. A line that an exclusion rules out or that has no semicolon
gives nothing; on the others the name is the only word that filler alone parts from the
semicolon. -/

namespace HeaderIndex.Header

open HeaderIndex.Text

/-! ## Lines that declare no constant -/

namespace Constant

theorem absent_of_not_mem {text : List Char} (h : ';' ∉ text) (prev : Option Char) :
    shape.Absent prev text := by
  intro lead here htext
  cases hh : shape (lead.getLast?.or prev) here with
  | none => rfl
  | some found =>
    obtain ⟨name, rest⟩ := found
    obtain ⟨_, filler, rfl, _⟩ := shape_eq_some_iff.mp hh
    exact absurd (by simp [htext]) h

theorem onLine_eq_nil {line : List Char} (h : ';' ∉ line) : onLine line = [] := by
  rw [onLine, Shape.occurrences_eq_hits, (absent_of_not_mem h none).hits]
  rfl

/-- Whether a literal of the line rules it out, or none ends it. -/
def isSilent (line : Line) : Bool :=
  line.any (fun
    | .literal s => !Exclusion.admits Exclusion.ofConstantLine s.toList
    | _ => false) || line.all (Token.avoids ';')

theorem onLines_silent {line : Line} (h : isSilent line = true) (rest : List (List Char)) :
    onLines .outside (line.text :: rest) = onLines (Span.step .outside line.text) rest := by
  rw [isSilent, Bool.or_eq_true] at h
  simp only [onLines]
  rcases h with h | h
  · obtain ⟨t, ht, hliteral⟩ := List.any_eq_true.mp h
    cases t with
    | literal s =>
      have hpart : Exclusion.admits Exclusion.ofConstantLine s.toList = false := by
        simpa using hliteral
      have hexcluded := Exclusion.admits_ofConstantLine_of_infix (Line.infix_of_mem ht) hpart
      simp [hexcluded]
    | name i => cases hliteral
    | number n => cases hliteral
  · have hnone := onLine_eq_nil (Line.not_mem_text (by decide) h)
    split
    · rw [hnone, List.nil_append]
    · rfl

theorem isSilent_marked {first : String} (h : first.toList.head? = some '@') (tail : Line) :
    isSilent (.cons first tail) = true := by
  have hfires : Exclusion.admits Exclusion.ofConstantLine first.toList = false := by
    refine Exclusion.admits_eq_false_iff.mpr ⟨⟨"annotation", .contains "@"⟩,
      by simp [Exclusion.ofConstantLine], ?_⟩
    rw [Exclusion.fires, Rule.fires, contains_iff]
    obtain ⟨rest, hrest⟩ := List.head?_eq_some_iff.mp h
    exact ⟨[], rest, by simp [hrest]⟩
  simp [isSilent, hfires]

theorem goesByLine : GoesByLine onLines [] isSilent where
  ends := .inl rfl
  inside line rest := by simp [onLines]
  outside line hsilent rest := by simpa using onLines_silent hsilent rest
  marked _ tail h := isSilent_marked h tail

/-! ## Lines that declare one -/

theorem shape_readsWord : ReadsWord shape isFiller ';' := by
  intro prev text found hhit
  obtain ⟨w, rest⟩ := found
  obtain ⟨_, filler, rfl, hw, hf, hend⟩ := shape_eq_some_iff.mp hhit
  exact ⟨w, _, rfl, hw, hend, rest, dropWhile_run hf (stopsRun_cons.mpr (by decide))⟩

theorem isFiller_of_isNameStart {c : Char} (h : isNameStart c = true) : isFiller c = false := by
  have hascii := isAsciiWordChar_of_isNameStart h
  have hblank : isBlank c = false := by
    cases hb : isBlank c with
    | false => rfl
    | true => exact absurd (isWordChar_of_isAscii hascii) (by simp [isWordChar_of_isBlank hb])
  have hdecimal : isDecimal c = false := by
    rw [isDecimal, if_pos (toNat_lt_of_isAscii hascii)]
    cases hd : c.isDigit with
    | false => rfl
    | true => exact absurd h (by simp [isNameStart_of_isDigit hd])
  have hmarks : c ≠ '=' ∧ c ≠ '.' := by
    constructor <;> intro he <;> rw [he] at h <;> exact absurd h (by decide)
  simp [isFiller, hblank, hdecimal, hmarks]

/-- No semicolon stands before a name. -/
theorem not_runsTo_semicolon {w : List Char} (hw : IsName w) (rest : List Char) :
    ¬ RunsTo isFiller ';' (' ' :: (w ++ rest)) := by
  have hstart := hw.start
  obtain ⟨c, w, rfl⟩ := List.exists_cons_of_ne_nil hw.ne_nil
  have hc : isNameStart c = true := by simpa using hstart
  refine not_runsTo [' '] (by simp [isFiller]) (stopsRun_cons.mpr (isFiller_of_isNameStart hc)) ?_
  intro he
  obtain rfl : c = ';' := by simpa using he
  exact absurd hc (by decide)

theorem hits_name {w next rest : List Char} (hw : IsName w) (hnext : IsName next)
    (prev : Option Char) :
    shape.hits prev (w ++ (' ' :: (next ++ rest))) = shape.hits (some ' ') (next ++ rest) := by
  rw [shape_readsWord.hits_word hw.toIsWord rfl (not_runsTo_semicolon hnext rest),
    shape_readsWord.hits_mark (by decide)]

theorem isName_const : IsName "const".toList := by decide

theorem hits_last {prev : Option Char} (hprev : wordBoundary prev = true) (name : Identifier)
    {filler : List Char} (hfiller : ∀ c ∈ filler, isFiller c = true)
    (hend : wordBoundary (filler ++ [';']).head? = true) :
    shape.hits prev (name.text.toList ++ (filler ++ [';'])) = [name.text.toList] := by
  have hhit : shape prev ((name.text.toList ++ (filler ++ [';'])) ++ []) =
      some ⟨name.text.toList, []⟩ :=
    shape_eq_some_iff.mpr ⟨hprev, filler, by simp, name.isName.toIsWord, hfiller, hend⟩
  have hhits := Shape.hits_hit (by simp) hhit
  simpa using hhits

theorem onLine_of_hits {line : List Char} {name : Identifier}
    (h : shape.hits none line = [name.text.toList]) : onLine line = [name.text] := by
  rw [onLine, Shape.occurrences_eq_hits, h]
  simp [List.eraseDups_cons]

theorem onLine_pointerConstant (type name : Identifier) :
    onLine (Line.text ["extern ", type, " *const ", name, ";"]) = [name.text] := by
  have htext : Line.text ["extern ", type, " *const ", name, ";"] = "extern".toList ++ (' ' ::
      (type.text.toList ++ (' ' :: '*' :: ("const".toList ++ (' ' :: (name.text.toList ++ ([] ++
        [';']))))))) := by
    simp [Line.text, Token.text]
  have hkeyword : IsName "extern".toList := by decide
  have hpointer : ∀ rest, ¬ RunsTo isFiller ';' (' ' :: '*' :: rest) := fun rest =>
    not_runsTo [' '] (by simp [isFiller]) (stopsRun_cons.mpr (by decide)) (by simp)
  refine onLine_of_hits ?_
  rw [htext, hits_name hkeyword type.isName,
    shape_readsWord.hits_word type.isName.toIsWord rfl (hpointer _),
    shape_readsWord.hits_mark (by decide), shape_readsWord.hits_mark (by decide),
    hits_name isName_const name.isName]
  exact hits_last rfl name (by simp) rfl

/-- A value as it stands behind the name of a constant. -/
def valueLine (value : Digits) : Option Digits → Line
  | none => [" = ", value]
  | some fraction => [" = ", value, ".", fraction]

theorem isFiller_of_isDigit {c : Char} (h : c.isDigit = true) : isFiller c = true := by
  have hascii := toNat_lt_of_isAscii (isAsciiWordChar_of_isDigit h)
  simp [isFiller, isDecimal, hascii, h]

/-- Whether a token is filler, whatever number it is. -/
def fills : Token → Bool
  | .literal s => s.toList.all isFiller
  | .name _ => false
  | .number _ => true

theorem isFiller_valueLine (value : Digits) (fraction : Option Digits) :
    ∀ c ∈ (valueLine value fraction).text, isFiller c = true := by
  have hline : (valueLine value fraction).all fills = true := by
    cases fraction <;> rfl
  intro c hc
  obtain ⟨t, ht, hct⟩ := List.mem_flatMap.mp hc
  have htoken := List.all_eq_true.mp hline t ht
  cases t with
  | literal s => exact List.all_eq_true.mp htoken c hct
  | name i => cases htoken
  | number n => exact isFiller_of_isDigit (n.chars c hct)

theorem onLine_valueConstant (type name : Identifier) (value : Digits) (fraction : Option Digits) :
    onLine (Line.text ["static const ", type, " ", name] ++
      ((valueLine value fraction).text ++ [';'])) = [name.text] := by
  have htext : Line.text ["static const ", type, " ", name] ++
    ((valueLine value fraction).text ++ [';']) =
      "static".toList ++ (' ' :: ("const".toList ++ (' ' :: (type.text.toList ++ (' ' ::
        (name.text.toList ++ ((valueLine value fraction).text ++ [';']))))))) := by
    simp [Line.text, Token.text]
  have hkeyword : IsName "static".toList := by decide
  have hend : wordBoundary ((valueLine value fraction).text ++ [';']).head? = true := by
    cases fraction <;> rfl
  refine onLine_of_hits ?_
  rw [htext, hits_name hkeyword isName_const, hits_name isName_const type.isName,
    hits_name type.isName name.isName]
  exact hits_last rfl name (isFiller_valueLine value fraction) hend

/-! ## What a declaration yields -/

/-- A line that declares a constant has none of what rules one out. -/
theorem admits_line {line : Line} (htypedef : line.lacks .typedef = true)
    (hproperty : line.lacks .property = true)
    (hmarks : ("#@\x7d+-(:".toList.all fun c => line.all (Token.avoids c)) = true) :
    Exclusion.admits Exclusion.ofConstantLine line.text = true := by
  have hword : ("#@\x7d+-(:".toList.all (!isWordChar ·)) = true := by decide
  refine Exclusion.admits_ofConstantLine (fun w hw => ?_) fun c hc => ?_
  · rcases List.mem_pair.mp hw with rfl | rfl
    · exact Line.not_infix (k := .typedef) rfl htypedef
    · exact Line.not_infix (k := .property) rfl hproperty
  · have hc' : isWordChar c = false := by simpa using List.all_eq_true.mp hword c hc
    exact Line.not_mem_text hc' (List.all_eq_true.mp hmarks c hc)

theorem onLines_declared {line : Line} {name : String} (hone : onLine line.text = [name])
    (hat : line.all (Token.avoids '@') = true)
    (hadmits : Exclusion.admits Exclusion.ofConstantLine line.text = true)
    (rest : List (List Char)) :
    onLines .outside ((line.text ++ []) :: rest) = name :: onLines .outside rest := by
  have hstep := Span.step_of_not_mem (Line.not_mem_text (by decide) hat) .outside
  simp [onLines, hstep, hadmits, hone]

theorem onLines_decl (d : Decl) (rest : List (List Char)) :
    onLines .outside (d.lines.map (·.text ++ []) ++ rest) = d.names .constant ++
      onLines .outside rest := by
  have henumerator : ∀ e : Enumerator,
      (isSilent e.line && e.line.all (Token.avoids '@')) = true := by
    intro e
    obtain ⟨name, value⟩ := e
    cases value <;> rfl
  cases d with
  | externConstant type name =>
    exact onLines_declared (onLine_pointerConstant type name) rfl (admits_line rfl rfl rfl) rest
  | staticConstant type name value fraction =>
    have hone := onLine_valueConstant type name value fraction
    cases fraction with
    | none =>
      refine onLines_declared ?_ rfl (admits_line rfl rfl rfl) rest
      simpa [valueLine, Line.text, Token.text] using hone
    | some fraction =>
      refine onLines_declared ?_ rfl (admits_line rfl rfl rfl) rest
      simpa [valueLine, Line.text, Token.text] using hone
  | macroEnum call type name body =>
    exact goesByLine.quiet (List.forall_mem_cons.mpr
      ⟨by cases call <;> rfl, forall_mem_closed henumerator rfl⟩) rest
  | plainEnum body =>
    exact goesByLine.quiet
      (List.forall_mem_cons.mpr ⟨rfl, forall_mem_closed henumerator rfl⟩) rest
  | typedefEnum body name =>
    exact goesByLine.quiet
      (List.forall_mem_cons.mpr ⟨rfl, forall_mem_closed henumerator rfl⟩) rest
  | struct body name =>
    exact goesByLine.quiet
      (List.forall_mem_cons.mpr ⟨rfl, forall_mem_closed (fun _ => rfl) rfl⟩) rest
  | callable form result name parameter =>
    exact goesByLine.quiet (List.forall_mem_singleton.mpr (by cases form <;> rfl)) rest
  | interface name super methods => exact goesByLine.pass_at rfl rest
  | category name extension methods => exact goesByLine.pass_at rfl rest
  | protocol name parent methods => exact goesByLine.pass_at rfl rest
  | forwardProtocols name more => exact goesByLine.pass_at rfl rest
  | forwardClass name => exact goesByLine.pass_at rfl rest
  | _ => exact goesByLine.quiet (List.forall_mem_singleton.mpr rfl) rest

end Constant

end HeaderIndex.Header
