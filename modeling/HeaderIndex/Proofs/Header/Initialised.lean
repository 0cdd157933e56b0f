import HeaderIndex.Proofs.Header.Event
import HeaderIndex.Proofs.Header.Statement
import HeaderIndex.Text.Escape

/-! Constants with a numeric value, such as `static const float ratio = 1.5;`. A value of
decimal digits and a point is filler, so the name before it is found. A hexadecimal value,
or one with a suffix, has letters in it, and its last word is taken for the name. -/

namespace HeaderIndex.Header.Constant

open HeaderIndex.Text

/-! ## Names and values -/

/-- An identifier that holds none of the words that rule a line out. -/
structure PlainName where
  text : List Char
  start : text.head?.any isNameStart = true := by decide
  chars : ∀ c ∈ text, isAsciiWordChar c = true := by exact List.all_eq_true.mp (by decide)
  holdsNone : ∀ keyword ∈ ["typedef", "property"], ¬ keyword.toList <:+: text := by decide

theorem PlainName.isName (n : PlainName) : IsName n.text where
  ne_nil h := by simpa [h] using n.start
  chars c hc := isWordChar_of_isAscii (n.chars c hc)
  start := n.start

def integerSuffixes : List String :=
  ["", "u", "U", "l", "L", "ul", "uL", "Ul", "UL", "lu", "lU", "Lu", "LU",
   "ll", "LL", "ull", "uLL", "Ull", "ULL", "llu", "llU", "LLu", "LLU"]

def floatingSuffixes : List String := ["", "f", "F", "l", "L"]

/-- Unsigned numeric literals without an exponent. -/
inductive Literal where
  | decimal (digits : Digits) (suffix : { s : String // s ∈ integerSuffixes })
  | hexadecimal (mark : { c : Char // c ∈ ['x', 'X'] }) (digits : List Char)
      (ne_nil : digits ≠ []) (hex : ∀ c ∈ digits, isHexDigit c = true)
      (suffix : { s : String // s ∈ integerSuffixes })
  | floating (whole fraction : List Char) (ne_nil : whole ++ fraction ≠ [])
      (digits : ∀ c ∈ whole ++ fraction, c.isDigit = true)
      (suffix : { s : String // s ∈ floatingSuffixes })

namespace Literal

def text : Literal → List Char
  | decimal digits suffix => digits.text.toList ++ suffix.val.toList
  | hexadecimal mark digits _ _ suffix => '0' :: mark.val :: (digits ++ suffix.val.toList)
  | floating whole fraction _ _ suffix => whole ++ '.' :: (fraction ++ suffix.val.toList)

/-- The last word of a literal with a letter in it. -/
def lettered? : Literal → Option (List Char)
  | decimal digits suffix =>
    if suffix.val = "" then none else some (digits.text.toList ++ suffix.val.toList)
  | hexadecimal mark digits _ _ suffix => some ('0' :: mark.val :: (digits ++ suffix.val.toList))
  | floating _ fraction _ _ suffix =>
    if suffix.val = "" then none else some (fraction ++ suffix.val.toList)

def isChar (c : Char) : Bool := isHexDigit c || "xXuUlL.".toList.contains c

theorem isAsciiWordChar_of_isHexDigit {c : Char} (h : isHexDigit c = true) :
    isAsciiWordChar c = true := by
  simp only [isHexDigit, Bool.or_eq_true, Bool.and_eq_true, decide_eq_true_eq] at h
  rcases h with (hdigit | ⟨hlo, hhi⟩) | ⟨hlo, hhi⟩
  · exact isAsciiWordChar_of_isDigit hdigit
  · have hle : c.val ≤ 'z'.val := UInt32.le_trans hhi (by decide)
    have hlower : c.isLower = true :=
      Bool.and_eq_true_iff.mpr ⟨decide_eq_true hlo, decide_eq_true hle⟩
    have halpha : c.isAlpha = true := Bool.or_eq_true_iff.mpr (.inr hlower)
    simp [isAsciiWordChar, Char.isAlphanum, halpha]
  · have hle : c.val ≤ 'Z'.val := UInt32.le_trans hhi (by decide)
    have hupper : c.isUpper = true := decide_eq_true ⟨hlo, hle⟩
    have halpha : c.isAlpha = true := Bool.or_eq_true_iff.mpr (.inl hupper)
    simp [isAsciiWordChar, Char.isAlphanum, halpha]

theorem isChar_of_isDigit {c : Char} (h : c.isDigit = true) : isChar c = true := by
  simp [isChar, isHexDigit, h]

theorem isAsciiWordChar_of_isChar {c : Char} (h : isChar c = true) :
    isAsciiWordChar c = true ∨ c = '.' := by
  rw [isChar, Bool.or_eq_true] at h
  rcases h with hhex | hletter
  · exact .inl (isAsciiWordChar_of_isHexDigit hhex)
  · have htable : ("xXuUlL.".toList.all fun d => isAsciiWordChar d || d == '.') = true := by decide
    simpa using List.all_eq_true.mp htable c (List.contains_iff_mem.mp hletter)

/-- Suffixes are made of letters. -/
theorem letter_of_suffix {s : String} (h : s ∈ integerSuffixes ++ floatingSuffixes) {c : Char}
    (hc : c ∈ s.toList) : isNameStart c = true ∧ isChar c = true := by
  have htable : ((integerSuffixes ++ floatingSuffixes).all fun s =>
      s.toList.all fun c => isNameStart c && isChar c) = true := by decide
  simpa using List.all_eq_true.mp (List.all_eq_true.mp htable s h) c hc

theorem hexadecimal_chars {mark : Char} (hmark : mark ∈ ['x', 'X']) {digits : List Char}
    (hex : ∀ c ∈ digits, isHexDigit c = true) {suffix : String}
    (hsuffix : suffix ∈ integerSuffixes) :
    ∀ c ∈ '0' :: mark :: (digits ++ suffix.toList), isAsciiWordChar c = true ∧
      isChar c = true := by
  intro c hc
  simp only [List.mem_cons, List.mem_append] at hc
  rcases hc with rfl | rfl | hc | hc
  · decide
  · rcases List.mem_pair.mp hmark with rfl | rfl <;> decide
  · exact ⟨isAsciiWordChar_of_isHexDigit (hex c hc), by simp [isChar, hex c hc]⟩
  · obtain ⟨hstart, hchar⟩ := letter_of_suffix (List.mem_append_left _ hsuffix) hc
    exact ⟨isAsciiWordChar_of_isNameStart hstart, hchar⟩

theorem chars (value : Literal) : ∀ c ∈ value.text, isChar c = true := by
  intro c hc
  cases value with
  | decimal digits suffix =>
    rcases List.mem_append.mp hc with hc | hc
    · exact isChar_of_isDigit (digits.chars c hc)
    · exact (letter_of_suffix (List.mem_append_left _ suffix.property) hc).2
  | hexadecimal mark digits _ hex suffix =>
    exact (hexadecimal_chars mark.property hex suffix.property c hc).2
  | floating whole fraction _ digits suffix =>
    simp only [text, List.mem_append, List.mem_cons] at hc
    rcases hc with hc | rfl | hc | hc
    · exact isChar_of_isDigit (digits c (by simp [hc]))
    · decide
    · exact isChar_of_isDigit (digits c (by simp [hc]))
    · exact (letter_of_suffix (List.mem_append_right _ suffix.property) hc).2

/-- A word of digits that ends in a suffix. -/
theorem suffixed {digits : List Char} (hdigits : ∀ c ∈ digits, c.isDigit = true)
    {suffix : String} (hsuffix : suffix ∈ integerSuffixes ++ floatingSuffixes)
    (hne : suffix ≠ "") :
    IsWord (digits ++ suffix.toList) ∧ ∃ c ∈ digits ++ suffix.toList, isFiller c = false := by
  obtain ⟨c, rest, hc⟩ := List.exists_cons_of_ne_nil (mt String.toList_eq_nil_iff.mp hne)
  have hletter := (letter_of_suffix hsuffix (c := c) (by simp [hc])).1
  refine ⟨⟨by simp [hc], fun d hd => isWordChar_of_isAscii ?_⟩, c,
    by simp [hc], isFiller_of_isNameStart hletter⟩
  rcases List.mem_append.mp hd with hd | hd
  · exact isAsciiWordChar_of_isDigit (hdigits d hd)
  · exact isAsciiWordChar_of_isNameStart (letter_of_suffix hsuffix hd).1

/-- A literal is filler, or ends in a word with a letter in it. -/
theorem text_cases (value : Literal) :
    (value.lettered? = none ∧ ∀ c ∈ value.text, isFiller c = true) ∨
    ∃ front w, value.lettered? = some w ∧ value.text = front ++ w ∧ IsWord w ∧
      (front = [] ∨ front.getLast? = some '.') ∧ ∃ c ∈ w, isFiller c = false := by
  cases value with
  | decimal digits suffix =>
    by_cases hs : suffix.val = ""
    · refine .inl ⟨by simp [lettered?, hs], fun c hc => ?_⟩
      refine isFiller_of_isDigit (digits.chars c ?_)
      simpa [text, hs] using hc
    · obtain ⟨hw, hletter⟩ := suffixed digits.chars (List.mem_append_left _ suffix.property) hs
      exact .inr ⟨[], _, by simp [lettered?, hs], rfl, hw, .inl rfl, hletter⟩
  | hexadecimal mark digits ne_nil hex suffix =>
    have hmark : isFiller mark.val = false := by
      rcases List.mem_pair.mp mark.property with h | h <;> rw [h] <;> decide
    have hword : IsWord ('0' :: mark.val :: (digits ++ suffix.val.toList)) :=
      ⟨by simp, fun c hc =>
        isWordChar_of_isAscii (hexadecimal_chars mark.property hex suffix.property c hc).1⟩
    exact .inr ⟨[], _, rfl, rfl, hword, .inl rfl, mark.val, by simp, hmark⟩
  | floating whole fraction _ digits suffix =>
    by_cases hs : suffix.val = ""
    · refine .inl ⟨by simp [lettered?, hs], fun c hc => ?_⟩
      have hc' : c ∈ whole ++ fraction ∨ c = '.' := by
        simp only [text, hs, List.mem_append, List.mem_cons, String.toList_empty,
          List.not_mem_nil, or_false] at hc ⊢
        tauto
      rcases hc' with hc | rfl
      · exact isFiller_of_isDigit (digits c hc)
      · decide
    · obtain ⟨hw, hletter⟩ := suffixed (fun c (hc : c ∈ fraction) => digits c (by simp [hc]))
        (List.mem_append_right _ suffix.property) hs
      exact .inr ⟨whole ++ ['.'], _,
        by simp [lettered?, hs], by simp [text], hw, .inr (by simp), hletter⟩

end Literal

/-! ## The line -/

/-- A constant of a type, with its value, up to the semicolon. -/
def declaration (type name : PlainName) (value : Literal) : List Char :=
  "static".toList ++ ' ' :: ("const".toList ++ ' ' ::
    (type.text ++ ' ' :: (name.text ++ ' ' :: '=' :: ' ' :: value.text)))

theorem declaration_eq (type name : PlainName) (value : Literal) : declaration type name value =
    "static".toList ++ ' ' :: ("const".toList ++ ' ' ::
      (type.text ++ ' ' :: (name.text ++ ' ' :: '=' :: ' ' :: value.text))) := rfl

/-- What a search takes for the name. -/
theorem constant?_declaration (type name : PlainName) (value : Literal) :
    constant? (declaration type name value) = some (value.lettered?.getD name.text) := by
  rcases value.text_cases with ⟨hnone, hfiller⟩ | ⟨front, w, hsome, htext,
    hw, hfront, hletter⟩
  · have hstart := name.start
    obtain ⟨c, rest, hname⟩ := List.exists_cons_of_ne_nil name.isName.ne_nil
    have hc : isNameStart c = true := by simpa [hname] using hstart
    have hvalue : ∀ d ∈ ' ' :: '=' :: ' ' :: value.text, isFiller d = true := by
      simp only [List.forall_mem_cons]
      exact ⟨by decide, by decide, by decide, hfiller⟩
    have hsplit : declaration type name value =
        ("static".toList ++ ' ' :: ("const".toList ++ ' ' :: type.text) ++ [' ']) ++
          (name.text ++ ' ' :: '=' :: ' ' :: value.text) := by
      simp only [declaration_eq, List.append_assoc, List.cons_append, List.nil_append]
    rw [hnone, hsplit]
    exact constant?_last name.isName.toIsWord (by rw [List.getLast?_concat]; decide) rfl hvalue
      ⟨c, by simp [hname], isFiller_of_isNameStart hc⟩
  · have hsplit : declaration type name value =
        (("static".toList ++ ' ' ::
          ("const".toList ++ ' ' :: (type.text ++ ' ' :: (name.text ++ [' ', '='])))) ++ ' ' ::
          front) ++ (w ++ []) := by
      simp only [declaration_eq, htext, List.append_assoc, List.cons_append,
        List.nil_append, List.append_nil]
    have hlast : wordBoundary (' ' :: front).getLast? = true := by
      rcases hfront with rfl | hpoint
      · decide
      · rw [List.getLast?_cons, hpoint]
        decide
    rw [hsome, hsplit]
    refine constant?_last hw ?_ rfl (by simp) hletter
    rwa [List.getLast?_append_of_ne_nil _ (List.cons_ne_nil _ _)]

/-- None of the words that rule a line out stands in a declaration. -/
theorem not_infix_declaration (type name : PlainName) (value : Literal) {w : String}
    (hw : w ∈ ["typedef", "property"]) :
    ¬ w.toList <:+: declaration type name value ++ [';'] := by
  have hword : ∀ d ∈ w.toList, isWordChar d = true := by
    refine List.all_eq_true.mp ?_
    rcases List.mem_pair.mp hw with rfl | rfl <;> decide
  -- each of the words has a letter that neither a keyword nor a literal has
  obtain ⟨c, hc, hkeywords, hliteral⟩ : ∃ c ∈ w.toList, (c ∉ "static".toList ∧
    c ∉ "const".toList) ∧
      Literal.isChar c = false := by
    rcases List.mem_pair.mp hw with rfl | rfl
    · exact ⟨'y', by decide, by decide, by decide⟩
    · exact ⟨'p', by decide, by decide, by decide⟩
  have hvalue : ¬ w.toList <:+: value.text := fun h => by
    rw [value.chars c (h.subset hc)] at hliteral
    cases hliteral
  have hnil : ¬ w.toList <:+: [] := fun h => absurd (h.subset hc) List.not_mem_nil
  have hline : declaration type name value ++ [';'] = "static".toList ++ ' ' ::
      ("const".toList ++ ' ' :: (type.text ++ ' ' :: (name.text ++ ' ' :: ([] ++ '=' :: ([] ++
        ' ' :: (value.text ++ ';' :: [])))))) := by
    simp only [declaration_eq, List.append_assoc, List.cons_append, List.nil_append]
  rw [hline]
  refine not_infix_mark hword (by decide) (fun h => hkeywords.1 (h.subset hc)) ?_
  refine not_infix_mark hword (by decide) (fun h => hkeywords.2 (h.subset hc)) ?_
  refine not_infix_mark hword (by decide) (type.holdsNone w hw) ?_
  refine not_infix_mark hword (by decide) (name.holdsNone w hw) ?_
  refine not_infix_mark hword (by decide) hnil (not_infix_mark hword (by decide) hnil ?_)
  exact not_infix_mark hword (by decide) hvalue hnil

theorem declaration_chars (type name : PlainName) (value : Literal) :
    ∀ c ∈ declaration type name value, isAsciiWordChar c = true ∨ c ∈ [' ', '=', '.'] := by
  intro c hc
  have hkeywords : ("static".toList ++ "const".toList).all isAsciiWordChar = true := by decide
  have hvalue := fun h : c ∈ value.text => Literal.isAsciiWordChar_of_isChar (value.chars c h)
  simp only [declaration_eq, List.mem_append, List.mem_cons] at hc
  rcases hc with h | rfl | h | rfl | h | rfl | h | rfl | rfl | rfl | h
  · exact .inl (List.all_eq_true.mp hkeywords c (by simp only [List.mem_append, h, true_or]))
  · simp
  · exact .inl (List.all_eq_true.mp hkeywords c (by simp only [List.mem_append, h, or_true]))
  · simp
  · exact .inl (type.chars c h)
  · simp
  · exact .inl (name.chars c h)
  · simp
  · simp
  · simp
  · exact (hvalue h).imp_right (by simp [·])

/-- A character that neither words nor the marks of a declaration are made of. -/
theorem not_mem_declaration (type name : PlainName) (value : Literal) {c : Char}
    (hc : (isAsciiWordChar c || [' ', '=', '.'].contains c) = false) :
    c ∉ declaration type name value := by
  intro hmem
  rw [Bool.or_eq_false_iff] at hc
  rcases declaration_chars type name value c hmem with h | h
  · simp [hc.1] at h
  · simp [h] at hc

theorem isSearched_declaration (type name : PlainName) (value : Literal) :
    IsSearched [] (declaration type name value ++ [';']) := by
  have hmarks : ∀ c ∈ "#@\x7d+-(:".toList, c ∉ declaration type name value ++ [';'] := by
    have htable : ("#@\x7d+-(:".toList.all fun c =>
        !(isAsciiWordChar c || [' ', '=', '.'].contains c) && c != ';') = true := by
      decide
    intro c hc hmem
    obtain ⟨hapart, hsemicolon⟩ := Bool.and_eq_true_iff.mp (List.all_eq_true.mp htable c hc)
    rcases List.mem_append.mp hmem with hmem | hmem
    · exact not_mem_declaration type name value (by simpa using hapart) hmem
    · simp [List.mem_singleton.mp hmem] at hsemicolon
  have hadmits :=
    Exclusion.admits_ofConstantLine (fun w hw => not_infix_declaration type name value hw) hmarks
  exact ⟨rfl, Span.step_of_not_mem (hmarks '@' (by decide)) .outside,
    Exclusion.admits_iff.mp hadmits⟩

/-- The name of a constant is found if its value is written in decimal digits and a point only.
The last word of any other value is found in its place. -/
theorem initialised_constant (type name : PlainName) (value : Literal) :
    find (declaration type name value ++ [';']) =
      [String.ofList (value.lettered?.getD name.text)] := by
  have hfeed : '\n' ∉ declaration type name value ++ [';'] := by
    simpa using not_mem_declaration type name value (c := '\n') (by decide)
  have hlines : Lines.bare (declaration type name value ++ [';']) =
      [declaration type name value ++ [';']] := by
    rw [Lines.bare, Lines.kept_last hfeed (by simp)]
    simp [Lines.dropEnd]
  have hline : onLine (declaration type name value ++ [';']) =
      [String.ofList (value.lettered?.getD name.text)] := by
    rw [onLine_eq, statements_cons (not_mem_declaration type name value (by decide)),
      statements_last List.not_mem_nil]
    simp [constant?_declaration, List.eraseDups_cons]
  have hsearched := isSearched_iff.mp (isSearched_declaration type name value)
  rw [List.foldl_nil] at hsearched
  simp only [find, hlines, onLines, hline, if_pos hsearched, List.append_nil]

/-- A hexadecimal value is taken for the name. -/
theorem hexadecimal_value_taken : ∃ (type name : PlainName) (value : Literal),
    declaration type name value ++ [';'] = "static const int N = 0x10;".toList ∧
      find (declaration type name value ++ [';']) ≠ [String.ofList name.text] := by
  let type : PlainName := { text := ['i', 'n', 't'] }
  let name : PlainName := { text := ['N'] }
  let value : Literal :=
    .hexadecimal ⟨'x', by simp⟩ ['1', '0'] (by simp) (List.all_eq_true.mp (by decide))
    ⟨"", by simp [integerSuffixes]⟩
  have hfound : find (declaration type name value ++ [';']) = ["0x10"] := by
    decide +kernel
  refine ⟨type, name, value, by decide +kernel, ?_⟩
  rw [hfound]
  decide

end HeaderIndex.Header.Constant
