import HeaderIndex.Proofs.Header.Declared.Scan
import HeaderIndex.Proofs.Header.Scrub

/-! What is found of declarations with a body: its members, line by line, and then the
declaration around it. -/

namespace HeaderIndex.Header

open HeaderIndex.Text

/-! ## Bodies -/

theorem dropDirectives_eq_self {text : List Char} (h : '#' ∉ text) :
    dropDirectives text = text := by
  rw [dropDirectives, Shape.replace_eq_replaced]
  refine Shape.Absent.replaced fun lead here htext => ?_
  cases hhit : directive (lead.getLast?.or none) here with
  | none => rfl
  | some found =>
    obtain ⟨v, rest⟩ := found
    obtain ⟨_, indent, _, rfl, _⟩ := directive_eq_some hhit
    exact absurd (by simp [htext]) h

/-- The shape hits only where a name may start. -/
def NeedsName (s : Shape (List Char)) : Prop :=
  ∀ prev c rest, isNameStart c = false → s prev (c :: rest) = none

theorem name?_needsName : NeedsName name? := by
  intro prev c rest hc
  simp [name?, hc]

theorem bitField_needsName : NeedsName Struct.bitField := by
  intro prev c rest hc
  simp [Struct.bitField, name?, hc]

/-- Whether a line has neither a name nor a letter of its own. -/
def Line.isNameless (line : Line) : Bool := line.all fun
  | .literal s => s.toList.all (!isNameStart ·)
  | .name _ => false
  | .number _ => true

theorem Line.isNameStart_of_isNameless {line : Line} (h : line.isNameless = true) {c : Char}
    (hc : c ∈ line.text) : isNameStart c = false := by
  obtain ⟨t, ht, hct⟩ := List.mem_flatMap.mp hc
  have htoken := List.all_eq_true.mp h t ht
  cases t with
  | literal s => simpa using List.all_eq_true.mp htoken c hct
  | name i => cases htoken
  | number n => exact isNameStart_of_isDigit (n.chars c hct)

theorem hits_nameless {s : Shape (List Char)} (hs : NeedsName s) {line : Line}
    (h : line.isNameless = true) (prev : Option Char) (rest : List Char) :
    s.hits prev (line.text ++ '\n' :: rest) = s.hits (some '\n') rest := by
  have hpass : s.hits prev ((line.text ++ ['\n']) ++ rest) =
      s.hits ((line.text ++ ['\n']).getLast?.or prev) rest := by
    refine Shape.hits_pass fun lead here htext hne => ?_
    obtain ⟨c, here, rfl⟩ := List.exists_cons_of_ne_nil hne
    refine hs _ _ _ ?_
    have hc : c ∈ line.text ++ ['\n'] := by simp [htext]
    rcases List.mem_append.mp hc with hc | hc
    · exact Line.isNameStart_of_isNameless h hc
    · rw [List.mem_singleton.mp hc]
      decide
  simpa using hpass

/-- What a search reads off a body, when it reads one name off each of its lines. -/
theorem occurrences_members {β : Type} {s : Shape (List Char)} (hs : NeedsName s)
    {line : β → Line}
    {name : β → Identifier} (hhash : ∀ b, (line b).all (Token.avoids '#') = true)
    (hline : ∀ b prev rest, wordBoundary prev = true →
      s.hits prev ((line b).text ++ '\n' :: rest) =
      (name b).text.toList :: s.hits (some '\n') rest) (members : List β) :
    (s.occurrences (dropDirectives ('\n' :: written (members.map line)))).map String.ofList =
      members.map fun b => (name b).text := by
  have hnone : '#' ∉ '\n' :: written (members.map line) := by
    rw [List.mem_cons, not_or]
    refine ⟨by decide, not_mem_written (by decide) (by decide) fun l hl => ?_⟩
    obtain ⟨b, _, rfl⟩ := List.mem_map.mp hl
    exact hhash b
  have hrun : s.hits (some '\n') (written (members.map line)) = members.map fun b =>
      (name b).text.toList := by
    clear hnone
    induction members with
    | nil => simp [written]
    | cons b members ih =>
      have hcons := written_cons (line b) (members.map line) []
      rw [List.append_nil, List.append_nil] at hcons
      rw [List.map_cons, hcons, hline b _ _ (by decide), ih, List.map_cons]
  rw [dropDirectives_eq_self hnone, Shape.occurrences_eq_hits,
    Shape.hits_plain (hs _ _ _ (by decide)), hrun, List.map_map]
  exact List.map_congr_left fun b _ => String.ofList_toList

/-! ## Enumerators and bit fields -/

theorem hits_enumerator (e : Enumerator) (prev : Option Char) (rest : List Char)
    (hprev : wordBoundary prev = true) : name?.hits prev (e.line.text ++ '\n' :: rest) =
      e.name.text.toList :: name?.hits (some '\n') rest := by
  obtain ⟨tail, hline, hnameless, hend⟩ : ∃ tail : Line, e.line = .cons e.name tail ∧
      tail.isNameless = true ∧ ∀ rest, wordBoundary (tail.text ++ rest).head? = true := by
    obtain ⟨name, value⟩ := e
    cases value with
    | none => exact ⟨[","], rfl, rfl, fun _ => rfl⟩
    | some value => exact ⟨[" = ", value, ","], rfl, rfl, fun _ => rfl⟩
  have hhit := name?_eq_some_iff.mpr ⟨hprev, rfl, e.name.isName, hend ('\n' :: rest)⟩
  rw [hline, Line.text_cons, List.append_assoc, Token.text,
    Shape.hits_hit e.name.isName.ne_nil hhit, hits_nameless name?_needsName hnameless]

theorem Braced.names_enumerators (es : List Enumerator) :
    Braced.names ('\n' :: written (es.map Enumerator.line)) = es.map fun e => e.name.text := by
  refine occurrences_members name?_needsName (fun e => ?_) hits_enumerator es
  obtain ⟨name, value⟩ := e
  cases value <;> rfl

theorem bitField_readsWord : ReadsWord Struct.bitField isBlank ':' := by
  intro prev text found hhit
  obtain ⟨w, rest⟩ := found
  obtain ⟨_, gap, rfl, hw, hg⟩ := Struct.bitField_eq_some_iff.mp hhit
  exact ⟨w, _, rfl, hw.toIsWord, wordBoundary_of_isBlank hg rfl, rest,
    dropWhile_run hg (stopsRun_cons.mpr (by decide))⟩

/-- No colon stands before a word. -/
theorem not_runsTo_colon {w : List Char} (hw : IsWord w) (rest : List Char) :
    ¬ RunsTo isBlank ':' (' ' :: (w ++ rest)) := by
  refine not_runsTo [' '] (by simp) (hw.stopsBlanks rest) ?_
  obtain ⟨c, w, rfl⟩ := List.exists_cons_of_ne_nil hw.ne_nil
  intro hc
  obtain rfl : c = ':' := by simpa using hc
  exact absurd (hw.chars ':' (by simp)) (by decide)

theorem hits_unsigned_int (prev : Option Char) (name : Identifier) (tail : List Char) :
    Struct.bitField.hits prev ("unsigned".toList ++ (' ' :: ("int".toList ++
      (' ' :: (name.text.toList ++ (" :".toList ++ tail)))))) =
        name.text.toList :: Struct.bitField.hits (some ':') tail := by
  have hunsigned : IsWord "unsigned".toList := by decide
  have hint : IsWord "int".toList := by decide
  have hhit : Struct.bitField (some ' ') ((name.text.toList ++ " :".toList) ++ tail) =
      some ⟨name.text.toList, tail⟩ :=
    Struct.bitField_eq_some_iff.mpr ⟨rfl, " ".toList, by simp, name.isName, by simp⟩
  rw [bitField_readsWord.hits_word hunsigned rfl (not_runsTo_colon hint _),
    bitField_readsWord.hits_mark (by decide),
    bitField_readsWord.hits_word hint rfl (not_runsTo_colon name.isName.toIsWord _),
    bitField_readsWord.hits_mark (by decide), ← List.append_assoc, Shape.hits_hit (by simp) hhit]
  simp

theorem hits_bitField (f : BitField) (prev : Option Char) (rest : List Char)
    (_ : wordBoundary prev = true) : Struct.bitField.hits prev (f.line.text ++ '\n' :: rest) =
      f.name.text.toList :: Struct.bitField.hits (some '\n') rest := by
  have htext : f.line.text ++ '\n' :: rest = "unsigned".toList ++ (' ' :: ("int".toList ++
      (' ' :: (f.name.text.toList ++ (" :".toList ++ (Line.text [" ", f.width, ";"] ++
        '\n' :: rest)))))) := by
    simp [BitField.line, Line.text, Token.text]
  rw [htext, hits_unsigned_int, hits_nameless bitField_needsName rfl]

theorem Struct.members_bitFields (fs : List BitField) :
    Struct.members ('\n' :: written (fs.map BitField.line)) = fs.map fun f => f.name.text :=
  occurrences_members bitField_needsName (fun _ => rfl) hits_bitField fs

/-! ## Declarations named behind their body -/

theorem Braced.tail?_unnamed {blanks : List Char} (hb : ∀ c ∈ blanks, isBlank c = true)
    (rest : List Char) : Braced.tail? (blanks ++ ';' :: rest) = some ⟨none, rest⟩ := by
  have hword : ∀ c ∈ blanks, (!isWordChar c) = true :=
    fun c hc => by simp [isWordChar_of_isBlank (hb c hc)]
  have hsemicolon : ';' ∉ blanks := fun hmem => absurd (hb _ hmem) (by decide)
  have htake : ((blanks ++ ';' :: rest).takeWhile fun c => !isWordChar c).contains ';' = true := by
    simp [List.takeWhile_append_of_pos hword, show isWordChar ';' = false by decide]
  rw [Braced.tail?, if_pos htake, afterFirst_run hsemicolon]
  rfl

theorem Braced.tail?_named {blanks w blanks' rest : List Char}
    (hb : ∀ c ∈ blanks, isBlank c = true) (hw : IsWord w)
    (hb' : ∀ c ∈ blanks', isBlank c = true) (h : Fresh rest) :
    Braced.tail? (blanks ++ (w ++ (blanks' ++ ';' :: rest))) = some ⟨some w, rest⟩ := by
  have hword : ∀ c ∈ blanks, (!isWordChar c) = true :=
    fun c hc => by simp [isWordChar_of_isBlank (hb c hc)]
  have hword' : ∀ c ∈ blanks', (!isWordChar c) = true :=
    fun c hc => by simp [isWordChar_of_isBlank (hb' c hc)]
  have htake := takeWhile_run hword (hw.stopsNoWord (blanks' ++ ';' :: rest))
  have hdrop := dropWhile_run hword (hw.stopsNoWord (blanks' ++ ';' :: rest))
  have hsemicolon : ¬ blanks.contains ';' = true := fun hmem =>
    absurd (hb _ (List.contains_iff_mem.mp hmem)) (by decide)
  have hend : word? (w ++ (blanks' ++ ';' :: rest)) = some ⟨w, blanks' ++ ';' :: rest⟩ :=
    word?_eq_some_iff.mpr ⟨rfl, hw, wordBoundary_of_isBlank hb' rfl⟩
  have hlast : afterLast (fun c => !isWordChar c) ';' (blanks' ++ ';' :: rest) = some rest :=
    afterLast_run hword' (by decide) h
  simp only [Braced.tail?, htake, hdrop, hend, if_neg hsemicolon, Option.bind_eq_bind,
    Option.bind_some, hlast]
  rfl

/-- A declaration named behind a body of lines. -/
theorem Braced.trailing_block {keyword : String} {inner : List Line} {behind rest : List Char}
    {name : Option (List Char)} {prev : Option Char} (hprev : wordBoundary prev = true)
    (hbrace : '\x7d' ∉ written inner) (htail : Braced.tail? behind = some ⟨name, rest⟩) :
    Braced.trailing keyword prev
      (keyword.toList ++ (" \x7b\n".toList ++ (written inner ++ '\x7d' :: behind))) =
        some ⟨⟨" ".toList, name, '\n' :: written inner⟩, rest⟩ := by
  have hbody : Braced.body? (" \x7b\n".toList ++ (written inner ++ '\x7d' :: behind)) =
      some ⟨'\n' :: written inner, behind⟩ :=
    Braced.body?_eq_some_iff.mpr ⟨" ".toList, rfl, by simp, by simp, by simpa using hbrace⟩
  exact Braced.trailing_eq_some_iff.mpr ⟨hprev, _, behind, rfl, rfl, hbody, htail, rfl⟩

theorem Braced.trailing_needs {keyword : String} {k : Keyword} (h : k.text = keyword) :
    Needs (Braced.trailing keyword) k := by
  intro prev text found hhit
  obtain ⟨d, rest⟩ := found
  obtain ⟨hprev, tail, _, rfl, htail, _⟩ := Braced.trailing_eq_some_iff.mp hhit
  exact ⟨tail, by rw [h], fun _ => ⟨hprev, htail⟩⟩

/-- What is found of a declaration with a body of lines, and `behind` its closing brace. -/
theorem Braced.yields_block {k : Keyword} {g : Braced → List String} {inner : List Line}
    {text : List Char} (behind : List Char) {name : Option (List Char)} {names : List String}
    (htext : text = k.text.toList ++ (" \x7b\n".toList ++ (written inner ++ '\x7d' ::
      (behind ++ ['\n']))))
    (hbrace : '\x7d' ∉ written inner)
    (htail : ∀ rest, Fresh rest → Braced.tail? (behind ++ rest) = some ⟨name, rest⟩)
    (hnames : g ⟨" ".toList, name, '\n' :: written inner⟩ = names) :
    Yields (Braced.trailing k.text) g text names := by
  refine .of_hit (Braced.trailing_needs rfl) ⟨" ".toList, name, '\n' :: written inner⟩
    (k.text.toList ++ (" \x7b\n".toList ++ (written inner ++ '\x7d' :: behind))) [] [] hnames
    (by simp) ?_ ?_ fun prev rest hprev hfresh => ?_
  · rw [htext]
    simp [written, Line.text]
  · intro line hline
    obtain rfl := List.mem_singleton.mp hline
    rfl
  · have hrest : Fresh ('\n' :: rest) := fresh_cons (by decide) hfresh
    have hhit : Braced.trailing k.text prev _ = _ :=
      Braced.trailing_block hprev hbrace (htail _ hrest)
    simpa [written, Line.text] using hhit

theorem Braced.yields_named {k : Keyword} {g : Braced → List String} {inner : List Line}
    {names : List String} {first : String} (name : Identifier)
    (hfirst : first.toList = k.text.toList ++ " \x7b".toList) (hbrace : '\x7d' ∉ written inner)
    (hnames : g ⟨" ".toList, some name.text.toList, '\n' :: written inner⟩ = names) :
    Yields (Braced.trailing k.text) g
      (written ([first] :: closed inner ["\x7d ", name, ";"])) names := by
  refine Braced.yields_block (' ' :: (name.text.toList ++ [';'])) ?_ hbrace
    (fun rest hfresh => ?_) hnames
  · simp [closed, written, Line.text, Token.text, hfirst]
  · have hspace : ∀ c ∈ [' '], isBlank c = true := by simp
    have hnone : ∀ c ∈ ([] : List Char), isBlank c = true := by simp
    have htail := Braced.tail?_named hspace name.isName.toIsWord hnone hfresh
    simpa using htail

theorem Braced.yields_unnamed {k : Keyword} {g : Braced → List String} {inner : List Line}
    {names : List String} {first : String} (hfirst : first.toList = k.text.toList ++ " \x7b".toList)
    (hbrace : '\x7d' ∉ written inner)
    (hnames : g ⟨" ".toList, none, '\n' :: written inner⟩ = names) :
    Yields (Braced.trailing k.text) g (written ([first] :: closed inner ["\x7d;"])) names := by
  have hnone : ∀ c ∈ ([] : List Char), isBlank c = true := by simp
  refine Braced.yields_block [';'] ?_ hbrace (fun rest _ => Braced.tail?_unnamed hnone rest) hnames
  simp [closed, written, Line.text, Token.text, hfirst]

theorem enumerators_no_brace (es : List Enumerator) :
    '\x7d' ∉ written (es.map Enumerator.line) := by
  refine not_mem_written (by decide) (by decide) fun line hline => ?_
  obtain ⟨⟨name, value⟩, _, rfl⟩ := List.mem_map.mp hline
  cases value <;> rfl

theorem bitFields_no_brace (fs : List BitField) : '\x7d' ∉ written (fs.map BitField.line) := by
  refine not_mem_written (by decide) (by decide) fun line hline => ?_
  obtain ⟨f, _, rfl⟩ := List.mem_map.mp hline
  rfl

theorem Struct.yields (d : Decl) :
    Yields (Braced.trailing "struct") Struct.symbols (written d.lines) (d.names .struct) := by
  have hneeds : Needs (Braced.trailing "struct") .struct := Braced.trailing_needs rfl
  cases d with
  | struct body name =>
    have htext : written (Decl.struct body name).lines = (Token.literal "typedef ").text ++
        written (["struct \x7b"] :: closed (body.1.map BitField.line) ["\x7d ", name, ";"]) := by
      simp [Decl.lines, closed, written, Line.text, Token.text]
    rw [htext]
    refine .behind hneeds _ rfl rfl rfl (by decide) ?_
    refine Braced.yields_named (k := .struct) name rfl (bitFields_no_brace body.1) ?_
    rw [Struct.symbols, Struct.members_bitFields]
    simp [Decl.names, Decl.declares]
  | macroEnum call type name body =>
    exact .of_keyword hneeds (by cases call <;> simp [Decl.keywords, EnumMacro.toKeyword])
  | _ => exact .of_keyword hneeds (by simp [Decl.keywords])

theorem Enumeration.yields_plain (d : Decl) :
    Yields Enumeration.Form.plain.shape Enumeration.symbols (written d.lines)
      (if d.form? = some .plain then d.names .enum else []) := by
  have hneeds : Needs Enumeration.Form.plain.shape .enum := Braced.trailing_needs rfl
  cases d with
  | plainEnum body =>
    refine Braced.yields_unnamed (k := .enum) rfl (enumerators_no_brace body.1) ?_
    rw [Enumeration.symbols, Braced.names_enumerators]
    simp [Decl.names, Decl.declares, Decl.form?]
  | typedefEnum body name =>
    have htext : written (Decl.typedefEnum body name).lines = (Token.literal "typedef ").text ++
        written (["enum \x7b"] :: closed (body.1.map Enumerator.line) ["\x7d ", name, ";"]) := by
      simp [Decl.lines, closed, written, Line.text, Token.text]
    rw [htext]
    refine .behind hneeds _ rfl rfl rfl (by decide) ?_
    refine Braced.yields_named (k := .enum) name rfl (enumerators_no_brace body.1) ?_
    rw [Enumeration.symbols, Braced.names_enumerators]
    simp [Decl.names, Decl.declares, Decl.form?]
  | macroEnum call type name body =>
    cases call <;> exact .of_keyword hneeds (by simp [Decl.keywords, EnumMacro.toKeyword])
  | _ => exact .of_keyword hneeds (by simp [Decl.keywords])

/-! ## Enumerations named in a macro call -/

theorem Enumeration.macroCall_needs {keyword : String} {k : Keyword} (h : k.text = keyword)
    (hwhole : k.isWhole = false) : Needs (Enumeration.macroCall keyword) k := by
  intro prev text found hhit
  obtain ⟨d, rest⟩ := found
  obtain ⟨head, _, _, _, _, rfl, _⟩ := Enumeration.macroCall_eq_some_iff.mp hhit
  exact ⟨head, by rw [h], fun hk => by rw [hwhole] at hk; cases hk⟩

/-- The arguments as the grammar writes them. -/
theorem Enumeration.arguments_written (type name : Identifier) (behind : List Char) :
    Enumeration.Arguments ("(".toList ++ (type.text.toList ++ (", ".toList ++ (name.text.toList ++
      (")".toList ++ behind))))) name.text.toList behind := by
  have hargs : Enumeration.Arguments ([] ++ '(' :: ([] ++ (type.text.toList ++ ([] ++ ',' ::
      (" ".toList ++ (name.text.toList ++ ([] ++ ')' :: behind))))))) name.text.toList behind :=
    .mk (by simp) (by simp) type.isName.toIsWord rfl (by simp)
      (by simp) name.isName.toIsWord rfl (by simp)
  exact hargs

theorem Enumeration.macroCall_eq_none {keyword : String} {prev : Option Char}
    {head name behind : List Char} (hargs : Enumeration.Arguments head name behind)
    (hbody : Braced.body? behind = none) :
    Enumeration.macroCall keyword prev (keyword.toList ++ head) = none := by
  cases hargs with
  | @mk r₁ r₂ backing r₃ r₄ _ r₅ _ h₁ h₂ hw₂ hb₂ h₃ h₄ hw₄ hb₄ h₅ =>
    have hname : word? ((r₄ ++ (name ++ (r₅ ++ ')' :: behind))).dropWhile
        fun c => !isWordChar c) = some ⟨name, r₅ ++ ')' :: behind⟩ :=
      word?_dropWhile_eq_some_iff.mpr ⟨r₄, rfl, h₄, hw₄, by rw [List.head?_append]; exact hb₄⟩
    have hbacking : word? ((r₂ ++ (backing ++ (r₃ ++ ',' :: (r₄ ++ (name ++
        (r₅ ++ ')' :: behind)))))).dropWhile fun c => !isWordChar c) =
          some ⟨backing, r₃ ++ ',' :: _⟩ :=
      word?_dropWhile_eq_some_iff.mpr ⟨r₂, rfl, h₂, hw₂, by rw [List.head?_append]; exact hb₂⟩
    simp only [Enumeration.macroCall, after_append, Option.bind_eq_bind, Option.bind_some,
      afterFirst_run h₁, hbacking, afterFirst_run h₃, hname, afterFirst_run h₅,
      hbody, Option.bind_none]

/-- A macro call with a body of lines, as it is found. -/
def Enumeration.called (type name : Identifier) (inner : List Line) : Braced where
  gap := "(".toList ++ (type.text.toList ++ (", ".toList ++ (name.text.toList ++ ") ".toList)))
  name := some name.text.toList
  body := '\n' :: written inner

theorem Enumeration.macroCall_block {keyword : String} {prev : Option Char} (type name : Identifier)
    {inner : List Line} (hbrace : '\x7d' ∉ written inner) (rest : List Char) :
    Enumeration.macroCall keyword prev (keyword.toList ++ ("(".toList ++ (type.text.toList ++
      (", ".toList ++ (name.text.toList ++ (")".toList ++ (" \x7b\n".toList ++ (written inner ++
        ("\x7d;".toList ++ rest))))))))) = some ⟨Enumeration.called type name inner, rest⟩ := by
  have hbody : Braced.body? (" \x7b\n".toList ++ (written inner ++ ("\x7d;".toList ++ rest))) =
      some ⟨'\n' :: written inner, ';' :: rest⟩ :=
    Braced.body?_eq_some_iff.mpr ⟨" ".toList, rfl, by simp, by simp, by simpa using hbrace⟩
  refine Enumeration.macroCall_eq_some_iff.mpr ⟨_, _, _, [], _, rfl,
    Enumeration.arguments_written type name _, hbody, rfl, by simp, rfl, ?_⟩
  have hgap : ∀ a b : List Char, a = before b (a ++ b) := by
    intro a b
    simp [before]
  rw [hgap (Enumeration.called type name inner).gap
    ("\x7b\n".toList ++ (written inner ++ ("\x7d;".toList ++ rest)))]
  simp [Enumeration.called]

/-- What is found of an enumeration that a macro call declares. -/
theorem Enumeration.yields_call {call : EnumMacro}
    (hneeds : Needs (Enumeration.macroCall call.keyword) call.toKeyword) (type name : Identifier)
    (body : Body Enumerator) :
    Yields (Enumeration.macroCall call.keyword) Enumeration.symbols
      (written (Decl.macroEnum call type name body).lines)
      ((Decl.macroEnum call type name body).names .enum) := by
  have htext : written (Decl.macroEnum call type name body).lines =
      (Token.literal "typedef ").text ++
        ((call.keyword.toList ++ ("(".toList ++ (type.text.toList ++ (", ".toList ++
          (name.text.toList ++ (")".toList ++ (" \x7b\n".toList ++
            (written (body.1.map Enumerator.line) ++ "\x7d;".toList)))))))) ++ written [[]]) := by
    simp [Decl.lines, closed, written, Line.text, Token.text]
  rw [htext]
  refine .behind hneeds _ (by cases call <;> rfl) rfl rfl (by decide) ?_
  refine .of_hit hneeds (Enumeration.called type name (body.1.map Enumerator.line)) _ []
    [] ?_ (by simp) rfl
    (List.forall_mem_singleton.mpr rfl) fun prev rest _ _ => ?_
  · rw [Enumeration.symbols, Enumeration.called, Braced.names_enumerators]
    simp [Decl.names, Decl.declares]
  · have hhit : Enumeration.macroCall call.keyword prev _ = _ :=
      Enumeration.macroCall_block type name (enumerators_no_brace body.1) ('\n' :: rest)
    simpa [written, Line.text] using hhit

theorem Enumeration.yields_macro (call : EnumMacro) (d : Decl) :
    Yields (Enumeration.macroCall call.keyword) Enumeration.symbols (written d.lines)
      (if d.form? = some call.form then d.names .enum else []) := by
  have hneeds : Needs (Enumeration.macroCall call.keyword) call.toKeyword := by
    cases call <;> exact Enumeration.macroCall_needs rfl rfl
  cases d with
  | macroEnum other type name body =>
    by_cases hcall : other = call
    · subst hcall
      rw [if_pos (show (Decl.macroEnum other type name body).form? = some other.form from rfl)]
      exact Enumeration.yields_call hneeds type name body
    · have hform : (Decl.macroEnum other type name body).form? ≠ some call.form := by
        cases other <;> cases call <;> simp_all [Decl.form?, EnumMacro.form]
      rw [if_neg hform]
      refine .of_keyword hneeds ?_
      cases other <;> cases call <;> simp_all [Decl.keywords, EnumMacro.toKeyword]
  | forwardEnum type name =>
    cases call with
    | nsOptions => exact .of_keyword hneeds (by simp [Decl.keywords, EnumMacro.toKeyword])
    | nsEnum =>
      have htext : written (Decl.forwardEnum type name).lines = (Token.literal "typedef ").text ++
          'N' :: written [["S_ENUM(", type, ", ", name, ");"]] := by
        simp [Decl.lines, written, Line.text, Token.text]
      rw [htext]
      refine .behind hneeds _ rfl rfl rfl (by decide) ?_
      refine .of_miss hneeds 'N' _ [] rfl (List.forall_mem_singleton.mpr rfl) fun prev rest => ?_
      have hmiss : Enumeration.macroCall "NS_ENUM" prev ("NS_ENUM".toList ++ _) = none :=
        Enumeration.macroCall_eq_none
          (Enumeration.arguments_written type name (";".toList ++ '\n' :: rest)) rfl
      rw [← hmiss]
      simp [Line.text, Token.text, EnumMacro.keyword]
  | plainEnum body =>
    cases call <;> exact .of_keyword hneeds (by simp [Decl.keywords, EnumMacro.toKeyword])
  | typedefEnum body name =>
    cases call <;> exact .of_keyword hneeds (by simp [Decl.keywords, EnumMacro.toKeyword])
  | _ => cases call <;> exact .of_keyword hneeds (by simp [Decl.keywords, EnumMacro.toKeyword])

theorem Enumeration.yields (form : Enumeration.Form) (d : Decl) :
    Yields form.shape Enumeration.symbols (written d.lines)
      (if d.form? = some form then d.names .enum else []) := by
  cases form with
  | nsEnum => exact Enumeration.yields_macro .nsEnum d
  | nsOptions => exact Enumeration.yields_macro .nsOptions d
  | plain => exact Enumeration.yields_plain d

end HeaderIndex.Header
