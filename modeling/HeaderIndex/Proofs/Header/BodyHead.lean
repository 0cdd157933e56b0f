import HeaderIndex.Proofs.Header.Trace

/-! What stands between the keyword of a declaration and the brace that opens its body.
Behind `struct` and `enum` no semicolon does, so a forward declaration takes no later
body. Behind a macro's keyword the same holds from its closing parenthesis on; its
arguments may reach over semicolons (`semicolon_in_arguments_only`). -/

namespace HeaderIndex.Header

open HeaderIndex.Text

/-- The keyword stands in the text, with the declaration's head and its body behind it. -/
def Braced.Opens (d : Braced) (keyword : String) (text : List Char) : Prop :=
  ∃ lead behind,
  text = lead ++ (keyword.toList ++ (d.gap ++ '\x7b' :: (d.body ++ '\x7d' :: behind)))

/-- What is read at each place is read in the whole text. -/
theorem Braced.opens_of_mem {s : Shape Braced} (hs : s.Consumes) {keyword : String}
    {text : List Char} {d : Braced} {head : Prop}
    (hread : ∀ prev here rest, s prev here = some ⟨d, rest⟩ → d.Opens keyword here ∧ head)
    (hd : d ∈ s.occurrences text) : d.Opens keyword text ∧ head := by
  obtain ⟨lead, here, rest, rfl, hhit⟩ := Shape.mem_occurrences hs hd
  obtain ⟨⟨before, behind, rfl⟩, hhead⟩ := hread _ _ _ hhit
  exact ⟨⟨lead ++ before, behind, by simp⟩, hhead⟩

theorem Braced.trailing_opens {keyword : String} {prev : Option Char} {text rest : List Char}
    {d : Braced} (h : Braced.trailing keyword prev text = some ⟨d, rest⟩) :
    d.Opens keyword text ∧ ';' ∉ d.gap := by
  obtain ⟨_, tail, behind, rfl, _, hbody, _, hgap⟩ := Braced.trailing_eq_some_iff.mp h
  obtain ⟨gap, rfl, hchars, _⟩ := Braced.body?_eq_some_iff.mp hbody
  have hrun : ∀ c ∈ gap, (c != '\x7b') = true :=
    fun c hc => (Bool.and_eq_true_iff.mp (hchars c hc)).1
  rw [takeWhile_run hrun (stopsRun_cons.mpr (by decide))] at hgap
  refine ⟨⟨[], behind, by rw [hgap]; rfl⟩, fun hm => ?_⟩
  exact absurd (hchars ';' (hgap ▸ hm)) (by decide)

namespace Enumeration

/-- The head of a macro call: its arguments up to a closing parenthesis, and no semicolon
behind that. -/
def CallHead (d : Braced) : Prop :=
  ∃ name arguments run, d.name = some name ∧ Arguments d.gap name run ∧
  d.gap = arguments ++ ')' :: run ∧
    ';' ∉ run

/-- The arguments of a call can be told without what stands behind them. -/
theorem Arguments.exists_arguments {head name behind : List Char} (h : Arguments head name behind) :
    ∃ arguments, head = arguments ++ ')' :: behind ∧ ∀ tail,
      Arguments (arguments ++ ')' :: tail) name tail := by
  cases h with
  | @mk r₁ r₂ backing r₃ r₄ _ r₅ _ h₁ h₂ hw₂ hb₂ h₃ h₄ hw₄ hb₄ h₅ =>
    refine ⟨r₁ ++ '(' :: (r₂ ++ (backing ++ (r₃ ++ ',' :: (r₄ ++ (name ++ r₅))))),
      by simp, ?_⟩
    intro tail
    simpa using @Arguments.mk r₁ r₂ backing r₃ r₄ name r₅ tail h₁ h₂ hw₂
      hb₂ h₃ h₄ hw₄ hb₄ h₅

theorem macroCall_opens {keyword : String} {prev : Option Char} {text rest : List Char} {d : Braced}
    (h : macroCall keyword prev text = some ⟨d, rest⟩) :
    d.Opens keyword text ∧ CallHead d := by
  obtain ⟨head, name, behind, r, tail, rfl, hargs, hbody, _, _, hname, hgap⟩ :=
    macroCall_eq_some_iff.mp h
  obtain ⟨run, rfl, hchars, _⟩ := Braced.body?_eq_some_iff.mp hbody
  obtain ⟨arguments, rfl, hcut⟩ := hargs.exists_arguments
  have hhead := before_append (arguments ++ ')' :: run) ('\x7b' :: (d.body ++ '\x7d' :: tail))
  rw [List.append_assoc, List.cons_append] at hhead
  rw [Braced.dropWhile_of_body? hbody, hhead] at hgap
  refine ⟨⟨[], tail, by simp [hgap]⟩, name, arguments, run, hname, hgap ▸ hcut run,
    hgap, fun hm => ?_⟩
  exact absurd (hchars ';' hm) (by decide)

end Enumeration

/-- **A body belongs to the declaration it follows.** Whatever is found as a structure or as a
plain enumeration stands in the text with its keyword, a head without a semicolon, and its
body. For the two macros this holds of the part of the head behind the closing
parenthesis of the arguments, so a semicolon in the head is one in the arguments. -/
theorem semicolon_in_arguments_only (text : List Char) :
    (∀ d ∈ (Braced.trailing "struct").occurrences text,
      d.Opens "struct" text ∧ ';' ∉ d.gap) ∧
    (∀ d ∈ Enumeration.Form.plain.shape.occurrences text,
      d.Opens "enum" text ∧ ';' ∉ d.gap) ∧
    (∀ d ∈ Enumeration.Form.nsEnum.shape.occurrences text,
      d.Opens "NS_ENUM" text ∧ Enumeration.CallHead d) ∧
    (∀ d ∈ Enumeration.Form.nsOptions.shape.occurrences text,
      d.Opens "NS_OPTIONS" text ∧ Enumeration.CallHead d) := by
  refine ⟨fun d hd => ?_, fun d hd => ?_, fun d hd => ?_, fun d hd => ?_⟩
  · exact Braced.opens_of_mem (Braced.trailing_consumes "struct")
      (fun _ _ _ => Braced.trailing_opens) hd
  · exact Braced.opens_of_mem (Enumeration.Form.shape_consumes .plain)
      (fun _ _ _ => Braced.trailing_opens) hd
  · refine Braced.opens_of_mem (Enumeration.Form.shape_consumes .nsEnum)
      (fun prev here rest hread => ?_) hd
    exact @Enumeration.macroCall_opens "NS_ENUM" prev here rest d hread
  · refine Braced.opens_of_mem (Enumeration.Form.shape_consumes .nsOptions)
      (fun prev here rest hread => ?_) hd
    exact @Enumeration.macroCall_opens "NS_OPTIONS" prev here rest d hread

/-- A call behind a forward declaration, with an attribute between its arguments and its body. -/
theorem semicolon_in_arguments_only_behind_forward :
    ∃ d ∈ Enumeration.Form.nsEnum.shape.occurrences
      "enum E; NS_ENUM(int, Mode) SWIFT \x7b On \x7d;".toList,
      d.gap = "(int, Mode) SWIFT ".toList ∧
      d.Opens "NS_ENUM" "enum E; NS_ENUM(int, Mode) SWIFT \x7b On \x7d;".toList ∧
      Enumeration.CallHead d := by
  have hgap : "(int, Mode) SWIFT ".toList ∈ (Enumeration.Form.nsEnum.shape.occurrences
      "enum E; NS_ENUM(int, Mode) SWIFT \x7b On \x7d;".toList).map Braced.gap := by
    decide +kernel
  obtain ⟨d, hd, hgap⟩ := List.mem_map.mp hgap
  exact ⟨d, hd, hgap, (semicolon_in_arguments_only _).2.2.1 d hd⟩

/-- The arguments of a forward declaration reach into the function behind it, whose body is
taken. -/
theorem forward_call_takes_body :
    ∃ d ∈ Enumeration.Form.nsEnum.shape.occurrences
        "typedef NS_ENUM(NSInteger);\nint max(int a, int b) \x7b return a; \x7d;\n".toList,
      ';' ∈ d.gap ∧ Enumeration.symbols d = ["int", "return", "a"] := by
  have hfound : (true, ["int", "return", "a"]) ∈ (Enumeration.Form.nsEnum.shape.occurrences
      "typedef NS_ENUM(NSInteger);\nint max(int a, int b) \x7b return a; \x7d;\n".toList).map
        fun d => (d.gap.contains ';', Enumeration.symbols d) := by
    decide +kernel
  obtain ⟨d, hd, hboth⟩ := List.mem_map.mp hfound
  obtain ⟨hgap, hsymbols⟩ := Prod.mk.inj hboth
  exact ⟨d, hd, List.contains_iff_mem.mp hgap, hsymbols⟩

end HeaderIndex.Header
