import HeaderIndex.Proofs.Header.Exclusion
import HeaderIndex.Proofs.Header.Layout.Scrub
import HeaderIndex.Proofs.Header.Layout.Shapes
import HeaderIndex.Proofs.Header.Layout.Span

/-! Line layout does not matter: no search tells a text from the same text laid out anew
(`extract_relaid`). Most searches scan the whole text with a shape that respects spacing.
Those for constants and functions go line by line, and neither the indent of a line nor
what stands at its end nor a blank line makes a difference to them. -/

namespace HeaderIndex.Header

open HeaderIndex.Text

variable {t t' : List Char}

/-! ## Scans -/

theorem flatMap_forall₂ {α β : Type} {R : α → α → Prop} {f : α → List β}
    (hf : ∀ a b, R a b → f a = f b) {l l' : List α} (h : List.Forall₂ R l l') :
    l'.flatMap f = l.flatMap f := by
  induction h with
  | nil => rfl
  | cons hab _ ih => rw [List.flatMap_cons, List.flatMap_cons, hf _ _ hab, ih]

theorem Struct.symbols_alike {d d' : Braced} (h : d.Alike d') : symbols d = symbols d' := by
  have hbody := dropDirectives_relaid (.of_respaced h.body)
  rw [symbols, symbols, members, members, h.name, hbody.occurrences_eq bitField_respects]

theorem Enumeration.symbols_alike {d d' : Braced} (h : d.Alike d') : symbols d = symbols d' := by
  have hbody := dropDirectives_relaid (.of_respaced h.body)
  rw [symbols, symbols, Braced.names, Braced.names, h.name, hbody.occurrences_eq name?_respects]

theorem Struct.find_relaid (h : Relaid t t') : find t' = find t := by
  have hstruct : (Braced.trailing "struct").Respects Braced.Alike False :=
    Braced.trailing_respects (by decide) (by decide)
  exact flatMap_forall₂ (fun d d' hd => symbols_alike hd) (h.occurrences hstruct)

theorem Enumeration.find_relaid (h : Relaid t t') : find t' = find t := by
  have hform : ∀ form : Form, form.shape.Respects Braced.Alike False := by
    intro form
    cases form with
    | nsEnum => exact macroCall_respects (by decide) (by decide)
    | nsOptions => exact macroCall_respects (by decide) (by decide)
    | plain => exact Braced.trailing_respects (by decide) (by decide)
  refine congrArg Form.all.flatMap (funext fun form => ?_)
  exact flatMap_forall₂ (fun d d' hd => symbols_alike hd) (h.occurrences (hform form))

/-! ## Searches that go line by line -/

/-- What a search must do to see no layout. It passes over blank lines; and it finds on an
indented line with other blanks at its end what it finds on the line, as long as
what follows the line differs in its layout only. -/
structure IgnoresLayout (onLines : Span → List (List Char) → List String) : Prop where
  blank : ∀ state line below, (∀ c ∈ line, isBlank c = true) →
    onLines state (line :: below) = onLines state below
  line : ∀ state indent line trail trail' below below', (∀ c ∈ indent, isIndent c = true) →
    (∀ c ∈ trail, isBlank c = true) → (∀ c ∈ trail', isBlank c = true) →
    Respaced False (trail ++ below.flatten) (trail' ++ below'.flatten) →
    (∀ state, onLines state below' = onLines state below) →
    onLines state ((indent ++ (line ++ trail')) :: below') =
      onLines state ((line ++ trail) :: below)

namespace IgnoresLayout

variable {onLines : Span → List (List Char) → List String}

theorem blanks (h : IgnoresLayout onLines) (state : Span) {lines : List (List Char)}
    (hlines : ∀ line ∈ lines, IsBlankLine line) (below : List (List Char)) :
    onLines state (lines.map (· ++ ['\n']) ++ below) = onLines state below := by
  induction lines with
  | nil => rfl
  | cons line lines ih =>
    have hblank := (hlines line (by simp)).withFeed
    rw [List.map_cons, List.cons_append, h.blank _ _ _ hblank, ih fun l hl =>
      hlines l (by simp [hl])]

theorem kept_relaid (h : IgnoresLayout onLines) (ht : Relaid t t') (state : Span) :
    onLines state (Lines.kept t') = onLines state (Lines.kept t) := by
  refine Relaid.line_induct
    (motive := fun t t' => ∀ state, onLines state (Lines.kept t') = onLines state (Lines.kept t))
      ?_ ?_ ht state
  · intro line indent hline hindent state
    have hfeed : '\n' ∉ indent ++ line := by simp [hline, noFeed_of_isIndent hindent]
    by_cases hempty : line = []
    · subst hempty
      rw [List.append_nil] at hfeed ⊢
      cases indent with
      | nil => rfl
      | cons c indent =>
        rw [Lines.kept_last hfeed (by simp)]
        exact h.blank _ _ _ fun d hd => isBlank_of_isIndent (hindent d hd)
    · rw [Lines.kept_last hfeed (by simp [hempty]), Lines.kept_last hline hempty]
      have hlast :=
        h.line state indent line [] [] [] [] hindent (by simp) (by simp) (.refl _) fun _ => rfl
      rwa [List.append_nil] at hlast
  · intro line indent trail blank rest rest' hline hindent htrail hblank hrest ih state
    have hfeed : '\n' ∉ indent ++ (line ++ trail) := by
      simp [hline, htrail.noFeed, noFeed_of_isIndent hindent]
    have hbelow : ∀ state, onLines state (Lines.kept (Lines.joined blank ++ rest')) =
        onLines state (Lines.kept rest) := by
      intro state
      rw [Lines.kept_joined_append fun l hl => (hblank l hl).noFeed, h.blanks state hblank, ih]
    have hrespaced : Respaced False (['\n'] ++ (Lines.kept rest).flatten)
        ((trail ++ ['\n']) ++ (Lines.kept (Lines.joined blank ++ rest')).flatten) := by
      obtain ⟨ind, s, rfl, hind, hs⟩ := hrest
      rw [Lines.flatten_kept, Lines.flatten_kept]
      have hfeed := Respaced.feed (isBreak_lines htrail hblank hind) hs
      simpa using hfeed
    rw [Lines.kept_line hline, Lines.kept_line hfeed]
    have hstep :=
      h.line state indent line ['\n'] (trail ++ ['\n']) _ _ hindent (by simpa using isBlank_feed)
      htrail.withFeed hrespaced hbelow
    simpa using hstep

end IgnoresLayout

/-! ## Exclusions -/

/-- A rule whose literal is not empty and holds no blank. -/
def Rule.isSolid : Rule → Bool
  | contains literal | word literal => !literal.toList.isEmpty && isBlankFree literal.toList
  | methodMarker => true

theorem isFree_of_isIndent {c : Char} (h : isIndent c = true) : isFree (some c) = true := by
  simp only [isIndent, Bool.or_eq_true, beq_iff_eq] at h
  rcases h with rfl | rfl <;> decide

theorem hasWholeWord_indent {w indent : List Char} (hne : w ≠ []) (hw : isBlankFree w = true)
    (hindent : ∀ c ∈ indent, isIndent c = true) {prev : Option Char}
    (hprev : isFree prev = true) (text : List Char) :
    hasWholeWord w 0 prev (indent ++ text) = hasWholeWord w 0 none text := by
  induction indent generalizing prev with
  | nil =>
    have hnone : isFree none = true := rfl
    cases text with
    | nil => simp only [List.nil_append, hasWholeWord, hprev, hnone]
    | cons c cs => simp only [List.nil_append, hasWholeWord, hprev, hnone]
  | cons c indent ih =>
    have hnone : w.isPrefixOf? (c :: (indent ++ text)) = none := by
      obtain ⟨d, w, rfl⟩ := List.exists_cons_of_ne_nil hne
      have hcd := bne_of_isBlank (isBlank_of_isIndent (hindent c (by simp)))
        (isBlank_of_isBlankFree hw d (by simp))
      simp [List.isPrefixOf?, Ne.symm (bne_iff_ne.mp hcd)]
    rw [List.cons_append, hasWholeWord, hnone]
    exact ih (fun d hd => hindent d (by simp [hd])) (isFree_of_isIndent (hindent c (by simp)))

theorem Rule.fires_indent {rule : Rule} (hr : rule.isSolid = true) {indent : List Char}
    (hindent : ∀ c ∈ indent, isIndent c = true) (text : List Char) :
    rule.fires (indent ++ text) = rule.fires text := by
  have hblank : ∀ c ∈ indent, isBlank c = true := fun c hc => isBlank_of_isIndent (hindent c hc)
  cases rule with
  | contains literal =>
    simp only [isSolid, Bool.and_eq_true, Bool.not_eq_true', List.isEmpty_eq_false_iff] at hr
    exact contains_blanks hr.1 hr.2 hblank text
  | word literal =>
    simp only [isSolid, Bool.and_eq_true, Bool.not_eq_true', List.isEmpty_eq_false_iff] at hr
    exact hasWholeWord_indent hr.1 hr.2 hindent rfl text
  | methodMarker =>
    show isMethodMarker (indent ++ text) = isMethodMarker text
    rw [isMethodMarker, isMethodMarker, trimStart, List.dropWhile_append_of_pos hblank]
    rfl

theorem Exclusion.admits_congr {table : List Exclusion} {a b : List Char}
    (h : ∀ e ∈ table, e.fires a = e.fires b) : admits table a = admits table b := by
  rw [Bool.eq_iff_iff, admits_iff, admits_iff]
  exact forall₂_congr fun e he => by rw [h e he]

theorem Exclusion.admits_ofFunction_indent {indent : List Char}
    (hindent : ∀ c ∈ indent, isIndent c = true) (text : List Char) :
    admits ofFunction (indent ++ text) = admits ofFunction text := by
  have hsolid : ∀ e ∈ ofFunction, e.rule.isSolid = true := by decide
  exact admits_congr fun e he => Rule.fires_indent (hsolid e he) hindent text

theorem Exclusion.admits_ofConstantLine_pad {lead line trail : List Char}
    (hlead : ∀ c ∈ lead, isBlank c = true) (htrail : ∀ c ∈ trail, isBlank c = true) :
    admits ofConstantLine (lead ++ (line ++ trail)) = admits ofConstantLine line := by
  have hliteral : ∀ e ∈ ofConstantLine, ∃ literal, e.rule = .contains literal := by
    simp [ofConstantLine]
  have hsolid : ∀ e ∈ ofConstantLine, e.rule.isSolid = true := by decide
  refine admits_congr fun e he => ?_
  obtain ⟨literal, hrule⟩ := hliteral e he
  have hr := hsolid e he
  simp only [hrule, Rule.isSolid, Bool.and_eq_true, Bool.not_eq_true',
    List.isEmpty_eq_false_iff] at hr
  simp only [fires, hrule, Rule.fires]
  rw [contains_blanks hr.1 hr.2 hlead, contains_respaced hr.1 hr.2 (.padded line htrail)]

/-! ## Constants -/

namespace Constant

theorem onLine_pad {lead line trail : List Char} (hlead : ∀ c ∈ lead, isBlank c = true)
    (htrail : ∀ c ∈ trail, isBlank c = true) :
    onLine (lead ++ (line ++ trail)) = onLine line := by
  rw [onLine, onLine, Shape.occurrences_respaced_eq shape_respects hlead (.padded line htrail)]

theorem onLines_pad (state : Span) {lead line trail : List Char}
    (hlead : ∀ c ∈ lead, isBlank c = true) (htrail : ∀ c ∈ trail, isBlank c = true)
    (below : List (List Char)) :
    onLines state ((lead ++ (line ++ trail)) :: below) = onLines state (line :: below) := by
  rw [onLines, onLines, Span.step_pad state hlead htrail, onLine_pad hlead htrail,
    Exclusion.admits_ofConstantLine_pad hlead htrail]

theorem onLines_trail (state : Span) (line : List Char) {trail : List Char}
    (htrail : ∀ c ∈ trail, isBlank c = true) (below : List (List Char)) :
    onLines state ((line ++ trail) :: below) = onLines state (line :: below) := by
  have hlead : ∀ c ∈ ([] : List Char), isBlank c = true := by simp
  exact onLines_pad state hlead htrail below

theorem onLines_congr {below below' : List (List Char)}
    (h : ∀ state, onLines state below' = onLines state below) (state : Span) (line : List Char) :
    onLines state (line :: below') = onLines state (line :: below) := by
  simp only [onLines, h]

theorem onLines_ignoresLayout : IgnoresLayout onLines where
  blank state line below hline := by
    have htrail := onLines_trail state [] hline below
    rw [List.nil_append] at htrail
    have hstep : Span.step state [] = state := rfl
    have honLine : onLine [] = [] := rfl
    rw [htrail, onLines, hstep, honLine]
    split <;> rfl
  line state indent line trail trail' below below' hindent htrail htrail' _ hbelow := by
    have hlead : ∀ c ∈ indent, isBlank c = true :=
      fun c hc => isBlank_of_isIndent (hindent c hc)
    rw [onLines_pad state hlead htrail', onLines_congr hbelow, onLines_trail state line htrail]

/-- Line ends that are dropped make no difference either. -/
theorem onLines_bare (state : Span) (lines : List (List Char)) :
    onLines state (lines.map Lines.dropEnd) = onLines state lines := by
  induction lines generalizing state with
  | nil => rfl
  | cons line lines ih =>
    obtain ⟨ending, heq, hblank⟩ := Lines.exists_dropEnd line
    have htrail := onLines_trail state (Lines.dropEnd line) hblank lines
    rw [← heq] at htrail
    rw [List.map_cons, onLines_congr ih, htrail]

theorem find_relaid (h : Relaid t t') : find t' = find t := by
  rw [find, find, Lines.bare, Lines.bare, onLines_bare, onLines_bare]
  exact onLines_ignoresLayout.kept_relaid h .outside

end Constant

/-! ## Functions -/

namespace Function

theorem opensCall_respaced (h : Respaced False t t') : opensCall t' = opensCall t := by
  have hblank : ∀ {c : Char}, isBlank c = true → (c != '^') = true :=
    fun hc => bne_of_isBlank hc (by decide)
  unfold opensCall
  rcases h.trimStart_cases with ⟨ht, ht'⟩ | ⟨c, r, r', ht, ht', _, hr⟩
  · rw [ht, ht']
  · rw [ht, ht']
    by_cases hc : c = '('
    · subst hc
      cases hr with
      | nil hb hl =>
        obtain rfl := Decidable.of_not_not hl
        rfl
      | char _ _ => rfl
      | feed hbr _ =>
        obtain ⟨d, tail, rfl, hd⟩ := hbr.exists_cons
        exact (hblank hd).trans (hblank isBlank_feed).symm
    · simp [hc]

/-- Blanks behind a text are in no name. -/
theorem name?_append_blanks (prev : Option Char) (text : List Char) {b : List Char}
    (hb : ∀ c ∈ b, isBlank c = true) :
    name? prev (text ++ b) = (name? prev text).map fun h => ⟨h.value, h.rest ++ b⟩ := by
  have hword : ∀ c, isBlank c = true → isWordChar c = false := fun c => isWordChar_of_isBlank
  cases text with
  | nil =>
    cases b with
    | nil => rfl
    | cons c b => exact name?_blank (hb c (by simp)) b
  | cons c cs =>
    have hdrop : ((c :: cs) ++ b).dropWhile isWordChar = (c :: cs).dropWhile isWordChar ++ b := by
      have hstop : b.dropWhile isWordChar = b := by
        cases b with
        | nil => rfl
        | cons d b => simp [hword d (hb d (by simp))]
      rw [List.dropWhile_append, hstop]
      split
      · rename_i hnil
        rw [List.isEmpty_iff.mp hnil, List.nil_append]
      · rfl
    have htake : ((c :: cs) ++ b).takeWhile isWordChar = (c :: cs).takeWhile isWordChar :=
      (Respaced.padded (c :: cs) hb).takeWhile_eq hword
    rw [List.cons_append] at hdrop htake ⊢
    rw [name?, name?, word?, word?, hdrop, htake]
    split
    · split <;> rfl
    · rfl

theorem onLine_blanks (below : List (List Char)) (lead : List Char) {b : List Char}
    (hb : ∀ c ∈ b, isBlank c = true) (text : List Char) :
    onLine below lead (b ++ text) = onLine below (b.reverse ++ lead) text := by
  induction b generalizing lead with
  | nil => rfl
  | cons c b ih =>
    rw [List.cons_append, onLine, name?_blank (hb c (by simp)), ih _ fun d hd =>
      hb d (by simp [hd])]
    simp

theorem onLine_line {indent trail trail' : List Char} {below below' : List (List Char)}
    (hindent : ∀ c ∈ indent, isIndent c = true) (htrail : ∀ c ∈ trail, isBlank c = true)
    (htrail' : ∀ c ∈ trail', isBlank c = true)
    (hbelow : Respaced False (trail ++ below.flatten) (trail' ++ below'.flatten))
    (lead line : List Char) :
    onLine below' (lead ++ indent.reverse) (line ++ trail') =
      onLine below lead (line ++ trail) := by
  induction line generalizing lead with
  | nil =>
    have hnil := onLine_blanks below lead htrail []
    have hnil' := onLine_blanks below' (lead ++ indent.reverse) htrail' []
    rw [List.append_nil] at hnil hnil'
    rw [List.nil_append, List.nil_append, hnil, hnil']
    rfl
  | cons c cs ih =>
    have hboundary : wordBoundary (lead ++ indent.reverse).head? = wordBoundary lead.head? := by
      cases lead with
      | cons d lead => rfl
      | nil =>
        have hspace : ∀ d ∈ indent.reverse, isBlank d = true := fun d hd =>
          isBlank_of_isIndent (hindent d (List.mem_reverse.mp hd))
        have hend : wordBoundary (indent.reverse ++ []).head? = true :=
          wordBoundary_of_isBlank hspace rfl
        rw [List.append_nil] at hend
        rw [List.nil_append, hend]
        rfl
    have hname : name? (lead ++ indent.reverse).head? (c :: cs) = name? lead.head? (c :: cs) := by
      rw [name?, name?, hboundary]
    have hcall : ∀ rest, isCall (rest ++ trail') below' = isCall (rest ++ trail) below := by
      intro rest
      rw [isCall_eq, isCall_eq, List.append_assoc, List.append_assoc]
      exact opensCall_respaced ((Respaced.refl rest).append hbelow)
    have hadmitted : ∀ w,
        isAdmitted (lead ++ indent.reverse).reverse w = isAdmitted lead.reverse w := by
      intro w
      rw [isAdmitted, isAdmitted, List.reverse_append, List.reverse_reverse,
        Exclusion.admits_ofFunction_indent hindent]
    have hfound := name?_append_blanks lead.head? (c :: cs) htrail
    have hfound' := name?_append_blanks (lead ++ indent.reverse).head? (c :: cs) htrail'
    rw [List.cons_append] at hfound hfound' ⊢
    rw [List.cons_append, onLine, onLine, hfound, hfound', hname]
    have ih := ih (c :: lead)
    rw [List.cons_append] at ih
    rw [ih]
    cases name? lead.head? (c :: cs) with
    | none => rfl
    | some h => simp only [Option.map_some, hcall, hadmitted]

theorem onLines_ignoresLayout : IgnoresLayout onLines where
  blank state line below hline := by
    have hnil := onLine_blanks below [] hline []
    rw [List.append_nil] at hnil
    rw [onLines, hnil, Span.step_blank state hline]
    simp [onLine]
  line state indent line trail trail' below below' hindent htrail htrail' hrel hbelow := by
    have hlead : ∀ c ∈ indent, isBlank c = true :=
      fun c hc => isBlank_of_isIndent (hindent c hc)
    have hline := onLine_line hindent htrail htrail' hrel [] line
    rw [List.nil_append] at hline
    rw [onLines, onLines, onLine_blanks below' [] hlead, List.append_nil, hline, hbelow,
      Span.step_trail state line htrail, Span.step_pad state hlead htrail']

theorem find_relaid (h : Relaid t t') : find t' = find t :=
  onLines_ignoresLayout.kept_relaid h .outside

end Function

/-! ## Every kind -/

theorem find_relaid (kind : Kind) (h : Relaid t t') : find kind t' = find kind t := by
  cases kind with
  | constant => exact Constant.find_relaid h
  | define =>
    show Define.find t' = Define.find t
    rw [Define.find, Define.find, h.occurrences_eq Define.shape_respects]
  | enum => exact Enumeration.find_relaid h
  | struct => exact Struct.find_relaid h
  | typedef =>
    show Typedef.find t' = Typedef.find t
    rw [Typedef.find, Typedef.find, h.occurrences_eq Typedef.shape_respects]
  | function => exact Function.find_relaid h
  | interface =>
    show Interface.find t' = Interface.find t
    rw [Interface.find, Interface.find, h.occurrences_eq Interface.shape_respects]
  | protocol =>
    show Protocol.find t' = Protocol.find t
    rw [Protocol.find, Protocol.find, h.occurrences_eq Protocol.shape_respects]

/-- **Line layout does not matter.** A text may be indented, and each of its line feeds may be
written as blanks with a line feed among them: as a carriage return and a line feed, behind
trailing blanks, with blank lines, before an indent. The names of every kind stay the same. -/
theorem extract_relaid (kind : Kind) (t t' : String) (h : Relaid t.toList t'.toList) :
    extract kind t' = extract kind t := by
  rw [extract_eq, extract_eq]
  exact find_relaid kind (Comment.dropComments_relaid h)

/-- Line ends of two kinds, blank lines, and indents before a directive and in the middle of a
prototype. -/
theorem extract_relaid_prototype :
    Relaid "#define A 1\nint b // c(\n(int);".toList
      "\t#define A 1 \r\n\n  \n  int b // c( \r\n\t\t(int);".toList ∧
    extract .function "\t#define A 1 \r\n\n  \n  int b // c( \r\n\t\t(int);" = ["b"] := by
  have hcall : Relaid "(int);".toList "\t\t(int);".toList :=
    ⟨"\t\t".toList, "(int);".toList, rfl, List.all_eq_true.mp (by decide), .refl _⟩
  have hending : IsBlankLine " \r".toList := ⟨List.all_eq_true.mp (by decide), by decide⟩
  have hname : Relaid ("int b // c(".toList ++ '\n' :: "(int);".toList)
      ("  ".toList ++ ("int b // c(".toList ++ " \r".toList) ++ '\n' :: (Lines.joined [] ++
        "\t\t(int);".toList)) :=
    .of_line (List.all_eq_true.mp (by decide)) hending (by simp) hcall
  have hblank : ∀ l ∈ [[], "  ".toList], IsBlankLine l :=
    List.forall_mem_cons.mpr ⟨isBlankLine_nil, List.forall_mem_singleton.mpr
      ⟨List.all_eq_true.mp (by decide), by decide⟩⟩
  have hdefine : Relaid ("#define A 1".toList ++ '\n' :: _)
      ("\t".toList ++ ("#define A 1".toList ++ " \r".toList) ++ '\n' ::
        (Lines.joined [[], "  ".toList] ++ _)) :=
    .of_line (List.all_eq_true.mp (by decide)) hending hblank hname
  have hrelaid : Relaid "#define A 1\nint b // c(\n(int);".toList
      "\t#define A 1 \r\n\n  \n  int b // c( \r\n\t\t(int);".toList := hdefine
  exact ⟨hrelaid, (extract_relaid .function _ _ hrelaid).trans (by decide +kernel)⟩

end HeaderIndex.Header
