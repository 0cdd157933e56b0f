import HeaderIndex.Proofs.Header.Grammar
import HeaderIndex.Proofs.Header.Scrub
import HeaderIndex.Proofs.Text.Lines

/-! No search invents a name. A name is read off a text that was rewritten once, for
its comments, or twice, for the directives of a body; no rewriting splices two words
(`Seamed`), and no search stops inside one. So every name found stands in the
header as it was written, outside its comments (`extract_traceable`). -/

namespace HeaderIndex.Header

open HeaderIndex.Text

/-! ## Standing in a text -/

/-- The word `w` stands in a text behind `prev` and no word character runs on from it;
if `whole`, none runs into it either. -/
def StandsIn (whole : Prop) (prev : Option Char) (text w : List Char) : Prop :=
  ∃ lead tail, text = lead ++ (w ++ tail) ∧ wordBoundary tail.head? = true ∧
    (whole → wordBoundary (lead.getLast?.or prev) = true)

variable {whole : Prop} {prev : Option Char} {text a b w : List Char}

theorem StandsIn.behind (h : StandsIn whole (a.getLast?.or prev) b w) :
    StandsIn whole prev (a ++ b) w := by
  obtain ⟨lead, tail, rfl, hend, hstart⟩ := h
  refine ⟨a ++ lead, tail, by simp, hend, ?_⟩
  rw [Shape.last_append]
  exact hstart

theorem StandsIn.before (h : StandsIn whole prev a w) (hb : wordBoundary b.head? = true) :
    StandsIn whole prev (a ++ b) w := by
  obtain ⟨lead, tail, rfl, hend, hstart⟩ := h
  refine ⟨lead, tail ++ b, by simp, ?_, hstart⟩
  cases tail with
  | nil => exact hb
  | cons c tail => exact hend

theorem StandsIn.of_boundary {p q : Option Char} (h : StandsIn whole p text w)
    (hpq : wordBoundary p = true → wordBoundary q = true) : StandsIn whole q text w := by
  obtain ⟨lead, tail, rfl, hend, hstart⟩ := h
  refine ⟨lead, tail, rfl, hend, fun hwhole => ?_⟩
  have hp := hstart hwhole
  cases hlast : lead.getLast? with
  | none =>
    rw [hlast] at hp
    exact hpq hp
  | some c =>
    rw [hlast] at hp
    exact hp

/-- A word that stands in the replaced text stands in the text, if nothing was spliced. -/
theorem StandsIn.of_replaced {α : Type} {s : Shape α} {f : α → List Char} (hs : s.Seamed f)
    (hw : IsWord w) (h : StandsIn whole prev (s.replaced f prev text) w) :
    StandsIn whole prev text w := by
  obtain ⟨lead, tail, htext, hend, hstart⟩ := h
  obtain ⟨_, pre, post, htext, _, hpost, hpre⟩ := hs.replaced_split hw.ne_nil
    (fun c hc => Shape.isFirm_of_isWordChar (hw.chars c hc)) htext
  exact ⟨pre, post, htext, hpost hend, fun hwhole => hpre (hstart hwhole)⟩

/-- A word of a line stands in the text the line is of. -/
theorem StandsIn.of_kept {line : List Char} (hline : line ∈ Lines.kept text) (hw : IsWord w)
    (h : StandsIn whole none line w) : StandsIn whole none text w := by
  obtain ⟨above, below, rfl, habove, hbelow⟩ := Lines.split_of_mem_kept hline
  have hstart : StandsIn whole (above.getLast?.or none) line w := by
    refine h.of_boundary fun _ => ?_
    rcases habove with rfl | hfeed
    · rfl
    · rw [hfeed]
      decide
  apply StandsIn.behind
  rcases hbelow with rfl | hfeed
  · exact hstart.before rfl
  · -- the word is not the end of its line, for that is the line feed
    obtain ⟨lead, tail, rfl, hend, hlead⟩ := hstart
    refine ⟨lead, tail ++ below, by simp, ?_, hlead⟩
    cases tail with
    | cons c tail => exact hend
    | nil =>
      rw [List.append_nil, List.getLast?_append_of_ne_nil _ hw.ne_nil] at hfeed
      exact absurd (hw.chars _ (List.mem_of_getLast? hfeed)) (by decide)

theorem StandsIn.of_bare {line : List Char} (hline : line ∈ Lines.bare text) (hw : IsWord w)
    (h : StandsIn whole none line w) : StandsIn whole none text w := by
  obtain ⟨full, hfull, rfl⟩ := List.mem_map.mp hline
  obtain ⟨ending, heq, hending⟩ := Lines.dropEnd_eq full
  refine StandsIn.of_kept hfull hw ?_
  rw [heq]
  apply h.before
  rcases hending with rfl | rfl | rfl <;> decide

/-! ## What each search finds -/

/-- The word `w` was read off the text as `StandsIn` says. -/
structure ReadOff (whole : Prop) (text w : List Char) : Prop where
  isWord : IsWord w
  standsIn : StandsIn whole none text w

theorem ReadOff.of_occurrence {α : Type} {s : Shape α} (hs : s.Consumes) {v : α}
    (hv : v ∈ s.occurrences text)
    (h : ∀ prev here rest, s prev here = some ⟨v, rest⟩ → IsWord w ∧
      StandsIn whole prev here w) : ReadOff whole text w := by
  obtain ⟨lead, here, rest, rfl, hhit⟩ := Shape.mem_occurrences hs hv
  obtain ⟨hw, hstands⟩ := h _ _ _ hhit
  refine ⟨hw, StandsIn.behind ?_⟩
  rwa [Option.or_none]

theorem ReadOff.of_replaced {α : Type} {s : Shape α} {f : α → List Char} (hs : s.Seamed f)
    (h : ReadOff whole (s.replaced f none text) w) : ReadOff whole text w :=
  ⟨h.isWord, h.standsIn.of_replaced hs h.isWord⟩

theorem Define.find_readOff {name : String} (h : name ∈ Define.find text) :
    ReadOff True text name.toList := by
  rw [Define.find, List.mem_eraseDups] at h
  obtain ⟨w, hw, rfl⟩ := List.mem_map.mp h
  rw [String.toList_ofList]
  refine .of_occurrence Define.shape_consumes hw fun prev here rest hhit => ?_
  obtain ⟨indent, blanks, rfl, _, hne, hb, hword, hend⟩ := Define.shape_eq_some_iff.mp hhit
  refine ⟨hword, "#".toList ++ (indent ++ "define".toList) ++ blanks, rest,
    by simp, hend, fun _ => ?_⟩
  rw [Shape.last_append]
  exact wordBoundary_last (fun c hc => isWordChar_of_isBlank (hb c hc)) (.inl hne)

theorem Interface.find_readOff {name : String} (h : name ∈ Interface.find text) :
    ReadOff False text name.toList := by
  rw [Interface.find, List.mem_eraseDups] at h
  obtain ⟨w, hw, rfl⟩ := List.mem_map.mp h
  rw [String.toList_ofList]
  refine .of_occurrence Interface.shape_consumes hw fun prev here rest hhit => ?_
  obtain ⟨blanks, gap, rfl, _, hword, hg⟩ := Interface.shape_eq_some_iff.mp hhit
  exact ⟨hword, "@interface".toList ++ blanks, gap ++ (":".toList ++ rest), by simp,
    wordBoundary_of_isBlank hg rfl, False.elim⟩

theorem Protocol.find_readOff {name : String} (h : name ∈ Protocol.find text) :
    ReadOff False text name.toList := by
  rw [Protocol.find, List.mem_eraseDups] at h
  obtain ⟨⟨w, defines⟩, hw, rfl⟩ := List.mem_map.mp h
  rw [String.toList_ofList]
  refine .of_occurrence Protocol.shape_consumes (List.mem_of_mem_filter hw)
    fun prev here rest hhit => ?_
  obtain ⟨blanks, rfl, _, hword, hend, _⟩ := Protocol.shape_eq_some_iff.mp hhit
  exact ⟨hword, "@protocol".toList ++ blanks, rest, by simp, hend, False.elim⟩

theorem Constant.onLines_readOff {name : String} {state : Span} {lines : List (List Char)}
    (h : name ∈ Constant.onLines state lines) :
    ∃ line ∈ lines, ReadOff True line name.toList := by
  induction lines generalizing state with
  | nil => cases h
  | cons line rest ih =>
    have hbelow : ∀ {next}, name ∈ Constant.onLines next rest →
        ∃ l ∈ line :: rest, ReadOff True l name.toList := by
      intro next hnext
      obtain ⟨l, hl, hread⟩ := ih hnext
      exact ⟨l, .tail _ hl, hread⟩
    simp only [Constant.onLines] at h
    split at h
    · rcases List.mem_append.mp h with h | h
      · rw [Constant.onLine, List.mem_eraseDups] at h
        obtain ⟨w, hw, rfl⟩ := List.mem_map.mp h
        rw [String.toList_ofList]
        refine ⟨line, .head _, .of_occurrence Constant.shape_consumes hw
          fun prev here r hhit => ?_⟩
        obtain ⟨hprev, filler, rfl, hword, _, hend⟩ := Constant.shape_eq_some_iff.mp hhit
        exact ⟨hword, [], filler ++ (";".toList ++ r), rfl, hend, fun _ => hprev⟩
      · exact hbelow h
    · exact hbelow h

theorem Constant.find_readOff {name : String} (h : name ∈ Constant.find text) :
    ReadOff True text name.toList := by
  obtain ⟨line, hline, hread⟩ := Constant.onLines_readOff h
  exact ⟨hread.isWord, hread.standsIn.of_bare hline hread.isWord⟩

theorem Typedef.find_readOff {name : String} (h : name ∈ Typedef.find text) :
    ReadOff True text name.toList ∧ IsName name.toList := by
  obtain ⟨a, ha, rfl⟩ := List.mem_map.mp h
  have hocc := List.mem_of_mem_filter ha
  rw [String.toList_ofList]
  have hname : IsName a.name := by
    obtain ⟨_, _, _, _, hhit⟩ := Shape.mem_occurrences Typedef.shape_consumes hocc
    obtain ⟨_, _, _, _, _, hname, _⟩ := Typedef.shape_eq_some hhit
    exact hname
  refine ⟨.of_occurrence Typedef.shape_consumes hocc fun prev here rest hhit => ?_, hname⟩
  obtain ⟨lead, tail, _, rfl, _, _, hend, hlead⟩ := Typedef.shape_eq_some hhit
  refine ⟨hname.toIsWord, "typedef".toList ++ lead, tail, by simp, hend, fun _ => ?_⟩
  rw [Shape.last_append]
  exact hlead

/-! ## Bodies -/

/-- The places between braces are places of the text. -/
theorem StandsIn.of_body {lead body tail : List Char} (h : StandsIn True none body w) :
    StandsIn True prev (lead ++ '\x7b' :: (body ++ '\x7d' :: tail)) w := by
  apply StandsIn.behind
  refine StandsIn.behind (a := ['\x7b']) ?_
  exact StandsIn.before (h.of_boundary fun _ => rfl) rfl

/-- What a search reads off a body without its directives, it reads off the body. -/
theorem readOff_of_dropDirectives {s : Shape (List Char)} (hs : s.Consumes)
    (hread : ∀ prev here w rest, s prev here = some ⟨w, rest⟩ →
      IsName w ∧ StandsIn True prev here w)
    {body : List Char} {name : String}
    (h : name ∈ (s.occurrences (dropDirectives body)).map String.ofList) :
    ReadOff True body name.toList ∧ IsName name.toList := by
  obtain ⟨w, hw, rfl⟩ := List.mem_map.mp h
  rw [String.toList_ofList]
  have hname : IsName w := by
    obtain ⟨_, here, rest, _, hhit⟩ := Shape.mem_occurrences hs hw
    exact (hread _ here w rest hhit).1
  rw [dropDirectives, Shape.replace_eq_replaced] at hw
  have hscrubbed := ReadOff.of_occurrence hs hw fun prev here rest hhit =>
    ⟨hname.toIsWord, (hread prev here w rest hhit).2⟩
  exact ⟨hscrubbed.of_replaced directive_seamed, hname⟩

theorem Braced.names_readOff {body : List Char} {name : String} (h : name ∈ Braced.names body) :
    ReadOff True body name.toList ∧ IsName name.toList := by
  refine readOff_of_dropDirectives name?_consumes (fun prev here w rest hhit => ?_) h
  obtain ⟨hprev, rfl, hw, hend⟩ := name?_eq_some_iff.mp hhit
  exact ⟨hw, [], rest, rfl, hend, fun _ => hprev⟩

theorem Struct.members_readOff {body : List Char} {name : String}
    (h : name ∈ Struct.members body) : ReadOff True body name.toList ∧ IsName name.toList := by
  refine readOff_of_dropDirectives Struct.bitField_consumes (fun prev here w rest hhit => ?_) h
  obtain ⟨hprev, gap, rfl, hw, hg⟩ := Struct.bitField_eq_some_iff.mp hhit
  exact ⟨hw, [], gap ++ (":".toList ++ rest), rfl,
    wordBoundary_of_isBlank hg rfl, fun _ => hprev⟩

/-- A declaration with a body, as it stands where it was found: its name, and its body
between braces. -/
structure Braced.Holds (d : Braced) (prev : Option Char) (text : List Char) : Prop where
  body : ∃ lead tail, text = lead ++ '\x7b' :: (d.body ++ '\x7d' :: tail)
  name : ∀ w, d.name = some w → IsWord w ∧ StandsIn True prev text w

theorem Braced.trailing_holds {keyword : String} {rest : List Char} {d : Braced}
    (h : Braced.trailing keyword prev text = some ⟨d, rest⟩) : d.Holds prev text := by
  obtain ⟨_, tail, behind, rfl, _, hbody, htail, _⟩ := Braced.trailing_eq_some_iff.mp h
  obtain ⟨gap, rfl, _⟩ := Braced.body?_eq_some_iff.mp hbody
  obtain ⟨_, _, hname⟩ := Braced.tail?_eq_some htail
  refine ⟨⟨keyword.toList ++ gap, behind, by simp⟩, fun w hw => ?_⟩
  obtain ⟨run, tail, rfl, hrun, hword, hend⟩ := hname w hw
  refine ⟨hword, keyword.toList ++ gap ++ '\x7b' :: d.body ++ '\x7d' :: run, tail, by simp, hend,
    fun _ => ?_⟩
  rw [Shape.last_append]
  refine wordBoundary_last (fun c hc => ?_) (.inl (by simp))
  rcases List.mem_cons.mp hc with rfl | hc
  · decide
  · simpa using hrun c hc

theorem Enumeration.macroCall_holds {keyword : String} {rest : List Char} {d : Braced}
    (h : Enumeration.macroCall keyword prev text = some ⟨d, rest⟩) : d.Holds prev text := by
  obtain ⟨head, name, behind, r, tail, rfl, hargs, hbody, _, _, hname, _⟩ :=
    Enumeration.macroCall_eq_some_iff.mp h
  obtain ⟨gap, rfl, _⟩ := Braced.body?_eq_some_iff.mp hbody
  obtain ⟨lead, run, rfl, hword, hend, hlead⟩ := hargs.split
  refine ⟨⟨keyword.toList ++ (lead ++ (name ++ (run ++ ')' :: gap))), tail, by simp⟩, ?_⟩
  intro w hw
  obtain rfl : name = w := Option.some.inj (hname.symm.trans hw)
  refine ⟨hword, keyword.toList ++ lead, run ++ ')' :: _, by simp, hend, fun _ => ?_⟩
  rw [Shape.last_append]
  exact hlead _

theorem Enumeration.Form.shape_consumes (form : Enumeration.Form) : form.shape.Consumes := by
  cases form
  · exact Enumeration.macroCall_consumes "NS_ENUM"
  · exact Enumeration.macroCall_consumes "NS_OPTIONS"
  · exact Braced.trailing_consumes "enum"

theorem Enumeration.Form.shape_holds {form : Enumeration.Form} {rest : List Char} {d : Braced}
    (h : form.shape prev text = some ⟨d, rest⟩) : d.Holds prev text := by
  cases form
  · exact Enumeration.macroCall_holds h
  · exact Enumeration.macroCall_holds h
  · exact Braced.trailing_holds h

theorem Braced.readOff_of_body {s : Shape Braced} (hs : s.Consumes)
    (hholds : ∀ prev here d rest, s prev here = some ⟨d, rest⟩ → d.Holds prev here)
    {d : Braced} (hd : d ∈ s.occurrences text) (h : ReadOff True d.body w) :
    ReadOff True text w := by
  refine .of_occurrence hs hd fun prev here rest hhit => ?_
  obtain ⟨lead, tail, rfl⟩ := (hholds prev here d rest hhit).body
  exact ⟨h.isWord, h.standsIn.of_body⟩

theorem Braced.readOff_of_symbols {s : Shape Braced} (hs : s.Consumes)
    (hholds : ∀ prev here d rest, s prev here = some ⟨d, rest⟩ → d.Holds prev here)
    {inner : List Char → List String}
    (hinner : ∀ body name, name ∈ inner body → ReadOff True body name.toList)
    {name : String} (h : name ∈ (s.occurrences text).flatMap fun d =>
      (d.name.map String.ofList).toList ++ inner d.body) : ReadOff True text name.toList := by
  obtain ⟨d, hd, hname⟩ := List.mem_flatMap.mp h
  rcases List.mem_append.mp hname with hname | hname
  · obtain ⟨w, hw, rfl⟩ := Option.map_eq_some_iff.mp (Option.mem_toList.mp hname)
    rw [String.toList_ofList]
    exact .of_occurrence hs hd fun prev here rest hhit => (hholds prev here d rest hhit).name w hw
  · exact Braced.readOff_of_body hs hholds hd (hinner d.body name hname)

theorem Enumeration.find_readOff {name : String} (h : name ∈ Enumeration.find text) :
    ReadOff True text name.toList := by
  obtain ⟨form, _, hform⟩ := List.mem_flatMap.mp h
  exact Braced.readOff_of_symbols form.shape_consumes (fun _ _ _ _ => Form.shape_holds)
    (fun _ _ hmem => (Braced.names_readOff hmem).1) hform

theorem Struct.find_readOff {name : String} (h : name ∈ Struct.find text) :
    ReadOff True text name.toList :=
  Braced.readOff_of_symbols (Braced.trailing_consumes "struct") (fun _ _ _ _ =>
    Braced.trailing_holds)
    (fun _ _ hmem => (Struct.members_readOff hmem).1) h

/-! ## Functions -/

theorem Function.onLine_standsIn {below : List (List Char)} {lead line : List Char} {name : String}
    (h : name ∈ Function.onLine below lead line) :
    IsName name.toList ∧ StandsIn True lead.head? line name.toList := by
  induction line generalizing lead with
  | nil => cases h
  | cons c cs ih =>
    have hfurther : name ∈ Function.onLine below (c :: lead) cs →
        IsName name.toList ∧ StandsIn True lead.head? (c :: cs) name.toList := by
      intro hrest
      obtain ⟨hname, hstands⟩ := ih hrest
      exact ⟨hname, StandsIn.behind (a := [c]) hstands⟩
    simp only [Function.onLine] at h
    split at h
    · rename_i found hfound
      split at h
      · rcases List.mem_cons.mp h with rfl | h
        · obtain ⟨hprev, htext, hname, hend⟩ := name?_eq_some_iff.mp hfound
          rw [String.toList_ofList]
          exact ⟨hname, [], found.rest, htext, hend, fun _ => hprev⟩
        · exact hfurther h
      · exact hfurther h
    · exact hfurther h

theorem Function.onLines_standsIn {state : Span} {lines : List (List Char)} {name : String}
    (h : name ∈ Function.onLines state lines) :
    IsName name.toList ∧ ∃ line ∈ lines, StandsIn True none line name.toList := by
  induction lines generalizing state with
  | nil => cases h
  | cons line rest ih =>
    rw [Function.onLines, List.mem_append] at h
    rcases h with h | h
    · split at h
      · obtain ⟨hname, hstands⟩ := Function.onLine_standsIn h
        exact ⟨hname, line, .head _, hstands⟩
      · cases h
    · obtain ⟨hname, l, hl, hstands⟩ := ih h
      exact ⟨hname, l, .tail _ hl, hstands⟩

theorem Function.find_readOff {name : String} (h : name ∈ Function.find text) :
    ReadOff True text name.toList ∧ IsName name.toList := by
  obtain ⟨hname, line, hline, hstands⟩ := Function.onLines_standsIn h
  exact ⟨⟨hname.toIsWord, hstands.of_kept hline hname.toIsWord⟩, hname⟩

/-! ## Back to the header -/

theorem ReadOff.of_whole (h : ReadOff True text w) : ReadOff whole text w := by
  obtain ⟨lead, tail, htext, hend, hstart⟩ := h.standsIn
  exact ⟨h.isWord, lead, tail, htext, hend, fun _ => hstart trivial⟩

theorem ReadOff.of_part (hwhole : ¬whole) (h : ReadOff False text w) : ReadOff whole text w := by
  obtain ⟨lead, tail, htext, hend, _⟩ := h.standsIn
  exact ⟨h.isWord, lead, tail, htext, hend, fun hw => absurd hw hwhole⟩

/-- The name of a class or a protocol may run on from its keyword; all others are whole words. -/
theorem find_readOff {kind : Kind} {name : String} (h : name ∈ find kind text) :
    ReadOff (kind ≠ .interface ∧ kind ≠ .protocol) text name.toList := by
  cases kind with
  | constant => exact (Constant.find_readOff h).of_whole
  | define => exact (Define.find_readOff h).of_whole
  | enum => exact (Enumeration.find_readOff h).of_whole
  | struct => exact (Struct.find_readOff h).of_whole
  | typedef => exact (Typedef.find_readOff h).1.of_whole
  | function => exact (Function.find_readOff h).1.of_whole
  | interface => exact (Interface.find_readOff h).of_part (by simp)
  | protocol => exact (Protocol.find_readOff h).of_part (by simp)

/-- What was written: each comment, and each character outside of them. -/
def Comment.written (pieces : List (Piece Comment)) : List Char :=
  pieces.flatMap (Piece.render Comment.source)

theorem Comment.written_append (ps qs : List (Piece Comment)) :
    Comment.written (ps ++ qs) = Comment.written ps ++ Comment.written qs :=
  List.flatMap_append

theorem Comment.written_plain (w : List Char) : Comment.written (w.map .plain) = w := by
  induction w with
  | nil => rfl
  | cons c w ih => exact congrArg (c :: ·) ih

theorem Comment.written_scan (prev : Option Char) (text : List Char) :
    Comment.written (Comment.shape.scan 0 prev text) = text := by
  induction prev, text using Shape.scan_induct Comment.shape_consumes with
  | nil prev => rfl
  | hit prev taken v rest htaken hv ih =>
    obtain ⟨hsource, _⟩ := Comment.shape_eq_some_iff.mp hv
    rw [Shape.scan_hit htaken hv, hsource]
    exact congrArg (v.source ++ ·) ih
  | plain prev c cs hnone ih =>
    rw [Shape.scan_plain hnone]
    exact congrArg (c :: ·) ih

/-- The word `w` is written in a header, wholly outside its comments: cut into comments and
single characters, the header has the characters of `w` among its pieces. No word character
runs on from it there, and if `whole`, none runs into it. -/
def Traceable (whole : Prop) (text w : List Char) : Prop :=
  IsWord w ∧ ∃ before behind, Comment.shape.pieces text = before ++ (w.map .plain ++ behind) ∧
    text = Comment.written before ++ (w ++ Comment.written behind) ∧
    wordBoundary (Comment.written behind).head? = true ∧
    (whole → wordBoundary (Comment.written before).getLast? = true)

theorem ReadOff.traceable (h : ReadOff whole (dropComments text) w) : Traceable whole text w := by
  obtain ⟨lead, tail, htext, hend, hstart⟩ := h.standsIn
  rw [← Comment.replaced_eq_dropComments none] at htext
  obtain ⟨before, pre, post, hsplit, hscan, hpost, hpre⟩ :=
    Comment.shape_seamed.replaced_split h.isWord.ne_nil
      (fun c hc => Shape.isFirm_of_isWordChar (h.isWord.chars c hc)) htext
  have hwritten := Comment.written_scan none text
  rw [hscan, Comment.written_append, Comment.written_append, Comment.written_plain,
    Comment.written_scan] at hwritten
  obtain rfl : Comment.written before = pre := List.append_cancel_right (hwritten.trans hsplit)
  refine ⟨h.isWord, before, _, hscan, ?_, ?_, fun hwhole => ?_⟩
  · rw [Comment.written_scan]
    exact hsplit
  · rw [Comment.written_scan]
    exact hpost hend
  · have hboundary := hpre (hstart hwhole)
    rwa [Option.or_none] at hboundary

/-- No search invents a name: every name it gives is written in the header outside the
comments, as a word that ends there. But for classes and protocols it is a whole word;
type aliases, functions, enumerators and bit fields start as an identifier does. -/
theorem extract_traceable (text : String) :
    (∀ kind, ∀ name ∈ extract kind text,
      Traceable (kind ≠ .interface ∧ kind ≠ .protocol) text.toList name.toList) ∧
    (∀ kind, kind = .typedef ∨ kind = .function → ∀ name ∈ extract kind text,
      IsName name.toList) ∧
    (∀ form : Enumeration.Form, ∀ d ∈ form.shape.occurrences (dropComments text.toList),
      ∀ name ∈ Braced.names d.body,
        Traceable True text.toList name.toList ∧ IsName name.toList) ∧
    (∀ d ∈ (Braced.trailing "struct").occurrences (dropComments text.toList),
      ∀ name ∈ Struct.members d.body,
        Traceable True text.toList name.toList ∧ IsName name.toList) := by
  refine ⟨fun kind name h => ?_, fun kind hkind name h => ?_, fun form d hd name h => ?_,
    fun d hd name h => ?_⟩
  · rw [extract_eq] at h
    exact (find_readOff h).traceable
  · rw [extract_eq] at h
    rcases hkind with rfl | rfl
    · exact (Typedef.find_readOff h).2
    · exact (Function.find_readOff h).2
  · obtain ⟨hread, hname⟩ := Braced.names_readOff h
    exact ⟨(Braced.readOff_of_body form.shape_consumes
      (fun _ _ _ _ => Enumeration.Form.shape_holds) hd hread).traceable, hname⟩
  · obtain ⟨hread, hname⟩ := Struct.members_readOff h
    exact ⟨(Braced.readOff_of_body (Braced.trailing_consumes "struct")
      (fun _ _ _ _ => Braced.trailing_holds) hd hread).traceable, hname⟩

/-- A comment inside an enumerator parts it in two, and each part is a name. -/
theorem extract_traceable_parted :
    extract .enum "enum \x7b A/* B */C \x7d D;" = ["D", "A", "C"] ∧
      ∀ name ∈ ["D", "A", "C"],
        Traceable True "enum \x7b A/* B */C \x7d D;".toList name.toList := by
  have hnames : extract .enum "enum \x7b A/* B */C \x7d D;" = ["D", "A", "C"] := by decide +kernel
  refine ⟨hnames, fun name hname => ?_⟩
  have htraced := (extract_traceable "enum \x7b A/* B */C \x7d D;").1 .enum name (hnames ▸ hname)
  obtain ⟨hword, before, behind, hpieces, htext, hend, hstart⟩ := htraced
  exact ⟨hword, before, behind, hpieces, htext, hend, fun _ => hstart (by simp)⟩

end HeaderIndex.Header
