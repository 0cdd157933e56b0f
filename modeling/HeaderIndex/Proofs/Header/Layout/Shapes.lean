import HeaderIndex.Proofs.Header.Grammar
import HeaderIndex.Proofs.Text.Spacing

/-! The shapes respect spacing. Each search reads at a place of a text what it reads at the
same place of a text that differs in its line breaks only: a name is the same name, and a
body in braces again differs in its line breaks only (`Braced.Alike`). -/

namespace HeaderIndex.Header

open HeaderIndex.Text

variable {loose : Prop} {t t' : List Char}

theorem isBlank_head_word {c : Char} {rest w more : List Char} (hw : IsWord w)
    (h : c :: rest = w ++ more) : isBlank c = false := by
  obtain ⟨d, w', rfl⟩ := List.exists_cons_of_ne_nil hw.ne_nil
  obtain ⟨rfl, _⟩ := List.cons.inj h
  have hchar := hw.chars c (by simp)
  rw [← Bool.not_eq_true]
  intro hblank
  rw [isWordChar_of_isBlank hblank] at hchar
  cases hchar

theorem isBlank_head_literal {c : Char} {rest literal more : List Char}
    (hl : isBlankFree literal = true) (hne : literal ≠ []) (h : c :: rest = literal ++ more) :
    isBlank c = false := by
  obtain ⟨d, literal, rfl⟩ := List.exists_cons_of_ne_nil hne
  rw [(List.cons.inj h).1]
  exact isBlank_of_isBlankFree hl d (by simp)

theorem rel_guard_bind {γ δ : Type} {S : γ → δ → Prop} {p p' : Bool} (hp : p' = p)
    {x : Option γ} {y : Option δ} (h : Option.Rel S x y) :
    Option.Rel S ((guard (p = true) : Option Unit).bind fun _ => x)
      ((guard (p' = true) : Option Unit).bind fun _ => y) := by
  subst hp
  cases p' with
  | true => exact h
  | false => exact .none

theorem name?_respects : name?.Respects Eq loose where
  blank _ _ _ hc := name?_blank hc _
  ends := by
    refine ⟨true, fun prev text h hh => ?_⟩
    obtain ⟨w, rest⟩ := h
    obtain ⟨_, rfl, hw, hend⟩ := name?_eq_some_iff.mp hh
    exact word?_endsIn (word?_eq_some_iff.mpr ⟨rfl, hw.toIsWord, hend⟩)
  alike _ _ _ _ hprev h := name?_respaced hprev h

/-! ## Macros, classes, protocols -/

theorem Define.shape_respects : Define.shape.Respects Eq loose where
  blank := Shape.eq_none_of_isBlank fun prev c rest h hh => by
    obtain ⟨indent, blanks, htext, _⟩ := Define.shape_eq_some_iff.mp hh
    rw [(List.cons.inj htext).1]
    decide
  ends := by
    refine ⟨true, fun prev text h hh => ?_⟩
    obtain ⟨indent, blanks, rfl, _, _, _, hw, hend⟩ := Define.shape_eq_some_iff.mp hh
    obtain ⟨c, hc, hchar⟩ := word?_endsIn (word?_eq_some_iff.mpr ⟨rfl, hw, hend⟩)
    refine ⟨c, hc.trans ?_, hchar⟩
    exact ⟨"#".toList ++ (indent ++ ("define".toList ++ blanks)), by simp⟩
  alike prev prev' t t' _ h := by
    unfold Define.shape
    simp only [Option.bind_eq_bind]
    refine rel_bind (after_respaced (by decide) h) fun r r' hr => ?_
    refine rel_bind (after_respaced (by decide) (hr.dropToFeed (by decide))) fun r r' hr => ?_
    exact afterBlanks_bind_respaced rfl (fun r r' hr => word?_respaced hr) hr

theorem Interface.shape_respects : Interface.shape.Respects Eq loose where
  blank := Shape.eq_none_of_isBlank fun prev c rest h hh => by
    obtain ⟨blanks, gap, htext, _⟩ := Interface.shape_eq_some_iff.mp hh
    rw [(List.cons.inj htext).1]
    decide
  ends := by
    refine ⟨false, fun prev text h hh => ⟨':', ?_, by decide⟩⟩
    obtain ⟨blanks, gap, rfl, _⟩ := Interface.shape_eq_some_iff.mp hh
    exact ⟨"@interface".toList ++ (blanks ++ (h.value ++ gap)), by simp⟩
  alike prev prev' t t' _ h := by
    unfold Interface.shape
    simp only [Option.bind_eq_bind, Option.pure_def]
    refine rel_bind (after_respaced (by decide) h) fun r r' hr => ?_
    refine rel_bind (word?_respaced hr.trimStart) fun w w' hw => ?_
    exact rel_bind (after_respaced (by decide) hw.rest.trimStart) fun r r' hr =>
      .some ⟨hw.value, hr⟩

/-- A break in the text is a blank at its head, and so are the blanks that stand for it. -/
theorem Protocol.continues_respaced (h : Respaced loose t t') : continues t' = continues t := by
  have hhead : t ≠ [] → t'.head?.any isBlank = t.head?.any isBlank := by
    intro hne
    cases h with
    | nil _ _ => exact absurd rfl hne
    | char _ _ => rfl
    | feed hbr _ =>
      obtain ⟨c, tail, rfl, hc⟩ := hbr.exists_cons
      simp [hc, isBlank_feed]
  unfold continues
  rcases h.trimStart_cases with ⟨ht, ht'⟩ | ⟨c, r, r', ht, ht', _, _⟩
  · rw [ht, ht']
  · have hne : t ≠ [] := by
      rintro rfl
      cases ht
    rw [ht, ht', hhead hne]

theorem Protocol.shape_respects : Protocol.shape.Respects Eq loose where
  blank := Shape.eq_none_of_isBlank fun prev c rest h hh => by
    obtain ⟨blanks, htext, _⟩ := Protocol.shape_eq_some_iff.mp hh
    rw [(List.cons.inj htext).1]
    decide
  ends := by
    refine ⟨true, fun prev text h hh => ?_⟩
    obtain ⟨blanks, rfl, _, hw, hend, _⟩ := Protocol.shape_eq_some_iff.mp hh
    obtain ⟨c, hc, hchar⟩ := word?_endsIn (word?_eq_some_iff.mpr ⟨rfl, hw, hend⟩)
    exact ⟨c, hc.trans ⟨"@protocol".toList ++ blanks, by simp⟩, hchar⟩
  alike prev prev' t t' _ h := by
    unfold Protocol.shape
    simp only [Option.bind_eq_bind, Option.pure_def]
    refine rel_bind (after_respaced (by decide) h) fun r r' hr => ?_
    refine rel_bind (word?_respaced hr.trimStart) fun w w' hw => .some ⟨?_, hw.rest⟩
    rw [hw.value, continues_respaced hw.rest]

/-! ## Constants -/

theorem Constant.shape_respects : Constant.shape.Respects Eq loose where
  blank := Shape.eq_none_of_isBlank fun prev c rest h hh => by
    obtain ⟨_, filler, htext, hw, _⟩ := Constant.shape_eq_some_iff.mp hh
    exact isBlank_head_word hw htext
  ends := by
    refine ⟨false, fun prev text h hh => ⟨';', ?_, by decide⟩⟩
    obtain ⟨_, filler, rfl, _⟩ := Constant.shape_eq_some_iff.mp hh
    exact ⟨h.value ++ filler, by simp⟩
  alike prev prev' t t' hprev h := by
    have hfiller : ∀ c, isBlank c = true → isFiller c = true := by
      intro c hc
      simp [isFiller, hc]
    unfold Constant.shape
    simp only [Option.bind_eq_bind, Option.pure_def]
    refine rel_guard_bind hprev (rel_bind (word?_respaced h) fun w w' hw => ?_)
    exact rel_bind (after_respaced (by decide) (hw.rest.dropWhile hfiller)) fun r r' hr =>
      .some ⟨hw.value, hr⟩

/-! ## Declarations with a body -/

/-- Two declarations with the same name, whose bodies differ in their line breaks only. -/
structure Braced.Alike (d d' : Braced) : Prop where
  name : d.name = d'.name
  body : Respaced False d.body d'.body

theorem Braced.body?_respaced (h : Respaced False t t') :
    Option.Rel (Hit.Alike (Respaced False) False) (body? t) (body? t') := by
  have hopen : ∀ c, isBlank c = true → (c != '\x7b' && c != ';') = true := by
    intro c hc
    rw [bne_of_isBlank hc (by decide), bne_of_isBlank hc (by decide)]
    rfl
  have hclose : ∀ c, isBlank c = true → (c != '\x7d') = true := fun c hc =>
    bne_of_isBlank hc (by decide)
  unfold body?
  rcases h.dropWhile_cases hopen with ⟨ht, ht'⟩ | ⟨c, r, r', ht, ht', hc, hr⟩
  · rw [ht, ht']
    exact .none
  rw [ht, ht']
  by_cases hbrace : c = '\x7b'
  · subst hbrace
    have hbody := hr.takeWhile hclose
    simp only
    generalize r.takeWhile (· != '\x7d') = body, r'.takeWhile (· != '\x7d') = body' at hbody ⊢
    rcases hr.dropWhile_cases hclose with ⟨hd, hd'⟩ | ⟨e, q, q', hd, hd', _, hq⟩
    · rw [hd, hd']
      cases body <;> cases body' <;> exact .none
    · rw [hd, hd']
      cases hbody with
      | nil hb hl =>
        obtain rfl := Decidable.of_not_not hl
        exact .none
      | char hc hbody => exact .some ⟨.char hc hbody, hq⟩
      | feed hbr hbody =>
        have hrel := Respaced.feed hbr hbody
        obtain ⟨e, tail, rfl, _⟩ := hbr.exists_cons
        exact .some ⟨hrel, hq⟩
  · obtain rfl : c = ';' := by simpa [hbrace] using hc
    exact .none

theorem noWord_of_isBlank (c : Char) (hc : isBlank c = true) : (!isWordChar c) = true := by
  rw [isWordChar_of_isBlank hc]
  rfl

theorem Braced.tail?_respaced (h : Respaced loose t t') :
    Option.Rel (Hit.Alike Eq loose) (tail? t) (tail? t') := by
  have hsemi : (t'.takeWhile fun c => !isWordChar c).contains ';' =
      (t.takeWhile fun c => !isWordChar c).contains ';' := by
    rw [Bool.eq_iff_iff, List.contains_iff_mem, List.contains_iff_mem]
    exact ((h.takeWhile noWord_of_isBlank).mem_iff (by decide)).symm
  unfold tail?
  dsimp only
  rw [hsemi]
  split
  · have hfirst : Option.Rel (Respaced loose) (afterFirst ';' t) (afterFirst ';' t') :=
      afterFirst_respaced (by decide) h
    generalize afterFirst ';' t = x, afterFirst ';' t' = y at hfirst
    cases hfirst with
    | some hr => exact .some ⟨rfl, hr⟩
    | none => exact .none
  · simp only [Option.bind_eq_bind, Option.pure_def]
    refine rel_bind (word?_respaced (h.dropWhile noWord_of_isBlank)) fun w w' hw => ?_
    refine rel_bind (afterLast_respaced noWord_of_isBlank (by decide) hw.rest) fun r r' hr => ?_
    exact .some ⟨congrArg some hw.value, hr⟩

theorem Braced.trailing_respects {keyword : String} (hk : isBlankFree keyword.toList = true)
    (hne : keyword.toList ≠ []) : (trailing keyword).Respects Alike False where
  blank := Shape.eq_none_of_isBlank fun prev c rest h hh => by
    obtain ⟨_, tail, behind, htext, _⟩ := trailing_eq_some_iff.mp hh
    exact isBlank_head_literal hk hne htext
  ends := by
    refine ⟨false, fun prev text h hh => ⟨';', ?_, by decide⟩⟩
    obtain ⟨_, tail, behind, rfl, _, hbody, htail, _⟩ := trailing_eq_some_iff.mp hh
    obtain ⟨gap, rfl, _⟩ := body?_eq_some_iff.mp hbody
    obtain ⟨taken, rfl, _⟩ := tail?_eq_some htail
    exact ⟨keyword.toList ++ (gap ++ '\x7b' :: (h.value.body ++ '\x7d' :: taken)), by simp⟩
  alike prev prev' t t' hprev h := by
    unfold trailing
    simp only [Option.bind_eq_bind, Option.pure_def]
    refine rel_guard_bind hprev (rel_bind (after_respaced hk h) fun r r' hr => ?_)
    refine rel_guard_bind hr.wordBoundary_head (rel_bind (body?_respaced hr) fun b b' hb => ?_)
    exact rel_bind (tail?_respaced hb.rest) fun n n' hn =>
      .some ⟨⟨hn.value, hb.value⟩, hn.rest⟩

theorem Enumeration.macroCall_respects {keyword : String} (hk : isBlankFree keyword.toList = true)
    (hne : keyword.toList ≠ []) : (macroCall keyword).Respects Braced.Alike False where
  blank := Shape.eq_none_of_isBlank fun prev c rest h hh => by
    obtain ⟨head, name, behind, r, tail, htext, _⟩ := macroCall_eq_some_iff.mp hh
    exact isBlank_head_literal hk hne htext
  ends := by
    refine ⟨false, fun prev text h hh => ⟨';', ?_, by decide⟩⟩
    obtain ⟨head, name, behind, r, tail, rfl, hargs, hbody, rfl, _⟩ :=
      macroCall_eq_some_iff.mp hh
    obtain ⟨gap, rfl, _⟩ := Braced.body?_eq_some_iff.mp hbody
    obtain ⟨lead, run, rfl, _⟩ := hargs.split
    exact ⟨keyword.toList ++ (lead ++ (name ++ (run ++ ')' :: (gap ++ '\x7b' :: (h.value.body ++
      '\x7d' :: r))))), by simp⟩
  alike prev prev' t t' _ h := by
    unfold macroCall
    simp only [Option.bind_eq_bind, Option.pure_def]
    refine rel_bind (after_respaced hk h) fun head head' hhead => ?_
    refine rel_bind (afterFirst_respaced (by decide) hhead) fun r r' hr => ?_
    refine rel_bind (word?_respaced (hr.dropWhile noWord_of_isBlank)) fun b b' hb => ?_
    refine rel_bind (afterFirst_respaced (by decide) hb.rest) fun r r' hr => ?_
    refine rel_bind (word?_respaced (hr.dropWhile noWord_of_isBlank)) fun n n' hn => ?_
    refine rel_bind (afterFirst_respaced (by decide) hn.rest) fun r r' hr => ?_
    refine rel_bind (Braced.body?_respaced hr) fun i i' hi => ?_
    refine rel_bind (afterFirst_respaced (by decide) hi.rest) fun r r' hr => ?_
    exact .some ⟨⟨congrArg some hn.value, hi.value⟩, hr⟩

theorem Struct.bitField_respects : bitField.Respects Eq loose where
  blank := Shape.eq_none_of_isBlank fun prev c rest h hh => by
    obtain ⟨_, gap, htext, hw, _⟩ := bitField_eq_some_iff.mp hh
    exact isBlank_head_word hw.toIsWord htext
  ends := by
    refine ⟨false, fun prev text h hh => ⟨':', ?_, by decide⟩⟩
    obtain ⟨_, gap, rfl, _⟩ := bitField_eq_some_iff.mp hh
    exact ⟨h.value ++ gap, by simp⟩
  alike prev prev' t t' hprev h := by
    unfold bitField
    simp only [Option.bind_eq_bind, Option.pure_def]
    refine rel_bind (name?_respaced hprev h) fun w w' hw => ?_
    exact rel_bind (after_respaced (by decide) hw.rest.trimStart) fun r r' hr =>
      .some ⟨hw.value, hr⟩

/-! ## Type aliases -/

theorem Typedef.callable?_respaced (h : Respaced loose t t') :
    Option.Rel (Hit.Alike Eq loose) (callable? t) (callable? t') := by
  have hopen : ∀ c, isBlank c = true → (c != '(' && c != ';' && c != '\x7b') = true := by
    intro c hc
    rw [bne_of_isBlank hc (by decide), bne_of_isBlank hc (by decide), bne_of_isBlank hc (by decide)]
    rfl
  have hmark : ∀ c, isBlank c = true →
      (c != '^' && c != '*' && c != ';' && c != ')') = true := by
    intro c hc
    rw [bne_of_isBlank hc (by decide), bne_of_isBlank hc (by decide), bne_of_isBlank hc (by decide),
      bne_of_isBlank hc (by decide)]
    rfl
  unfold callable?
  simp only [Option.bind_eq_bind, Option.pure_def]
  refine rel_bind (after_respaced (by decide) (h.dropWhile hopen)) fun r r' hr => ?_
  have hr := hr.dropWhile hmark
  refine rel_bind (rel_orElse (after_respaced (by decide) hr) (after_respaced (by decide) hr))
    fun r r' hr => ?_
  refine rel_bind (name?_respaced rfl hr.trimStart) fun w w' hw => ?_
  refine rel_bind (afterFirst_respaced (by decide) hw.rest) fun r r' hr => ?_
  exact .some ⟨by rw [hw.value], hr⟩

theorem Typedef.finish?_respaced (h : Respaced loose t t') :
    Option.Rel (Respaced loose) (finish? t) (finish? t') := by
  refine afterLast_respaced (fun c hc => ?_) (by decide) h
  rw [isWordChar_of_isBlank hc, bne_of_isBlank hc (by decide)]
  rfl

theorem Typedef.plain?_blank {prev c : Char} {depth : Int} (hc : isBlank c = true)
    (cs : List Char) :
    plain? prev depth (c :: cs) = if c == '\n' then none else plain? c depth cs := by
  have hne : c ≠ ';' ∧ c ≠ '\x7b' ∧ c ≠ '(' ∧ c ≠ ')' := by
    refine ⟨?_, ?_, ?_, ?_⟩ <;> (rintro rfl; exact absurd hc (by decide))
  rw [plain?, name?_blank hc]
  simp [deepen, hne]

/-- No alias is read across a line feed. -/
theorem Typedef.plain?_blanks {prev : Char} {depth : Int} {b : List Char}
    (hb : ∀ c ∈ b, isBlank c = true) :
    plain? prev depth b = none ∧ ∀ rest, plain? prev depth (b ++ '\n' :: rest) = none := by
  induction b generalizing prev with
  | nil => exact ⟨rfl, fun rest => plain?_blank isBlank_feed rest⟩
  | cons c b ih =>
    have ih := @ih c fun d hd => hb d (by simp [hd])
    refine ⟨?_, fun rest => ?_⟩
    · rw [plain?_blank (hb c (by simp)), ih.1, ite_self]
    · rw [List.cons_append, plain?_blank (hb c (by simp)), ih.2, ite_self]

theorem Typedef.plain?_respaced {prev : Char} {depth : Int} (h : Respaced loose t t') :
    Option.Rel (Hit.Alike Eq loose) (plain? prev depth t) (plain? prev depth t') := by
  induction h generalizing prev depth with
  | nil hb _ =>
    rw [(plain?_blanks hb).1]
    exact .none
  | @char c t t' hc h ih =>
    have hname : Option.Rel (Hit.Alike Eq loose) (name? (some prev) (c :: t))
        (name? (some prev) (c :: t')) :=
      name?_respaced rfl h.cons
    have hfound := rel_bind hname fun w w' hw => rel_bind (finish?_respaced hw.rest) fun r r' hr =>
      Option.Rel.some (r := Hit.Alike Eq loose) (a := (⟨⟨w.value, depth⟩, r⟩ : Hit Alias))
        (b := ⟨⟨w'.value, depth⟩, r'⟩) ⟨by rw [hw.value], hr⟩
    rw [plain?, plain?]
    simp only [Option.bind_eq_bind, Option.pure_def]
    revert hfound
    generalize Option.bind (name? (some prev) (c :: t)) _ = x,
      Option.bind (name? (some prev) (c :: t')) _ = y
    intro hfound
    cases hfound with
    | some hfound => exact .some hfound
    | none =>
      dsimp only
      split
      · exact .none
      · exact ih
  | feed hbr h _ =>
    obtain ⟨blanks, indent, rfl, hb, _⟩ := hbr
    rw [List.append_assoc, List.cons_append, (plain?_blanks hb).2, plain?_blank isBlank_feed]
    exact .none

theorem Typedef.shape_respects : Typedef.shape.Respects Eq loose where
  blank := Shape.eq_none_of_isBlank fun prev c rest h hh => by
    obtain ⟨lead, tail, taken, htext, _⟩ := Typedef.shape_eq_some hh
    rw [(List.cons.inj htext).1]
    decide
  ends := by
    refine ⟨false, fun prev text h hh => ⟨';', ?_, by decide⟩⟩
    obtain ⟨lead, tail, taken, rfl, rfl, _⟩ := Typedef.shape_eq_some hh
    exact ⟨"typedef".toList ++ (lead ++ (h.value.name ++ taken)), by simp⟩
  alike prev prev' t t' _ h := by
    unfold Typedef.shape
    simp only [Option.bind_eq_bind]
    refine rel_bind (after_respaced (by decide) h) fun r r' hr => ?_
    exact rel_orElse (callable?_respaced hr) (plain?_respaced hr)

end HeaderIndex.Header
