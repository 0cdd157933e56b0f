import HeaderIndex.Text.Reading
import Mathlib.Data.List.Infix

/-! What each reading step takes off a text. Every step is described by the split
it makes: the text is what was read followed by what is left, and what is left
says where the reading stopped. -/

namespace HeaderIndex.Text

/-! ## Runs of one class of characters -/

section Runs

variable {α : Type}

/-- The text does not go on with a character of the class. -/
def StopsRun (p : α → Bool) (rest : List α) : Prop := ∀ c, rest.head? = some c → p c = false

theorem stopsRun_nil (p : α → Bool) : StopsRun p [] := by intro c h; cases h

theorem stopsRun_cons {p : α → Bool} {c : α} {rest : List α} :
    StopsRun p (c :: rest) ↔ p c = false :=
  ⟨fun h => h c rfl, fun h d hd => by cases hd; exact h⟩

theorem takeWhile_run {p : α → Bool} {run rest : List α} (hrun : ∀ c ∈ run, p c = true)
    (hrest : StopsRun p rest) : (run ++ rest).takeWhile p = run := by
  rw [List.takeWhile_append_of_pos hrun]
  cases rest with
  | nil => simp
  | cons c rest => simp [stopsRun_cons.mp hrest]

theorem dropWhile_run {p : α → Bool} {run rest : List α} (hrun : ∀ c ∈ run, p c = true)
    (hrest : StopsRun p rest) : (run ++ rest).dropWhile p = rest := by
  rw [List.dropWhile_append_of_pos hrun]
  cases rest with
  | nil => rfl
  | cons c rest => simp [stopsRun_cons.mp hrest]

theorem of_mem_takeWhile {p : Char → Bool} {text : List Char} {c : Char}
    (h : c ∈ text.takeWhile p) : p c = true :=
  List.all_eq_true.mp List.all_takeWhile c h

theorem stopsRun_dropWhile (p : α → Bool) (text : List α) :
    StopsRun p (text.dropWhile p) := by
  intro c h
  have hd := List.head?_dropWhile_not p text
  rw [h] at hd
  simpa using hd

end Runs

/-- What is left behind a line is nothing, or its line feed and the lines below. -/
theorem dropWhile_line (text : List Char) :
    text.dropWhile (· != '\n') = [] ∨ ∃ below,
      text.dropWhile (· != '\n') = '\n' :: below := by
  cases h : text.dropWhile (· != '\n') with
  | nil => exact .inl rfl
  | cons c below =>
    have hc := stopsRun_dropWhile (· != '\n') text c (by rw [h]; rfl)
    exact .inr ⟨below, by simpa using hc⟩

/-! ## Literals and marks -/

theorem after_eq_some_iff {literal : String} {text rest : List Char} :
    after literal text = some rest ↔ text = literal.toList ++ rest := by
  rw [after, List.isPrefixOf?_eq_some_iff_append_eq, eq_comm]

theorem after_append (literal : String) (rest : List Char) :
    after literal (literal.toList ++ rest) = some rest :=
  after_eq_some_iff.mpr rfl

theorem run_of_not_mem {mark : Char} {run : List Char} (h : mark ∉ run) :
    ∀ c ∈ run, (c != mark) = true := by
  intro c hc
  simpa using fun he : c = mark => h (he ▸ hc)

theorem afterFirst_eq_some_iff {mark : Char} {text rest : List Char} :
    afterFirst mark text = some rest ↔ ∃ run, mark ∉ run ∧ text = run ++ mark :: rest := by
  constructor
  · intro h
    unfold afterFirst at h
    split at h
    · cases h
    · rename_i c tail hd
      cases h
      have hc : c = mark := by
        simpa using stopsRun_dropWhile (· != mark) text c (by rw [hd]; rfl)
      refine ⟨text.takeWhile (· != mark), ?_, ?_⟩
      · intro hm
        simpa using of_mem_takeWhile hm
      · rw [hc] at hd
        rw [← hd, List.takeWhile_append_dropWhile]
  · rintro ⟨run, hm, rfl⟩
    rw [afterFirst, dropWhile_run (run_of_not_mem hm) (stopsRun_cons.mpr (by simp))]

theorem afterFirst_run {mark : Char} {run rest : List Char} (h : mark ∉ run) :
    afterFirst mark (run ++ mark :: rest) = some rest :=
  afterFirst_eq_some_iff.mpr ⟨run, h, rfl⟩

theorem before_append (lead rest : List Char) : before rest (lead ++ rest) = lead := by
  rw [before, List.length_append, Nat.add_sub_cancel, List.take_left']
  rfl

theorem afterLast_eq_none {inRun : Char → Bool} {mark : Char} {text : List Char}
    (h : mark ∉ text.takeWhile inRun) : afterLast inRun mark text = none := by
  induction text with
  | nil => rfl
  | cons c text ih =>
    rw [afterLast]
    split
    · rename_i hc
      simp only [List.takeWhile_cons, hc, if_true, List.mem_cons, not_or] at h
      have hne : ¬ c = mark := fun he => h.1 he.symm
      simp [ih h.2, hne]
    · rfl

theorem afterLast_eq_some {inRun : Char → Bool} {mark : Char} {text rest : List Char}
    (h : afterLast inRun mark text = some rest) : ∃ run, text = run ++ mark :: rest := by
  induction text with
  | nil => cases h
  | cons c text ih =>
    rw [afterLast] at h
    split at h
    · split at h
      · rename_i tail ht
        cases h
        obtain ⟨run, rfl⟩ := ih ht
        exact ⟨c :: run, rfl⟩
      · split at h
        · rename_i hc
          cases h
          exact ⟨[], by simpa using hc⟩
        · cases h
    · cases h

/-- The last mark of a run, when no further one follows in it. -/
theorem afterLast_run {inRun : Char → Bool} {mark : Char} {run rest : List Char}
    (hrun : ∀ c ∈ run, inRun c = true) (hmark : inRun mark = true)
    (h : mark ∉ rest.takeWhile inRun) :
    afterLast inRun mark (run ++ mark :: rest) = some rest := by
  induction run with
  | nil => simp [afterLast, hmark, afterLast_eq_none h]
  | cons c run ih =>
    have ht := ih fun d hd => hrun d (by simp [hd])
    simp [afterLast, hrun c (by simp), ht]

/-! ## Cutting a text at marks -/

section Cutting

variable {α : Type}

/-- A text has no character of a class, or goes up to its first one and on behind it. -/
theorem stop_induct (p : α → Bool) {motive : List α → Prop}
    (last : ∀ text, (∀ c ∈ text, p c = false) → motive text)
    (stopped : ∀ part c rest, (∀ d ∈ part, p d = false) → p c = true → motive rest →
      motive (part ++ c :: rest))
    (text : List α) : motive text := by
  induction hn : text.length using Nat.strongRecOn generalizing text with
  | ind n ih =>
    have hpart : ∀ c ∈ text.takeWhile (!p ·), p c = false := fun c hc => by
      simpa using List.all_eq_true.mp (List.all_takeWhile (p := (!p ·))) c hc
    have hstop := stopsRun_dropWhile (!p ·) text
    have hsplit := List.takeWhile_append_dropWhile (p := (!p ·)) (l := text)
    generalize text.takeWhile (!p ·) = part, text.dropWhile (!p ·) = rest at hpart hstop hsplit
    subst hsplit
    cases rest with
    | nil =>
      rw [List.append_nil]
      exact last part hpart
    | cons c rest =>
      have hc : p c = true := by simpa using stopsRun_cons.mp hstop
      rw [List.length_append, List.length_cons] at hn
      exact stopped part c rest hpart hc (ih rest.length (by omega) rest rfl)

/-- A text has no mark, or goes up to its first one and on behind it. -/
theorem mark_induct [DecidableEq α] (mark : α) {motive : List α → Prop}
    (last : ∀ text, mark ∉ text → motive text)
    (marked : ∀ part rest, mark ∉ part → motive rest → motive (part ++ mark :: rest))
    (text : List α) : motive text := by
  have hmark : ∀ part : List α, (∀ c ∈ part, (c == mark) = false) → mark ∉ part :=
    fun part h hm => by simpa using h mark hm
  refine stop_induct (· == mark) (fun text h => last text (hmark text h))
    (fun part c rest h hc ih => ?_) text
  obtain rfl := eq_of_beq hc
  exact marked part rest (hmark part h) ih

variable [DecidableEq α] {mark c : α} {text piece : List α}

theorem length_splitOn (mark : α) (text : List α) :
    (text.splitOn mark).length = text.count mark + 1 := by
  induction text using mark_induct mark with
  | last text h =>
    rw [List.splitOn_eq_singleton h, List.count_eq_zero.mpr h, List.length_singleton]
  | marked part rest h ih =>
    rw [List.splitOn_append_cons_self_of_not_mem h, List.length_cons, ih, List.count_append,
      List.count_eq_zero.mpr h, List.count_cons_self, Nat.zero_add]

theorem not_mem_of_mem_splitOn (h : piece ∈ text.splitOn mark) : mark ∉ piece := by
  induction text using mark_induct mark with
  | last text hmark =>
    rw [List.splitOn_eq_singleton hmark] at h
    rwa [List.mem_singleton.mp h]
  | marked part rest hmark ih =>
    rw [List.splitOn_append_cons_self_of_not_mem hmark] at h
    rcases List.mem_cons.mp h with rfl | h
    · exact hmark
    · exact ih h

theorem mem_of_mem_splitOn (h : piece ∈ text.splitOn mark) (hc : c ∈ piece) : c ∈ text := by
  induction text using mark_induct mark with
  | last text hmark =>
    rw [List.splitOn_eq_singleton hmark] at h
    rwa [← List.mem_singleton.mp h]
  | marked part rest hmark ih =>
    rw [List.splitOn_append_cons_self_of_not_mem hmark] at h
    rcases List.mem_cons.mp h with rfl | h
    · exact List.mem_append_left _ hc
    · exact List.mem_append_right _ (List.mem_cons_of_mem _ (ih h))

end Cutting

theorem contains_iff {literal text : List Char} :
    contains literal text = true ↔ literal <:+: text := by
  induction text with
  | nil => simp [contains]
  | cons c cs ih =>
    rw [contains, Bool.or_eq_true, ih, List.isPrefixOf_iff_prefix, List.infix_cons_iff]

/-! ## Blanks -/

theorem blankRanges_apart {n : Nat} (h : blankRanges.covers n = true) :
    wordRanges.covers n = false := by
  obtain ⟨r, hr, hlo, hhi⟩ := (Ranges.covers_iff _ _).mp h
  have hsmall : n ∈ [0x85, 0xa0, 0x1680, 0x2000, 0x2001, 0x2002, 0x2003, 0x2004, 0x2005, 0x2006,
      0x2007, 0x2008, 0x2009, 0x200a, 0x2028, 0x2029, 0x202f, 0x205f, 0x3000] := by
    simp only [blankRanges, List.mem_cons, List.not_mem_nil, or_false] at hr ⊢
    rcases hr with rfl | rfl | rfl | rfl | rfl | rfl | rfl | rfl <;> simp only at hlo hhi <;> omega
  have hnone : ∀ m ∈ [0x85, 0xa0, 0x1680, 0x2000, 0x2001, 0x2002, 0x2003, 0x2004, 0x2005,
    0x2006, 0x2007, 0x2008, 0x2009, 0x200a, 0x2028, 0x2029, 0x202f, 0x205f, 0x3000],
      wordRanges.covers m = false := by decide +kernel
  exact hnone n hsmall

theorem toNat_le_of_isAlpha {c : Char} (h : c.isAlpha = true) : c.toNat ≤ 122 := by
  rcases Bool.or_eq_true_iff.mp h with hupper | hlower
  · have hrange : c.val ≥ 'A'.val ∧ c.val ≤ 'Z'.val := of_decide_eq_true hupper
    exact Nat.le_trans hrange.2 (by decide)
  · exact of_decide_eq_true (Bool.and_eq_true_iff.mp hlower).2

theorem toNat_le_of_isDigit {c : Char} (h : c.isDigit = true) : c.toNat ≤ 57 :=
  of_decide_eq_true (Bool.and_eq_true_iff.mp h).2

theorem toNat_lt_of_isAscii {c : Char} (h : isAsciiWordChar c = true) : c.toNat < 0x80 := by
  rcases Bool.or_eq_true_iff.mp h with halphanum | hunderscore
  · rcases Bool.or_eq_true_iff.mp halphanum with halpha | hdigit
    · exact Nat.lt_of_le_of_lt (toNat_le_of_isAlpha halpha) (by decide)
    · exact Nat.lt_of_le_of_lt (toNat_le_of_isDigit hdigit) (by decide)
  · rw [beq_iff_eq.mp hunderscore]
    decide

theorem isWordChar_of_isAscii {c : Char} (h : isAsciiWordChar c = true) : isWordChar c = true := by
  rw [isWordChar, if_pos (toNat_lt_of_isAscii h), h]

theorem isAsciiWordChar_of_isNameStart {c : Char} (h : isNameStart c = true) :
    isAsciiWordChar c = true := by
  simp only [isNameStart, Bool.or_eq_true] at h
  rcases h with h | h <;> simp [isAsciiWordChar, Char.isAlphanum, h]

theorem isWordChar_of_isBlank {c : Char} (h : isBlank c = true) : isWordChar c = false := by
  unfold isBlank at h
  unfold isWordChar
  split at h
  · rename_i hlt
    rw [if_pos hlt]
    simp only [Bool.or_eq_true, beq_iff_eq, Bool.and_eq_true, decide_eq_true_eq] at h
    rcases h with rfl | ⟨hlo, hhi⟩
    · decide
    · have hcontrol : ∀ n < 14, isAsciiWordChar (Char.ofNat n) = false := by decide
      have hc := hcontrol c.toNat (Nat.lt_succ_of_le hhi)
      rwa [Char.ofNat_toNat] at hc
  · rename_i hge
    rw [if_neg hge]
    exact blankRanges_apart h

@[simp] theorem isBlank_space : isBlank ' ' = true := by decide

@[simp] theorem isWordChar_space : isWordChar ' ' = false := isWordChar_of_isBlank isBlank_space

theorem afterBlanks_eq_some {text rest : List Char} (h : afterBlanks text = some rest) :
    ∃ blanks, blanks ≠ [] ∧ (∀ c ∈ blanks, isBlank c = true) ∧
      text = blanks ++ rest := by
  unfold afterBlanks at h
  split at h
  · cases h
  · rename_i c cs
    split at h
    · rename_i hc
      cases h
      refine ⟨c :: cs.takeWhile isBlank, by simp, ?_, ?_⟩
      · intro d hd
        rcases List.mem_cons.mp hd with rfl | hd
        · exact hc
        · exact of_mem_takeWhile hd
      · simp [trimStart]
    · cases h

theorem afterBlanks_run {blanks rest : List Char} (hne : blanks ≠ [])
    (hb : ∀ c ∈ blanks, isBlank c = true) (hrest : StopsRun isBlank rest) :
    afterBlanks (blanks ++ rest) = some rest := by
  obtain ⟨c, blanks, rfl⟩ := List.exists_cons_of_ne_nil hne
  simp only [List.mem_cons, forall_eq_or_imp] at hb
  simp only [List.cons_append, afterBlanks, hb.1, if_true, trimStart, dropWhile_run hb.2 hrest]

theorem trimStart_eq (text : List Char) :
    ∃ blanks, (∀ c ∈ blanks, isBlank c = true) ∧ text = blanks ++ trimStart text :=
  ⟨text.takeWhile isBlank, fun _ h => of_mem_takeWhile h, by simp [trimStart]⟩

theorem trimStart_run {blanks rest : List Char} (hb : ∀ c ∈ blanks, isBlank c = true)
    (hrest : StopsRun isBlank rest) : trimStart (blanks ++ rest) = rest :=
  dropWhile_run hb hrest

theorem trimStart_append (a b : List Char) :
    trimStart (a ++ b) = if (trimStart a).isEmpty then trimStart b else trimStart a ++ b :=
  List.dropWhile_append

theorem head?_trimStart_append {a : List Char} {c : Char} (h : (trimStart a).head? = some c)
    (b : List Char) : (trimStart (a ++ b)).head? = some c := by
  obtain ⟨tail, htail⟩ := List.head?_eq_some_iff.mp h
  rw [trimStart_append, htail]
  rfl

/-! ## Words and names -/

structure IsWord (w : List Char) : Prop where
  ne_nil : w ≠ []
  chars : ∀ c ∈ w, isWordChar c = true

structure IsName (w : List Char) : Prop extends IsWord w where
  start : w.head?.any isNameStart = true

instance (w : List Char) : Decidable (IsWord w) :=
  decidable_of_iff (w ≠ [] ∧ w.all isWordChar = true)
    ⟨fun h => ⟨h.1, List.all_eq_true.mp h.2⟩, fun h => ⟨h.ne_nil,
      List.all_eq_true.mpr h.chars⟩⟩

instance (w : List Char) : Decidable (IsName w) :=
  decidable_of_iff (IsWord w ∧ w.head?.any isNameStart = true)
    ⟨fun h => ⟨h.1, h.2⟩, fun h => ⟨h.toIsWord, h.start⟩⟩

/-- A word stops every run of characters that are no word characters. -/
theorem IsWord.stopsRun {w : List Char} (hw : IsWord w) {p : Char → Bool}
    (hp : ∀ c, p c = true → isWordChar c = false) (rest : List Char) :
    StopsRun p (w ++ rest) := by
  obtain ⟨c, w, rfl⟩ := List.exists_cons_of_ne_nil hw.ne_nil
  refine stopsRun_cons.mpr ?_
  cases hc : p c with
  | false => rfl
  | true => exact absurd (hw.chars c (by simp)) (by simp [hp c hc])

theorem IsWord.stopsBlanks {w : List Char} (hw : IsWord w) (rest : List Char) :
    StopsRun isBlank (w ++ rest) :=
  hw.stopsRun (fun _ => isWordChar_of_isBlank) rest

theorem IsWord.stopsNoWord {w : List Char} (hw : IsWord w) (rest : List Char) :
    StopsRun (fun c => !isWordChar c) (w ++ rest) :=
  hw.stopsRun (fun _ h => by simpa using h) rest

theorem wordBoundary_iff {side : Option Char} :
    wordBoundary side = true ↔ ∀ c, side = some c → isWordChar c = false := by
  cases side <;> simp [wordBoundary]

theorem stopsRun_isWordChar {rest : List Char} :
    StopsRun isWordChar rest ↔ wordBoundary rest.head? = true := wordBoundary_iff.symm

/-- Behind a run without word characters stands a word boundary, if the run is not empty
or there was one before it. -/
theorem wordBoundary_last {run : List Char} (hrun : ∀ c ∈ run, isWordChar c = false)
    {prev : Option Char} (h : run ≠ [] ∨ wordBoundary prev = true) :
    wordBoundary (run.getLast?.or prev) = true := by
  cases hl : run.getLast? with
  | none =>
    have hnil := List.getLast?_eq_none_iff.mp hl
    simpa [hnil] using h
  | some c => simp [wordBoundary, hrun c (List.mem_of_getLast? hl)]

theorem wordBoundary_of_isBlank {blanks rest : List Char} (hb : ∀ c ∈ blanks, isBlank c = true)
    (hrest : wordBoundary rest.head? = true) : wordBoundary (blanks ++ rest).head? = true := by
  cases blanks with
  | nil => exact hrest
  | cons c blanks => simp [wordBoundary, isWordChar_of_isBlank (hb c (by simp))]

/-- A run of one class has no part that none of the class runs into or on from, but for the
whole of it. -/
theorem eq_of_whole {p : Char → Bool} {w lead part more rest : List Char}
    (hw : ∀ c ∈ w, p c = true) (h : w = lead ++ (part ++ more)) {prev : Option Char}
    (hstart : (lead.getLast?.or prev).any p = false) (hend : (more ++ rest).head?.any p = false) :
    w = part := by
  have hlead : lead = [] := by
    refine List.getLast?_eq_none_iff.mp ?_
    cases hl : lead.getLast? with
    | none => rfl
    | some c =>
      have hc := hw c (by simp [h, List.mem_of_getLast? hl])
      rw [hl] at hstart
      simp [hc] at hstart
  have hmore : more = [] := by
    cases more with
    | nil => rfl
    | cons c more =>
      have hc := hw c (by simp [h])
      simp [hc] at hend
  rw [h, hlead, hmore, List.nil_append, List.append_nil]

/-- What does not end in a class of characters starts no run of the class. -/
theorem not_prefix_of_stop {p : Char → Bool} {part run : List Char}
    (hrun : ∀ c ∈ run, p c = true) (hne : part ≠ []) (hlast : part.getLast?.any p = false) :
    ¬ part <+: run := by
  intro h
  obtain ⟨c, hc⟩ := Option.isSome_iff_exists.mp (List.getLast?_isSome.mpr hne)
  have hin := hrun c (h.subset (List.mem_of_getLast? hc))
  rw [hc, Option.any_some, hin] at hlast
  cases hlast

/-- A word of a text that ends without word characters stands before that end. -/
theorem IsWord.before_marks {w lead rest text marks : List Char} (hw : IsWord w)
    (hmarks : ∀ c ∈ marks, isWordChar c = false) (h : text ++ marks = lead ++ (w ++ rest)) :
    ∃ gap, rest = gap ++ marks ∧ text = lead ++ (w ++ gap) := by
  rw [← List.append_assoc] at h
  rcases List.append_eq_append_iff.mp h with ⟨more, hlead, hmore⟩ | ⟨gap, htext, hrest⟩
  · cases more using List.reverseRecOn with
    | nil => exact ⟨[], by simpa using hmore.symm, by simpa using hlead.symm⟩
    | append_singleton more c =>
      -- the last character of the word would be one of the marks
      have hlast : w.getLast? = some c := by
        rw [← List.getLast?_append_of_ne_nil lead hw.ne_nil, hlead]
        simp
      have hc := hw.chars c (List.mem_of_getLast? hlast)
      rw [hmarks c (by simp [hmore])] at hc
      cases hc
  · exact ⟨gap, hrest, by simp [htext]⟩

theorem word?_eq_some_iff {text w rest : List Char} : word? text = some ⟨w, rest⟩ ↔
      text = w ++ rest ∧ IsWord w ∧ wordBoundary rest.head? = true := by
  constructor
  · intro h
    unfold word? at h
    split at h
    · cases h
    · rename_i hne
      obtain ⟨rfl, rfl⟩ : text.takeWhile isWordChar = w ∧
          text.dropWhile isWordChar = rest := by
        simpa using h
      refine ⟨by simp, ⟨hne, fun c hc => of_mem_takeWhile hc⟩, ?_⟩
      exact stopsRun_isWordChar.mp (stopsRun_dropWhile _ _)
  · rintro ⟨rfl, hw, hrest⟩
    have hstop := stopsRun_isWordChar.mpr hrest
    unfold word?
    rw [takeWhile_run hw.chars hstop, dropWhile_run hw.chars hstop]
    split
    · exact absurd rfl hw.ne_nil
    · rfl

/-- The word at the start of a text is unique. -/
theorem IsWord.append_inj {v w a b : List Char} (hv : IsWord v) (hw : IsWord w)
    (ha : wordBoundary a.head? = true) (hb : wordBoundary b.head? = true) (h : v ++ a = w ++ b) :
    v = w ∧ a = b := by
  have hword := word?_eq_some_iff.mpr ⟨rfl, hv, ha⟩
  rw [h, word?_eq_some_iff.mpr ⟨rfl, hw, hb⟩] at hword
  obtain ⟨rfl, rfl⟩ := Hit.mk.inj (Option.some.inj hword)
  exact ⟨rfl, rfl⟩

/-- The next word of a text, behind whatever is no word character. -/
theorem word?_dropWhile_eq_some_iff {text w rest : List Char} :
    word? (text.dropWhile fun c => !isWordChar c) = some ⟨w, rest⟩ ↔ ∃ run,
      text = run ++ (w ++ rest) ∧ (∀ c ∈ run, (!isWordChar c) = true) ∧ IsWord w ∧
      wordBoundary rest.head? = true := by
  rw [word?_eq_some_iff]
  constructor
  · rintro ⟨hdrop, hw, hend⟩
    refine ⟨text.takeWhile fun c => !isWordChar c, ?_, fun c hc =>
      of_mem_takeWhile hc, hw, hend⟩
    rw [← hdrop, List.takeWhile_append_dropWhile]
  · rintro ⟨run, rfl, hrun, hw, hend⟩
    exact ⟨dropWhile_run hrun (hw.stopsNoWord rest), hw, hend⟩

theorem name?_eq_some_iff {prev : Option Char} {text w rest : List Char} :
    name? prev text = some ⟨w, rest⟩ ↔ wordBoundary prev = true ∧ text = w ++ rest ∧
      IsName w ∧ wordBoundary rest.head? = true := by
  cases text with
  | nil =>
    simp only [name?, reduceCtorEq, false_iff, not_and]
    intro _ hnil hw
    exact absurd (List.append_eq_nil_iff.mp hnil.symm).1 hw.ne_nil
  | cons c cs =>
    simp only [name?]
    constructor
    · intro h
      split at h
      · rename_i hstart
        obtain ⟨hprev, hc⟩ := Bool.and_eq_true_iff.mp hstart
        obtain ⟨htext, hw, hrest⟩ := word?_eq_some_iff.mp h
        refine ⟨hprev, htext, ⟨hw, ?_⟩, hrest⟩
        obtain ⟨d, w, rfl⟩ := List.exists_cons_of_ne_nil hw.ne_nil
        obtain ⟨rfl, _⟩ := List.cons.inj htext
        simpa using hc
      · cases h
    · rintro ⟨hprev, htext, hw, hrest⟩
      obtain ⟨d, w, rfl⟩ := List.exists_cons_of_ne_nil hw.ne_nil
      obtain ⟨rfl, _⟩ := List.cons.inj htext
      have hc : isNameStart c = true := by simpa using hw.start
      rw [if_pos (by simp [hprev, hc]), htext]
      exact word?_eq_some_iff.mpr ⟨rfl, hw.toIsWord, hrest⟩

end HeaderIndex.Text
