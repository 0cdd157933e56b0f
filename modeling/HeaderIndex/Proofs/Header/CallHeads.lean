import HeaderIndex.Proofs.Header.Declared.Function
import HeaderIndex.Proofs.Text.Words

/-! Functions as call heads. A call head is a name directly before a parenthesis that opens
no block. A search that goes from each of them to the next, on from the end of its name,
comes upon all of them and ends (`Rounds`). Those outside at-definitions that no exclusion
rules out are what is found. -/

namespace HeaderIndex.Header.Function

open HeaderIndex.Text

/-- A name of the text, blanks, an opening parenthesis, and a character other than `^`. -/
structure IsCallHead (text : List Char) (p : Place) : Prop where
  isWordOf : p.IsWordOf text
  startsName : p.startsName = true
  opens : ∃ blanks c rest, p.behind = blanks ++ '(' :: c :: rest ∧
    (∀ b ∈ blanks, isBlank b = true) ∧ c ≠ '^'

/-- The line starts outside at-definitions, and no exclusion fires on what is before the name
on it, or on the name. -/
structure IsAdmissible (p : Place) : Prop where
  outside : (Lines.kept p.above).foldl Span.step .outside = .outside
  lead : ∀ e ∈ Exclusion.ofFunction, e.fires p.lead = false
  name : ∀ e ∈ Exclusion.ofFunction, e.fires p.word = false

/-- The rounds of a search that starts at a place: each takes the first call head from there
on, and the next starts at the end of its name. -/
inductive Rounds (text : List Char) : Nat → List Place → Prop where
  | done {start : Nat} (none : ∀ p, IsCallHead text p → p.before.length < start) :
      Rounds text start []
  | found {start : Nat} {p : Place} {later : List Place} (head : IsCallHead text p)
      (behind : start ≤ p.before.length)
      (first : ∀ q, IsCallHead text q → start ≤ q.before.length →
        p.before.length ≤ q.before.length)
      (next : Rounds text (p.before.length + p.word.length) later) : Rounds text start (p :: later)

/-! ## The search comes upon every call head -/

theorem rounds_of_enumerates {text : List Char} {start : Nat} {heads : List Place}
    (h : Enumerates heads fun p => IsCallHead text p ∧ start ≤ p.before.length) :
    Rounds text start heads := by
  induction heads generalizing start with
  | nil =>
    refine .done fun p hp => Nat.lt_of_not_le fun hle => ?_
    exact absurd ((h.mem_iff p).mpr ⟨hp, hle⟩) List.not_mem_nil
  | cons p later ih =>
    obtain ⟨hbefore, hordered⟩ := List.pairwise_cons.mp h.ordered
    obtain ⟨hp, hstart⟩ := (h.mem_iff p).mp (by simp)
    refine .found hp hstart (fun q hq hle => ?_) (ih ⟨hordered, fun q =>
      ⟨fun hq => ?_, ?_⟩⟩)
    · rcases List.mem_cons.mp ((h.mem_iff q).mpr ⟨hq, hle⟩) with rfl | hmem
      · exact Nat.le_refl _
      · exact Nat.le_of_lt (hbefore q hmem)
    · have hhead := ((h.mem_iff q).mp (List.mem_cons_of_mem p hq)).1
      exact ⟨hhead, Nat.le_of_lt (hp.isWordOf.end_lt hhead.isWordOf (hbefore q hq))⟩
    · rintro ⟨hq, hle⟩
      have hpos := List.length_pos_iff.mpr hp.isWordOf.isWord.ne_nil
      rcases List.mem_cons.mp ((h.mem_iff q).mpr ⟨hq, by omega⟩) with rfl | hmem
      · omega
      · exact hmem

/-- A search goes one way only. -/
theorem Rounds.unique {text : List Char} {start : Nat} {heads others : List Place}
    (h : Rounds text start heads) (h' : Rounds text start others) : heads = others := by
  induction h generalizing others with
  | done none =>
    cases h' with
    | done => rfl
    | found head behind => exact absurd (none _ head) (Nat.not_lt_of_le behind)
  | @found start p later head behind first _ ih =>
    cases h' with
    | done none => exact absurd (none _ head) (Nat.not_lt_of_le behind)
    | found head' behind' first' next' =>
      have hlen := Nat.le_antisymm (first _ head' behind') (first' _ head behind)
      obtain rfl := head.isWordOf.eq_of_length head'.isWordOf hlen
      rw [ih next']

/-! ## Whether a word is reported -/

def opensHead (p : Place) : Bool := p.startsName && opensCall p.behind

def admitsPlace (p : Place) : Bool :=
  (Lines.kept p.above).foldl Span.step .outside == .outside && isAdmitted p.lead p.word

theorem opensCall_iff {text : List Char} :
    opensCall text = true ↔ ∃ blanks c rest, text = blanks ++ '(' :: c :: rest ∧
      (∀ b ∈ blanks, isBlank b = true) ∧ c ≠ '^' := by
  constructor
  · intro h
    obtain ⟨blanks, hblanks, htext⟩ := trimStart_eq text
    unfold opensCall at h
    split at h
    · rename_i c rest htrim
      exact ⟨blanks, c, rest, by rw [← htrim]; exact htext, hblanks, by simpa using h⟩
    · cases h
  · rintro ⟨blanks, c, rest, rfl, hblanks, hc⟩
    have hopen : StopsRun isBlank ('(' :: c :: rest) := stopsRun_cons.mpr (by decide)
    rw [opensCall, trimStart_run hblanks hopen]
    simpa using hc

theorem isCallHead_iff {text : List Char} {p : Place} :
    IsCallHead text p ↔ p.IsWordOf text ∧ opensHead p = true := by
  rw [opensHead, Bool.and_eq_true, opensCall_iff]
  exact ⟨fun h => ⟨h.isWordOf, h.startsName, h.opens⟩, fun h => ⟨h.1, h.2.1, h.2.2⟩⟩

theorem isAdmissible_iff {p : Place} : IsAdmissible p ↔ admitsPlace p = true := by
  rw [admitsPlace, isAdmitted, Bool.and_eq_true, Bool.and_eq_true, beq_iff_eq, Exclusion.admits_iff,
    Exclusion.admits_iff]
  exact ⟨fun h => ⟨h.outside, h.lead, h.name⟩, fun h => ⟨h.1, h.2.1, h.2.2⟩⟩

def reported (places : List Place) : List String :=
  ((places.filter opensHead).filter admitsPlace).map fun p => String.ofList p.word

theorem reported_cons (p : Place) (places : List Place) :
    reported (p :: places) =
      (if opensHead p && admitsPlace p then [String.ofList p.word] else []) ++ reported places := by
  cases hhead : opensHead p <;> cases hadmits : admitsPlace p <;> simp [reported, hhead, hadmits]

/-! ## Line by line, word by word -/

/-- A word that does not start as a name is passed over, any other is read as one. -/
theorem onLine_anyWord {below : List (List Char)} {lead w rest : List Char} (hw : IsWord w)
    (hprev : wordBoundary lead.head? = true) (hend : wordBoundary rest.head? = true) :
    onLine below lead (w ++ rest) =
      (if (w.head?.any isNameStart && isCall rest below) && isAdmitted lead.reverse w
        then [String.ofList w]
        else []) ++ onLine below (w.reverse ++ lead) rest := by
  cases hstart : w.head?.any isNameStart with
  | true => rw [onLine_word ⟨hw, hstart⟩ hprev hend, Bool.true_and]
  | false =>
    obtain ⟨c, w, rfl⟩ := List.exists_cons_of_ne_nil hw.ne_nil
    have hc : isNameStart c = false := by simpa using hstart
    rw [List.cons_append, onLine_mark hc, onLine_inWord (hw.chars c (by simp)) fun d hd =>
      hw.chars d (by simp [hd])]
    simp

section Line

variable {above ending : List Char} (below : List (List Char)) (habove : Lines.Ended above)
    (hending : (ending = [] ∧ below = []) ∨ ending = ['\n'])

include hending

theorem onLine_ending (lead : List Char) : onLine below lead ending = [] := by
  rcases hending with ⟨rfl, _⟩ | rfl
  · rfl
  · rw [onLine_mark (by decide)]
    rfl

theorem wordBoundary_ending :
    wordBoundary ending.head? = true ∧ wordBoundary (ending ++ below.flatten).head? = true := by
  rcases hending with ⟨rfl, rfl⟩ | rfl
  · exact ⟨rfl, rfl⟩
  · have hfeed : wordBoundary (some '\n') = true := by decide
    exact ⟨hfeed, hfeed⟩

include habove

/-- The reported words of a line, from a place on it to its end. -/
theorem reported_line {lead line : List Char} (hlead : '\n' ∉ lead) (hline : '\n' ∉ line)
    (hplace : wordBoundary lead.getLast? = true ∨ wordBoundary line.head? = true) :
    reported (wordsFrom (above ++ lead) (line ++ (ending ++ below.flatten))) =
      (if (Lines.kept above).foldl Span.step .outside == .outside then onLine below
        lead.reverse (line ++ ending)
        else []) ++ reported (wordsFrom (above ++ (lead ++ line)) (ending ++ below.flatten)) := by
  obtain ⟨hend, hbelow⟩ := wordBoundary_ending below hending
  refine word_induct (motive := fun prev line => '\n' ∉ line → ∀ lead : List Char,
    lead.getLast? = prev → '\n' ∉ lead →
    reported (wordsFrom (above ++ lead) (line ++ (ending ++ below.flatten))) =
    (if (Lines.kept above).foldl Span.step .outside == .outside then onLine below lead.reverse
      (line ++ ending) else []) ++ reported (wordsFrom (above ++ (lead ++ line))
      (ending ++ below.flatten)))
    ?nil ?mark ?word lead.getLast? line hplace hline lead rfl hlead
  case nil =>
    intro _ _ lead _ _
    simp [onLine_ending below hending]
  case mark =>
    intro _ c cs hc ih hline lead _ hlead
    rw [List.mem_cons, not_or] at hline
    have hnext := ih hline.2 (lead ++ [c]) (by simp) (by simp [hlead, hline.1])
    rw [List.cons_append, List.cons_append, wordsFrom_mark hc,
      onLine_mark (isNameStart_of_isWordChar hc), List.append_assoc, hnext]
    simp
  case word =>
    rintro _ w rest hprev hw hrest ih hline lead rfl hlead
    rw [List.mem_append, not_or] at hline
    have hnext := ih hline.2 (lead ++ w) (List.getLast?_append_of_ne_nil lead hw.ne_nil)
      (by simp [hlead, hline.1])
    have hhead : wordBoundary lead.reverse.head? = true := by rwa [List.head?_reverse]
    rw [List.append_assoc, List.append_assoc, wordsFrom_word (wordBoundary_of_ended habove hprev) hw
      (wordBoundary_append hrest hbelow), reported_cons,
      onLine_anyWord hw hhead (wordBoundary_append hrest hend),
      opensHead, admitsPlace, Place.lead_eq habove hlead, Place.above_eq habove hlead, isCall_eq,
      List.append_assoc above,
      hnext]
    cases (Lines.kept above).foldl Span.step .outside <;> simp [Place.startsName]

end Line

/-- The search reports, of the words from the start of a line on, the admissible call heads. -/
theorem onLines_eq_reported {above : List Char} (habove : Lines.Ended above) (text : List Char) :
    onLines ((Lines.kept above).foldl Span.step .outside) (Lines.kept text) =
      reported (wordsFrom above text) := by
  induction text using mark_induct '\n' generalizing above with
  | last line hline =>
    have hfound := reported_line [] habove (.inl ⟨rfl, rfl⟩) List.not_mem_nil hline (.inl rfl)
    cases line with
    | nil => rfl
    | cons c line =>
      rw [Lines.kept_last hline (List.cons_ne_nil c line)]
      simpa [onLines, wordsFrom, reported] using hfound.symm
  | marked line below hline ih =>
    have hfound :=
      reported_line (Lines.kept below) habove (.inr rfl) List.not_mem_nil hline (.inl rfl)
    have habove' : Lines.Ended (above ++ line ++ ['\n']) := Lines.ended_concat _
    have hkept : Lines.kept (above ++ line ++ ['\n']) = Lines.kept above ++ [line ++ ['\n']] := by
      rw [List.append_assoc, Lines.kept_append habove, Lines.kept_line hline]
      rfl
    have hlater := ih habove'
    rw [hkept, List.foldl_append, List.foldl_cons, List.foldl_nil] at hlater
    rw [Lines.flatten_kept, List.singleton_append, wordsFrom_mark (by decide)] at hfound
    rw [Lines.kept_line hline, onLines, hlater]
    simpa using hfound.symm

theorem find_eq_reported (text : List Char) : find text = reported (words text) :=
  onLines_eq_reported (.inl rfl) text

/-- The search has one course, which ends and goes over every call head of the text. Reported
are those that are admissible, each once and in their order. -/
theorem find_reports_call_heads (text : List Char) :
    ∃ rounds, (∀ run, Rounds text 0 run ↔ run = rounds) ∧
      Enumerates rounds (IsCallHead text) ∧ ∃ heads, heads.Sublist rounds ∧
      Enumerates heads (fun p => IsCallHead text p ∧ IsAdmissible p) ∧
      find text = heads.map fun p => String.ofList p.word := by
  have hrounds : Enumerates ((words text).filter opensHead) (IsCallHead text) :=
    ((words_enumerate text).filter opensHead).congr fun _ => isCallHead_iff.symm
  have hheads :=
    (hrounds.filter admitsPlace).congr fun p => and_congr_right fun _ => isAdmissible_iff.symm
  have hrun : Rounds text 0 ((words text).filter opensHead) :=
    rounds_of_enumerates (hrounds.congr fun p => by simp)
  refine ⟨_, fun run => ⟨fun h => h.unique hrun, fun h => h ▸ hrun⟩, hrounds, _,
    List.filter_sublist, hheads, ?_⟩
  exact find_eq_reported text

end HeaderIndex.Header.Function
