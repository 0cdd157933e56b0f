import HeaderIndex.Proofs.Header.Declared.Constant
import HeaderIndex.Proofs.Text.Words

/-! Constants, statement by statement. A statement of a line goes up to its semicolon. The
constant it declares is its first word with nothing but filler behind it, and that is what a
scan of the line finds (`hits_statement`). -/

namespace HeaderIndex.Header.Constant

open HeaderIndex.Text

/-- The statements of a line, each without its semicolon. What no semicolon ends is none. -/
def statements (line : List Char) : List (List Char) := (line.splitOn ';').dropLast

theorem splitOn_of_not_mem {text : List Char} (h : ';' ∉ text) : text.splitOn ';' = [text] := by
  refine List.splitOnP_eq_singleton fun c hc => ?_
  simpa using fun he : c = ';' => h (he ▸ hc)

theorem statements_last {text : List Char} (h : ';' ∉ text) : statements text = [] := by
  rw [statements, splitOn_of_not_mem h]
  rfl

theorem statements_cons {statement : List Char} (h : ';' ∉ statement) (rest : List Char) :
    statements (statement ++ ';' :: rest) = statement :: statements rest := by
  have hone : statement.splitOnP (· == ';') = [statement] := splitOn_of_not_mem h
  have hsplit : (statement ++ ';' :: rest).splitOn ';' = statement :: rest.splitOn ';' := by
    rw [List.splitOn, List.splitOnP_append_cons _ _ (by decide), hone]
    rfl
  rw [statements, hsplit, List.dropLast_cons_of_ne_nil (List.splitOn_ne_nil ';' rest)]
  rfl

/-- Whether nothing but filler is behind the word. -/
def endsStatement (p : Place) : Bool := p.behind.all isFiller

/-- The constant that a statement declares. -/
def constant? (statement : List Char) : Option (List Char) :=
  ((words statement).find? endsStatement).map Place.word

/-- A word of the statement with nothing but filler behind it, and the first one so. -/
structure IsConstantOf (statement : List Char) (p : Place) : Prop where
  isWordOf : p.IsWordOf statement
  filler : ∀ c ∈ p.behind, isFiller c = true
  leftmost : ∀ q : Place, q.IsWordOf statement → (∀ c ∈ q.behind, isFiller c = true) →
    p.before.length ≤ q.before.length

theorem constant?_eq_some_iff {statement w : List Char} :
    constant? statement = some w ↔ ∃ p, IsConstantOf statement p ∧ p.word = w := by
  have hends := (words_enumerate statement).filter endsStatement
  rw [constant?, ← List.head?_filter, Option.map_eq_some_iff]
  simp only [hends.head?_eq_some_iff, endsStatement, List.all_eq_true]
  constructor
  · rintro ⟨p, ⟨⟨hword, hfiller⟩, hfirst⟩, hw⟩
    exact ⟨p, ⟨hword, hfiller, fun q hq hqf => hfirst q ⟨hq, hqf⟩⟩, hw⟩
  · rintro ⟨p, hp, hw⟩
    exact ⟨p, ⟨⟨hp.isWordOf, hp.filler⟩, fun q hq => hp.leftmost q hq.1 hq.2⟩, hw⟩

/-- The last word that is not filler through and through is the constant, if only filler is
behind it: a word before it has that word behind it. -/
theorem constant?_last {lead w filler : List Char} (hw : IsWord w)
    (hlead : wordBoundary lead.getLast? = true) (hend : wordBoundary filler.head? = true)
    (hfiller : ∀ c ∈ filler, isFiller c = true) (hletter : ∃ c ∈ w, isFiller c = false) :
    constant? (lead ++ (w ++ filler)) = some w := by
  have hhere : Place.IsWordOf ⟨lead, w, filler⟩ (lead ++ (w ++ filler)) :=
    ⟨rfl, hw, hlead, hend⟩
  refine constant?_eq_some_iff.mpr ⟨_,
    ⟨hhere, hfiller, fun q hq hqf => Nat.le_of_not_lt fun hlt => ?_⟩, rfl⟩
  have hbefore := hq.end_lt hhere hlt
  obtain ⟨c, hc, hletter⟩ := hletter
  have hsplit : lead ++ (w ++ filler) = (q.before ++ q.word) ++ q.behind := by
    simpa using hq.text_eq
  rcases List.append_eq_append_iff.mp hsplit with ⟨gap, hgap, _⟩ | ⟨gap, _, hbehind⟩
  · have hlen := congrArg List.length hgap
    rw [List.length_append, List.length_append] at hlen
    simp only at hbefore
    omega
  · have hfill := hqf c (by simp [hbehind, hc])
    rw [hletter] at hfill
    cases hfill

/-! ## What a scan finds in a statement -/

theorem runsTo_iff {filler rest : List Char} (h : ';' ∉ filler) :
    RunsTo isFiller ';' (filler ++ ';' :: rest) ↔ filler.all isFiller = true := by
  have hstop : isFiller ';' = false := by decide
  constructor
  · rintro ⟨tail, htail⟩
    induction filler with
    | nil => rfl
    | cons c filler ih =>
      rw [List.mem_cons, not_or] at h
      rw [List.cons_append, List.dropWhile_cons] at htail
      split at htail
      · rename_i hc
        rw [List.all_cons, hc, ih h.2 htail]
        rfl
      · exact absurd (List.cons.inj htail).1.symm h.1
  · intro hfiller
    exact ⟨rest, dropWhile_run (List.all_eq_true.mp hfiller) (stopsRun_cons.mpr hstop)⟩

/-- A scan finds the constant of a statement, if any, and goes on behind the semicolon. -/
theorem hits_statement {statement : List Char} (h : ';' ∉ statement) {prev : Option Char}
    (hprev : wordBoundary prev = true) (rest : List Char) :
    shape.hits prev (statement ++ ';' :: rest) =
      (constant? statement).toList ++ shape.hits (some ';') rest := by
  have hsemicolon : isWordChar ';' = false := by decide
  refine word_induct (motive := fun prev part => ';' ∉ part → ∀ before : List Char,
    wordBoundary before.getLast? = wordBoundary prev → shape.hits prev (part ++ ';' :: rest) =
      (((wordsFrom before part).find? endsStatement).map Place.word).toList ++
      shape.hits (some ';') rest)
    ?nil ?mark ?word prev statement (.inl hprev) h [] hprev.symm
  case nil =>
    intro prev _ before _
    exact shape_readsWord.hits_mark hsemicolon prev rest
  case mark =>
    intro prev c cs hc ih hpart before _
    rw [List.mem_cons, not_or] at hpart
    rw [List.cons_append, shape_readsWord.hits_mark hc, wordsFrom_mark hc,
      ih hpart.2 (before ++ [c]) (by simp)]
  case word =>
    intro prev w filler hprev hw hfiller ih hmark before hbefore
    rw [List.mem_append, not_or] at hmark
    have hend : wordBoundary (filler ++ ';' :: rest).head? = true :=
      wordBoundary_append hfiller (by simp [wordBoundary, hsemicolon])
    rw [wordsFrom_word (hbefore.trans hprev) hw hfiller, List.find?_cons]
    cases hall : endsStatement ⟨before, w, filler⟩ with
    | true =>
      have hhit : shape prev ((w ++ (filler ++ [';'])) ++ rest) = some ⟨w, rest⟩ :=
        shape_eq_some_iff.mpr ⟨hprev, filler,
          by simp, hw, List.all_eq_true.mp hall, by simpa using hend⟩
      have hhits := Shape.hits_hit (by simp) hhit
      simpa using hhits
    | false =>
      have hmiss : ¬ RunsTo isFiller ';' (filler ++ ';' :: rest) := fun hruns => by
        rw [endsStatement, (runsTo_iff hmark.2).mp hruns] at hall
        cases hall
      have hlast : wordBoundary (before ++ w).getLast? = wordBoundary w.getLast? := by
        rw [List.getLast?_append_of_ne_nil before hw.ne_nil]
      rw [List.append_assoc, shape_readsWord.hits_word hw hend hmiss,
        ih hmark.2 (before ++ w) hlast]

theorem hits_line {prev : Option Char} (hprev : wordBoundary prev = true) (line : List Char) :
    shape.hits prev line = (statements line).filterMap constant? := by
  induction line using mark_induct ';' generalizing prev with
  | last text h =>
    rw [statements_last h, (absent_of_not_mem h prev).hits]
    rfl
  | marked statement rest h ih =>
    rw [statements_cons h, hits_statement h hprev, ih (by decide), List.filterMap_cons]
    cases constant? statement <;> rfl

theorem onLine_eq (line : List Char) :
    onLine line = (((statements line).filterMap constant?).map String.ofList).eraseDups := by
  rw [onLine, Shape.occurrences_eq_hits, hits_line rfl]

/-! ## The lines that are searched -/

/-- A line that stands outside at-definitions, where it starts and where it ends, and that no
exclusion rules out. -/
structure IsSearched (above : List (List Char)) (line : List Char) : Prop where
  before : above.foldl Span.step .outside = .outside
  behind : (above ++ [line]).foldl Span.step .outside = .outside
  admitted : ∀ e ∈ Exclusion.ofConstantLine, e.fires line = false

instance (above : List (List Char)) (line : List Char) : Decidable (IsSearched above line) :=
  decidable_of_iff (above.foldl Span.step .outside = .outside ∧
    (above ++ [line]).foldl Span.step .outside = .outside ∧ ∀ e ∈ Exclusion.ofConstantLine,
    e.fires line = false)
    ⟨fun h => ⟨h.1, h.2.1, h.2.2⟩, fun h => ⟨h.before, h.behind, h.admitted⟩⟩

/-- Each line with those above it. -/
def withAbove (lines : List (List Char)) : List (List (List Char) × List Char) :=
  lines.inits.zip lines

theorem withAbove_cons (line : List Char) (below : List (List Char)) :
    withAbove (line :: below) = ([], line) :: (withAbove below).map fun l =>
      (line :: l.1, l.2) := by
  rw [withAbove, List.inits_cons, List.zip_cons_cons, List.zip_map_left]
  rfl

def searched (lines : List (List Char)) : List (List Char) :=
  ((withAbove lines).filter fun l => IsSearched l.1 l.2).map Prod.snd

theorem isSearched_iff {above : List (List Char)} {line : List Char} : IsSearched above line ↔
      (above.foldl Span.step .outside == .outside && Span.step (above.foldl Span.step .outside)
        line == .outside && Exclusion.admits Exclusion.ofConstantLine line) = true := by
  have hbehind : (above ++ [line]).foldl Span.step .outside =
      Span.step (above.foldl Span.step .outside) line :=
    List.foldl_concat _ _ _ _
  rw [Bool.and_eq_true, Bool.and_eq_true, beq_iff_eq, beq_iff_eq, Exclusion.admits_iff, ← hbehind]
  exact ⟨fun hs => ⟨⟨hs.before, hs.behind⟩, hs.admitted⟩, fun hs =>
    ⟨hs.1.1, hs.1.2, hs.2⟩⟩

/-- A search carries along the state that the lines above lead to. -/
theorem onLines_eq (above lines : List (List Char)) :
    onLines (above.foldl Span.step .outside) lines = ((withAbove lines).filter fun l =>
      IsSearched (above ++ l.1) l.2).flatMap fun l => onLine l.2 := by
  induction lines generalizing above with
  | nil => rfl
  | cons line below ih =>
    have hnext := ih (above ++ [line])
    rw [List.foldl_append, List.foldl_cons, List.foldl_nil] at hnext
    have hbelow : ((withAbove below).map fun l => (line :: l.1, l.2)).filter (fun l =>
      IsSearched (above ++ l.1) l.2) =
        ((withAbove below).filter fun l => IsSearched (above ++ [line] ++ l.1) l.2).map fun l =>
          (line :: l.1, l.2) := by
      rw [List.filter_map]
      simp [Function.comp_def]
    rw [withAbove_cons, List.filter_cons, hbelow, onLines, hnext]
    simp only [List.append_nil, isSearched_iff, decide_eq_true_eq]
    split
    · rw [List.flatMap_cons, List.flatMap_map]
    · rw [List.flatMap_map]

/-- Of each statement of a searched line the constant is found, each once on its line. It is
the first word of the statement with nothing but filler behind it. -/
theorem find_by_statement (text : List Char) :
    (find text = (searched (Lines.bare text)).flatMap fun line =>
      (((statements line).filterMap constant?).map String.ofList).eraseDups) ∧
    ∀ statement w, constant? statement = some w ↔ ∃ p, IsConstantOf statement p ∧ p.word = w := by
  refine ⟨?_, fun _ _ => constant?_eq_some_iff⟩
  have hlines := onLines_eq [] (Lines.bare text)
  simp only [onLine_eq] at hlines
  rw [searched, List.flatMap_map]
  exact hlines

end HeaderIndex.Header.Constant
