import HeaderIndex.Proofs.Header.AtDefinition
import HeaderIndex.Proofs.Header.CallHeads
import HeaderIndex.Proofs.Text.Utf8

/-! Lines inside at-definitions, told by where they start. The search for constants goes over
lines without their ends and carries the state along. The search for functions goes from one
call head to the next and asks which byte its line starts at, so it takes the lines with
their ends to count the bytes. The ends are nothing that the state depends on, so
both take the same lines to be inside (`linesInside_exact`). -/

namespace HeaderIndex.Text

/-! ## Bytes -/

def byteLength (text : List Char) : Nat := (Utf8.encode text).length

theorem byteLength_append (a b : List Char) :
    byteLength (a ++ b) = byteLength a + byteLength b := by
  rw [byteLength, Utf8.encode, List.flatMap_append, List.length_append]
  rfl

theorem eq_nil_of_byteLength {text : List Char} (h : byteLength text = 0) : text = [] := by
  cases text with
  | nil => rfl
  | cons c text =>
    obtain ⟨first, more, hown, _⟩ := (Utf8.spelled_encodeChar c).shape
    rw [byteLength, Utf8.encode_cons, hown] at h
    cases h

/-- A place in a text is told by how many bytes are before it. -/
theorem eq_of_byteLength {a b c d : List Char} (htext : a ++ b = c ++ d)
    (h : byteLength a = byteLength c) : a = c := by
  rcases List.append_eq_append_iff.mp htext with ⟨more, rfl, _⟩ | ⟨more, rfl, _⟩
  · rw [byteLength_append] at h
    rw [eq_nil_of_byteLength (by omega : byteLength more = 0), List.append_nil]
  · rw [byteLength_append] at h
    rw [eq_nil_of_byteLength (by omega : byteLength more = 0), List.append_nil]

namespace Lines

/-! ## Where lines start -/

/-- A line starts behind `place`, and `n` lines are above it. -/
structure StartsAt (text : List Char) (n : Nat) (place : List Char) : Prop where
  split : ∃ below, below ≠ [] ∧ text = place ++ below
  ended : Ended place
  count : place.count '\n' = n

theorem ended_line_append_iff {line below : List Char} :
    Ended (line ++ '\n' :: below) ↔ Ended below := by
  cases below with
  | nil => exact ⟨fun _ => .inl rfl, fun _ => ended_concat line⟩
  | cons c below => simp [Ended, List.getLast?_append, List.getLast?_cons]

theorem length_kept {text : List Char} (h : Ended text) : (kept text).length = text.count '\n' := by
  induction text using mark_induct '\n' with
  | last line hline =>
    rcases h with rfl | hlast
    · rfl
    · exact absurd (List.mem_of_getLast? hlast) hline
  | marked line below hline ih =>
    rw [kept_line hline, List.length_cons, ih (ended_line_append_iff.mp h), List.count_append,
      List.count_cons_self, List.count_eq_zero.mpr hline, Nat.zero_add]

theorem startsAt_take {text : List Char} {n : Nat} (h : n < (kept text).length) :
    StartsAt text n ((kept text).take n).flatten := by
  induction text using mark_induct '\n' generalizing n with
  | last line hline =>
    cases line with
    | nil => cases h
    | cons c line =>
      rw [kept_last hline (List.cons_ne_nil c line)] at h ⊢
      obtain rfl : n = 0 := Nat.lt_one_iff.mp h
      exact ⟨⟨_, List.cons_ne_nil c line, rfl⟩, .inl rfl, rfl⟩
  | marked line below hline ih =>
    rw [kept_line hline] at h ⊢
    cases n with
    | zero => exact ⟨⟨_, by simp, rfl⟩, .inl rfl, rfl⟩
    | succ n =>
      obtain ⟨⟨rest, hne, hsplit⟩, hended, hcount⟩ := ih (Nat.lt_of_succ_lt_succ h)
      rw [List.take_succ_cons, List.flatten_cons, List.append_assoc, List.singleton_append]
      refine ⟨⟨rest, hne, ?_⟩, ended_line_append_iff.mpr hended, ?_⟩
      · rw [List.append_assoc, List.cons_append, ← hsplit]
      · rw [List.count_append, List.count_cons_self, List.count_eq_zero.mpr hline,
          hcount, Nat.zero_add]

theorem StartsAt.eq_take {text place : List Char} {n : Nat} (h : StartsAt text n place) :
    n < (kept text).length ∧ (kept text).take n = kept place := by
  obtain ⟨⟨below, hne, rfl⟩, hended, hcount⟩ := h
  have hlength : (kept place).length = n := (length_kept hended).trans hcount
  have hbelow : kept below ≠ [] := by
    intro hnil
    rw [← flatten_kept below, hnil] at hne
    exact hne rfl
  rw [kept_append hended]
  refine ⟨?_, List.take_left' hlength⟩
  rw [List.length_append, hlength]
  exact Nat.lt_add_of_pos_right (List.length_pos_of_ne_nil hbelow)

end Lines

/-- Behind the lines above a word its own line starts. -/
theorem Place.IsWordOf.startsAt {p : Place} {text : List Char} (h : p.IsWordOf text) :
    Lines.StartsAt text (p.above.count '\n') p.above := by
  have hbefore : p.above ++ p.lead = p.before := by
    rw [Place.above, Place.lead, ← List.reverse_append, List.takeWhile_append_dropWhile,
      List.reverse_reverse]
  refine ⟨⟨p.lead ++ (p.word ++ p.behind), by simp [h.isWord.ne_nil], ?_⟩, ?_, rfl⟩
  · rw [← List.append_assoc, hbefore, h.text_eq]
  · rw [Lines.Ended, Place.above, List.getLast?_reverse, List.reverse_eq_nil_iff]
    cases hdrop : p.before.reverse.dropWhile (· != '\n') with
    | nil => exact .inl rfl
    | cons c rest =>
      have hc := stopsRun_dropWhile (· != '\n') p.before.reverse c (by rw [hdrop]; rfl)
      exact .inr (by simpa using hc)

end HeaderIndex.Text

namespace HeaderIndex.Header

open HeaderIndex.Text

/-! ## Lines that start inside -/

namespace Function

/-- The bytes where lines start that are inside, the first line being at byte `start`. -/
def insideStarts : Span → Nat → List (List Char) → List Nat
  | _, _, [] => []
  | state, start, line :: rest =>
    (if state == .inside then [start] else []) ++ insideStarts (state.step line)
      (start + byteLength line) rest

/-- The bytes of a text at which a line starts inside an at-definition. -/
def linesInside (text : List Char) : List Nat := insideStarts .outside 0 (Lines.kept text)

theorem mem_insideStarts_iff {state : Span} {start offset : Nat} {lines : List (List Char)} :
    offset ∈ insideStarts state start lines ↔ ∃ n, n < lines.length ∧
      (lines.take n).foldl Span.step state = .inside ∧
      offset = start + byteLength (lines.take n).flatten := by
  induction lines generalizing state start with
  | nil => simp [insideStarts]
  | cons line rest ih =>
    rw [insideStarts, List.mem_append, ih]
    constructor
    · intro h
      rcases h with hhere | ⟨n, hn, hstate, hoffset⟩
      · cases state with
        | outside => cases hhere
        | inside => exact ⟨0, Nat.succ_pos _, rfl, List.mem_singleton.mp hhere⟩
      · refine ⟨n + 1, Nat.succ_lt_succ hn, hstate, ?_⟩
        rw [List.take_succ_cons, List.flatten_cons, byteLength_append, ← Nat.add_assoc]
        exact hoffset
    · intro h
      obtain ⟨n, hn, hstate, hoffset⟩ := h
      cases n with
      | zero =>
        obtain rfl : state = .inside := hstate
        exact .inl (List.mem_singleton.mpr hoffset)
      | succ n =>
        rw [List.take_succ_cons, List.flatten_cons, byteLength_append, ← Nat.add_assoc] at hoffset
        exact .inr ⟨n, Nat.lt_of_succ_lt_succ hn, hstate, hoffset⟩

/-- The state is known from the byte where a line starts. -/
theorem mem_linesInside_iff {text place : List Char} {n : Nat} (h : Lines.StartsAt text n place) :
    byteLength place ∈ linesInside text ↔
      (Lines.kept place).foldl Span.step .outside = .inside := by
  rw [linesInside, mem_insideStarts_iff]
  constructor
  · intro hmem
    obtain ⟨m, hm, hstate, hoffset⟩ := hmem
    have hstart := Lines.startsAt_take hm
    obtain ⟨_, _, hsplit⟩ := h.split
    obtain ⟨_, _, hsplit'⟩ := hstart.split
    rw [Nat.zero_add] at hoffset
    rw [← eq_of_byteLength (hsplit.symm.trans hsplit') hoffset] at hstart
    rwa [hstart.eq_take.2] at hstate
  · intro hstate
    obtain ⟨hn, htake⟩ := h.eq_take
    refine ⟨n, hn, ?_, ?_⟩
    · rwa [htake]
    · rw [htake, Lines.flatten_kept, Nat.zero_add]

/-- Whether a call head is admissible, by the byte where its line starts. -/
def admitsBelow (inside : List Nat) (p : Place) : Bool :=
  !inside.contains (byteLength p.above) && isAdmitted p.lead p.word

theorem admitsPlace_eq {text : List Char} {p : Place} (h : p.IsWordOf text) :
    admitsPlace p = admitsBelow (linesInside text) p := by
  have hinside := mem_linesInside_iff h.startsAt
  rw [admitsPlace, admitsBelow]
  congr 1
  cases hstate : (Lines.kept p.above).foldl Span.step .outside with
  | outside => simp [hinside, hstate]
  | inside => simp [hinside, hstate]

theorem find_eq_admitsBelow (text : List Char) :
    find text = (((words text).filter opensHead).filter (admitsBelow (linesInside text))).map
      fun p => String.ofList p.word := by
  rw [find_eq_reported, reported]
  congr 1
  refine List.filter_congr fun p hp => admitsPlace_eq ?_
  exact ((words_enumerate text).mem_iff p).mp (List.mem_filter.mp hp).1

end Function

/-- The state before a line is the same, be the lines above taken with their ends or without. -/
theorem Span.foldl_take_bare (text : List Char) (n : Nat) :
    ((Lines.bare text).take n).foldl Span.step .outside = ((Lines.kept text).take n).foldl
      Span.step .outside := by
  rw [Lines.bare, ← List.map_take, Span.foldl_seen Span.step_dropEnd]

/-- **Both searches that go by lines see the same spans.** The bytes by which the search for
functions tells lines that start inside an at-definition are those where a line starts before
which the search for constants is inside one. The former passes over just the call heads on
these lines, the latter goes on below any number of lines in the state that these leave
behind. -/
theorem linesInside_exact (text : List Char) :
    (∀ offset, offset ∈ Function.linesInside text ↔ ∃ n place, Lines.StartsAt text n place ∧
      ((Lines.bare text).take n).foldl Span.step .outside = .inside ∧ offset = byteLength place) ∧
    Function.find text = (((words text).filter Function.opensHead).filter
      (Function.admitsBelow (Function.linesInside text))).map (fun p => String.ofList p.word) ∧
    ∀ n, Constant.find text = Constant.onLines .outside ((Lines.bare text).take n) ++
      Constant.onLines (((Lines.bare text).take n).foldl Span.step .outside)
        ((Lines.bare text).drop n) := by
  refine ⟨fun offset => ⟨fun h => ?_, fun h => ?_⟩,
    Function.find_eq_admitsBelow text, fun n => ?_⟩
  · obtain ⟨n, hn, hstate, hoffset⟩ := Function.mem_insideStarts_iff.mp h
    rw [Nat.zero_add] at hoffset
    exact ⟨n, _, Lines.startsAt_take hn, (Span.foldl_take_bare text n).trans hstate, hoffset⟩
  · obtain ⟨n, place, hstart, hstate, rfl⟩ := h
    rw [Span.foldl_take_bare, hstart.eq_take.2] at hstate
    exact (Function.mem_linesInside_iff hstart).mpr hstate
  · rw [← Constant.onLines_append, List.take_append_drop]
    rfl

-- a carriage return alone ends no line, and `é` takes two bytes
example : Function.linesInside "@interface A\r\nint é;\rint c;\n@end".toList = [14, 29] := by
  decide +kernel

end HeaderIndex.Header
