import HeaderIndex.Text.Shape

/-! Scans, step by step. A scan is a run: at each place the shape either hits and
the run goes on behind the hit, or one plain character is passed. Whatever holds
at the end of a text and survives both steps holds of every text (`scan_induct`).
What a scan reports was read at some place of the text (`mem_occurrences`). -/

namespace HeaderIndex.Text.Shape

variable {α : Type} {s : Shape α}

/-- Every hit takes at least one character off the front of the text it is read from. -/
def Consumes (s : Shape α) : Prop :=
  ∀ prev text h, s prev text = some h → ∃ taken, taken ≠ [] ∧ text = taken ++ h.rest

/-- The character before a place, when the run up to it starts behind `prev`. -/
theorem last_cons (c : Char) (run : List Char) (prev : Option Char) :
    (c :: run).getLast?.or prev = run.getLast?.or (some c) := by
  rw [List.getLast?_cons]
  cases run.getLast? <;> rfl

theorem last_append (a b : List Char) (prev : Option Char) :
    (a ++ b).getLast?.or prev = b.getLast?.or (a.getLast?.or prev) := by
  rw [List.getLast?_append, Option.or_assoc]

theorem last_of_ne_nil {run : List Char} (h : run ≠ []) (prev : Option Char) :
    run.getLast?.or prev = run.getLast? :=
  Option.or_of_isSome (by simp [List.getLast?_isSome, h])

theorem scan_skip (s : Shape α) (taken rest : List Char) (prev : Option Char) :
    s.scan taken.length prev (taken ++ rest) = s.scan 0 (taken.getLast?.or prev) rest := by
  induction taken generalizing prev with
  | nil => simp
  | cons c taken ih =>
    rw [List.length_cons, List.cons_append, scan, ih, last_cons]

@[simp] theorem scan_nil (s : Shape α) (skip : Nat) (prev : Option Char) :
    s.scan skip prev [] = [] := by
  cases skip <;> rfl

theorem scan_plain {prev : Option Char} {c : Char} {cs : List Char} (h : s prev (c :: cs) = none) :
    s.scan 0 prev (c :: cs) = .plain c :: s.scan 0 (some c) cs := by
  rw [scan, h]

theorem scan_hit {prev : Option Char} {taken rest : List Char} {v : α} (hne : taken ≠ [])
    (h : s prev (taken ++ rest) = some ⟨v, rest⟩) :
    s.scan 0 prev (taken ++ rest) = .hit v :: s.scan 0 taken.getLast? rest := by
  cases taken with
  | nil => exact absurd rfl hne
  | cons c taken =>
    rw [List.cons_append] at h ⊢
    rw [scan, h]
    have hskip : (taken ++ rest).length - rest.length = taken.length := by simp
    simp only [hskip, scan_skip]
    rw [← last_cons c taken none, last_of_ne_nil (by simp)]

/-- The steps of a scan as an induction principle. -/
theorem scan_induct (hs : s.Consumes) {motive : Option Char → List Char → Prop}
    (nil : ∀ prev, motive prev [])
    (hit : ∀ prev taken v rest, taken ≠ [] → s prev (taken ++ rest) = some ⟨v, rest⟩ →
      motive taken.getLast? rest → motive prev (taken ++ rest))
    (plain : ∀ prev c cs, s prev (c :: cs) = none → motive (some c) cs →
      motive prev (c :: cs))
    (prev : Option Char) (text : List Char) : motive prev text := by
  -- a hit may take many characters, so the induction is on the length that is left
  induction hn : text.length using Nat.strongRecOn generalizing prev text with
  | ind n ih =>
    cases text with
    | nil => exact nil prev
    | cons c cs =>
      cases hc : s prev (c :: cs) with
      | none => exact plain prev c cs hc (ih cs.length (by simp at hn; omega) _ _ rfl)
      | some h =>
        obtain ⟨taken, hne, htext⟩ := hs prev _ h hc
        obtain ⟨v, rest⟩ := h
        have hlen := congrArg List.length htext
        have hpos := List.length_pos_iff.mpr hne
        simp only [List.length_append] at hlen
        rw [htext] at hc ⊢
        exact hit prev taken v rest hne hc (ih rest.length (by omega) _ _ rfl)

/-- The values a scan hits when it starts behind `prev`. -/
def hits (s : Shape α) (prev : Option Char) (text : List Char) : List α :=
  (s.scan 0 prev text).filterMap Piece.value?

theorem occurrences_eq_hits (s : Shape α) (text : List Char) :
    s.occurrences text = s.hits none text := rfl

@[simp] theorem hits_nil (s : Shape α) (prev : Option Char) : s.hits prev [] = [] := by
  simp [hits]

theorem hits_plain {prev : Option Char} {c : Char} {cs : List Char} (h : s prev (c :: cs) = none) :
    s.hits prev (c :: cs) = s.hits (some c) cs := by
  rw [hits, scan_plain h]
  rfl

theorem hits_hit {prev : Option Char} {taken rest : List Char} {v : α} (hne : taken ≠ [])
    (h : s prev (taken ++ rest) = some ⟨v, rest⟩) :
    s.hits prev (taken ++ rest) = v :: s.hits taken.getLast? rest := by
  rw [hits, scan_hit hne h]
  rfl

/-- A part of the text at none of whose places the shape hits is passed over. -/
theorem hits_pass {prev : Option Char} {part rest : List Char}
    (h : ∀ lead here, part = lead ++ here → here ≠ [] →
      s (lead.getLast?.or prev) (here ++ rest) = none) :
    s.hits prev (part ++ rest) = s.hits (part.getLast?.or prev) rest := by
  induction part generalizing prev with
  | nil => rfl
  | cons c part ih =>
    have hc : s prev (c :: (part ++ rest)) = none := h [] (c :: part) rfl (by simp)
    rw [List.cons_append, hits_plain hc, last_cons]
    refine ih fun lead here htext hne => ?_
    rw [← last_cons c lead prev]
    exact h (c :: lead) here (by rw [htext]; rfl) hne

theorem mem_hits (hs : s.Consumes) {v : α} {prev : Option Char} {text : List Char}
    (hv : v ∈ s.hits prev text) :
    ∃ lead here rest, text = lead ++ here ∧
      s (lead.getLast?.or prev) here = some ⟨v, rest⟩ := by
  revert hv
  induction prev, text using scan_induct hs with
  | nil prev => intro hv; simp at hv
  | hit prev taken w rest hne hw ih =>
    intro hv
    rw [hits_hit hne hw] at hv
    rcases List.mem_cons.mp hv with rfl | hv
    · exact ⟨[], _, rest, rfl, hw⟩
    · obtain ⟨lead, here, rest', rfl, hh⟩ := ih hv
      refine ⟨taken ++ lead, here, rest', by simp, ?_⟩
      rw [last_append, last_of_ne_nil hne]
      exact hh
  | plain prev c cs hc ih =>
    intro hv
    rw [hits_plain hc] at hv
    obtain ⟨lead, here, rest', rfl, hh⟩ := ih hv
    exact ⟨c :: lead, here, rest', rfl, by rw [last_cons]; exact hh⟩

/-- What a scan reports was read at some place of the text, with the character before it in view. -/
theorem mem_occurrences (hs : s.Consumes) {v : α} {text : List Char}
    (hv : v ∈ s.occurrences text) :
    ∃ lead here rest, text = lead ++ here ∧ s lead.getLast? here = some ⟨v, rest⟩ := by
  obtain ⟨lead, here, rest, htext, hh⟩ := mem_hits hs hv
  exact ⟨lead, here, rest, htext, by simpa using hh⟩

/-- The text with each hit replaced, when the scan starts behind `prev`. -/
def replaced (s : Shape α) (f : α → List Char) (prev : Option Char) (text : List Char) :
    List Char :=
  (s.scan 0 prev text).flatMap (Piece.render f)

theorem replace_eq_replaced (s : Shape α) (f : α → List Char) (text : List Char) :
    s.replace f text = s.replaced f none text := rfl

@[simp] theorem replaced_nil (s : Shape α) (f : α → List Char) (prev : Option Char) :
    s.replaced f prev [] = [] := by
  simp [replaced]

theorem replaced_plain {f : α → List Char} {prev : Option Char} {c : Char} {cs : List Char}
    (h : s prev (c :: cs) = none) :
    s.replaced f prev (c :: cs) = c :: s.replaced f (some c) cs := by
  rw [replaced, scan_plain h]
  rfl

theorem replaced_hit {f : α → List Char} {prev : Option Char} {taken rest : List Char} {v : α}
    (hne : taken ≠ []) (h : s prev (taken ++ rest) = some ⟨v, rest⟩) :
    s.replaced f prev (taken ++ rest) = f v ++ s.replaced f taken.getLast? rest := by
  rw [replaced, scan_hit hne h]
  rfl

/-- A scan does not pass over every place of a text if the shape hits at one. -/
theorem hits_ne_nil {prev : Option Char} {lead here : List Char} {h : Hit α} (hne : here ≠ [])
    (hh : s (lead.getLast?.or prev) here = some h) : s.hits prev (lead ++ here) ≠ [] := by
  induction lead generalizing prev with
  | nil =>
    obtain ⟨c, cs, rfl⟩ := List.exists_cons_of_ne_nil hne
    have hc : s prev (c :: cs) = some h := hh
    simp [hits, scan, hc, Piece.value?]
  | cons c lead ih =>
    rw [last_cons] at hh
    cases hc : s prev (c :: (lead ++ here)) with
    | none =>
      rw [List.cons_append, hits_plain hc]
      exact ih hh
    | some found => simp [hits, scan, hc, Piece.value?]

theorem occursIn_of_hit {c : Char} {cs : List Char} {h : Hit α} (hh : s none (c :: cs) = some h) :
    s.occursIn (c :: cs) = true := by
  simp [occursIn, occurrences, pieces, scan, hh, Piece.value?]

/-! ## Shapes that occur nowhere -/

/-- The shape hits at no place of a text that stands behind `prev`. -/
def Absent (s : Shape α) (prev : Option Char) (text : List Char) : Prop :=
  ∀ lead here, text = lead ++ here → s (lead.getLast?.or prev) here = none

theorem absent_nil {prev : Option Char} : s.Absent prev [] ↔ s prev [] = none := by
  constructor
  · intro h
    exact h [] [] rfl
  · intro h lead here htext
    obtain ⟨rfl, rfl⟩ := List.append_eq_nil_iff.mp htext.symm
    exact h

theorem absent_cons {prev : Option Char} {c : Char} {cs : List Char} :
    s.Absent prev (c :: cs) ↔ s prev (c :: cs) = none ∧ s.Absent (some c) cs := by
  constructor
  · intro h
    refine ⟨h [] _ rfl, ?_⟩
    rintro lead here rfl
    rw [← last_cons c lead prev]
    exact h (c :: lead) here rfl
  · rintro ⟨hc, hcs⟩ lead here htext
    cases lead with
    | nil =>
      rw [List.nil_append] at htext
      exact htext ▸ hc
    | cons d lead =>
      obtain ⟨rfl, rfl⟩ := List.cons.inj htext
      rw [last_cons]
      exact hcs lead here rfl

theorem Absent.of_append {prev : Option Char} {a b : List Char} (h : s.Absent prev (a ++ b)) :
    s.Absent (a.getLast?.or prev) b := by
  rintro lead here rfl
  rw [← last_append]
  exact h (a ++ lead) here (by simp)

/-- A shape that does not tell two characters before a text apart is absent behind both. -/
theorem absent_congr {p q : Option Char} (h : ∀ text, s p text = s q text) {text : List Char} :
    s.Absent p text ↔ s.Absent q text := by
  cases text with
  | nil => rw [absent_nil, absent_nil, h]
  | cons c cs => rw [absent_cons, absent_cons, h]

theorem Consumes.apply_nil (hs : s.Consumes) (prev : Option Char) : s prev [] = none := by
  cases h : s prev [] with
  | none => rfl
  | some r =>
    obtain ⟨taken, hne, htext⟩ := hs _ _ _ h
    exact absurd (List.append_eq_nil_iff.mp htext.symm).1 hne

theorem Absent.replaced {f : α → List Char} {prev : Option Char} {text : List Char}
    (h : s.Absent prev text) : s.replaced f prev text = text := by
  induction text generalizing prev with
  | nil => simp
  | cons c cs ih =>
    obtain ⟨hc, hcs⟩ := absent_cons.mp h
    rw [replaced_plain hc, ih hcs]

theorem Absent.hits {prev : Option Char} {text : List Char} (h : s.Absent prev text) :
    s.hits prev text = [] := by
  have hpass : s.hits prev (text ++ []) = s.hits (text.getLast?.or prev) [] := by
    refine hits_pass fun lead here htext _ => ?_
    rw [List.append_nil]
    exact h lead here htext
  simpa using hpass

/-- A shape that does not tell two characters before a text apart scans alike behind both. -/
theorem scan_congr {p q : Option Char} (h : ∀ text, s p text = s q text) (text : List Char) :
    s.scan 0 p text = s.scan 0 q text := by
  cases text with
  | nil => simp
  | cons c cs => rw [scan, scan, h]

theorem hits_congr {p q : Option Char} (h : ∀ text, s p text = s q text) (text : List Char) :
    s.hits p text = s.hits q text :=
  congrArg (List.filterMap Piece.value?) (scan_congr h text)

/-! ## Shapes whose hits cannot overlap -/

/-- Every hit starts with the mark, and has it nowhere else. -/
def Marked (s : Shape α) (mark : Char) : Prop :=
  ∀ prev text h, s prev text = some h → ∃ taken, mark ∉ taken ∧
  text = mark :: (taken ++ h.rest)

namespace Marked

variable {mark : Char} (hs : s.Marked mark)

include hs

theorem consumes : s.Consumes := by
  intro prev text h hh
  obtain ⟨taken, _, htext⟩ := hs prev text h hh
  exact ⟨mark :: taken, by simp, htext⟩

theorem eq_none {prev : Option Char} {c : Char} {rest : List Char} (h : c ≠ mark) :
    s prev (c :: rest) = none := by
  cases hh : s prev (c :: rest) with
  | none => rfl
  | some found =>
    obtain ⟨taken, _, htext⟩ := hs _ _ _ hh
    exact absurd (List.cons.inj htext).1 h

/-- A hit ends before the next mark. -/
theorem exists_rest {prev : Option Char} {text rest : List Char} {h : Hit α} (hne : text ≠ [])
    (hrest : rest.head? = some mark) (hh : s prev (text ++ rest) = some h) :
    ∃ behind, h.rest = behind ++ rest := by
  obtain ⟨c, text, rfl⟩ := List.exists_cons_of_ne_nil hne
  obtain ⟨tail, rfl⟩ := List.head?_eq_some_iff.mp hrest
  obtain ⟨taken, hmark, htext⟩ := hs _ _ _ hh
  obtain ⟨_, hsplit⟩ := List.cons.inj htext
  rcases List.append_eq_append_iff.mp hsplit with ⟨more, rfl, hmore⟩ | ⟨behind, _, hbehind⟩
  · cases more with
    | nil => exact ⟨[], hmore.symm⟩
    | cons d more =>
      obtain ⟨rfl, _⟩ := List.cons.inj hmore
      exact absurd (by simp) hmark
  · exact ⟨behind, hbehind⟩

/-- A text without the mark is passed over. -/
theorem hits_pass {prev : Option Char} {part : List Char} (h : mark ∉ part) (rest : List Char) :
    s.hits prev (part ++ rest) = s.hits (part.getLast?.or prev) rest := by
  refine Shape.hits_pass fun lead here hsplit hne => ?_
  obtain ⟨c, here, rfl⟩ := List.exists_cons_of_ne_nil hne
  exact hs.eq_none fun he => h (by simp [hsplit, he])

/-- What is read at a place does not keep what stands behind it from being read. -/
theorem hits_cons (prev : Option Char) (c : Char) (cs : List Char) :
    s.hits prev (c :: cs) = ((s prev (c :: cs)).map Hit.value).toList ++ s.hits (some c) cs := by
  cases hh : s prev (c :: cs) with
  | none => rw [Shape.hits_plain hh]; rfl
  | some found =>
    obtain ⟨value, rest⟩ := found
    obtain ⟨taken, hmark, htext⟩ := hs prev _ _ hh
    obtain ⟨rfl, rfl⟩ := List.cons.inj htext
    have hhit : s.hits prev ((c :: taken) ++ rest) = value :: s.hits (c :: taken).getLast? rest :=
      hits_hit (by simp) hh
    rw [List.cons_append] at hhit
    rw [hhit, hs.hits_pass hmark, ← last_cons c taken none, last_of_ne_nil (by simp)]
    rfl

end Marked

end HeaderIndex.Text.Shape
