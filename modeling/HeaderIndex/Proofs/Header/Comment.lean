import HeaderIndex.Header.Scrub
import HeaderIndex.Proofs.Text.Reading
import HeaderIndex.Proofs.Text.Replacement

/-! Comments as a scan reads them. A block ends at its first `*/`, so its body is
any text without one (`closeBlock_eq_some_iff`); a line comment runs to a line feed
or to the end of the text. What a scan makes of a text that leaves nothing open
does not depend on what follows (`dropComments_append`), and no comment is left in
a text whose comments are dropped (`commentFree_dropComments`). -/

namespace HeaderIndex.Header.Comment

open HeaderIndex.Text

/-! ## Reading one comment -/

theorem closeBlock_cons {c : Char} {t : List Char} (h : ¬ ['*', '/'] <+: c :: t) :
    closeBlock (c :: t) = (closeBlock t).map fun r => ⟨c :: r.value, r.rest⟩ := by
  cases t with
  | nil => rfl
  | cons d t =>
    rw [closeBlock.eq_4]
    rintro rfl rfl
    exact h (by simp)

theorem closeBlock_eq_some_iff {t body rest : List Char} :
    closeBlock t = some ⟨body, rest⟩ ↔
      t = body ++ '*' :: '/' :: rest ∧ ¬ ['*', '/'] <:+: body := by
  constructor
  · intro h
    induction t generalizing body with
    | nil => simp [closeBlock] at h
    | cons c t ih =>
      by_cases hp : ['*', '/'] <+: c :: t
      · obtain ⟨tail, ht⟩ := hp
        rw [← ht] at h ⊢
        obtain ⟨rfl, rfl⟩ : [] = body ∧ tail = rest := by simpa [closeBlock] using h
        exact ⟨rfl, by simp⟩
      · rw [closeBlock_cons hp] at h
        obtain ⟨r, hr, he⟩ := Option.map_eq_some_iff.mp h
        obtain ⟨rfl, rfl⟩ : c :: r.value = body ∧ r.rest = rest := by simpa using he
        obtain ⟨rfl, hb⟩ := ih hr
        refine ⟨rfl, ?_⟩
        intro hi
        rcases List.infix_cons_iff.mp hi with hi | hi
        · exact hp (hi.trans (List.prefix_append (c :: r.value) _))
        · exact hb hi
  · rintro ⟨rfl, hb⟩
    induction body with
    | nil => rfl
    | cons c body ih =>
      have hp : ¬ ['*', '/'] <+: c :: (body ++ '*' :: '/' :: rest) := by
        rintro ⟨tail, ht⟩
        obtain ⟨hc, htail⟩ := List.cons.inj ht
        cases body with
        | nil => exact absurd (List.cons.inj htail).1 (by decide)
        | cons d body =>
          have hd := (List.cons.inj htail).1
          exact hb ⟨[], body, by rw [← hc, ← hd]; rfl⟩
      rw [List.cons_append, closeBlock_cons hp, ih fun hi => hb (List.infix_cons hi)]
      rfl

theorem closeBlock_eq_none_iff {t : List Char} : closeBlock t = none ↔ ¬ ['*', '/'] <:+: t := by
  constructor
  · intro h hi
    induction t with
    | nil => simp at hi
    | cons c t ih =>
      by_cases hp : ['*', '/'] <+: c :: t
      · obtain ⟨tail, ht⟩ := hp
        rw [← ht] at h
        simp [closeBlock] at h
      · rw [closeBlock_cons hp, Option.map_eq_none_iff] at h
        exact ih h ((List.infix_cons_iff.mp hi).resolve_left hp)
  · intro hi
    cases hc : closeBlock t with
    | none => rfl
    | some r =>
      obtain ⟨body, rest⟩ := r
      obtain ⟨rfl, _⟩ := closeBlock_eq_some_iff.mp hc
      exact absurd ⟨body, rest, by simp⟩ hi

/-- What a comment's text is, apart from what follows it. -/
def WellFormed : Comment → Prop
  | block body => ¬ ['*', '/'] <:+: body
  | line body => '\n' ∉ body

/-- Where a comment may stop: a block anywhere, a line comment only at a line end. -/
def StopsAt : Comment → List Char → Prop
  | block _, _ => True
  | line _, rest => rest = [] ∨ ∃ below, rest = '\n' :: below

theorem shape_eq_some_iff {prev : Option Char} {text rest : List Char} {v : Comment} :
    shape prev text = some ⟨v, rest⟩ ↔ text = v.source ++ rest ∧ v.WellFormed ∧
      v.StopsAt rest := by
  constructor
  · intro h
    unfold shape at h
    split at h
    · obtain ⟨r, hr, he⟩ := Option.map_eq_some_iff.mp h
      obtain ⟨rfl, rfl⟩ : block r.value = v ∧ r.rest = rest := by simpa using he
      obtain ⟨rfl, hb⟩ := closeBlock_eq_some_iff.mp hr
      exact ⟨by simp [source], hb, trivial⟩
    · rename_i tail
      obtain ⟨rfl, rfl⟩ : line (tail.takeWhile (· != '\n')) = v ∧
          tail.dropWhile (· != '\n') = rest := by simpa using h
      refine ⟨by simp [source], ?_, dropWhile_line tail⟩
      intro hm
      simpa using of_mem_takeWhile hm
    · cases h
  · rintro ⟨rfl, hv, hr⟩
    cases v with
    | block body =>
      have hc : closeBlock (body ++ '*' :: '/' :: rest) = some ⟨body, rest⟩ :=
        closeBlock_eq_some_iff.mpr ⟨rfl, hv⟩
      simp [source, shape, hc]
    | line body =>
      have hb : ∀ c ∈ body, (c != '\n') = true := run_of_not_mem hv
      have hstop : StopsRun (· != '\n') rest := by
        rcases hr with rfl | ⟨below, rfl⟩
        · exact stopsRun_nil _
        · exact stopsRun_cons.mpr (by decide)
      simp [source, shape, takeWhile_run hb hstop, dropWhile_run hb hstop]

theorem shape_eq_none_iff {prev : Option Char} {text : List Char} :
    shape prev text = none ↔
      ¬ ['/', '/'] <+: text ∧ ∀ t, text = '/' :: '*' :: t → ¬ ['*', '/'] <:+: t := by
  unfold shape
  split
  · simp [closeBlock_eq_none_iff]
  · simp
  · rename_i hblock hline
    simp only [true_iff]
    refine ⟨?_, fun t ht => absurd ht (hblock t)⟩
    rintro ⟨tail, ht⟩
    exact hline tail ht.symm

/-- A comment starts wherever its text does, whatever stands before it. -/
theorem shape_prev (p q : Option Char) (text : List Char) : shape p text = shape q text := by
  cases h : shape p text with
  | none => exact (shape_eq_none_iff.mpr (shape_eq_none_iff.mp h)).symm
  | some r => exact (shape_eq_some_iff.mpr (shape_eq_some_iff.mp h)).symm

theorem source_ne_nil (v : Comment) : v.source ≠ [] := by cases v <;> simp [source]

theorem shape_consumes : shape.Consumes := by
  rintro prev text ⟨v, rest⟩ h
  exact ⟨v.source, source_ne_nil v, (shape_eq_some_iff.mp h).1⟩

/-- Dropping a comment splices nothing. -/
theorem shape_seamed : shape.Seamed trace where
  consumes := shape_consumes
  leaves v := by cases v with
    | block body => exact .inl rfl
    | line body => exact .inr rfl
  toLineEnd prev text v rest h hv := by
    cases v with
    | block body => cases hv
    | line body => exact (shape_eq_some_iff.mp h).2.2
  lineFeed prev below := rfl
  opens prev c cs h hh := by
    obtain ⟨v, rest⟩ := h
    have htext := (shape_eq_some_iff.mp hh).1
    have hc : c = '/' := by cases v <;> exact (List.cons.inj htext).1
    rw [hc]
    decide
  closes prev taken v rest h hv := by
    cases v with
    | block body =>
      have htext := List.append_cancel_right (shape_eq_some_iff.mp h).1
      have hlast : taken.getLast? = some '/' := by simp [htext, source, List.getLast?_cons]
      rw [hlast]
      decide
    | line body => cases hv

/-! ## Texts that leave nothing open -/

/-- Whether a piece is left open by the pieces behind it: the opener of a block
that is never closed, or a slash or a line comment at the very end. -/
def leftOpen : Piece Comment → List (Piece Comment) → Bool
  | .plain '/', [] => true
  | .plain '/', .plain '*' :: _ => true
  | .hit (line _), [] => true
  | _, _ => false

def noneLeftOpen : List (Piece Comment) → Bool
  | [] => true
  | p :: ps => !leftOpen p ps && noneLeftOpen ps

/-- Whether a scan for comments ends outside any comment, with no block left open
and no slash pending. -/
def settled (text : List Char) : Bool := noneLeftOpen (shape.pieces text)

theorem scan_append {prev : Option Char} {a : List Char}
    (h : noneLeftOpen (shape.scan 0 prev a) = true) (b : List Char) :
    shape.scan 0 prev (a ++ b) = shape.scan 0 prev a ++ shape.scan 0 (a.getLast?.or prev) b := by
  induction prev, a using Shape.scan_induct shape_consumes with
  | nil prev => simp
  | hit prev taken v rest hne hv ih =>
    rw [Shape.scan_hit hne hv] at h ⊢
    simp only [noneLeftOpen, Bool.and_eq_true, Bool.not_eq_true'] at h
    obtain ⟨htext, hw, hstop⟩ := shape_eq_some_iff.mp hv
    have hstop' : v.StopsAt (rest ++ b) := by
      cases v with
      | block body => trivial
      | line body =>
        rcases hstop with rfl | ⟨below, rfl⟩
        · simp [leftOpen] at h
        · exact .inr ⟨below ++ b, rfl⟩
    have hv' : shape prev (taken ++ (rest ++ b)) = some ⟨v, rest ++ b⟩ := by
      rw [shape_eq_some_iff, ← List.append_assoc, htext, List.append_assoc]
      exact ⟨rfl, hw, hstop'⟩
    rw [List.append_assoc, Shape.scan_hit hne hv', ih h.2, Shape.last_append,
      Shape.last_of_ne_nil hne, List.cons_append]
  | plain prev c cs hc ih =>
    rw [Shape.scan_plain hc] at h ⊢
    simp only [noneLeftOpen, Bool.and_eq_true, Bool.not_eq_true'] at h
    -- a slash that opens nothing in `a` has a further character behind it that tells so
    have hc' : shape prev (c :: (cs ++ b)) = none := by
      obtain ⟨hline, hblock⟩ := shape_eq_none_iff.mp hc
      cases cs with
      | nil =>
        have hslash : c ≠ '/' := by rintro rfl; simp [leftOpen] at h
        exact shape_eq_none_iff.mpr ⟨by simp [Ne.symm hslash], by simp [hslash]⟩
      | cons d cs =>
        refine shape_eq_none_iff.mpr ⟨by simpa using hline, ?_⟩
        rintro t ht
        obtain ⟨rfl, htail⟩ := List.cons.inj ht
        obtain ⟨rfl, _⟩ := List.cons.inj htail
        rw [Shape.scan_plain (by rfl)] at h
        simp [leftOpen] at h
    rw [List.cons_append, Shape.scan_plain hc', ih h.2, Shape.last_cons, List.cons_append]

/-! ## The text without its comments -/

theorem replaced_eq_dropComments (prev : Option Char) (text : List Char) :
    shape.replaced trace prev text = dropComments text := by
  rw [Shape.replaced, Shape.scan_congr (shape_prev prev none)]
  rfl

theorem dropComments_append {a : List Char} (h : settled a = true) (b : List Char) :
    dropComments (a ++ b) = dropComments a ++ dropComments b := by
  rw [← replaced_eq_dropComments none, Shape.replaced, scan_append h, List.flatMap_append,
    ← replaced_eq_dropComments (a.getLast?.or none) b]
  rfl

theorem dropComments_comment {v : Comment} {rest : List Char} (hv : v.WellFormed)
    (hstop : v.StopsAt rest) : dropComments (v.source ++ rest) = v.trace ++ dropComments rest := by
  have h : shape none (v.source ++ rest) = some ⟨v, rest⟩ :=
    shape_eq_some_iff.mpr ⟨rfl, hv, hstop⟩
  rw [← replaced_eq_dropComments none, Shape.replaced_hit (source_ne_nil v) h,
    replaced_eq_dropComments]

theorem dropComments_plain {c : Char} {cs : List Char} (h : c ≠ '/') :
    dropComments (c :: cs) = c :: dropComments cs := by
  have hnone : shape none (c :: cs) = none :=
    shape_eq_none_iff.mpr ⟨by simp [Ne.symm h], by simp [h]⟩
  rw [← replaced_eq_dropComments none, Shape.replaced_plain hnone, replaced_eq_dropComments]

/-- No comment starts anywhere in the text. -/
def CommentFree (text : List Char) : Prop := shape.Absent none text

theorem commentFree_nil : CommentFree [] := Shape.absent_nil.mpr rfl

theorem commentFree_cons {c : Char} {cs : List Char} :
    CommentFree (c :: cs) ↔ shape none (c :: cs) = none ∧ CommentFree cs := by
  rw [CommentFree, Shape.absent_cons, Shape.absent_congr (shape_prev (some c) none)]
  rfl

theorem CommentFree.dropComments_eq {text : List Char} (h : CommentFree text) :
    dropComments text = text := by
  rw [← replaced_eq_dropComments none]
  exact Shape.Absent.replaced h

theorem commentFree_iff {text : List Char} :
    CommentFree text ↔ ¬ ['/', '/'] <:+: text ∧
      ∀ body, ¬ ('/' :: '*' :: body ++ ['*', '/']) <:+: text := by
  constructor
  · intro h
    refine ⟨?_, ?_⟩
    · rintro ⟨lead, tail, rfl⟩
      have hnone := h lead ('/' :: '/' :: tail) (by simp)
      exact (shape_eq_none_iff.mp hnone).1 ⟨tail, rfl⟩
    · rintro body ⟨lead, tail, rfl⟩
      have hnone := h lead ('/' :: '*' :: (body ++ '*' :: '/' :: tail)) (by simp)
      exact (shape_eq_none_iff.mp hnone).2 _ rfl ⟨body, tail, by simp⟩
  · rintro ⟨hline, hblock⟩ lead here rfl
    refine shape_eq_none_iff.mpr ⟨?_, ?_⟩
    · rintro ⟨tail, rfl⟩
      exact hline ⟨lead, tail, by simp⟩
    · rintro t rfl ⟨body, tail, rfl⟩
      exact hblock body ⟨lead, tail, by simp⟩

/-- A replacement that splices nothing opens no comment. -/
theorem shape_replaced_eq_none {α : Type} {s : Shape α} {f : α → List Char} (hs : s.Seamed f)
    {p q : Option Char} {c : Char} {cs : List Char} (h : shape p (c :: cs) = none) :
    shape q (c :: s.replaced f (some c) cs) = none := by
  obtain ⟨hline, hblock⟩ := shape_eq_none_iff.mp h
  refine shape_eq_none_iff.mpr ⟨?_, ?_⟩
  · rintro ⟨tail, ht⟩
    obtain ⟨rfl, htail⟩ := List.cons.inj ht
    obtain ⟨cs, rfl, _, _⟩ := hs.replaced_eq_cons (by decide) htail.symm
    exact hline ⟨cs, rfl⟩
  · rintro t ht
    obtain ⟨rfl, htail⟩ := List.cons.inj ht
    obtain ⟨cs, rfl, _, rfl⟩ := hs.replaced_eq_cons (by decide) htail
    exact fun hi => hblock cs rfl (hs.infix_of_replaced (by simp) (by simp [Shape.isFirm]) hi)

theorem CommentFree.replaced {α : Type} {s : Shape α} {f : α → List Char} (hs : s.Seamed f)
    {text : List Char} (h : CommentFree text) (prev : Option Char) :
    CommentFree (s.replaced f prev text) := by
  revert h
  induction prev, text using Shape.scan_induct hs.consumes with
  | nil prev => intro h; rwa [Shape.replaced_nil]
  | hit prev taken v rest hne hv ih =>
    intro h
    have hrest : CommentFree rest :=
      (Shape.absent_congr (shape_prev _ none)).mp (Shape.Absent.of_append h)
    rw [Shape.replaced_hit hne hv]
    rcases hs.leaves v with hfv | hfv <;> rw [hfv]
    · exact commentFree_cons.mpr ⟨rfl, ih hrest⟩
    · exact ih hrest
  | plain prev c cs hc ih =>
    intro h
    obtain ⟨hhead, htail⟩ := commentFree_cons.mp h
    rw [Shape.replaced_plain hc]
    exact commentFree_cons.mpr ⟨shape_replaced_eq_none hs hhead, ih htail⟩

theorem commentFree_dropComments (text : List Char) : CommentFree (dropComments text) := by
  rw [← replaced_eq_dropComments none]
  induction none (α := Char), text using Shape.scan_induct shape_consumes with
  | nil prev => rw [Shape.replaced_nil]; exact commentFree_nil
  | hit prev taken v rest hne hv ih =>
    rw [Shape.replaced_hit hne hv]
    cases v with
    | block body => exact commentFree_cons.mpr ⟨rfl, ih⟩
    | line body => exact ih
  | plain prev c cs hc ih =>
    rw [Shape.replaced_plain hc]
    exact commentFree_cons.mpr ⟨shape_replaced_eq_none shape_seamed hc, ih⟩

end HeaderIndex.Header.Comment
