import HeaderIndex.Proofs.Text.Lines
import HeaderIndex.Proofs.Text.Reading
import HeaderIndex.Proofs.Text.Scan
import Mathlib.Data.List.Forall2
import Mathlib.Data.List.TakeWhile

/-! Texts that differ in their line breaks only. Where one text has a line feed, the other
has blanks with a line feed among them; everything else is the same. No reading step
tells such texts apart: it fails on both, or it takes from both what corresponds and
leaves two texts that again differ in their line breaks only. So does a scan
(`Shape.hits_respaced`). -/

namespace HeaderIndex.Text

/-! ## Line breaks -/

/-- What may stand for a line feed: blanks with a line feed among them, of which those
behind the last line feed indent the next line. -/
def IsBreak (br : List Char) : Prop :=
  ∃ blanks indent, br = blanks ++ '\n' :: indent ∧ (∀ c ∈ blanks, isBlank c = true) ∧
    ∀ c ∈ indent, isIndent c = true

theorem isBlank_feed : isBlank '\n' = true := by decide

theorem isBlank_of_isIndent {c : Char} (h : isIndent c = true) : isBlank c = true := by
  simp only [isIndent, Bool.or_eq_true, beq_iff_eq] at h
  rcases h with rfl | rfl <;> decide

theorem bne_of_isBlank {c mark : Char} (hc : isBlank c = true) (hm : isBlank mark = false) :
    (c != mark) = true := by
  rw [bne_iff_ne]
  rintro rfl
  rw [hc] at hm
  cases hm

def isBlankFree (text : List Char) : Bool := text.all (!isBlank ·)

theorem isBlank_of_isBlankFree {text : List Char} (h : isBlankFree text = true) :
    ∀ c ∈ text, isBlank c = false := by
  simpa [isBlankFree] using h

theorem IsBreak.blanks {br : List Char} (h : IsBreak br) : ∀ c ∈ br, isBlank c = true := by
  obtain ⟨blanks, indent, rfl, hb, hi⟩ := h
  intro c hc
  rcases List.mem_append.mp hc with hc | hc
  · exact hb c hc
  · rcases List.mem_cons.mp hc with rfl | hc
    · exact isBlank_feed
    · exact isBlank_of_isIndent (hi c hc)

theorem isBreak_feed : IsBreak ['\n'] := ⟨[], [], rfl, by simp, by simp⟩

/-- Blanks before the first line feed of a break may be taken off. -/
theorem IsBreak.dropWhile {p : Char → Bool} (hp : p '\n' = false) {br : List Char}
    (h : IsBreak br) (rest : List Char) :
    ∃ tail, IsBreak tail ∧ (br ++ rest).dropWhile p = tail ++ rest := by
  obtain ⟨blanks, indent, rfl, hb, hi⟩ := h
  induction blanks with
  | nil => exact ⟨'\n' :: indent, ⟨[], indent, rfl, by simp, hi⟩, by simp [hp]⟩
  | cons c blanks ih =>
    rw [List.cons_append, List.cons_append, List.dropWhile_cons]
    split
    · exact ih fun d hd => hb d (by simp [hd])
    · exact ⟨c :: (blanks ++ '\n' :: indent), ⟨c :: blanks, indent, rfl, hb, hi⟩, rfl⟩

theorem IsBreak.exists_cons {br : List Char} (h : IsBreak br) :
    ∃ c tail, br = c :: tail ∧ isBlank c = true := by
  have hblank := h.blanks
  obtain ⟨blanks, indent, rfl, _, _⟩ := h
  obtain ⟨c, tail, htail⟩ :=
    List.exists_cons_of_ne_nil (l := blanks ++ '\n' :: indent) (by simp)
  exact ⟨c, tail, htail, hblank c (by simp [htail])⟩

theorem Lines.exists_dropEnd (line : List Char) :
    ∃ ending, line = dropEnd line ++ ending ∧ ∀ c ∈ ending, isBlank c = true := by
  obtain ⟨ending, heq, hending⟩ := dropEnd_eq line
  refine ⟨ending, heq, ?_⟩
  rcases hending with rfl | rfl | rfl <;> exact List.all_eq_true.mp (by decide)

/-! ## Texts that are spaced anew -/

/-- The second text is the first with its line breaks written anew; if `loose`, blanks may
also have been put at its end. -/
inductive Respaced (loose : Prop) : List Char → List Char → Prop
  | nil {b : List Char} (hb : ∀ c ∈ b, isBlank c = true) (hl : b ≠ [] → loose) :
      Respaced loose [] b
  | char {c : Char} {t t' : List Char} (hc : c ≠ '\n') (h : Respaced loose t t') :
      Respaced loose (c :: t) (c :: t')
  | feed {br t t' : List Char} (hbr : IsBreak br) (h : Respaced loose t t') :
      Respaced loose ('\n' :: t) (br ++ t')

namespace Respaced

variable {loose : Prop} {t t' : List Char}

theorem nil_nil : Respaced loose [] [] := .nil (by simp) (by simp)

theorem cons {c : Char} (h : Respaced loose t t') : Respaced loose (c :: t) (c :: t') := by
  by_cases hc : c = '\n'
  · subst hc
    exact .feed isBreak_feed h
  · exact .char hc h

theorem refl (t : List Char) : Respaced loose t t := by
  induction t with
  | nil => exact nil_nil
  | cons c t ih => exact ih.cons

theorem append {a a' : List Char} (ha : Respaced False a a') (h : Respaced loose t t') :
    Respaced loose (a ++ t) (a' ++ t') := by
  induction ha with
  | nil hb hl =>
    obtain rfl := Decidable.of_not_not hl
    exact h
  | char hc _ ih => exact .char hc ih
  | feed hbr _ ih =>
    rw [List.append_assoc]
    exact .feed hbr ih

/-- Blanks at the end of a text. -/
theorem padded (t : List Char) {b : List Char} (hb : ∀ c ∈ b, isBlank c = true) :
    Respaced True t (t ++ b) := by
  induction t with
  | nil => exact .nil hb fun _ => trivial
  | cons c t ih => exact ih.cons

theorem split {a : List Char} (h : Respaced loose (a ++ t) t') :
    ∃ a' r', t' = a' ++ r' ∧ Respaced False a a' ∧ Respaced loose t r' := by
  induction a generalizing t' with
  | nil => exact ⟨[], t', rfl, nil_nil, h⟩
  | cons c a ih =>
    rw [List.cons_append] at h
    cases h with
    | char hc h =>
      obtain ⟨a', r', rfl, ha, hr⟩ := ih h
      exact ⟨c :: a', r', rfl, .char hc ha, hr⟩
    | feed hbr h =>
      obtain ⟨a', r', rfl, ha, hr⟩ := ih h
      exact ⟨_ ++ a', r', by simp, .feed hbr ha, hr⟩

theorem eq_nil (h : Respaced False [] t') : t' = [] := by
  cases h with
  | nil _ hl => exact Decidable.of_not_not hl

/-- A text without line feeds is not changed. -/
theorem split_line {y : List Char} (hy : '\n' ∉ y) (h : Respaced loose (y ++ t) t') :
    ∃ r', t' = y ++ r' ∧ Respaced loose t r' := by
  induction y generalizing t' with
  | nil => exact ⟨t', rfl, h⟩
  | cons c y ih =>
    rw [List.mem_cons, not_or] at hy
    rw [List.cons_append] at h
    cases h with
    | char _ h =>
      obtain ⟨r', rfl, hr⟩ := ih hy.2 h
      exact ⟨r', rfl, hr⟩
    | feed _ _ => exact absurd rfl hy.1

theorem mem_iff {c : Char} (hc : isBlank c = false) (h : Respaced loose t t') :
    c ∈ t ↔ c ∈ t' := by
  have hnot : ∀ {b : List Char}, (∀ d ∈ b, isBlank d = true) → c ∉ b := by
    intro b hb hm
    rw [hb c hm] at hc
    cases hc
  have hfeed : c ≠ '\n' := by
    rintro rfl
    exact absurd isBlank_feed (by simp [hc])
  induction h with
  | nil hb _ => simp [hnot hb]
  | char _ _ ih => simp [ih]
  | feed hbr _ ih => simp [ih, hnot hbr.blanks, hfeed]

/-! ## Runs -/

variable {p : Char → Bool}

/-- Behind a run that passes over blanks both texts stop at the same character. -/
theorem dropWhile_cases (hp : ∀ c, isBlank c = true → p c = true) (h : Respaced loose t t') :
    (t.dropWhile p = [] ∧ t'.dropWhile p = []) ∨
      ∃ c r r', t.dropWhile p = c :: r ∧ t'.dropWhile p = c :: r' ∧ p c = false ∧
        Respaced loose r r' := by
  induction h with
  | nil hb _ =>
    left
    exact ⟨rfl, List.dropWhile_eq_nil_iff.mpr fun c hc => hp c (hb c hc)⟩
  | @char c t t' hc h ih =>
    cases hpc : p c with
    | true => simpa [List.dropWhile_cons, hpc] using ih
    | false => exact .inr ⟨c, t, t', by simp [hpc], by simp [hpc], hpc, h⟩
  | feed hbr _ ih =>
    rw [List.dropWhile_append_of_pos fun c hc => hp c (hbr.blanks c hc), List.dropWhile_cons,
      if_pos (hp '\n' isBlank_feed)]
    exact ih

theorem dropWhile {b : Bool} (hp : ∀ c, isBlank c = true → p c = b) (h : Respaced loose t t') :
    Respaced loose (t.dropWhile p) (t'.dropWhile p) := by
  cases b with
  | true =>
    rcases h.dropWhile_cases hp with ⟨ht, ht'⟩ | ⟨c, r, r', ht, ht', _, hr⟩
    · rw [ht, ht']
      exact nil_nil
    · rw [ht, ht']
      exact hr.cons
  | false =>
    induction h with
    | @nil b hb hl =>
      have hstop : b.dropWhile p = b := by
        cases b with
        | nil => rfl
        | cons c b => simp [hp c (hb c (by simp))]
      rw [hstop]
      exact .nil hb hl
    | char hc h ih =>
      rw [List.dropWhile_cons, List.dropWhile_cons]
      split
      · exact ih
      · exact .char hc h
    | feed hbr h _ =>
      have hstop := hbr
      obtain ⟨c, tail, rfl, hc⟩ := hbr.exists_cons
      have hfeed := hp '\n' isBlank_feed
      rw [List.cons_append, List.dropWhile_cons_of_neg (by simp [hfeed]),
        List.dropWhile_cons_of_neg (by simp [hp c hc])]
      exact .feed hstop h

theorem takeWhile (hp : ∀ c, isBlank c = true → p c = true) (h : Respaced loose t t') :
    Respaced loose (t.takeWhile p) (t'.takeWhile p) := by
  induction h with
  | @nil b hb hl =>
    have hall : b.takeWhile p = b := List.takeWhile_eq_self_iff.mpr fun c hc => hp c (hb c hc)
    rw [hall]
    exact .nil hb hl
  | char hc _ ih =>
    rw [List.takeWhile_cons, List.takeWhile_cons]
    split
    · exact .char hc ih
    · exact nil_nil
  | feed hbr _ ih =>
    rw [List.takeWhile_append_of_pos fun c hc => hp c (hbr.blanks c hc), List.takeWhile_cons,
      if_pos (hp '\n' isBlank_feed)]
    exact .feed hbr ih

/-- A run that blanks stop is the same in both texts. -/
theorem takeWhile_eq (hp : ∀ c, isBlank c = true → p c = false) (h : Respaced loose t t') :
    t'.takeWhile p = t.takeWhile p := by
  induction h with
  | @nil b hb _ =>
    cases b with
    | nil => rfl
    | cons c b => simp [hp c (hb c (by simp))]
  | char _ _ ih => rw [List.takeWhile_cons, List.takeWhile_cons, ih]
  | feed hbr _ _ =>
    obtain ⟨c, tail, rfl, hc⟩ := hbr.exists_cons
    simp [hp c hc, hp '\n' isBlank_feed]

theorem trimStart_cases (h : Respaced loose t t') :
    (trimStart t = [] ∧ trimStart t' = []) ∨ ∃ c r r', trimStart t = c :: r ∧
      trimStart t' = c :: r' ∧ isBlank c = false ∧ Respaced loose r r' :=
  h.dropWhile_cases fun _ hc => hc

theorem trimStart (h : Respaced loose t t') : Respaced loose (trimStart t) (trimStart t') :=
  h.dropWhile fun _ hc => hc

/-- A run that line feeds stop may end among the blanks of a break, and these again are one. -/
theorem dropToFeed (hp : p '\n' = false) (h : Respaced loose t t') :
    Respaced loose (t.dropWhile p) (t'.dropWhile p) := by
  induction h with
  | nil hb hl =>
    refine .nil (fun c hc => hb c ((List.dropWhile_suffix _).subset hc)) fun hne => hl ?_
    rintro rfl
    exact hne rfl
  | char hc h ih =>
    rw [List.dropWhile_cons, List.dropWhile_cons]
    split
    · exact ih
    · exact .char hc h
  | @feed br t t' hbr h _ =>
    obtain ⟨tail, htail, hdrop⟩ := hbr.dropWhile hp t'
    rw [hdrop, List.dropWhile_cons_of_neg (by simp [hp])]
    exact .feed htail h

theorem wordBoundary_head (h : Respaced loose t t') :
    wordBoundary t'.head? = wordBoundary t.head? := by
  cases h with
  | nil hb _ =>
    cases t' with
    | nil => rfl
    | cons c b => simp [wordBoundary, isWordChar_of_isBlank (hb c (by simp))]
  | char _ _ => rfl
  | feed hbr _ =>
    obtain ⟨c, tail, rfl, hc⟩ := hbr.exists_cons
    simp [wordBoundary, isWordChar_of_isBlank hc, isWordChar_of_isBlank isBlank_feed]

end Respaced

/-! ## Reading steps -/

section Steps

variable {loose : Prop} {t t' : List Char}

theorem rel_bind {α β γ δ : Type} {R : α → β → Prop} {S : γ → δ → Prop}
    {x : Option α} {y : Option β} {f : α → Option γ} {g : β → Option δ}
    (h : Option.Rel R x y) (hfg : ∀ a b, R a b → Option.Rel S (f a) (g b)) :
    Option.Rel S (x.bind f) (y.bind g) := by
  cases h with
  | some h => exact hfg _ _ h
  | none => exact .none

theorem eq_none_of_rel {α β : Type} {R : α → β → Prop} {y : Option β}
    (h : Option.Rel R none y) : y = none := by
  cases h
  rfl

theorem exists_of_rel_some {α β : Type} {R : α → β → Prop} {a : α} {y : Option β}
    (h : Option.Rel R (some a) y) : ∃ b, y = some b ∧ R a b := by
  cases h with
  | some hab => exact ⟨_, rfl, hab⟩

theorem rel_isSome {α β : Type} {R : α → β → Prop} {x : Option α} {y : Option β}
    (h : Option.Rel R x y) : y.isSome = x.isSome := by
  cases h <;> rfl

theorem rel_orElse {α β : Type} {R : α → β → Prop} {x x₂ : Option α} {y y₂ : Option β}
    (h : Option.Rel R x y) (h₂ : Option.Rel R x₂ y₂) :
    Option.Rel R (x <|> x₂) (y <|> y₂) := by
  cases h with
  | some h => exact .some h
  | none => simpa using h₂

/-- Two hits alike: related values, and texts behind them that differ in their breaks only. -/
structure Hit.Alike {α β : Type} (R : α → β → Prop) (loose : Prop) (h : Hit α)
    (h' : Hit β) : Prop where
  value : R h.value h'.value
  rest : Respaced loose h.rest h'.rest

theorem isPrefixOf?_respaced {l : List Char} (hl : isBlankFree l = true) (h : Respaced loose t t') :
    Option.Rel (Respaced loose) (l.isPrefixOf? t) (l.isPrefixOf? t') := by
  induction l generalizing t t' with
  | nil => exact .some h
  | cons d l ih =>
    obtain ⟨hsolid, hl⟩ : isBlank d = false ∧ isBlankFree l = true := by
      simpa [isBlankFree] using hl
    have hd : ∀ c, isBlank c = true → (d == c) = false := by
      intro c hc
      have hne := bne_of_isBlank hc hsolid
      rw [bne_iff_ne] at hne
      exact beq_false_of_ne hne.symm
    cases h with
    | nil hb _ =>
      cases t' with
      | nil => exact .none
      | cons c b => simp [List.isPrefixOf?, hd c (hb c (by simp))]
    | @char c t t' _ h =>
      rw [List.isPrefixOf?, List.isPrefixOf?]
      split
      · exact ih hl h
      · exact .none
    | feed hbr _ =>
      obtain ⟨c, tail, rfl, hc⟩ := hbr.exists_cons
      simp [List.isPrefixOf?, hd c hc, hd '\n' isBlank_feed]

theorem after_respaced {literal : String} (hl : isBlankFree literal.toList = true)
    (h : Respaced loose t t') : Option.Rel (Respaced loose) (after literal t) (after literal t') :=
  isPrefixOf?_respaced hl h

theorem afterFirst_respaced {mark : Char} (hm : isBlank mark = false) (h : Respaced loose t t') :
    Option.Rel (Respaced loose) (afterFirst mark t) (afterFirst mark t') := by
  unfold afterFirst
  rcases h.dropWhile_cases fun _ hc => bne_of_isBlank hc hm with ⟨ht, ht'⟩ | ⟨c, r,
    r', ht, ht', _, hr⟩
  · rw [ht, ht']
    exact .none
  · rw [ht, ht']
    exact .some hr

theorem afterLast_blanks {inRun : Char → Bool} {mark : Char}
    (hrun : ∀ c, isBlank c = true → inRun c = true) (hm : isBlank mark = false) {b : List Char}
    (hb : ∀ c ∈ b, isBlank c = true) (rest : List Char) :
    afterLast inRun mark (b ++ rest) = afterLast inRun mark rest := by
  induction b with
  | nil => rfl
  | cons c b ih =>
    have hc := hb c (by simp)
    have hne : (c == mark) = false := by simpa using bne_of_isBlank hc hm
    rw [List.cons_append, afterLast, if_pos (hrun c hc), ih fun d hd => hb d (by simp [hd]), hne]
    cases afterLast inRun mark rest <;> rfl

theorem afterLast_respaced {inRun : Char → Bool} {mark : Char}
    (hrun : ∀ c, isBlank c = true → inRun c = true) (hm : isBlank mark = false)
    (h : Respaced loose t t') :
    Option.Rel (Respaced loose) (afterLast inRun mark t) (afterLast inRun mark t') := by
  induction h with
  | @nil b hb _ =>
    have hnone := afterLast_blanks hrun hm hb []
    rw [List.append_nil] at hnone
    rw [hnone]
    exact .none
  | @char c t t' _ h ih =>
    rw [afterLast, afterLast]
    split
    · generalize afterLast inRun mark t = x, afterLast inRun mark t' = y at ih
      cases ih with
      | some hr => exact .some hr
      | none =>
        dsimp only
        split
        · exact .some h
        · exact .none
    · exact .none
  | @feed br t t' hbr _ ih =>
    rw [afterLast_blanks hrun hm hbr.blanks]
    have hfeed : afterLast inRun mark ('\n' :: t) = afterLast inRun mark t :=
      afterLast_blanks hrun hm (b := ['\n']) (by simpa using isBlank_feed) t
    rw [hfeed]
    exact ih

/-- At the end of a text blanks may have been put where there were none, but nothing follows
them. -/
theorem afterBlanks_bind_respaced {α β : Type} {R : α → β → Prop}
    {f : List Char → Option α} {g : List Char → Option β} (hnil : g [] = none)
    (hfg : ∀ r r', Respaced loose r r' → Option.Rel R (f r) (g r')) (h : Respaced loose t t') :
    Option.Rel R ((afterBlanks t).bind f) ((afterBlanks t').bind g) := by
  have hblanks : ∀ {c tail}, isBlank c = true →
      afterBlanks (c :: tail) = some (trimStart tail) := by
    intro c tail hc
    rw [afterBlanks, if_pos hc]
  cases h with
  | nil hb _ =>
    cases t' with
    | nil => exact .none
    | cons c b =>
      have htrim : trimStart b = [] := List.dropWhile_eq_nil_iff.mpr fun d hd => hb d (by simp [hd])
      rw [hblanks (hb c (by simp)), Option.bind_some, htrim, hnil]
      exact .none
  | @char c t t' _ h =>
    rw [afterBlanks, afterBlanks]
    split
    · exact hfg _ _ h.trimStart
    · exact .none
  | @feed br t t' hbr h =>
    have hall := hbr.blanks
    obtain ⟨c, tail, rfl, hc⟩ := hbr.exists_cons
    have htrim : trimStart (tail ++ t') = trimStart t' :=
      List.dropWhile_append_of_pos fun d hd => hall d (by simp [hd])
    rw [hblanks isBlank_feed, List.cons_append, hblanks hc, htrim]
    exact hfg _ _ h.trimStart

theorem word?_respaced (h : Respaced loose t t') :
    Option.Rel (Hit.Alike Eq loose) (word? t) (word? t') := by
  have hp : ∀ c, isBlank c = true → isWordChar c = false := fun c => isWordChar_of_isBlank
  unfold word?
  rw [h.takeWhile_eq hp]
  split
  · exact .none
  · exact .some ⟨rfl, h.dropWhile hp⟩

/-- A word ends with a word character. -/
theorem word?_endsIn {w rest : List Char} (h : word? t = some ⟨w, rest⟩) :
    ∃ c, c :: rest <:+ t ∧ isWordChar c = true := by
  obtain ⟨rfl, hw, _⟩ := word?_eq_some_iff.mp h
  obtain ⟨init, c, rfl⟩ := List.eq_nil_or_concat w |>.resolve_left hw.ne_nil
  exact ⟨c, ⟨init, by simp⟩, hw.chars c (by simp)⟩

theorem isNameStart_of_isBlank {c : Char} (h : isBlank c = true) : isNameStart c = false := by
  rw [← Bool.not_eq_true]
  intro hstart
  have hword := isWordChar_of_isAscii (isAsciiWordChar_of_isNameStart hstart)
  rw [isWordChar_of_isBlank h] at hword
  cases hword

theorem name?_blank {prev : Option Char} {c : Char} (hc : isBlank c = true) (rest : List Char) :
    name? prev (c :: rest) = none := by
  rw [name?, isNameStart_of_isBlank hc, Bool.and_false]
  rfl

theorem name?_respaced {prev prev' : Option Char} (hprev : wordBoundary prev' = wordBoundary prev)
    (h : Respaced loose t t') :
    Option.Rel (Hit.Alike Eq loose) (name? prev t) (name? prev' t') := by
  cases h with
  | nil hb _ =>
    cases t' with
    | nil => exact .none
    | cons c b =>
      rw [name?_blank (hb c (by simp))]
      exact .none
  | char hc h =>
    rw [name?, name?, hprev]
    split
    · exact word?_respaced (.char hc h)
    · exact .none
  | feed hbr _ =>
    obtain ⟨c, tail, rfl, hc⟩ := hbr.exists_cons
    rw [name?_blank isBlank_feed, List.cons_append, name?_blank hc]
    exact .none

theorem contains_blanks {literal b : List Char} (hne : literal ≠ [])
    (hl : isBlankFree literal = true) (hb : ∀ c ∈ b, isBlank c = true) (rest : List Char) :
    contains literal (b ++ rest) = contains literal rest := by
  induction b with
  | nil => rfl
  | cons c b ih =>
    obtain ⟨d, literal, rfl⟩ := List.exists_cons_of_ne_nil hne
    have hne := bne_of_isBlank (hb c (by simp)) (isBlank_of_isBlankFree hl d (by simp))
    have hdc : (d == c) = false := beq_false_of_ne (bne_iff_ne.mp hne).symm
    rw [List.cons_append, contains, ih fun e he => hb e (by simp [he])]
    simp [List.isPrefixOf, hdc]

theorem contains_respaced {literal : List Char} (hne : literal ≠ [])
    (hl : isBlankFree literal = true) (h : Respaced loose t t') :
    contains literal t' = contains literal t := by
  induction h with
  | @nil b hb _ =>
    have hpad := contains_blanks hne hl hb []
    rw [List.append_nil] at hpad
    exact hpad
  | @char c t t' hc h ih =>
    have hprefix : literal.isPrefixOf (c :: t') = literal.isPrefixOf (c :: t) := by
      rw [← List.isSome_isPrefixOf?_eq_isPrefixOf, ← List.isSome_isPrefixOf?_eq_isPrefixOf]
      exact rel_isSome (isPrefixOf?_respaced hl h.cons)
    rw [contains, contains, hprefix, ih]
  | @feed br t t' hbr _ ih =>
    have hfeed : contains literal ('\n' :: t) = contains literal t :=
      contains_blanks hne hl (b := ['\n']) (by simpa using isBlank_feed) t
    rw [contains_blanks hne hl hbr.blanks, hfeed, ih]

end Steps

/-! ## Scans -/

namespace Shape

variable {α β : Type} {s : Shape α} {loose : Prop}

/-- Every hit ends with a character, and either all end with one of a word or none does. -/
def EndsIn (s : Shape α) (word : Bool) : Prop :=
  ∀ prev text h, s prev text = some h → ∃ c, c :: h.rest <:+ text ∧ isWordChar c = word

theorem EndsIn.split {word : Bool} (hs : s.EndsIn word) {prev : Option Char} {text : List Char}
    {h : Hit α} (hh : s prev text = some h) :
    ∃ taken, taken ≠ [] ∧ text = taken ++ h.rest ∧ wordBoundary taken.getLast? = !word := by
  obtain ⟨c, ⟨lead, htext⟩, hc⟩ := hs prev text h hh
  exact ⟨lead ++ [c], by simp, by simp [← htext], by simp [wordBoundary, hc]⟩

theorem EndsIn.consumes {word : Bool} (hs : s.EndsIn word) : s.Consumes := by
  intro prev text h hh
  obtain ⟨taken, hne, htext, _⟩ := hs.split hh
  exact ⟨taken, hne, htext⟩

/-- A shape that respects spacing starts at no blank, asks of the character before a place
only whether it is a word character, and does not tell respaced texts apart. -/
structure Respects (s : Shape α) (R : α → α → Prop) (loose : Prop) : Prop where
  blank : ∀ prev c rest, isBlank c = true → s prev (c :: rest) = none
  ends : ∃ word, s.EndsIn word
  alike : ∀ prev prev' t t', wordBoundary prev' = wordBoundary prev → Respaced loose t t' →
    Option.Rel (Hit.Alike R loose) (s prev t) (s prev' t')

/-- A shape whose hits start with no blank finds nothing at one. -/
theorem eq_none_of_isBlank
    (hs : ∀ prev c rest h, s prev (c :: rest) = some h → isBlank c = false) (prev : Option Char)
    (c : Char) (rest : List Char) (hc : isBlank c = true) : s prev (c :: rest) = none := by
  cases hh : s prev (c :: rest) with
  | none => rfl
  | some h =>
    rw [hs prev c rest h hh] at hc
    cases hc

theorem hits_blanks (hs : ∀ prev c rest, isBlank c = true → s prev (c :: rest) = none)
    {b : List Char} (hb : ∀ c ∈ b, isBlank c = true) (prev : Option Char) (rest : List Char) :
    s.hits prev (b ++ rest) = s.hits (b.getLast?.or prev) rest := by
  refine hits_pass fun lead here hsplit hne => ?_
  obtain ⟨c, here, rfl⟩ := List.exists_cons_of_ne_nil hne
  exact hs _ c _ (hb c (by simp [hsplit]))

theorem wordBoundary_blanks {b : List Char} (hb : ∀ c ∈ b, isBlank c = true)
    {prev : Option Char} (h : b ≠ [] ∨ wordBoundary prev = true) :
    wordBoundary (b.getLast?.or prev) = true :=
  wordBoundary_last (fun c hc => isWordChar_of_isBlank (hb c hc)) h

/-- **A scan does not see how line breaks are written.** -/
theorem hits_respaced {R : α → α → Prop} (hs : s.Respects R loose) {prev prev' : Option Char}
    {t t' : List Char} (hprev : wordBoundary prev' = wordBoundary prev) (h : Respaced loose t t') :
    List.Forall₂ R (s.hits prev t) (s.hits prev' t') := by
  obtain ⟨word, hends⟩ := hs.ends
  induction prev, t using scan_induct hends.consumes generalizing prev' t' with
  | nil prev =>
    cases h with
    | nil hb _ =>
      have hblank := hits_blanks hs.blank hb prev' []
      rw [List.append_nil, hits_nil] at hblank
      rw [hits_nil, hblank]
      exact .nil
  | hit prev taken v rest hne hv ih =>
    have hrel := hs.alike prev prev' _ t' hprev h
    rw [hv] at hrel
    obtain ⟨⟨v', rest'⟩, hv', hvalue, hrest⟩ := exists_of_rel_some hrel
    obtain ⟨taken₂, _, htext₂, hlast⟩ := hends.split hv
    obtain rfl : taken = taken₂ := List.append_cancel_right htext₂
    obtain ⟨taken', hne', rfl, hlast'⟩ := hends.split hv'
    rw [hits_hit hne hv, hits_hit hne' hv']
    exact .cons hvalue (ih (hlast'.trans hlast.symm) hrest)
  | plain prev c cs hc ih =>
    have hrel := hs.alike prev prev' _ t' hprev h
    rw [hc] at hrel
    have hnone : s prev' t' = none := eq_none_of_rel hrel
    rw [hits_plain hc]
    cases h with
    | char _ h =>
      rw [hits_plain hnone]
      exact ih rfl h
    | feed hbr h =>
      rw [hits_blanks hs.blank hbr.blanks]
      refine ih ?_ h
      obtain ⟨d, tail, hcons, _⟩ := hbr.exists_cons
      rw [wordBoundary_blanks hbr.blanks (.inl (by simp [hcons]))]
      decide

/-- Nor blanks before the text. -/
theorem occurrences_respaced {R : α → α → Prop} (hs : s.Respects R loose)
    {lead t t' : List Char} (hlead : ∀ c ∈ lead, isBlank c = true) (h : Respaced loose t t') :
    List.Forall₂ R (s.occurrences t) (s.occurrences (lead ++ t')) := by
  rw [occurrences_eq_hits, occurrences_eq_hits, hits_blanks hs.blank hlead]
  exact hits_respaced hs (wordBoundary_blanks hlead (.inr rfl)) h

theorem occurrences_respaced_eq (hs : s.Respects Eq loose) {lead t t' : List Char}
    (hlead : ∀ c ∈ lead, isBlank c = true) (h : Respaced loose t t') :
    s.occurrences (lead ++ t') = s.occurrences t := by
  have hrel := occurrences_respaced hs hlead h
  rw [List.forall₂_eq_eq_eq] at hrel
  exact hrel.symm

end Shape

end HeaderIndex.Text
