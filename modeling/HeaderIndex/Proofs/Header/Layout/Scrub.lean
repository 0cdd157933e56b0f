import HeaderIndex.Proofs.Header.Scrub
import HeaderIndex.Proofs.Text.Relaid

/-! Scrubbing a text that is laid out anew. Where a comment or a directive is dropped from one
text it is dropped from the other, and what is left is the one text laid out anew
(`dropComments_relaid`, `dropDirectives_relaid`). -/

namespace HeaderIndex.Header

open HeaderIndex.Text

variable {t t' : List Char}

/-! ## Comments -/

namespace Comment

theorem closeBlock_respaced (h : Respaced False t t') :
    Option.Rel (fun r r' => Respaced False r.rest r'.rest) (closeBlock t) (closeBlock t') := by
  have hclose : ∀ {text : List Char}, contains ['*', '/'] text = true ↔ ['*', '/'] <:+: text :=
    contains_iff
  have hsame : ∀ {a a' : List Char}, Respaced False a a' →
      (['*', '/'] <:+: a ↔ ['*', '/'] <:+: a') := by
    intro a a' ha
    rw [← hclose, ← hclose, contains_respaced (by simp) (by decide) ha]
  cases hc : closeBlock t with
  | none =>
    rw [closeBlock_eq_none_iff.mpr fun hi => closeBlock_eq_none_iff.mp hc ((hsame h).mpr hi)]
    exact .none
  | some r =>
    obtain ⟨body, rest⟩ := r
    obtain ⟨rfl, hbody⟩ := closeBlock_eq_some_iff.mp hc
    obtain ⟨body', r', rfl, hb, hr⟩ := h.split
    obtain ⟨rest', rfl, hrest⟩ := Respaced.split_line (y := ['*', '/']) (by decide) hr
    have hclosed : closeBlock (body' ++ (['*', '/'] ++ rest')) = some ⟨body', rest'⟩ :=
      closeBlock_eq_some_iff.mpr ⟨rfl, fun hi => hbody ((hsame hb).mpr hi)⟩
    rw [hclosed]
    exact .some hrest

theorem shape_eq_orElse (prev : Option Char) (text : List Char) : shape prev text =
    (((after "/*" text).bind closeBlock).map (fun h => ⟨.block h.value, h.rest⟩) <|>
      (after "//" text).map fun rest =>
        ⟨.line (rest.takeWhile (· != '\n')), rest.dropWhile (· != '\n')⟩) := by
  unfold shape
  split
  · rename_i rest
    have hblock : after "/*" ('/' :: '*' :: rest) = some rest := after_append "/*" rest
    have hline : after "//" ('/' :: '*' :: rest) = none := by simp [after, List.isPrefixOf?]
    rw [hblock, hline, Option.bind_some]
    cases closeBlock rest <;> rfl
  · rename_i rest
    have hblock : after "/*" ('/' :: '/' :: rest) = none := by simp [after, List.isPrefixOf?]
    have hline : after "//" ('/' :: '/' :: rest) = some rest := after_append "//" rest
    rw [hblock, hline]
    rfl
  · rename_i hnotBlock hnotLine
    have hblock : after "/*" text = none := by
      cases ha : after "/*" text with
      | none => rfl
      | some rest => exact absurd (after_eq_some_iff.mp ha) (hnotBlock rest)
    have hline : after "//" text = none := by
      cases ha : after "//" text with
      | none => rfl
      | some rest => exact absurd (after_eq_some_iff.mp ha) (hnotLine rest)
    rw [hblock, hline]
    rfl

/-- A comment leaves the same behind it in both texts. A line comment takes the blanks before
its line feed along. -/
theorem shape_respaced (prev : Option Char) (h : Respaced False t t') :
    Option.Rel (Hit.Alike (fun v v' => v.trace = v'.trace) False) (shape prev t)
      (shape prev t') := by
  rw [shape_eq_orElse, shape_eq_orElse]
  refine rel_orElse ?_ ?_
  · have hopen : Option.Rel (Respaced False) (after "/*" t) (after "/*" t') :=
      after_respaced (by decide) h
    have hblock := rel_bind hopen fun r r' hr => closeBlock_respaced hr
    generalize (after "/*" t).bind closeBlock = x, (after "/*" t').bind closeBlock = y at hblock
    cases hblock with
    | some hr => exact .some ⟨rfl, hr⟩
    | none => exact .none
  · have hline : Option.Rel (Respaced False) (after "//" t) (after "//" t') :=
      after_respaced (by decide) h
    generalize after "//" t = x, after "//" t' = y at hline
    cases hline with
    | some hr => exact .some ⟨rfl, hr.dropToFeed (by decide)⟩
    | none => exact .none

theorem dropComments_blanks {b : List Char} (hb : ∀ c ∈ b, isBlank c = true)
    (rest : List Char) : dropComments (b ++ rest) = b ++ dropComments rest := by
  induction b with
  | nil => rfl
  | cons c b ih =>
    have hc : c ≠ '/' := bne_iff_ne.mp (bne_of_isBlank (hb c (by simp)) (by decide))
    rw [List.cons_append, dropComments_plain hc, ih fun d hd =>
      hb d (by simp [hd]), List.cons_append]

theorem dropComments_respaced (h : Respaced False t t') :
    Respaced False (dropComments t) (dropComments t') := by
  rw [← replaced_eq_dropComments none t]
  generalize (none : Option Char) = prev
  induction prev, t using Shape.scan_induct shape_consumes generalizing t' with
  | nil prev =>
    rw [h.eq_nil]
    exact .nil_nil
  | hit prev taken v rest hne hv ih =>
    have hrel := shape_respaced prev h
    rw [hv] at hrel
    obtain ⟨⟨v', rest'⟩, hv', htrace, hrest⟩ := exists_of_rel_some hrel
    obtain ⟨rfl, hwell, hstop⟩ := shape_eq_some_iff.mp hv'
    rw [Shape.replaced_hit hne hv, dropComments_comment hwell hstop, ← htrace]
    exact (Respaced.refl v.trace).append (ih hrest)
  | plain prev c cs hc ih =>
    have hrel := shape_respaced prev h
    rw [hc] at hrel
    rw [Shape.replaced_plain hc]
    cases h with
    | @char c cs cs' hne h =>
      have hnone : shape prev (c :: cs') = none := eq_none_of_rel hrel
      rw [← replaced_eq_dropComments prev (c :: cs'), Shape.replaced_plain hnone,
        replaced_eq_dropComments (some c) cs']
      exact .char hne (ih h)
    | feed hbr h =>
      rw [dropComments_blanks hbr.blanks]
      exact .feed hbr (ih h)

theorem dropComments_relaid (h : Relaid t t') : Relaid (dropComments t) (dropComments t') := by
  obtain ⟨indent, s, rfl, hindent, h⟩ := h
  rw [dropComments_blanks fun c hc => isBlank_of_isIndent (hindent c hc)]
  exact ⟨indent, _, rfl, hindent, dropComments_respaced h⟩

end Comment

/-! ## Directives -/

def isDirective (line : List Char) : Bool := (line.dropWhile isIndent).head? == some '#'

theorem isDirective_pad {indent line trail : List Char}
    (hindent : ∀ c ∈ indent, isIndent c = true) (htrail : ∀ c ∈ trail, isBlank c = true) :
    isDirective (indent ++ (line ++ trail)) = isDirective line := by
  unfold isDirective
  rw [List.dropWhile_append_of_pos hindent, List.dropWhile_append]
  cases hline : line.dropWhile isIndent with
  | cons c rest => rfl
  | nil =>
    have hblank : (trail.dropWhile isIndent).head? ≠ some '#' := fun hhead => by
      have hm := (List.dropWhile_suffix isIndent).subset (List.mem_of_mem_head? hhead)
      exact absurd (htrail '#' hm) (by decide)
    simpa using hblank

theorem isDirective_blank {line : List Char} (h : ∀ c ∈ line, isBlank c = true) :
    isDirective line = false := by
  have hpad : isDirective ([] ++ ([] ++ line)) = isDirective [] := isDirective_pad (by simp) h
  exact hpad

theorem replaced_directive_inner {c : Char} (hc : c ≠ '\n') {line : List Char} (h : '\n' ∉ line)
    (rest : List Char) : directive.replaced (fun _ => []) (some c) (line ++ rest) =
      line ++ directive.replaced (fun _ => []) ((line.getLast?).or (some c)) rest := by
  induction line generalizing c with
  | nil => rfl
  | cons d line ih =>
    rw [List.mem_cons, not_or] at h
    have hnone : directive (some c) (d :: (line ++ rest)) = none :=
      directive_eq_none_iff.mpr (by simp [hc])
    rw [List.cons_append, Shape.replaced_plain hnone, ih (Ne.symm h.1) h.2,
      Shape.last_cons, List.cons_append]

/-- Behind the end of a line another line starts, or nothing. -/
theorem replaced_directive_end (prev : Option Char) {rest : List Char}
    (h : rest = [] ∨ ∃ below, rest = '\n' :: below) :
    directive.replaced (fun _ => []) prev rest = rest.take 1 ++ dropDirectives (rest.drop 1) := by
  rcases h with rfl | ⟨below, rfl⟩
  · rfl
  · have hstart : ∀ text, directive (some '\n') text = directive none text := fun text => rfl
    rw [Shape.replaced_plain (directive_seamed.lineFeed _ _), Shape.replaced,
      Shape.scan_congr hstart]
    rfl

/-- Directives are dropped line by line. -/
theorem dropDirectives_line {line rest : List Char} (h : '\n' ∉ line)
    (hrest : rest = [] ∨ ∃ below, rest = '\n' :: below) : dropDirectives (line ++ rest) =
      (if isDirective line then [] else line) ++ (rest.take 1 ++ dropDirectives (rest.drop 1)) := by
  have hhead : ((line ++ rest).dropWhile isIndent).head? = some '#' ↔
      isDirective line = true := by
    rw [isDirective, beq_iff_eq, List.dropWhile_append]
    cases line.dropWhile isIndent with
    | cons c tail => rfl
    | nil => rcases hrest with rfl | ⟨below, rfl⟩ <;> simp [isIndent]
  rw [dropDirectives, Shape.replace_eq_replaced]
  split
  · rename_i hdir
    obtain ⟨tail, htail⟩ := List.head?_eq_some_iff.mp (beq_iff_eq.mp hdir)
    have hline : line = line.takeWhile isIndent ++ '#' :: tail := by
      rw [← htail, List.takeWhile_append_dropWhile]
    have htailFeed : ∀ c ∈ tail, (c != '\n') = true := by
      intro c hc
      rw [bne_iff_ne]
      rintro rfl
      exact h (by rw [hline]; simp [hc])
    have hstop : StopsRun (· != '\n') rest := by
      rcases hrest with rfl | ⟨below, rfl⟩
      · exact stopsRun_nil _
      · exact stopsRun_cons.mpr (by decide)
    have hhit : directive none (line ++ rest) = some ⟨tail, rest⟩ := by
      have hdrop : (line ++ rest).dropWhile isIndent = '#' :: (tail ++ rest) := by
        rw [List.dropWhile_append, htail]
        rfl
      simp [directive, hdrop, takeWhile_run htailFeed hstop, dropWhile_run htailFeed hstop]
    have hne : line ≠ [] := by
      rintro rfl
      cases htail
    rw [Shape.replaced_hit hne hhit, replaced_directive_end _ hrest]
  · rename_i hdir
    have hnone : directive none (line ++ rest) = none :=
      directive_eq_none_iff.mpr fun _ hh => hdir (hhead.mp hh)
    cases line with
    | nil => exact replaced_directive_end none hrest
    | cons c line =>
      rw [List.mem_cons, not_or] at h
      rw [List.cons_append] at hnone ⊢
      rw [Shape.replaced_plain hnone, replaced_directive_inner (Ne.symm h.1) h.2,
        replaced_directive_end _ hrest, List.cons_append]

theorem dropDirectives_last {line : List Char} (h : '\n' ∉ line) :
    dropDirectives line = if isDirective line then [] else line := by
  have hline := dropDirectives_line h (.inl rfl)
  have hend : dropDirectives [] = [] := rfl
  rw [List.append_nil, List.take_nil, List.drop_nil, hend, List.append_nil,
    List.append_nil] at hline
  exact hline

theorem dropDirectives_blank {lines : List (List Char)} (h : ∀ line ∈ lines, IsBlankLine line)
    (rest : List Char) :
    dropDirectives (Lines.joined lines ++ rest) = Lines.joined lines ++ dropDirectives rest := by
  induction lines with
  | nil => rfl
  | cons line lines ih =>
    have hline := h line (by simp)
    rw [Lines.joined_cons, List.append_assoc, List.cons_append,
      dropDirectives_line hline.noFeed (.inr ⟨_, rfl⟩), isDirective_blank hline.blanks]
    simp [ih fun l hl => h l (by simp [hl])]

theorem dropDirectives_relaid (h : Relaid t t') :
    Relaid (dropDirectives t) (dropDirectives t') := by
  refine Relaid.line_induct
    (motive := fun t t' => Relaid (dropDirectives t) (dropDirectives t')) ?_ ?_ h
  · intro line indent hline hindent
    have hfeed : '\n' ∉ indent ++ line := by simp [hline, noFeed_of_isIndent hindent]
    have hsame : isDirective (indent ++ (line ++ [])) = isDirective line :=
      isDirective_pad hindent (by simp)
    rw [List.append_nil] at hsame
    rw [dropDirectives_last hline, dropDirectives_last hfeed, hsame]
    split
    · exact .of_respaced (.refl _)
    · exact ⟨indent, line, rfl, hindent, .refl _⟩
  · intro line indent trail blank rest rest' hline hindent htrail hblank _ ih
    have hfeed : '\n' ∉ indent ++ (line ++ trail) := by
      simp [hline, htrail.noFeed, noFeed_of_isIndent hindent]
    rw [dropDirectives_line hline (.inr ⟨rest, rfl⟩),
      dropDirectives_line hfeed (.inr ⟨_, rfl⟩), isDirective_pad hindent htrail.blanks]
    simp only [List.take_succ_cons, List.take_zero, List.drop_succ_cons, List.drop_zero,
      List.cons_append, List.nil_append, dropDirectives_blank hblank]
    split
    · have hempty : Relaid ([] ++ '\n' :: dropDirectives rest)
          ([] ++ ([] ++ []) ++ '\n' :: (Lines.joined blank ++ dropDirectives rest')) :=
        .of_line (by simp) isBlankLine_nil hblank ih
      exact hempty
    · exact .of_line hindent htrail hblank ih

end HeaderIndex.Header
