import HeaderIndex.Proofs.Text.Scan
import HeaderIndex.Text.Reading

/-! Replacements that splice nothing. Where a hit leaves a blank, the text before
it and the text behind it stay apart; where it leaves nothing, it has run to the
end of its line, and the line feed keeps them apart. So a run of characters
without blanks and line feeds that stands in the replaced text stands, whole and
outside every hit, in the text itself (`replaced_split`). -/

namespace HeaderIndex.Text.Shape

variable {α : Type} {s : Shape α} {f : α → List Char}

/-- Neither a blank that a hit may leave nor the line feed that may follow a hit. -/
def isFirm (c : Char) : Bool := c != ' ' && c != '\n'

theorem isFirm_of_isWordChar {c : Char} (h : isWordChar c = true) : isFirm c = true := by
  have hs : c ≠ ' ' := by rintro rfl; exact absurd h (by decide)
  have hn : c ≠ '\n' := by rintro rfl; exact absurd h (by decide)
  simp [isFirm, hs, hn]

/-- A hit leaves a blank or nothing, it runs to the end of its line in the second
case, and it runs into no word at either edge. -/
structure Seamed (s : Shape α) (f : α → List Char) : Prop where
  consumes : s.Consumes
  leaves : ∀ v, f v = [' '] ∨ f v = []
  toLineEnd : ∀ prev text v rest, s prev text = some ⟨v, rest⟩ → f v = [] →
    rest = [] ∨ ∃ below, rest = '\n' :: below
  lineFeed : ∀ prev below, s prev ('\n' :: below) = none
  opens : ∀ prev c cs h, s prev (c :: cs) = some h → isWordChar c = false
  closes : ∀ prev taken v rest, s prev (taken ++ rest) = some ⟨v, rest⟩ → f v = [' '] →
    wordBoundary taken.getLast? = true

/-- A firm character at the front of the replaced text was passed as a plain one. -/
theorem Seamed.replaced_eq_cons (hs : s.Seamed f) {prev : Option Char} {text q : List Char}
    {c : Char} (hc : isFirm c = true) (h : s.replaced f prev text = c :: q) :
    ∃ cs, text = c :: cs ∧ s prev (c :: cs) = none ∧ s.replaced f (some c) cs = q := by
  cases text with
  | nil => simp at h
  | cons d cs =>
    cases hd : s prev (d :: cs) with
    | none =>
      rw [replaced_plain hd] at h
      obtain ⟨rfl, hq⟩ := List.cons.inj h
      exact ⟨cs, rfl, hd, hq⟩
    | some r =>
      exfalso
      obtain ⟨taken, hne, htext⟩ := hs.consumes _ _ _ hd
      obtain ⟨v, rest⟩ := r
      have hend := hs.toLineEnd _ _ _ _ hd
      rw [htext] at hd h
      rw [replaced_hit hne hd] at h
      rcases hs.leaves v with hv | hv <;> rw [hv] at h
      · obtain ⟨rfl, _⟩ := List.cons.inj h
        simp [isFirm] at hc
      · rcases hend hv with rfl | ⟨below, rfl⟩
        · simp at h
        · rw [List.nil_append, replaced_plain (hs.lineFeed _ _)] at h
          obtain ⟨rfl, _⟩ := List.cons.inj h
          simp [isFirm] at hc

theorem Seamed.replaced_eq_run (hs : s.Seamed f) {prev : Option Char} {text w q : List Char}
    (hw : ∀ c ∈ w, isFirm c = true) (h : s.replaced f prev text = w ++ q) :
    ∃ post, text = w ++ post ∧
      s.scan 0 prev text = w.map .plain ++ s.scan 0 (w.getLast?.or prev) post ∧
      s.replaced f (w.getLast?.or prev) post = q := by
  induction w generalizing prev text with
  | nil => exact ⟨text, rfl, by simp, by simpa using h⟩
  | cons c w ih =>
    obtain ⟨cs, rfl, hnone, hq⟩ := hs.replaced_eq_cons (hw c (by simp)) h
    obtain ⟨post, rfl, hscan, hpost⟩ := ih (fun d hd => hw d (by simp [hd])) hq
    refine ⟨post, rfl, ?_, ?_⟩
    · rw [scan_plain hnone, hscan, last_cons, List.map_cons, List.cons_append]
    · rw [last_cons, hpost]

/-- A word boundary at the front of the replaced text is one at the front of the text. -/
theorem Seamed.wordBoundary_head (hs : s.Seamed f) {prev : Option Char} {text : List Char}
    (h : wordBoundary (s.replaced f prev text).head? = true) : wordBoundary text.head? = true := by
  cases text with
  | nil => rfl
  | cons c cs =>
    cases hc : s prev (c :: cs) with
    | none => rw [replaced_plain hc] at h; simpa using h
    | some r => simp [wordBoundary, hs.opens _ _ _ _ hc]

/-- The run `w` of the replaced text, with `p` before it and `q` behind it, stands in the text
outside every hit. Its edges are word boundaries there wherever they are in the replaced text. -/
def StandsApart (s : Shape α) (prev : Option Char) (text p w q : List Char) : Prop :=
  ∃ before pre post, text = pre ++ (w ++ post) ∧
    s.scan 0 prev text = before ++ (w.map .plain ++ s.scan 0 w.getLast? post) ∧
    (wordBoundary q.head? = true → wordBoundary post.head? = true) ∧
    (wordBoundary (p.getLast?.or prev) = true → wordBoundary (pre.getLast?.or prev) = true)

theorem StandsApart.behind_hit {prev : Option Char} {taken rest p p' w q : List Char} {v : α}
    (h : s.StandsApart taken.getLast? rest p' w q) (htaken : taken ≠ [])
    (hv : s prev (taken ++ rest) = some ⟨v, rest⟩)
    (hedge : wordBoundary (p.getLast?.or prev) = true →
      wordBoundary (p'.getLast?.or taken.getLast?) = true) :
    s.StandsApart prev (taken ++ rest) p w q := by
  obtain ⟨before, pre, post, hrest, hbefore, hright, hleft⟩ := h
  refine ⟨.hit v :: before, taken ++ pre, post, by simp [hrest], ?_, hright, ?_⟩
  · rw [scan_hit htaken hv, hbefore, List.cons_append]
  · rw [last_append, last_of_ne_nil htaken]
    exact fun hp => hleft (hedge hp)

theorem StandsApart.behind_plain {prev : Option Char} {c : Char} {cs p w q : List Char}
    (h : s.StandsApart (some c) cs p w q) (hc : s prev (c :: cs) = none) :
    s.StandsApart prev (c :: cs) (c :: p) w q := by
  obtain ⟨before, pre, post, htext, hbefore, hright, hleft⟩ := h
  refine ⟨.plain c :: before, c :: pre, post, by simp [htext], ?_, hright, ?_⟩
  · rw [scan_plain hc, hbefore, List.cons_append]
  · rw [last_cons, last_cons]
    exact hleft

/-- **A firm run of the replaced text stands in the text, outside every hit.** -/
theorem Seamed.replaced_split (hs : s.Seamed f) {prev : Option Char} {text p w q : List Char}
    (hne : w ≠ []) (hw : ∀ c ∈ w, isFirm c = true)
    (h : s.replaced f prev text = p ++ (w ++ q)) : s.StandsApart prev text p w q := by
  obtain ⟨c₀, w₀, hw₀⟩ := List.exists_cons_of_ne_nil hne
  have hfirm : isFirm c₀ = true := hw c₀ (by simp [hw₀])
  induction prev, text using scan_induct hs.consumes generalizing p with
  | nil prev => simp [hne] at h
  | hit prev taken v rest htaken hv ih =>
    rw [replaced_hit htaken hv] at h
    rcases hs.leaves v with hfv | hfv <;> rw [hfv] at h
    · -- the blank is no part of the run, so it is the first character of `p`
      cases p with
      | nil =>
        rw [hw₀] at h
        obtain ⟨rfl, _⟩ := List.cons.inj h
        exact absurd hfirm (by decide)
      | cons d p =>
        obtain ⟨rfl, htail⟩ := List.cons.inj h
        refine (ih htail).behind_hit htaken hv fun hp => ?_
        rw [last_cons] at hp
        cases hl : p.getLast? with
        | none => exact hs.closes _ _ _ _ hv hfv
        | some e => simpa [hl] using hp
    · -- the hit runs to a line feed, which is the first character of `p`
      have hp : p ≠ [] := by
        rintro rfl
        rw [hw₀] at h
        obtain ⟨cs, rfl, _, _⟩ := hs.replaced_eq_cons hfirm h
        rcases hs.toLineEnd _ _ _ _ hv hfv with hnil | ⟨below, hfeed⟩
        · cases hnil
        · obtain ⟨rfl, _⟩ := List.cons.inj hfeed
          exact absurd hfirm (by decide)
      refine (ih h).behind_hit htaken hv fun hedge => ?_
      rwa [last_of_ne_nil hp] at hedge ⊢
  | plain prev c cs hc ih =>
    cases p with
    | nil =>
      obtain ⟨post, htext, hscan, hpost⟩ := hs.replaced_eq_run hw h
      rw [last_of_ne_nil hne] at hscan hpost
      refine ⟨[], [], post, by simp [htext], by simp [hscan], ?_, fun hp => hp⟩
      intro hq
      rw [← hpost] at hq
      exact hs.wordBoundary_head hq
    | cons d p =>
      rw [replaced_plain hc] at h
      obtain ⟨rfl, htail⟩ := List.cons.inj h
      exact (ih htail).behind_plain hc

theorem Seamed.infix_of_replaced (hs : s.Seamed f) {prev : Option Char} {text w : List Char}
    (hne : w ≠ []) (hw : ∀ c ∈ w, isFirm c = true) (h : w <:+: s.replaced f prev text) :
    w <:+: text := by
  obtain ⟨p, q, hpq⟩ := h
  rw [List.append_assoc] at hpq
  obtain ⟨_, pre, post, htext, _⟩ := hs.replaced_split hne hw hpq.symm
  exact ⟨pre, post, by rw [htext, List.append_assoc]⟩

end HeaderIndex.Text.Shape
