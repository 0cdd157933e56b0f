import HeaderIndex.Proofs.Header.Exclusion
import HeaderIndex.Proofs.Text.Words

/-! Whole words and identifiers. The identifiers of a text are its longest runs of ASCII word
characters. The search for a whole word goes over occurrences without overlap, so it passes over
those that start inside another. Such an occurrence has a character of the word before it, and
where the word has ASCII word characters only, it is not free. So the search misses no free one
(`mem_wordOccurrencesFrom`), and it succeeds just when the word is an identifier of the text
(`word_fires_iff_identifier`). -/

namespace HeaderIndex.Text

/-- A piece of a text that is cut at a class of characters has none of them, and goes up to
one, or to the end of the text, on each side. -/
theorem mem_splitOnP_iff {p : Char → Bool} {piece text : List Char} :
    piece ∈ text.splitOnP p ↔ (∀ c ∈ piece, p c = false) ∧ ∃ before behind,
      text = before ++ (piece ++ behind) ∧ before.getLast?.all p = true ∧
      behind.head?.all p = true := by
  constructor
  · intro h
    induction text using stop_induct p with
    | last text htext =>
      rw [List.splitOnP_eq_singleton htext, List.mem_singleton] at h
      subst h
      exact ⟨htext, [], [], by simp, rfl, rfl⟩
    | stopped part c rest hpart hc ih =>
      rw [List.splitOnP_append_cons part rest hc, List.splitOnP_eq_singleton hpart] at h
      rcases List.mem_cons.mp h with rfl | h
      · exact ⟨hpart, [], c :: rest, rfl, rfl, hc⟩
      · obtain ⟨hpiece, before, behind, rfl, hbefore, hbehind⟩ := ih h
        refine ⟨hpiece, part ++ c :: before, behind, by simp, ?_, hbehind⟩
        rw [List.getLast?_append_of_ne_nil part (List.cons_ne_nil c before), List.getLast?_cons]
        cases hlast : before.getLast? with
        | none => exact hc
        | some d => simpa [hlast] using hbefore
  · rintro ⟨hpiece, before, behind, rfl, hbefore, hbehind⟩
    have hfirst : piece ∈ (piece ++ behind).splitOnP p := by
      cases behind with
      | nil => simp [List.splitOnP_eq_singleton hpiece]
      | cons c behind =>
        simp [List.splitOnP_append_cons piece behind hbehind, List.splitOnP_eq_singleton hpiece]
    rcases List.eq_nil_or_concat' before with rfl | ⟨front, c, rfl⟩
    · exact hfirst
    · have hc : p c = true := by simpa using hbefore
      rw [List.append_assoc, List.singleton_append, List.splitOnP_append_cons front _ hc]
      exact List.mem_append_right _ hfirst

namespace Place

open HeaderIndex.Header

/-- The part is an occurrence in the text with no ASCII word character on either side. -/
structure IsFreeIn (p : Place) (text : List Char) : Prop where
  text_eq : text = p.before ++ (p.word ++ p.behind)
  start : isFree p.before.getLast? = true
  stop : isFree p.behind.head? = true

/-- Whether no ASCII word character stands on either side. -/
def isWhole (p : Place) : Bool := isFree p.before.getLast? && isFree p.behind.head?

end Place

end HeaderIndex.Text

namespace HeaderIndex.Header

open HeaderIndex.Text

/-! ## Identifiers -/

/-- The identifiers of a text: its pieces between characters that are of none. -/
def identifiers (text : List Char) : List (List Char) :=
  (text.splitOnP (!isAsciiWordChar ·)).filter (!·.isEmpty)

theorem isFree_eq_all (side : Option Char) : isFree side = side.all (!isAsciiWordChar ·) := by
  cases side <;> rfl

/-- An identifier is a run of ASCII word characters that none runs into or on from. -/
theorem mem_identifiers_iff {w text : List Char} :
    w ∈ identifiers text ↔ w ≠ [] ∧ (∀ c ∈ w, isAsciiWordChar c = true) ∧
      ∃ before behind, Place.IsFreeIn ⟨before, w, behind⟩ text := by
  rw [identifiers, List.mem_filter, mem_splitOnP_iff]
  constructor
  · rintro ⟨⟨hchars, before, behind, htext, hstart, hstop⟩, hne⟩
    rw [← isFree_eq_all] at hstart hstop
    exact ⟨by simpa using hne, by simpa using hchars, before, behind, htext, hstart, hstop⟩
  · rintro ⟨hne, hchars, before, behind, htext, hstart, hstop⟩
    rw [isFree_eq_all] at hstart hstop
    exact ⟨⟨by simpa using hchars, before, behind, htext, hstart, hstop⟩,
      by simpa using hne⟩

/-! ## Occurrences without overlap -/

/-- The occurrences of `w` in a text that stands behind `before`, from left to right without
overlap. The first `skip` characters are passed over. -/
def wordOccurrencesFrom (w : List Char) : Nat → List Char → List Char → List Place
  | 0, before, [] => if w.isEmpty then [⟨before, w, []⟩] else []
  | _ + 1, _, [] => []
  | skip + 1, before, c :: cs => wordOccurrencesFrom w skip (before ++ [c]) cs
  | 0, before, c :: cs =>
    match w.isPrefixOf? (c :: cs) with
    | some rest => ⟨before, w, rest⟩ :: wordOccurrencesFrom w (w.length - 1) (before ++ [c]) cs
    | none => wordOccurrencesFrom w 0 (before ++ [c]) cs

def wordOccurrences (w text : List Char) : List Place := wordOccurrencesFrom w 0 [] text

theorem hasWholeWord_eq_any (w : List Char) (skip : Nat) (before text : List Char) :
    hasWholeWord w skip before.getLast? text = (wordOccurrencesFrom w skip before text).any
      Place.isWhole := by
  induction text generalizing skip before with
  | nil =>
    cases skip with
    | zero => cases w <;> simp [hasWholeWord, wordOccurrencesFrom, Place.isWhole, isFree]
    | succ skip => rfl
  | cons c cs ih =>
    have hnext : ∀ n, hasWholeWord w n (some c) cs =
        (wordOccurrencesFrom w n (before ++ [c]) cs).any Place.isWhole := by
      intro n
      rw [← ih, List.getLast?_concat]
    cases skip with
    | succ skip => exact hnext skip
    | zero =>
      rw [hasWholeWord, wordOccurrencesFrom]
      cases w.isPrefixOf? (c :: cs) with
      | none => exact hnext 0
      | some rest =>
        simp only [List.any_cons, hnext]
        rfl

/-- What ends in no ASCII word character is not shorter than a word that starts as it does. -/
theorem length_le_of_isFree {w lead rest tail : List Char}
    (hw : ∀ c ∈ w, isAsciiWordChar c = true) (hne : lead ≠ [])
    (hfree : isFree lead.getLast? = true) (h : w ++ rest = lead ++ tail) :
    w.length ≤ lead.length := by
  rcases List.append_eq_append_iff.mp h with ⟨more, rfl, _⟩ | ⟨more, rfl, _⟩
  · simp
  · have hlast : lead.getLast?.any isAsciiWordChar = false := by simpa [isFree] using hfree
    exact absurd (List.prefix_append lead more) (not_prefix_of_stop hw hne hlast)

/-- An occurrence with no ASCII word character before it is taken, if the search does not pass
over its start. -/
theorem mem_wordOccurrencesFrom {w : List Char} (hne : w ≠ [])
    (hw : ∀ c ∈ w, isAsciiWordChar c = true) {skip : Nat} (before : List Char)
    {lead : List Char} (hskip : skip ≤ lead.length)
    (hfree : isFree (before ++ lead).getLast? = true) (rest : List Char) :
    ⟨before ++ lead, w, rest⟩ ∈ wordOccurrencesFrom w skip before (lead ++ (w ++ rest)) := by
  induction lead generalizing skip before with
  | nil =>
    obtain rfl : skip = 0 := Nat.le_zero.mp hskip
    have hhere : w.isPrefixOf? (w ++ rest) = some rest :=
      List.isPrefixOf?_eq_some_iff_append_eq.mpr rfl
    obtain ⟨c, cs, rfl⟩ := List.exists_cons_of_ne_nil hne
    rw [List.cons_append] at hhere
    simp [wordOccurrencesFrom, hhere]
  | cons c lead ih =>
    have hnext : ∀ {n}, n ≤ lead.length →
        ⟨before ++ c :: lead, w, rest⟩ ∈ wordOccurrencesFrom w n (before ++ [c])
          (lead ++ (w ++ rest)) := by
      intro n hn
      rw [List.append_cons before c lead] at hfree ⊢
      exact ih (before ++ [c]) hn hfree
    cases skip with
    | succ skip => exact hnext (Nat.le_of_succ_le_succ hskip)
    | zero =>
      rw [List.cons_append, wordOccurrencesFrom]
      cases hhere : w.isPrefixOf? (c :: (lead ++ (w ++ rest))) with
      | none => exact hnext (Nat.zero_le _)
      | some rest' =>
        -- the occurrence here ends before the free one starts, or it would run into that
        have htext : w ++ rest' = (c :: lead) ++ (w ++ rest) :=
          List.isPrefixOf?_eq_some_iff_append_eq.mp hhere
        rw [List.getLast?_append_of_ne_nil before (List.cons_ne_nil c lead)] at hfree
        have hlen := length_le_of_isFree hw (List.cons_ne_nil c lead) hfree htext
        exact List.mem_cons_of_mem _ (hnext (Nat.sub_le_of_le_add hlen))

/-- **A rule for a word fires just when the word is an identifier of the text.** The search goes
over occurrences from left to right without overlap, and every occurrence that is free on both
sides is among them. -/
theorem word_fires_iff_identifier {word : String} (hne : word ≠ "")
    (hword : ∀ c ∈ word.toList, isAsciiWordChar c = true) (text : List Char) :
    ((Rule.word word).fires text = true ↔ word.toList ∈ identifiers text) ∧
    (Rule.word word).fires text = (wordOccurrences word.toList text).any Place.isWhole ∧
    ∀ before behind, Place.IsFreeIn ⟨before, word.toList, behind⟩ text →
      ⟨before, word.toList, behind⟩ ∈ wordOccurrences word.toList text := by
  have hchars : word.toList ≠ [] := fun h => hne (String.toList_eq_nil_iff.mp h)
  have hany : (Rule.word word).fires text = (wordOccurrences word.toList text).any Place.isWhole :=
    hasWholeWord_eq_any word.toList 0 [] text
  have htaken : ∀ before behind, Place.IsFreeIn ⟨before, word.toList, behind⟩ text →
      ⟨before, word.toList, behind⟩ ∈ wordOccurrences word.toList text := by
    rintro before behind ⟨rfl, hstart, -⟩
    exact mem_wordOccurrencesFrom hchars hword [] (Nat.zero_le _) hstart behind
  refine ⟨?_, hany, htaken⟩
  rw [mem_identifiers_iff]
  constructor
  · intro h
    obtain ⟨before, behind, htext, hstart, hstop⟩ := hasWholeWord_eq_true h
    rw [Option.or_none] at hstart
    exact ⟨hchars, hword, before, behind, htext, hstart, hstop⟩
  · rintro ⟨_, _, before, behind, hfree⟩
    rw [hany, List.any_eq_true]
    exact ⟨_, htaken before behind hfree,
      Bool.and_eq_true_iff.mpr ⟨hfree.start, hfree.stop⟩⟩

/-- The second occurrence in `aaa` is passed over; the free one has no ASCII character beside it. -/
theorem word_fires_iff_identifier_behind_overlap :
    "aa" ≠ "" ∧ (∀ c ∈ "aa".toList, isAsciiWordChar c = true) ∧
      "aa".toList ∈ identifiers "aaa éaa€".toList ∧
      (Rule.word "aa").fires "aaa éaa€".toList = true := by
  have hword : ∀ c ∈ "aa".toList, isAsciiWordChar c = true := List.all_eq_true.mp (by decide)
  have hmem : "aa".toList ∈ identifiers "aaa éaa€".toList := by decide +kernel
  exact ⟨by decide, hword, hmem, (word_fires_iff_identifier (by decide) hword _).1.mpr hmem⟩

-- with other characters in it, a literal can be free where an occurrence before it overlaps it
example :
    (Rule.word "-.-").fires "a-.-.-".toList = false ∧
      Place.isWhole ⟨"a-.".toList, "-.-".toList, []⟩ = true := by
  decide +kernel

end HeaderIndex.Header
