import HeaderIndex.Header.Extract
import HeaderIndex.Proofs.Text.Reading
import HeaderIndex.Proofs.Text.Scan
import Mathlib.Data.Option.Basic

/-! What each search reads at one place: the text of a hit, part by part, and what
it takes from it. -/

namespace HeaderIndex.Header

open HeaderIndex.Text

/-! ## Macros, classes, protocols -/

theorem Define.shape_eq_some_iff {prev : Option Char} {text name rest : List Char} :
    Define.shape prev text = some ⟨name, rest⟩ ↔ ∃ indent blanks,
      text = "#".toList ++ (indent ++ ("define".toList ++ (blanks ++ (name ++ rest)))) ∧
      (∀ c ∈ indent, isIndent c = true) ∧ blanks ≠ [] ∧
        (∀ c ∈ blanks, isBlank c = true) ∧
      IsWord name ∧ wordBoundary rest.head? = true := by
  unfold Define.shape
  simp only [Option.bind_eq_bind, Option.bind_eq_some_iff, after_eq_some_iff]
  constructor
  · rintro ⟨r₁, rfl, r₂, hdefine, r₃, hblanks, hword⟩
    obtain ⟨blanks, hne, hb, rfl⟩ := afterBlanks_eq_some hblanks
    obtain ⟨rfl, hw, hend⟩ := word?_eq_some_iff.mp hword
    refine ⟨r₁.takeWhile isIndent, blanks, ?_, fun c hc => of_mem_takeWhile hc,
      hne, hb, hw, hend⟩
    rw [← hdefine, List.takeWhile_append_dropWhile]
  · rintro ⟨indent, blanks, rfl, hi, hne, hb, hw, hend⟩
    refine ⟨_, rfl, blanks ++ (name ++ rest), ?_, name ++ rest, ?_, ?_⟩
    · exact dropWhile_run hi (stopsRun_cons.mpr (by decide))
    · exact afterBlanks_run hne hb (hw.stopsBlanks rest)
    · exact word?_eq_some_iff.mpr ⟨rfl, hw, hend⟩

theorem Interface.shape_eq_some_iff {prev : Option Char} {text name rest : List Char} :
    Interface.shape prev text = some ⟨name, rest⟩ ↔ ∃ blanks gap,
      text = "@interface".toList ++ (blanks ++ (name ++ (gap ++ (":".toList ++ rest)))) ∧
      (∀ c ∈ blanks, isBlank c = true) ∧ IsWord name ∧
      (∀ c ∈ gap, isBlank c = true) := by
  unfold Interface.shape
  simp only [Option.bind_eq_bind, Option.bind_eq_some_iff, after_eq_some_iff, Option.pure_def,
    Option.some.injEq, Hit.mk.injEq]
  constructor
  · rintro ⟨r₁, rfl, ⟨w, r₂⟩, hword, r₃, hcolon, rfl, rfl⟩
    obtain ⟨blanks, hb, hr₁⟩ := trimStart_eq r₁
    obtain ⟨gap, hg, hr₂⟩ := trimStart_eq r₂
    obtain ⟨htrim, hw, _⟩ := word?_eq_some_iff.mp hword
    exact ⟨blanks, gap, by rw [hr₁, htrim, hr₂, hcolon], hb, hw, hg⟩
  · rintro ⟨blanks, gap, rfl, hb, hw, hg⟩
    refine ⟨_, rfl, ⟨name, gap ++ (":".toList ++ rest)⟩, ?_, rest, ?_, rfl, rfl⟩
    · rw [trimStart_run hb (hw.stopsBlanks _)]
      exact word?_eq_some_iff.mpr ⟨rfl, hw, wordBoundary_of_isBlank hg rfl⟩
    · exact trimStart_run hg (stopsRun_cons.mpr (by decide))

theorem Protocol.shape_eq_some_iff {prev : Option Char} {text name rest : List Char}
    {defines : Bool} :
    Protocol.shape prev text = some ⟨(name, defines), rest⟩ ↔ ∃ blanks,
      text = "@protocol".toList ++ (blanks ++ (name ++ rest)) ∧
      (∀ c ∈ blanks, isBlank c = true) ∧ IsWord name ∧ wordBoundary rest.head? = true ∧
      Protocol.continues rest = defines := by
  unfold Protocol.shape
  simp only [Option.bind_eq_bind, Option.bind_eq_some_iff, after_eq_some_iff, Option.pure_def,
    Option.some.injEq, Hit.mk.injEq, Prod.mk.injEq]
  constructor
  · rintro ⟨r₁, rfl, ⟨w, r₂⟩, hword, ⟨rfl, hcont⟩, rfl⟩
    obtain ⟨blanks, hb, hr₁⟩ := trimStart_eq r₁
    obtain ⟨htrim, hw, hend⟩ := word?_eq_some_iff.mp hword
    exact ⟨blanks, by rw [hr₁, htrim], hb, hw, hend, hcont⟩
  · rintro ⟨blanks, rfl, hb, hw, hend, hcont⟩
    refine ⟨_, rfl, ⟨name, rest⟩, ?_, ⟨rfl, hcont⟩, rfl⟩
    rw [trimStart_run hb (hw.stopsBlanks _)]
    exact word?_eq_some_iff.mpr ⟨rfl, hw, hend⟩

/-! ## Constants -/

theorem Constant.shape_eq_some_iff {prev : Option Char} {text name rest : List Char} :
    Constant.shape prev text = some ⟨name, rest⟩ ↔ wordBoundary prev = true ∧ ∃ filler,
      text = name ++ (filler ++ (";".toList ++ rest)) ∧ IsWord name ∧
      (∀ c ∈ filler, Constant.isFiller c = true) ∧
      wordBoundary (filler ++ (";".toList ++ rest)).head? = true := by
  unfold Constant.shape
  simp only [Option.bind_eq_bind, Option.bind_eq_some_iff, Option.guard_eq_some', after_eq_some_iff,
    Option.pure_def, Option.some.injEq, Hit.mk.injEq, exists_const]
  refine and_congr_right fun _ => ?_
  constructor
  · rintro ⟨⟨w, r₁⟩, hword, r₂, hsemi, rfl, rfl⟩
    obtain ⟨rfl, hw, hend⟩ := word?_eq_some_iff.mp hword
    have hr₁ : r₁ = r₁.takeWhile isFiller ++ (";".toList ++ r₂) := by
      rw [← hsemi, List.takeWhile_append_dropWhile]
    exact ⟨_, congrArg _ hr₁, hw, fun c hc => of_mem_takeWhile hc, hr₁ ▸ hend⟩
  · rintro ⟨filler, rfl, hw, hf, hend⟩
    refine ⟨⟨name, filler ++ (";".toList ++ rest)⟩, word?_eq_some_iff.mpr ⟨rfl, hw, hend⟩,
      rest, ?_, rfl, rfl⟩
    exact dropWhile_run hf (stopsRun_cons.mpr (by decide))

/-! ## Declarations with a body -/

theorem Braced.body?_eq_some_iff {text body rest : List Char} :
    Braced.body? text = some ⟨body, rest⟩ ↔ ∃ gap,
      text = gap ++ '\x7b' :: (body ++ '\x7d' :: rest) ∧
      (∀ c ∈ gap, (c != '\x7b' && c != ';') = true) ∧ body ≠ [] ∧ '\x7d' ∉ body := by
  unfold Braced.body?
  constructor
  · intro h
    split at h
    · rename_i inner hgap
      have hinner : inner = body ++ '\x7d' :: rest ∧ body ≠ [] ∧ '\x7d' ∉ body := by
        split at h
        · cases h
        · cases h
        · rename_i c tail hdrop hne
          obtain ⟨rfl, rfl⟩ : inner.takeWhile (· != '\x7d') = body ∧ tail = rest := by
            simpa using h
          have hc := stopsRun_dropWhile (· != '\x7d') inner c (by rw [hdrop]; rfl)
          have hc : c = '\x7d' := by simpa using hc
          refine ⟨?_, hne, fun hm => by simpa using of_mem_takeWhile hm⟩
          rw [← hc, ← hdrop, hc, List.takeWhile_append_dropWhile]
      obtain ⟨rfl, hne, hbody⟩ := hinner
      refine ⟨text.takeWhile fun c => c != '\x7b' && c != ';', ?_, fun c hc =>
        of_mem_takeWhile hc, hne, hbody⟩
      rw [← hgap, List.takeWhile_append_dropWhile]
    · cases h
  · rintro ⟨gap, rfl, hgap, hne, hbody⟩
    rw [dropWhile_run hgap (stopsRun_cons.mpr (by decide))]
    have hb : ∀ c ∈ body, (c != '\x7d') = true := run_of_not_mem hbody
    have hstop : StopsRun (· != '\x7d') ('\x7d' :: rest) := stopsRun_cons.mpr (by decide)
    simp only [takeWhile_run hb hstop, dropWhile_run hb hstop]

/-- A body opens at the first brace. -/
theorem Braced.dropWhile_of_body? {head : List Char} {inner : Hit (List Char)}
    (h : Braced.body? head = some inner) :
    head.dropWhile (· != '\x7b') = '\x7b' :: (inner.value ++ '\x7d' :: inner.rest) := by
  obtain ⟨gap, rfl, hgap, _⟩ := Braced.body?_eq_some_iff.mp h
  have hrun : ∀ c ∈ gap, (c != '\x7b') = true :=
    fun c hc => (Bool.and_eq_true_iff.mp (hgap c hc)).1
  exact dropWhile_run hrun (stopsRun_cons.mpr (by decide))

theorem Braced.tail?_eq_some {text rest : List Char} {name : Option (List Char)}
    (h : Braced.tail? text = some ⟨name, rest⟩) :
    ∃ taken, text = taken ++ ";".toList ++ rest ∧ ∀ w, name = some w → ∃ run tail,
      text = run ++ (w ++ tail) ∧ (∀ c ∈ run, (!isWordChar c) = true) ∧ IsWord w ∧
      wordBoundary tail.head? = true := by
  simp only [Braced.tail?] at h
  split at h
  · obtain ⟨r, hr, he⟩ := Option.map_eq_some_iff.mp h
    obtain ⟨rfl, rfl⟩ : none = name ∧ r = rest := by simpa using he
    obtain ⟨run, _, rfl⟩ := afterFirst_eq_some_iff.mp hr
    exact ⟨run, by simp, by simp⟩
  · simp only [Option.bind_eq_bind, Option.bind_eq_some_iff, Option.pure_def, Option.some.injEq,
      Hit.mk.injEq] at h
    obtain ⟨⟨w, r₁⟩, hword, r₂, hlast, rfl, rfl⟩ := h
    obtain ⟨run, rfl, hrun, hw, hend⟩ := word?_dropWhile_eq_some_iff.mp hword
    obtain ⟨run', rfl⟩ := afterLast_eq_some hlast
    refine ⟨run ++ (w ++ run'), by simp, ?_⟩
    rintro w' ⟨⟩
    exact ⟨run, _, rfl, hrun, hw, hend⟩

theorem Braced.trailing_eq_some_iff {keyword : String} {prev : Option Char} {text rest : List Char}
    {d : Braced} : Braced.trailing keyword prev text = some ⟨d, rest⟩ ↔
      wordBoundary prev = true ∧
      ∃ tail behind, text = keyword.toList ++ tail ∧ wordBoundary tail.head? = true ∧
        Braced.body? tail = some ⟨d.body, behind⟩ ∧
          Braced.tail? behind = some ⟨d.name, rest⟩ ∧
        d.gap = tail.takeWhile (· != '\x7b') := by
  unfold Braced.trailing
  simp only [Option.bind_eq_bind, Option.bind_eq_some_iff, Option.guard_eq_some', after_eq_some_iff,
    Option.pure_def, Option.some.injEq, Hit.mk.injEq, exists_const]
  refine and_congr_right fun _ => ?_
  constructor
  · rintro ⟨tail, rfl, hb, ⟨body, behind⟩, hbody, ⟨name, r⟩, htail, rfl, rfl⟩
    exact ⟨tail, behind, rfl, hb, hbody, htail, rfl⟩
  · rintro ⟨tail, behind, rfl, hb, hbody, htail, hgap⟩
    exact ⟨tail, rfl, hb, ⟨d.body, behind⟩, hbody, ⟨d.name, rest⟩, htail,
      by rw [← hgap], rfl⟩

/-- The arguments of a macro call: up to an opening parenthesis, a word, up to a comma,
the name, and up to a closing parenthesis. -/
inductive Enumeration.Arguments : List Char → List Char → List Char → Prop
  | mk {r₁ r₂ backing r₃ r₄ name r₅ behind : List Char} : '(' ∉ r₁ →
      (∀ c ∈ r₂, (!isWordChar c) = true) → IsWord backing →
      wordBoundary (r₃.head?.or (some ',')) = true → ',' ∉ r₃ →
      (∀ c ∈ r₄, (!isWordChar c) = true) → IsWord name →
      wordBoundary (r₅.head?.or (some ')')) = true → ')' ∉ r₅ →
      Arguments (r₁ ++ '(' :: (r₂ ++ (backing ++ (r₃ ++ ',' :: (r₄ ++ (name ++ (r₅ ++
        ')' :: behind)))))))
        name behind

theorem Enumeration.Arguments.split {head name behind : List Char}
    (h : Enumeration.Arguments head name behind) : ∃ lead run,
      head = lead ++ (name ++ (run ++ ')' :: behind)) ∧ IsWord name ∧
      wordBoundary (run ++ ')' :: behind).head? = true ∧
      ∀ prev, wordBoundary (lead.getLast?.or prev) = true := by
  cases h with
  | @mk r₁ r₂ backing r₃ r₄ _ r₅ _ _ _ _ _ _ h₄ hw hb _ =>
    refine ⟨r₁ ++ '(' :: (r₂ ++ (backing ++ r₃)) ++ ',' :: r₄, r₅,
      by simp, hw, ?_, ?_⟩
    · rw [List.head?_append]
      exact hb
    · intro prev
      have hrun : ∀ c ∈ ',' :: r₄, isWordChar c = false := by
        intro c hc
        rcases List.mem_cons.mp hc with rfl | hc
        · decide
        · simpa using h₄ c hc
      rw [Shape.last_append]
      exact wordBoundary_last hrun (.inl (by simp))

theorem Enumeration.macroCall_eq_some_iff {keyword : String} {prev : Option Char}
    {text rest : List Char} {d : Braced} :
    Enumeration.macroCall keyword prev text = some ⟨d, rest⟩ ↔
      ∃ head name behind r tail, text = keyword.toList ++ head ∧
        Enumeration.Arguments head name behind ∧
        Braced.body? behind = some ⟨d.body, tail⟩ ∧ tail = r ++ ';' :: rest ∧ ';' ∉ r ∧
        d.name = some name ∧ d.gap = before (behind.dropWhile (· != '\x7b')) head := by
  unfold Enumeration.macroCall
  simp only [Option.bind_eq_bind, Option.bind_eq_some_iff, after_eq_some_iff, Option.pure_def,
    Option.some.injEq, Hit.mk.injEq, afterFirst_eq_some_iff]
  constructor
  · rintro ⟨head, rfl, t₁, ⟨r₁, h₁, hr₁⟩, ⟨backing, t₂⟩, hbacking, t₃,
      ⟨r₃, h₃, hr₃⟩, ⟨name, t₄⟩, hname, t₅, ⟨r₅, h₅, hr₅⟩,
      ⟨body, t₆⟩, hbody, t₇, ⟨r, h₇, hr⟩, rfl, rfl⟩
    obtain ⟨r₂, rfl, h₂, hw₂, hb₂⟩ := word?_dropWhile_eq_some_iff.mp hbacking
    obtain ⟨r₄, rfl, h₄, hw₄, hb₄⟩ := word?_dropWhile_eq_some_iff.mp hname
    subst hr₁ hr₃ hr₅ hr
    rw [List.head?_append] at hb₂ hb₄
    exact ⟨_, name, t₅, r, _, rfl, .mk h₁ h₂ hw₂ hb₂ h₃ h₄ hw₄ hb₄ h₅, hbody,
      rfl, h₇, rfl, rfl⟩
  · rintro ⟨head, name, behind, r, tail, rfl, hargs, hbody, rfl, hr, hname, hgap⟩
    obtain ⟨h₁, h₂, hw₂, hb₂, h₃, h₄, hw₄, hb₄, h₅⟩ := hargs
    refine ⟨_, rfl, _, ⟨_, h₁, rfl⟩, ⟨_, _⟩,
      word?_dropWhile_eq_some_iff.mpr ⟨_, rfl, h₂, hw₂, ?_⟩, _, ⟨_, h₃, rfl⟩,
      ⟨_, _⟩, word?_dropWhile_eq_some_iff.mpr ⟨_, rfl, h₄, hw₄, ?_⟩, _,
      ⟨_, h₅, rfl⟩, ⟨_, _⟩, hbody, _, ⟨_, hr, rfl⟩, ?_, rfl⟩
    · rw [List.head?_append]
      exact hb₂
    · rw [List.head?_append]
      exact hb₄
    · rw [← hname, ← hgap]

theorem Struct.bitField_eq_some_iff {prev : Option Char} {text w rest : List Char} :
    Struct.bitField prev text = some ⟨w, rest⟩ ↔ wordBoundary prev = true ∧ ∃ gap,
      text = w ++ (gap ++ (":".toList ++ rest)) ∧ IsName w ∧
      (∀ c ∈ gap, isBlank c = true) := by
  unfold Struct.bitField
  simp only [Option.bind_eq_bind, Option.bind_eq_some_iff, after_eq_some_iff, Option.pure_def,
    Option.some.injEq, Hit.mk.injEq]
  constructor
  · intro h
    obtain ⟨⟨v, r₁⟩, hname, r₂, hcolon, rfl, rfl⟩ := h
    obtain ⟨hprev, rfl, hw, _⟩ := name?_eq_some_iff.mp hname
    obtain ⟨gap, hg, hr₁⟩ := trimStart_eq r₁
    exact ⟨hprev, gap, by rw [← hcolon, ← hr₁], hw, hg⟩
  · intro h
    obtain ⟨hprev, gap, rfl, hw, hg⟩ := h
    refine ⟨⟨w, gap ++ (":".toList ++ rest)⟩, ?_, rest, ?_, rfl, rfl⟩
    · exact name?_eq_some_iff.mpr ⟨hprev, rfl, hw, wordBoundary_of_isBlank hg rfl⟩
    · exact trimStart_run hg (stopsRun_cons.mpr (by decide))

/-! ## Type aliases -/

theorem Typedef.mark_eq_some_iff {text rest : List Char} :
    (after "^" text <|> after "*" text) = some rest ↔
      ∃ mark, (mark = '^' ∨ mark = '*') ∧ text = mark :: rest := by
  cases hcaret : after "^" text with
  | some r =>
    obtain rfl := after_eq_some_iff.mp hcaret
    simp
  | none =>
    have hne : ∀ r, text ≠ '^' :: r := by
      intro r hr
      rw [after_eq_some_iff.mpr hr] at hcaret
      cases hcaret
    constructor
    · intro h
      exact ⟨'*', .inr rfl, after_eq_some_iff.mp (by simpa using h)⟩
    · intro h
      obtain ⟨mark, rfl | rfl, rfl⟩ := h
      · exact absurd rfl (hne rest)
      · rfl

theorem Typedef.callable?_eq_some_iff {text name rest : List Char} {depth : Int} :
    Typedef.callable? text = some ⟨⟨name, depth⟩, rest⟩ ↔
      ∃ r₁ r₂ mark blanks tail,
        text = r₁ ++ '(' :: (r₂ ++ mark :: (blanks ++ (name ++ tail))) ∧
        (∀ c ∈ r₁, (c != '(' && c != ';' && c != '\x7b') = true) ∧
        (∀ c ∈ r₂, (c != '^' && c != '*' && c != ';' && c != ')') = true) ∧
        (mark = '^' ∨ mark = '*') ∧ (∀ c ∈ blanks, isBlank c = true) ∧ IsName name ∧
        wordBoundary tail.head? = true ∧ afterFirst ';' tail = some rest ∧ 0 = depth := by
  unfold Typedef.callable?
  simp only [Option.bind_eq_bind, Option.bind_eq_some_iff, after_eq_some_iff, Option.pure_def,
    Option.some.injEq, Hit.mk.injEq, Alias.mk.injEq, mark_eq_some_iff]
  constructor
  · intro h
    obtain ⟨t₁, h₁, t₂, ⟨mark, hmark, h₂⟩, ⟨w, t₃⟩, hname, t₄, hsemi,
        ⟨rfl, hdepth⟩, rfl⟩ :=
      h
    obtain ⟨blanks, hb, rfl⟩ : ∃ blanks, (∀ c ∈ blanks, isBlank c = true) ∧
        t₂ = blanks ++ (w ++ t₃) := by
      obtain ⟨blanks, hb, ht₂⟩ := trimStart_eq t₂
      obtain ⟨_, htrim, _, _⟩ := name?_eq_some_iff.mp hname
      exact ⟨blanks, hb, htrim ▸ ht₂⟩
    obtain ⟨_, _, hw, hend⟩ := name?_eq_some_iff.mp hname
    refine ⟨text.takeWhile fun c => c != '(' && c != ';' && c != '\x7b',
      t₁.takeWhile fun c => c != '^' && c != '*' && c != ';' && c != ')', mark, blanks, t₃, ?_,
      fun c hc => of_mem_takeWhile hc, fun c hc => of_mem_takeWhile hc, hmark, hb, hw, hend, hsemi,
      hdepth⟩
    rw [← h₂, List.takeWhile_append_dropWhile]
    have htext := List.takeWhile_append_dropWhile (l := text)
      (p := fun c => c != '(' && c != ';' && c != '\x7b')
    rw [h₁] at htext
    exact htext.symm
  · intro h
    obtain ⟨r₁, r₂, mark, blanks, tail, rfl, h₁, h₂, hmark, hb, hw,
        hend, hsemi, hdepth⟩ :=
      h
    refine ⟨r₂ ++ mark :: (blanks ++ (name ++ tail)), ?_, blanks ++ (name ++ tail),
      ⟨mark, hmark, ?_⟩, ⟨name, tail⟩, ?_, rest, hsemi, ⟨rfl, hdepth⟩, rfl⟩
    · exact dropWhile_run h₁ (stopsRun_cons.mpr (by decide))
    · exact dropWhile_run h₂ (stopsRun_cons.mpr (by rcases hmark with rfl | rfl <;> decide))
    · rw [trimStart_run hb (hw.stopsBlanks tail)]
      exact name?_eq_some_iff.mpr ⟨rfl, rfl, hw, hend⟩

theorem Typedef.plain?_eq_some {prev : Char} {depth dep : Int} {text name rest : List Char}
    (h : Typedef.plain? prev depth text = some ⟨⟨name, dep⟩, rest⟩) :
    ∃ lead tail, text = lead ++ (name ++ tail) ∧ IsName name ∧
      wordBoundary (lead.getLast?.or (some prev)) = true ∧ wordBoundary tail.head? = true ∧
      Typedef.finish? tail = some rest := by
  induction text generalizing prev depth with
  | nil => cases h
  | cons c cs ih =>
    rw [Typedef.plain?] at h
    split at h
    · rename_i found hfound
      cases h
      simp only [Option.bind_eq_bind, Option.bind_eq_some_iff, Option.pure_def, Option.some.injEq,
        Hit.mk.injEq, Alias.mk.injEq] at hfound
      obtain ⟨⟨w, t⟩, hname, r, hfin, ⟨rfl, _⟩, rfl⟩ := hfound
      obtain ⟨hprev, htext, hw, hend⟩ := name?_eq_some_iff.mp hname
      exact ⟨[], t, htext, hw, hprev, hend, hfin⟩
    · split at h
      · cases h
      · obtain ⟨lead, tail, rfl, hw, hprev, hend, hfin⟩ := ih h
        refine ⟨c :: lead, tail, rfl, hw, ?_, hend, hfin⟩
        rw [Shape.last_cons]
        exact hprev

/-! ## Progress -/

theorem name?_consumes : name?.Consumes := by
  intro prev text h hh
  obtain ⟨w, rest⟩ := h
  obtain ⟨_, rfl, hw, _⟩ := name?_eq_some_iff.mp hh
  exact ⟨w, hw.ne_nil, rfl⟩

theorem Define.shape_consumes : Define.shape.Consumes := by
  intro prev text h hh
  obtain ⟨name, rest⟩ := h
  obtain ⟨indent, blanks, rfl, _⟩ := Define.shape_eq_some_iff.mp hh
  exact ⟨"#".toList ++ (indent ++ ("define".toList ++ (blanks ++ name))), by simp, by simp⟩

theorem Interface.shape_consumes : Interface.shape.Consumes := by
  intro prev text h hh
  obtain ⟨name, rest⟩ := h
  obtain ⟨blanks, gap, rfl, _⟩ := Interface.shape_eq_some_iff.mp hh
  exact ⟨"@interface".toList ++ (blanks ++ (name ++ (gap ++ ":".toList))), by simp, by simp⟩

theorem Protocol.shape_consumes : Protocol.shape.Consumes := by
  intro prev text h hh
  obtain ⟨⟨name, defines⟩, rest⟩ := h
  obtain ⟨blanks, rfl, _⟩ := Protocol.shape_eq_some_iff.mp hh
  exact ⟨"@protocol".toList ++ (blanks ++ name), by simp, by simp⟩

theorem Constant.shape_consumes : Constant.shape.Consumes := by
  intro prev text h hh
  obtain ⟨name, rest⟩ := h
  obtain ⟨_, filler, rfl, _⟩ := Constant.shape_eq_some_iff.mp hh
  exact ⟨name ++ (filler ++ ";".toList), by simp, by simp⟩

theorem Braced.trailing_consumes (keyword : String) : (Braced.trailing keyword).Consumes := by
  intro prev text h hh
  obtain ⟨d, rest⟩ := h
  obtain ⟨_, tail, behind, rfl, _, hbody, htail, _⟩ := Braced.trailing_eq_some_iff.mp hh
  obtain ⟨gap, rfl, _⟩ := Braced.body?_eq_some_iff.mp hbody
  obtain ⟨taken, rfl, _⟩ := Braced.tail?_eq_some htail
  exact ⟨keyword.toList ++ (gap ++ '\x7b' :: (d.body ++ '\x7d' :: (taken ++ ";".toList))),
    by simp, by simp⟩

theorem Struct.bitField_consumes : Struct.bitField.Consumes := by
  intro prev text h hh
  obtain ⟨w, rest⟩ := h
  obtain ⟨_, gap, rfl, _⟩ := Struct.bitField_eq_some_iff.mp hh
  exact ⟨w ++ (gap ++ ":".toList), by simp, by simp⟩

theorem Enumeration.macroCall_consumes (keyword : String) :
    (Enumeration.macroCall keyword).Consumes := by
  intro prev text h hh
  obtain ⟨d, rest⟩ := h
  obtain ⟨head, name, behind, r, tail, rfl, hargs, hbody, rfl, _⟩ :=
    Enumeration.macroCall_eq_some_iff.mp hh
  obtain ⟨gap, rfl, _⟩ := Braced.body?_eq_some_iff.mp hbody
  obtain ⟨lead, run, rfl, _⟩ := hargs.split
  exact ⟨keyword.toList ++ (lead ++ (name ++ (run ++ ')' :: (gap ++ '\x7b' :: (d.body ++
    '\x7d' :: (r ++ [';'])))))), by simp, by simp⟩

theorem Typedef.shape_eq_some {prev : Option Char} {text rest : List Char} {a : Alias}
    (h : Typedef.shape prev text = some ⟨a, rest⟩) : ∃ lead tail taken,
      text = "typedef".toList ++ (lead ++ (a.name ++ tail)) ∧ tail = taken ++ ';' :: rest ∧
      IsName a.name ∧ wordBoundary tail.head? = true ∧
      wordBoundary (lead.getLast?.or (some 'f')) = true := by
  unfold Typedef.shape at h
  simp only [Option.bind_eq_bind, Option.bind_eq_some_iff, after_eq_some_iff] at h
  obtain ⟨t, rfl, h⟩ := h
  obtain ⟨name, depth⟩ := a
  cases hcall : Typedef.callable? t with
  | some found =>
    rw [hcall] at h
    obtain rfl : found = ⟨⟨name, depth⟩, rest⟩ := by simpa using h
    obtain ⟨r₁, r₂, mark, blanks, tail, rfl, _, _, hmark, hb, hw, hend, hsemi, _⟩ :=
      callable?_eq_some_iff.mp hcall
    obtain ⟨taken, _, rfl⟩ := afterFirst_eq_some_iff.mp hsemi
    refine ⟨r₁ ++ '(' :: r₂ ++ mark :: blanks, _, taken, by simp, rfl, hw, hend, ?_⟩
    have hrun : ∀ c ∈ mark :: blanks, isWordChar c = false := by
      intro c hc
      rcases List.mem_cons.mp hc with rfl | hc
      · rcases hmark with rfl | rfl <;> decide
      · exact isWordChar_of_isBlank (hb c hc)
    rw [Shape.last_append]
    exact wordBoundary_last hrun (.inl (by simp))
  | none =>
    rw [hcall] at h
    obtain ⟨lead, tail, rfl, hw, hprev, hend, hfin⟩ := plain?_eq_some (by simpa using h)
    obtain ⟨taken, rfl⟩ := afterLast_eq_some hfin
    exact ⟨lead, _, taken, rfl, rfl, hw, hend, hprev⟩

theorem Typedef.shape_consumes : Typedef.shape.Consumes := by
  intro prev text h hh
  obtain ⟨a, rest⟩ := h
  obtain ⟨lead, tail, taken, rfl, rfl, _⟩ := Typedef.shape_eq_some hh
  exact ⟨"typedef".toList ++ (lead ++ (a.name ++ (taken ++ [';']))), by simp, by simp⟩

end HeaderIndex.Header
