import HeaderIndex.Header.Constant
import HeaderIndex.Header.Typedef
import HeaderIndex.Header.Marked
import HeaderIndex.Proofs.Header.BodyHead
import HeaderIndex.Proofs.Header.CallHeads
import HeaderIndex.Proofs.Text.Pattern

/-! The patterns by which comments and declarations are found, against the searches that read
them in one go. A search hits where its pattern does, with the same groups and the same text left.
Most runs of these patterns end before what goes on behind them, so that nothing is given back.
The rest is said case by case: a word that is given back in part leaves the same filler or the
same next mark behind it (`Constant.keeps_filler`, `keeps_upTo`), a name behind a body reaches up
to the last semicolon before a further word (`Braced.first_name_of_stops`), an alias is the first
name that can end its line (`Typedef.shortest_alias`), and a constant that is found within a word
is found at its start (`Constant.named?_cons`). -/

namespace HeaderIndex.Header

open HeaderIndex.Text HeaderIndex.Text.Pattern

/-- The text of a group, as the value of a match. -/
def groupText (label : String) (_ : List Char) (m : Match) : List Char := (m.value? label).getD []

theorem groupText_cons_self {label : String} {text : List Char} {prev : Option Char}
    {here start rest value : List Char} {captures : List Capture} (h : start = value ++ rest) :
    groupText label text ⟨prev, here, ⟨label, start, rest⟩ :: captures⟩ = value := by
  rw [groupText, Match.value?_cons_self h, Option.getD_some]

/-! ## Comments -/

namespace Comment

/-- The pattern `/\*.*?\*/|//[^\n]*`, where `.` is any character. -/
def pattern : Pattern := either
  (all [literal "/*", group "block" (few fun _ => true), literal "*/"])
  (all [literal "//", group "line" (many (· != '\n'))])

def read (text : List Char) (m : Match) : Comment :=
  match m.value? "block" with
  | some body => .block body
  | none => .line (groupText "line" text m)

theorem read_block {text start rest body here : List Char} (h : start = body ++ rest)
    (prev : Option Char) (captures : List Capture) :
    read text ⟨prev, here, ⟨"block", start, rest⟩ :: captures⟩ = .block body := by
  rw [read, Match.value?_cons_self h]

/-- The search for the end of a block, place by place. -/
theorem shortest_block {text start lead here : List Char} (h : start = lead ++ here)
    (prev : Option Char) : shortest (fun _ => true) (fun n => (literal "*/").first
        (fun m => some (Hit.mk (read text m) m.text))
        { n with captures := ⟨"block", start, n.text⟩ :: n.captures }) [] prev here =
      (closeBlock here).map fun h => ⟨.block (lead ++ h.value), h.rest⟩ := by
  fun_induction closeBlock here generalizing lead prev with
  | case1 => rfl
  | case2 c =>
    have hafter : after "*/" [c] = none := by simp [after, List.isPrefixOf?]
    rw [shortest, first_literal, hafter]
    rfl
  | case3 rest =>
    have hafter : after "*/" ('*' :: '/' :: rest) = some rest := after_append "*/" rest
    rw [shortest, first_literal, hafter, Option.bind_some, Option.some_or, read_block h,
      Option.map_some, List.append_nil]
  | case4 c d rest hopen ih =>
    have hafter : after "*/" (c :: d :: rest) = none := by
      cases hclose : after "*/" (c :: d :: rest) with
      | none => rfl
      | some behind =>
        cases after_eq_some_iff.mp hclose
        exact absurd rfl (hopen rfl)
    have hnext : start = (lead ++ [c]) ++ d :: rest := by
      rw [h, List.append_assoc, List.singleton_append]
    rw [shortest, first_literal, hafter, Option.bind_none, Option.none_or, if_pos rfl, ih hnext,
      Option.map_map]
    simp only [List.append_assoc, List.singleton_append]
    rfl

theorem first_block {text here : List Char} (prev : Option Char) :
    (group "block" (few fun _ => true)).first ((literal "*/").first
      fun m => some (Hit.mk (read text m) m.text)) ⟨prev, here, []⟩ =
    (closeBlock here).map fun h => ⟨.block h.value, h.rest⟩ :=
  shortest_block (List.nil_append here).symm prev

theorem first_line {text here : List Char} (prev : Option Char) :
    (group "line" (many (· != '\n'))).first (fun m => some (Hit.mk (read text m) m.text))
      ⟨prev, here, []⟩ = some ⟨.line (here.takeWhile (· != '\n')),
        here.dropWhile (· != '\n')⟩ := by
  rw [first_group, first_many_eq (keeps_some _ _), read,
    Match.value?_cons_of_ne (by decide), groupText_cons_self List.takeWhile_append_dropWhile.symm]
  rfl

theorem shape_eq_pattern : shape = pattern.shape read := by
  funext prev text
  simp only [Pattern.shape, pattern, first_either, first_all_cons, first_all_nil, first_literal,
    first_block, first_line]
  rcases text with _ | ⟨c, _ | ⟨d, rest⟩⟩
  · rfl
  · simp [shape, after, List.isPrefixOf?]
  · by_cases hc : c = '/'
    · subst hc
      by_cases hblock : d = '*'
      · subst hblock
        exact (Option.or_none ..).symm
      · by_cases hline : d = '/'
        · subst hline
          rfl
        · simp [shape, after, List.isPrefixOf?, hblock, hline, Ne.symm hblock, Ne.symm hline]
    · simp [shape, after, List.isPrefixOf?, hc, Ne.symm hc]

end Comment

/-! ## Marked declarations -/

section Marked

variable {label : String} {text here : List Char} {captures : List Capture}

/-- A pattern that ends in a word has that word for its value. -/
theorem first_last_word (prev : Option Char) : (group label word).first
      (fun m => some (Hit.mk (groupText label text m) m.text)) ⟨prev, here, captures⟩ =
    word? here := by
  rw [first_group_word (keeps_some _ _)]
  cases hw : word? here with
  | none => rfl
  | some w => rw [Option.bind_some, groupText_cons_self (word?_eq_some_iff.mp hw).1]

end Marked

namespace Protocol

/-- The pattern `@protocol\s*(\w+)`. -/
def pattern : Pattern := all [literal "@protocol", many isBlank, group "name" word]

/-- A protocol is found by its pattern, and then by what follows its name. -/
theorem shape_eq_pattern : shape = fun prev text =>
    (pattern.shape (groupText "name") prev text).map fun h =>
      ⟨(h.value, continues h.rest), h.rest⟩ := by
  funext prev text
  simp only [shape, Pattern.shape, pattern, first_all_cons, first_all_nil, first_literal,
    Option.bind_eq_bind]
  rw [Option.map_bind]
  refine Option.bind_congr fun rest _ => ?_
  rw [Function.comp_apply, first_many_eq (excludes_blank _ _).keeps, first_last_word, trimStart]
  exact Option.map_eq_bind.symm

end Protocol

namespace Define

/-- The pattern `#[ \t]*define\s+(\w+)`. -/
def pattern : Pattern := all [mark '#', many isIndent, literal "define", one isBlank,
  many isBlank, group "name" word]

theorem shape_eq_pattern : shape = pattern.shape (groupText "name") := by
  funext prev text
  simp only [shape, Pattern.shape, pattern, first_all_cons, first_all_nil, Option.bind_eq_bind]
  rw [first_mark]
  refine Option.bind_congr fun rest _ => ?_
  rw [first_many_eq (excludes_literal (d := 'd') (by decide) (by decide) _).keeps, first_literal]
  refine Option.bind_congr fun rest _ => ?_
  cases rest with
  | nil => rfl
  | cons c cs =>
    rw [afterBlanks, first_one_cons]
    by_cases hc : isBlank c = true
    · rw [if_pos hc, if_pos hc, first_many_eq (excludes_blank _ _).keeps, first_last_word]
      rfl
    · rw [if_neg hc, if_neg hc]
      rfl

end Define

namespace Interface

/-- The pattern `@interface\s*(\w+)\s*:`. -/
def pattern : Pattern :=
  all [literal "@interface", many isBlank, group "name" word, many isBlank, mark ':']

theorem shape_eq_pattern : shape = pattern.shape (groupText "name") := by
  funext prev text
  simp only [shape, trimStart, Pattern.shape, pattern, first_all_cons, first_all_nil, first_literal,
    Option.bind_eq_bind]
  refine Option.bind_congr fun rest _ => ?_
  rw [first_many_eq (excludes_blank _ _).keeps,
    first_group_word (excludes_blanks_mark (by decide) _).keeps]
  refine Option.bind_congr fun w hw => ?_
  rw [first_many_mark _ _ (by decide)]
  refine Option.bind_congr fun rest _ => ?_
  rw [groupText_cons_self (word?_eq_some_iff.mp hw).1]
  rfl

end Interface

/-! ## Bit fields and functions -/

namespace Struct

/-- The pattern `\b([A-Za-z_]\w*)\s*:`. -/
def bitPattern : Pattern := all [boundary, group "name" name, many isBlank, mark ':']

theorem bitField_eq_pattern : bitField = bitPattern.shape (groupText "name") := by
  funext prev text
  simp only [bitField, trimStart, Pattern.shape, bitPattern, first_all_cons, first_all_nil,
    Option.bind_eq_bind]
  rw [first_boundary_name (excludes_blanks_mark (by decide) _).keeps]
  refine Option.bind_congr fun w hw => ?_
  rw [first_many_mark _ _ (by decide)]
  refine Option.bind_congr fun rest _ => ?_
  rw [groupText_cons_self (name?_eq_some_iff.mp hw).2.1]
  rfl

end Struct

namespace Function

/-- The pattern `\b([A-Za-z_]\w*)\s*\([^\^]`. -/
def pattern : Pattern :=
  all [boundary, group "name" name, many isBlank, mark '(', one (· != '^')]

theorem shape_pattern (prev : Option Char) (here : List Char) :
    pattern.shape (groupText "name") prev here = (name? prev here).bind fun w =>
      if opensCall w.rest then some ⟨w.value, (trimStart w.rest).drop 2⟩ else none := by
  simp only [Pattern.shape, pattern, first_all_cons, first_all_nil]
  rw [first_boundary_name (excludes_blanks_mark (by decide) _).keeps]
  refine Option.bind_congr fun w hw => ?_
  rw [first_many_mark _ _ (by decide), opensCall]
  show (['('].isPrefixOf? (trimStart w.rest)).bind _ = _
  have hvalue := (name?_eq_some_iff.mp hw).2.1
  rcases trimStart w.rest with _ | ⟨d, _ | ⟨c, rest⟩⟩
  · rfl
  · by_cases hd : d = '('
    · subst hd
      rfl
    · simp [List.isPrefixOf?, Ne.symm hd]
  · by_cases hd : d = '('
    · subst hd
      simp [List.isPrefixOf?, first_one_cons, groupText_cons_self hvalue]
    · simp [List.isPrefixOf?, hd, Ne.symm hd]

/-- The call heads of a text are the names that its pattern hits, each at its place. -/
theorem pattern_hits_iff {lead here w : List Char} :
    (∃ rest, pattern.shape (groupText "name") lead.getLast? here = some ⟨w, rest⟩) ↔
      ∃ behind, here = w ++ behind ∧ IsCallHead (lead ++ here) ⟨lead, w, behind⟩ := by
  simp only [shape_pattern, isCallHead_iff, opensHead, Bool.and_eq_true, Option.bind_eq_some_iff]
  constructor
  · rintro ⟨rest, ⟨value, behind⟩, hname, hcall⟩
    obtain ⟨hstart, rfl, hvalue, hstop⟩ := name?_eq_some_iff.mp hname
    by_cases hopens : opensCall behind = true
    · rw [if_pos hopens] at hcall
      cases hcall
      exact ⟨behind, rfl, ⟨rfl, hvalue.toIsWord, hstart, hstop⟩, hvalue.start, hopens⟩
    · rw [if_neg hopens] at hcall
      cases hcall
  · rintro ⟨behind, rfl, hword, hstart, hopens⟩
    have hname :=
      name?_eq_some_iff.mpr ⟨hword.start, rfl, ⟨hword.isWord, hstart⟩, hword.stop⟩
    exact ⟨_, ⟨w, behind⟩, hname, if_pos hopens⟩

end Function

/-! ## Type aliases -/

namespace Typedef

/-- The pattern `[^(;{]*\([^\^*;)]*[\^*]\s*([A-Za-z_]\w*)[^;]*;`. -/
def callablePattern : Pattern := all
  [many fun c => c != '(' && c != ';' && c != '\x7b', mark '(',
    many fun c => c != '^' && c != '*' && c != ';' && c != ')', one fun c => c == '^' || c == '*',
    many isBlank, group "callable" name, many (· != ';'), mark ';']

/-- What goes on behind the start of an alias: `\b([A-Za-z_]\w*)[^\w{]*;`. -/
def aliasPattern : Pattern := all
  [boundary, group "alias" name, many fun c => !isWordChar c && c != '\x7b', mark ';']

/-- The pattern `typedef…|typedef[^;{\n]*?…` of the two forms. -/
def pattern : Pattern := either (all [literal "typedef", callablePattern])
  (all [literal "typedef", few fun c => c != ';' && c != '\x7b' && c != '\n', aliasPattern])

/-- How many parentheses a text leaves open. -/
def openParens (text : List Char) : Int :=
  text.foldl (fun depth c => depth + deepen c) 0

/-- The name of a match, and the parentheses that are open before an alias. -/
def read (text : List Char) (m : Match) : Alias :=
  match m.capture? "alias" with
  | some found => ⟨found.value, openParens (before found.start text)⟩
  | none => ⟨groupText "callable" text m, 0⟩

theorem after_mark (c : Char) (cs : List Char) : (after "^" (c :: cs) <|> after "*" (c :: cs)) =
    if c == '^' || c == '*' then some cs else none := by
  by_cases hcaret : c = '^'
  · subst hcaret
    rfl
  · by_cases hstar : c = '*'
    · subst hstar
      rfl
    · simp [after, List.isPrefixOf?, hcaret, hstar, Ne.symm hcaret, Ne.symm hstar]

theorem first_callable (text here : List Char) (prev : Option Char) :
    callablePattern.first (fun m => some (Hit.mk (read text m) m.text)) ⟨prev, here, []⟩ =
      callable? here := by
  simp only [callablePattern, callable?, first_all_cons, first_all_nil, Option.bind_eq_bind]
  rw [first_many_mark _ _ (by decide)]
  refine Option.bind_congr fun rest _ => ?_
  have hmark : ∀ c, (c != '^' && c != '*' && c != ';' && c != ')') = true →
      (c == '^' || c == '*') = false := by
    intro c hc
    simp_all
  rw [first_many_eq (excludes_one hmark _).keeps]
  cases rest.dropWhile fun c => c != '^' && c != '*' && c != ';' && c != ')' with
  | nil => rfl
  | cons c cs =>
    rw [first_one_cons, after_mark]
    by_cases hc : (c == '^' || c == '*') = true
    · have hblank := excludes_group (excludes_name fun _ hc => isWordChar_of_isBlank hc)
        "callable" ((many (· != ';')).first ((mark ';').first fun m =>
          some (Hit.mk (read text m) m.text)))
      rw [if_pos hc, if_pos hc, Option.bind_some, first_many_eq hblank.keeps, first_group,
        first_name ((keeps_over (by decide) _).captured _ _)]
      refine Option.bind_congr fun w hw => ?_
      rw [first_over]
      refine Option.bind_congr fun rest _ => ?_
      rw [read, Match.capture?_cons_of_ne (by decide)]
      show some (Hit.mk (Alias.mk (groupText "callable" text _) 0) rest) = _
      rw [groupText_cons_self (name?_eq_some_iff.mp hw).2.1]
      rfl
    · rw [if_neg hc, if_neg hc, Option.bind_none]

theorem first_alias (text here : List Char) (prev : Option Char) :
    aliasPattern.first (fun m => some (Hit.mk (read text m) m.text)) ⟨prev, here, []⟩ =
      (name? prev here).bind fun w => (finish? w.rest).map fun rest =>
        ⟨⟨w.value, openParens (before here text)⟩, rest⟩ := by
  simp only [aliasPattern, first_all_cons, first_all_nil]
  rw [first_boundary_name (excludes_many_mark (fun c hc =>
    ⟨by simp [hc], ne_of_isWordChar (by decide) hc⟩) _).keeps]
  refine Option.bind_congr fun w hw => ?_
  rw [first_many, longest_mark (by decide)]
  have hread : ∀ rest, read text ⟨some ';', rest, [⟨"alias", here, w.rest⟩]⟩ =
      ⟨w.value, openParens (before here text)⟩ := by
    intro rest
    rw [read, Match.capture?_cons_self]
    show Alias.mk (before w.rest here) _ = _
    rw [(name?_eq_some_iff.mp hw).2.1, before_append]
  simp only [hread]
  rfl

/-- The search for an alias, place by place. -/
theorem shortest_alias {text lead here : List Char} (h : text = lead ++ here) (prev : Char) :
    shortest (fun c => c != ';' && c != '\x7b' && c != '\n')
        (aliasPattern.first fun m => some (Hit.mk (read text m) m.text)) [] (some prev) here =
      plain? prev (openParens lead) here := by
  induction here generalizing lead prev with
  | nil =>
    rw [shortest, first_alias]
    rfl
  | cons c cs ih =>
    have hbefore : before (c :: cs) text = lead := by rw [h, before_append]
    have hnext : text = (lead ++ [c]) ++ cs := by rw [h, List.append_assoc, List.singleton_append]
    have hdeeper : openParens lead + deepen c = openParens (lead ++ [c]) := by
      simp [openParens]
    have hstop : (c == ';' || c == '\x7b' || c == '\n') =
        !(c != ';' && c != '\x7b' && c != '\n') := by simp [bne]
    rw [shortest, first_alias, hbefore, plain?, hdeeper, ih hnext, hstop]
    generalize (c != ';' && c != '\x7b' && c != '\n') = goesOn
    cases name? (some prev) (c :: cs) with
    | none => cases goesOn <;> rfl
    | some w => cases hfinish : finish? w.rest <;> cases goesOn <;> simp [hfinish]

/-- **A type alias is found by its pattern.** -/
theorem shape_eq_pattern : shape = pattern.shape read := by
  funext prev text
  simp only [shape, Pattern.shape, pattern, Option.bind_eq_bind]
  show _ = Option.or ((all [literal "typedef", callablePattern]).first _ _)
    ((all [literal "typedef", _, aliasPattern]).first _ _)
  simp only [first_all_cons, first_all_nil, first_literal]
  cases hrest : after "typedef" text with
  | none => rfl
  | some rest =>
    have htext : text = "typedef".toList ++ rest := after_eq_some_iff.mp hrest
    have hlast : "typedef".toList.getLast? = some 'f' := by decide
    have hclosed : openParens "typedef".toList = 0 := by decide
    simp only [Option.bind_some]
    rw [first_callable, first_few, hlast, Option.some_or, shortest_alias htext, hclosed,
      Option.orElse_eq_orElse, Option.orElse_eq_or]

end Typedef

/-! ## Declarations with a body -/

namespace Braced

/-- The pattern `[^{;]*?\{([^}]+?)\}` of a body and what stands before it. -/
def bodyPattern : Pattern := all
  [few fun c => c != '\x7b' && c != ';', mark '\x7b',
    group "body" (seq (one (· != '\x7d')) (few (· != '\x7d'))), mark '\x7d']

/-- The pattern `(?:(\w+)\W*)?;` of a name behind a body. -/
def namePattern : Pattern :=
  seq (either (all [group "name" word, many fun c => !isWordChar c]) empty) (mark ';')

/-- The pattern `\W*?(?:(\w+)\W*)?;` of what follows a body. -/
def tailPattern : Pattern := seq (few fun c => !isWordChar c) namePattern

/-- What is read off a match: the name and the body, and what there is from the keyword up to the
brace before the body. -/
def read (keyword : String) (text : List Char) (m : Match) : Braced where
  gap := match m.capture? "body" with
    | some body => before ('\x7b' :: body.start) ((after keyword text).getD [])
    | none => []
  name := m.value? "name"
  body := groupText "body" text m

section First

variable {α : Type} {more : Match → Option α} {captures : List Capture}

/-- A body is read up to the first brace that closes one. -/
theorem first_inner {body rest : List Char} (hne : body ≠ []) (hbody : '\x7d' ∉ body)
    (prev : Option Char) :
    (group "body" (seq (one (· != '\x7d')) (few (· != '\x7d')))).first ((mark '\x7d').first more)
      ⟨prev, body ++ '\x7d' :: rest, captures⟩ = more ⟨some '\x7d', rest,
        ⟨"body", body ++ '\x7d' :: rest, '\x7d' :: rest⟩ :: captures⟩ := by
  obtain ⟨c, cs, rfl⟩ := List.exists_cons_of_ne_nil hne
  obtain ⟨hc, hcs⟩ := List.forall_mem_cons.mp (run_of_not_mem hbody)
  rw [first_group, first_seq, List.cons_append, first_one_cons, if_pos hc,
    first_few_eq ((excludes_mark (by decide) more).captured _ _),
    dropWhile_run hcs (stopsRun_cons.mpr (by decide)), first_mark_cons,
    if_pos (beq_self_eq_true _)]

/-- An empty body is none, and neither is one that is not closed. -/
theorem first_inner_eq_none {inner : List Char} (h : inner.takeWhile (· != '\x7d') = [] ∨
      inner.dropWhile (· != '\x7d') = []) (prev : Option Char) :
    (group "body" (seq (one (· != '\x7d')) (few (· != '\x7d')))).first
      ((mark '\x7d').first more) ⟨prev, inner, captures⟩ = none := by
  rw [first_group, first_seq]
  cases inner with
  | nil => rfl
  | cons c cs =>
    rw [first_one_cons]
    by_cases hc : (c != '\x7d') = true
    · have hopen : cs.dropWhile (· != '\x7d') = [] := by simpa [hc] using h
      rw [if_pos hc, first_few_eq ((excludes_mark (by decide) more).captured _ _), hopen]
      rfl
    · rw [if_neg hc]

theorem first_body (prev : Option Char) (text : List Char) :
    bodyPattern.first more ⟨prev, text, captures⟩ = (body? text).bind fun h =>
      more ⟨some '\x7d', h.rest,
        ⟨"body", h.value ++ '\x7d' :: h.rest, '\x7d' :: h.rest⟩ :: captures⟩ := by
  simp only [bodyPattern, first_all_cons, first_all_nil]
  rw [first_few_mark _ _ (by decide)]
  cases h : body? text with
  | some hit =>
    obtain ⟨gap, rfl, hgap, hne, hbody⟩ := body?_eq_some_iff.mp h
    rw [dropWhile_run hgap (stopsRun_cons.mpr (by decide))]
    exact first_inner hne hbody _
  | none =>
    rw [Option.bind_none, Option.bind_eq_none_iff]
    intro inner hinner
    have hafter : after "\x7b" (text.dropWhile fun c => c != '\x7b' && c != ';') = some inner :=
      hinner
    have hopen : text.dropWhile (fun c => c != '\x7b' && c != ';') = '\x7b' :: inner :=
      after_eq_some_iff.mp hafter
    refine first_inner_eq_none ?_ _
    rw [body?, hopen] at h
    cases hbody : inner.takeWhile (· != '\x7d') with
    | nil => exact .inl rfl
    | cons c cs =>
      cases hend : inner.dropWhile (· != '\x7d') with
      | nil => exact .inr rfl
      | cons d rest => simp [hbody, hend] at h

/-- Before a character that is of no word there is no name. -/
theorem first_name_of_not_word {c : Char} (h : isWordChar c = false) (prev : Option Char)
    (cs : List Char) : namePattern.first more ⟨prev, c :: cs, captures⟩ =
      if c == ';' then more ⟨some c, cs, captures⟩ else none := by
  have hname := excludes_group excludes_noWord "name" ((many fun c => !isWordChar c).first
    ((mark ';').first more)) ⟨prev, c :: cs, captures⟩ c cs rfl (by simp [h])
  rw [namePattern, first_seq, first_either, first_empty, first_mark_cons, first_all_cons,
    first_all_cons, first_all_nil, hname, Option.none_or]

/-- Where a word comes next, it is the name, and the last semicolon before a further word ends the
declaration. -/
theorem first_name_of_stops {text : List Char} (h : StopsRun (fun c => !isWordChar c) text)
    (result : Match → α) (prev : Option Char) :
    namePattern.first (fun m => some (result m)) ⟨prev, text, captures⟩ =
      (word? text).bind fun w => (afterLast (fun c => !isWordChar c) ';' w.rest).map fun rest =>
        result ⟨some ';', rest, ⟨"name", text, w.rest⟩ :: captures⟩ := by
  have hmark : (mark ';').first (fun m => some (result m)) ⟨prev, text, captures⟩ = none := by
    cases text with
    | nil => rfl
    | cons c cs =>
      have hc : isWordChar c = true := by simpa using stopsRun_cons.mp h
      rw [first_mark_cons, if_neg (by simpa using ne_of_isWordChar (by decide) hc)]
  have hkeeps : Excludes isWordChar ((many fun c => !isWordChar c).first ((mark ';').first
      fun m => some (result m))) :=
    excludes_many_mark (fun c hc => ⟨by simp [hc], ne_of_isWordChar (by decide) hc⟩) _
  rw [namePattern, first_seq, first_either, first_empty, hmark, Option.or_none, first_all_cons,
    first_all_cons, first_all_nil, first_group_word hkeeps.keeps]
  refine Option.bind_congr fun w _ => ?_
  rw [first_many, longest_mark (by decide)]

/-- What is captured of a name behind a body. -/
def named (text : List Char) (name : Option (List Char)) : List Capture :=
  name.toList.map fun w =>
    let start := text.dropWhile fun c => !isWordChar c
    ⟨"name", start, start.drop w.length⟩

theorem named_some {text : List Char} {w : Hit (List Char)}
    (h : word? (text.dropWhile fun c => !isWordChar c) = some w) :
    named text (some w.value) = [⟨"name", text.dropWhile fun c => !isWordChar c, w.rest⟩] := by
  rw [named, (word?_eq_some_iff.mp h).1]
  simp

/-- A run that has neither a word nor a semicolon is passed over. -/
theorem shortest_name_run {run : List Char} (hrun : ∀ c ∈ run, (!isWordChar c) = true)
    (hsemi : ';' ∉ run) (prev : Option Char) (rest : List Char) :
    shortest (fun c => !isWordChar c) (namePattern.first more) captures prev (run ++ rest) =
      shortest (fun c => !isWordChar c) (namePattern.first more) captures
        (run.getLast?.or prev) rest := by
  refine shortest_run hrun (fun c hc prev cs => ?_) prev rest
  have hne : c ≠ ';' := by
    rintro rfl
    exact hsemi hc
  rw [first_name_of_not_word (by simpa using hrun c hc), if_neg (by simpa using hne)]

theorem first_tail (result : Match → α) (prev : Option Char) (text : List Char) :
    tailPattern.first (fun m => some (result m)) ⟨prev, text, captures⟩ = (tail? text).map
      fun h => result ⟨some ';', h.rest, named text h.value ++ captures⟩ := by
  rw [tailPattern, first_seq, first_few, tail?]
  have hsplit := List.takeWhile_append_dropWhile (p := fun c => !isWordChar c) (l := text)
  have hrun : ∀ c ∈ text.takeWhile fun c => !isWordChar c, (!isWordChar c) = true :=
    fun c => of_mem_takeWhile
  by_cases hsemi : ';' ∈ text.takeWhile fun c => !isWordChar c
  · obtain ⟨run, others, hothers, hnot⟩ := List.eq_append_cons_of_mem hsemi
    rw [hothers, List.append_assoc, List.cons_append] at hsplit
    rw [hothers, List.forall_mem_append] at hrun
    rw [if_pos (by simpa using hsemi), ← hsplit, shortest_name_run hrun.1 hnot, shortest,
      first_name_of_not_word (by decide), if_pos (beq_self_eq_true _), Option.some_or,
      afterFirst_run hnot]
    rfl
  · have hstop := stopsRun_dropWhile (fun c => !isWordChar c) text
    conv_lhs => rw [← hsplit]
    rw [shortest_name_run hrun hsemi, shortest_of_stopsRun hstop, first_name_of_stops hstop,
      if_neg (by simpa using hsemi)]
    simp only [Option.bind_eq_bind, Option.pure_def, Option.map_bind]
    refine Option.bind_congr fun w hw => ?_
    rw [Function.comp_apply]
    cases afterLast (fun c => !isWordChar c) ';' w.rest with
    | none => rfl
    | some rest =>
      rw [Option.bind_some, Option.map_some, Option.map_some, named_some hw]
      rfl

end First

/-- The pattern `\bkeyword\b[^{;]*?\{([^}]+?)\}\W*?(?:(\w+)\W*)?;`. -/
def pattern (keyword : String) : Pattern :=
  all [boundary, literal keyword, boundary, seq bodyPattern tailPattern]

theorem exists_word_of_tail? {text : List Char} {last : Hit (Option (List Char))}
    (h : tail? text = some last) {name : List Char} (hname : last.value = some name) :
    ∃ rest, word? (text.dropWhile fun c => !isWordChar c) = some ⟨name, rest⟩ := by
  obtain ⟨_, _, hword⟩ := tail?_eq_some h
  obtain ⟨run, tail, rfl, hrun, hw, hend⟩ := hword name hname
  exact ⟨tail, word?_dropWhile_eq_some_iff.mpr ⟨run, rfl, hrun, hw, hend⟩⟩

theorem read_named {keyword : String} {text head : List Char}
    (hafter : after keyword text = some head) {inner : Hit (List Char)}
    (hbody : body? head = some inner) {last : Hit (Option (List Char))}
    (htail : tail? inner.rest = some last) (prev : Option Char) :
    read keyword text ⟨prev, last.rest, named inner.rest last.value ++
        [⟨"body", inner.value ++ '\x7d' :: inner.rest, '\x7d' :: inner.rest⟩]⟩ =
      ⟨head.takeWhile (· != '\x7b'), last.value, inner.value⟩ := by
  have hgap : before ('\x7b' :: (inner.value ++ '\x7d' :: inner.rest)) head =
      head.takeWhile (· != '\x7b') := by
    have hsplit := before_append (head.takeWhile (· != '\x7b')) (head.dropWhile (· != '\x7b'))
    rwa [List.takeWhile_append_dropWhile, dropWhile_of_body? hbody] at hsplit
  rw [← hgap]
  cases hname : last.value with
  | none =>
    rw [named, Option.toList_none, List.map_nil, List.nil_append, read, hafter,
      groupText_cons_self rfl, Match.capture?_cons_self, Match.value?_cons_of_ne (by decide)]
    rfl
  | some name =>
    obtain ⟨rest, hw⟩ := exists_word_of_tail? htail hname
    rw [named_some hw, List.singleton_append, read, hafter, Match.capture?_cons_of_ne (by decide),
      Match.capture?_cons_self, Match.value?_cons_self (word?_eq_some_iff.mp hw).1, groupText,
      Match.value?_cons_of_ne (by decide), Match.value?_cons_self rfl]
    rfl

/-- Before a word, the end of another is where no word runs into it. -/
theorem isBoundary_of_isWord {w rest : List Char} (hw : IsWord w) (prev : Option Char) :
    isBoundary prev (w ++ rest).head? = wordBoundary prev := by
  obtain ⟨c, cs, rfl⟩ := List.exists_cons_of_ne_nil hw.ne_nil
  have hc : isWordChar c = true := hw.chars c (List.mem_cons_self ..)
  cases hprev : prev.any isWordChar <;> simp [isBoundary, wordBoundary, hc, hprev]

/-- Behind a word, it is where no word goes on. -/
theorem isBoundary_behind {w : List Char} (hw : IsWord w) (prev next : Option Char) :
    isBoundary (w.getLast?.or prev) next = wordBoundary next := by
  have hlast : isWordChar (w.getLast hw.ne_nil) = true := hw.chars _ (List.getLast_mem hw.ne_nil)
  rw [List.getLast?_eq_some_getLast hw.ne_nil, Option.some_or]
  cases hnext : next.any isWordChar <;> simp [isBoundary, wordBoundary, hlast, hnext]

/-- **A declaration named behind its body is found by its pattern.** -/
theorem trailing_eq_pattern {keyword : String} (h : IsWord keyword.toList) :
    trailing keyword = (pattern keyword).shape (read keyword) := by
  funext prev text
  simp only [trailing, Pattern.shape, pattern, first_all_cons, first_all_nil, first_seq]
  rw [first_boundary, first_literal]
  cases hafter : after keyword text with
  | none => simp
  | some head =>
    have htext : text = keyword.toList ++ head := after_eq_some_iff.mp hafter
    have hstart : isBoundary prev text.head? = wordBoundary prev := by
      rw [htext, isBoundary_of_isWord h]
    simp only [hstart, Option.bind_eq_bind, Option.bind_some, first_boundary, isBoundary_behind h,
      first_body, first_tail]
    cases wordBoundary prev with
    | false => rfl
    | true =>
      cases hend : wordBoundary head.head? with
      | false => rfl
      | true =>
        show (body? head).bind _ = (body? head).bind _
        refine Option.bind_congr fun inner hinner => ?_
        cases hlast : tail? inner.rest with
        | none => rfl
        | some last =>
          rw [Option.map_some, read_named hafter hinner hlast]
          rfl

end Braced

namespace Enumeration

/-- What goes on behind the arguments of a macro call: `[^{;]*?\{([^}]+?)\}[^;]*?;`. -/
def closing : Pattern := all [Braced.bodyPattern, few (· != ';'), mark ';']

/-- What goes on behind the first argument: `\W*?(\w+)[^)]*?\)…`. -/
def naming : Pattern :=
  all [few fun c => !isWordChar c, group "name" word, few (· != ')'), mark ')', closing]

/-- The pattern `keyword[^(]*?\(\W*?\w+[^,]*?,\W*?(\w+)[^)]*?\)[^{;]*?\{([^}]+?)\}[^;]*?;`. -/
def pattern (keyword : String) : Pattern := all [literal keyword, few (· != '('), mark '(',
  few fun c => !isWordChar c, word, few (· != ','), mark ',', naming]

/-- **A macro call with a body is found by its pattern.** -/
theorem macroCall_eq_pattern (keyword : String) :
    macroCall keyword = (pattern keyword).shape (Braced.read keyword) := by
  funext prev text
  have hcomma : isWordChar ',' = false := by decide
  have hclose : isWordChar ')' = false := by decide
  have hbacking := keeps_upTo hcomma naming fun m => Hit.mk (Braced.read keyword text m) m.text
  have hname := keeps_upTo hclose closing fun m => Hit.mk (Braced.read keyword text m) m.text
  simp only [macroCall, Pattern.shape, pattern, first_all_cons, first_all_nil, Option.bind_eq_bind]
  rw [first_literal]
  refine Option.bind_congr fun head hafter => ?_
  rw [first_upTo]
  refine Option.bind_congr fun rest _ => ?_
  rw [first_few_eq (excludes_noWord _), first_word hbacking]
  refine Option.bind_congr fun backing _ => ?_
  rw [first_upTo]
  refine Option.bind_congr fun rest _ => ?_
  simp only [naming, first_all_cons, first_all_nil]
  rw [first_few_eq (excludes_group excludes_noWord _ _), first_group_word hname]
  refine Option.bind_congr fun name hread => ?_
  rw [first_upTo]
  refine Option.bind_congr fun rest _ => ?_
  simp only [closing, first_all_cons, first_all_nil]
  rw [Braced.first_body]
  refine Option.bind_congr fun inner hinner => ?_
  rw [first_upTo]
  refine Option.bind_congr fun last _ => ?_
  rw [Braced.read, hafter, Braced.dropWhile_of_body? hinner, Match.capture?_cons_self,
    Match.value?_cons_of_ne (by decide), Match.value?_cons_self (word?_eq_some_iff.mp hread).1,
    groupText_cons_self rfl]
  rfl

/-- The keyword of a form, and its pattern. -/
def Form.search : Form → String × Pattern
  | nsEnum => ("NS_ENUM", pattern "NS_ENUM")
  | nsOptions => ("NS_OPTIONS", pattern "NS_OPTIONS")
  | plain => ("enum", Braced.pattern "enum")

theorem Form.shape_eq_pattern (form : Form) :
    form.shape = form.search.2.shape (Braced.read form.search.1) := by
  cases form with
  | nsEnum => exact macroCall_eq_pattern "NS_ENUM"
  | nsOptions => exact macroCall_eq_pattern "NS_OPTIONS"
  | plain => exact Braced.trailing_eq_pattern (by decide)

end Enumeration

/-! ## Constants -/

namespace Constant

/-- The pattern `.*?(\w+)[\s=\d.]*;`. -/
def pattern : Pattern := all [few (· != '\n'), group "name" word, many isFiller, mark ';']

/-- A constant at a place, be it within a word or not. -/
def named? : Shape (List Char) := fun _ text => do
  let h ← word? text
  let rest ← after ";" (h.rest.dropWhile isFiller)
  return ⟨h.value, rest⟩

theorem shape_eq_named? (prev : Option Char) (text : List Char) :
    shape prev text = if wordBoundary prev then named? prev text else none := by
  cases h : wordBoundary prev <;> simp [shape, named?, h]

/-- A digit may be of the name or behind it, but what ends the filler is the same. -/
theorem keeps_filler {α : Type} (result : Match → α) :
    Keeps isWordChar ((many isFiller).first ((mark ';').first fun m => some (result m))) := by
  rintro ⟨prev, text, captures⟩ ⟨prev', text', captures'⟩ c rfl hc hnone
  rw [first_many_mark _ _ (by decide)] at hnone ⊢
  by_cases hfiller : isFiller c = true
  · rw [List.dropWhile_cons_of_pos hfiller]
    simpa using hnone
  · have hne : c ≠ ';' := ne_of_isWordChar (by decide) hc
    rw [List.dropWhile_cons_of_neg hfiller]
    simp [List.isPrefixOf?, Ne.symm hne]

theorem first_named (text here : List Char) (prev : Option Char) (captures : List Capture) :
    (group "name" word).first ((many isFiller).first ((mark ';').first fun m =>
        some (Hit.mk (groupText "name" text m) m.text))) ⟨prev, here, captures⟩ =
      named? prev here := by
  rw [first_group_word (keeps_filler _)]
  refine Option.bind_congr fun w hw => ?_
  rw [first_many_mark _ _ (by decide)]
  refine Option.bind_congr fun rest _ => ?_
  rw [groupText_cons_self (word?_eq_some_iff.mp hw).1]
  rfl

/-- A constant ends with its semicolon. -/
theorem named?_eq_some {prev : Option Char} {text v rest : List Char}
    (h : named? prev text = some ⟨v, rest⟩) :
    ∃ taken, text = taken ++ rest ∧ taken.getLast? = some ';' := by
  simp only [named?, Option.bind_eq_bind, Option.bind_eq_some_iff, Option.pure_def,
    Option.some.injEq, Hit.mk.injEq] at h
  obtain ⟨w, hw, r, hsemi, rfl, rfl⟩ := h
  have hrest : w.rest = w.rest.takeWhile isFiller ++ (";".toList ++ r) := by
    rw [← after_eq_some_iff.mp hsemi, List.takeWhile_append_dropWhile]
  refine ⟨w.value ++ w.rest.takeWhile isFiller ++ [';'], ?_, by simp⟩
  rw [(word?_eq_some_iff.mp hw).1]
  conv_lhs => rw [hrest]
  simp

/-- What is found within a word is found at its start too. -/
theorem named?_cons {c : Char} (hc : isWordChar c = true) {prev prev' : Option Char}
    {text : List Char} {h : Hit (List Char)} (hhit : named? prev text = some h) :
    named? prev' (c :: text) = some ⟨c :: h.value, h.rest⟩ := by
  simp only [named?, Option.bind_eq_bind, Option.bind_eq_some_iff, Option.pure_def,
    Option.some.injEq] at hhit ⊢
  obtain ⟨w, hw, rest, hsemi, rfl⟩ := hhit
  obtain ⟨rfl, hword, hend⟩ := word?_eq_some_iff.mp hw
  have hlonger : IsWord (c :: w.value) :=
    ⟨List.cons_ne_nil _ _, List.forall_mem_cons.mpr ⟨hc, hword.chars⟩⟩
  exact ⟨⟨c :: w.value, w.rest⟩, word?_eq_some_iff.mpr ⟨rfl, hlonger, hend⟩, rest, hsemi,
    rfl⟩

/-- The pattern hits where a constant is found at the first place from here on. -/
theorem shape_pattern (prev : Option Char) (text : List Char) :
    pattern.shape (groupText "name") prev text =
      shortest (· != '\n') (fun m => named? m.prev m.text) [] prev text := by
  simp only [Pattern.shape, pattern, first_all_cons, first_all_nil, first_few]
  congr 1
  funext m
  exact first_named text m.text m.prev m.captures

theorem pattern_consumes : (pattern.shape (groupText "name")).Consumes := by
  intro prev text h hhit
  rw [shape_pattern] at hhit
  obtain ⟨lead, here, rfl, hhere, _⟩ := shortest_eq_some hhit
  obtain ⟨taken, rfl, hlast⟩ := named?_eq_some hhere
  refine ⟨lead ++ taken, fun hnil => ?_, by simp⟩
  rw [(List.append_eq_nil_iff.mp hnil).2] at hlast
  cases hlast

theorem pattern_eq_none_iff {prev : Option Char} {text : List Char} (hline : '\n' ∉ text) :
    pattern.shape (groupText "name") prev text = none ↔ named?.Absent prev text := by
  rw [shape_pattern, shortest_eq_none_iff (run_of_not_mem hline)]

/-- The first place where a constant is found is no place within a word. -/
theorem wordBoundary_of_first {prev : Option Char} {lead here : List Char} {h : Hit (List Char)}
    (hstart : wordBoundary prev = true ∨ wordBoundary (lead ++ here).head? = true)
    (hhit : named? (lead.getLast?.or prev) here = some h)
    (hbefore : ∀ a b, lead = a ++ b → b ≠ [] →
      named? (a.getLast?.or prev) (b ++ here) = none) :
    wordBoundary (lead.getLast?.or prev) = true := by
  rcases List.eq_nil_or_concat lead with rfl | ⟨lead, d, rfl⟩
  · refine hstart.resolve_right fun hhead => ?_
    obtain ⟨w, hw, _⟩ := Option.bind_eq_some_iff.mp hhit
    obtain ⟨htext, hword, _⟩ := word?_eq_some_iff.mp hw
    obtain ⟨c, cs, hcs⟩ := List.exists_cons_of_ne_nil hword.ne_nil
    have hc : isWordChar c = true := hword.chars c (by simp [hcs])
    rw [List.nil_append, htext, hcs] at hhead
    simp [wordBoundary, hc] at hhead
  · rw [List.concat_eq_append] at hhit hbefore ⊢
    cases hd : isWordChar d with
    | false => simp [wordBoundary, hd]
    | true =>
      have hnone := hbefore lead [d] rfl (List.cons_ne_nil _ _)
      rw [List.singleton_append, named?_cons hd hhit] at hnone
      cases hnone

/-- The search passes over what is before that place. -/
theorem hits_of_first {prev : Option Char} {lead part rest v : List Char} (hpart : part ≠ [])
    (hstart : wordBoundary prev = true ∨ wordBoundary (lead ++ (part ++ rest)).head? = true)
    (hhit : named? (lead.getLast?.or prev) (part ++ rest) = some ⟨v, rest⟩)
    (hbefore : ∀ a b, lead = a ++ b → b ≠ [] →
      named? (a.getLast?.or prev) (b ++ (part ++ rest)) = none) :
    shape.hits prev (lead ++ (part ++ rest)) = v :: shape.hits part.getLast? rest := by
  have hpass : ∀ a b, lead = a ++ b → b ≠ [] →
      shape (a.getLast?.or prev) (b ++ (part ++ rest)) = none := by
    intro a b hab hb
    rw [shape_eq_named?, hbefore a b hab hb, ite_self]
  have hconstant : shape (lead.getLast?.or prev) (part ++ rest) = some ⟨v, rest⟩ := by
    rw [shape_eq_named?, if_pos (wordBoundary_of_first hstart hhit hbefore)]
    exact hhit
  rw [Shape.hits_pass hpass, Shape.hits_hit hpart hconstant]

/-- Where the pattern does not hit, nothing is found by either from there on. -/
theorem hits_of_pattern_none {prev : Option Char} {text : List Char} (hline : '\n' ∉ text)
    (hnone : pattern.shape (groupText "name") prev text = none) :
    shape.hits prev text = [] ∧ (pattern.shape (groupText "name")).hits prev text = [] := by
  have habsent := (pattern_eq_none_iff hline).mp hnone
  have hshape : shape.Absent prev text := by
    intro lead here htext
    rw [shape_eq_named?, habsent lead here htext, ite_self]
  have hpattern : (pattern.shape (groupText "name")).Absent prev text := by
    rintro lead here rfl
    exact (pattern_eq_none_iff fun hmem => hline (List.mem_append_right _ hmem)).mpr
      habsent.of_append
  exact ⟨hshape.hits, hpattern.hits⟩

theorem hits_eq_pattern {prev : Option Char} {text : List Char} (hline : '\n' ∉ text)
    (hstart : wordBoundary prev = true ∨ wordBoundary text.head? = true) :
    shape.hits prev text = (pattern.shape (groupText "name")).hits prev text := by
  revert hline hstart
  -- behind a hit there is a semicolon, so the next one starts at no place within a word either
  induction prev, text using Shape.scan_induct pattern_consumes with
  | nil prev => simp
  | hit prev taken v rest hne hhit ih =>
    intro hline hstart
    rw [Shape.hits_hit hne hhit]
    rw [shape_pattern] at hhit
    obtain ⟨lead, here, htext, hhere, hbefore⟩ := shortest_eq_some hhit
    obtain ⟨part, rfl, hlast⟩ := named?_eq_some hhere
    obtain rfl : taken = lead ++ part := by
      rw [← List.append_assoc] at htext
      exact List.append_cancel_right htext
    have hpart : part ≠ [] := by
      rintro rfl
      cases hlast
    rw [List.append_assoc] at hline hstart ⊢
    rw [hits_of_first hpart hstart hhere hbefore]
    rw [List.getLast?_append_of_ne_nil lead hpart, hlast] at ih ⊢
    rw [ih (fun hmem => hline (by simp [hmem])) (.inl (by decide))]
  | plain prev c cs hnone _ =>
    intro hline _
    obtain ⟨hshape, hpattern⟩ := hits_of_pattern_none hline hnone
    rw [hshape, hpattern]

/-- **The constants of a line are those that their pattern finds in it.** -/
theorem occurrences_eq_pattern {line : List Char} (h : '\n' ∉ line) :
    shape.occurrences line = (pattern.shape (groupText "name")).occurrences line :=
  hits_eq_pattern h (.inl rfl)

end Constant

end HeaderIndex.Header
