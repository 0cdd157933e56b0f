import HeaderIndex.Glob.Match
import HeaderIndex.Glob.Parser
import HeaderIndex.Proofs.Text.Utf8
import Mathlib.Data.List.Infix

/-! Patterns that are plain behind a star. A text without metacharacters is read as itself
(`parse_run_plain`), and behind a star it matches what ends with its bytes
(`matchesText_run`). -/

namespace HeaderIndex.Glob

open HeaderIndex.Text
open String (utf8EncodeChar)

/-! ## Reading -/

/-- The characters that do not stand for themselves. -/
def metacharacters : List Char := ['*', '?', '[', ']', '\x7b', '\x7d', '\\']

/-- A text of characters that stand for themselves. -/
def IsPlain (text : List Char) : Prop := ∀ c ∈ text, c ∉ metacharacters

theorem Progress.comma_of_no_group {p : Progress} (h : p.frames = []) :
    p.comma = p.push (.literal ',') := by
  simp only [comma, h]

theorem readFrom_cons_plain {c : Char} (hc : c ∉ metacharacters) {p : Progress}
    (hp : p.frames = []) (lenient : Bool) (bound : Nat) (prev : Option Char) (cs : List Char) :
    readFrom lenient (bound + 1) prev p (c :: cs) =
      readFrom lenient bound (some c) (p.push (.literal c)) cs := by
  simp only [metacharacters, List.mem_cons, not_or] at hc
  obtain ⟨hstar, hany, hclass, _, hopen, hclose, hescape, _⟩ := hc
  by_cases hcomma : c = ','
  · rw [hcomma, readFrom, Progress.comma_of_no_group hp]
  · rw [readFrom]
    all_goals assumption

/-- Plain text outside of groups adds its characters to the pattern. -/
theorem readFrom_plain {text : List Char} (h : IsPlain text) {p : Progress} (hp : p.frames = [])
    (lenient : Bool) {bound : Nat} (hbound : text.length ≤ bound) (prev : Option Char) :
    readFrom lenient bound prev p text = .ok (p.current.reverse ++ text.map .literal) := by
  induction text generalizing p bound prev with
  | nil =>
    rw [readFrom, Progress.finish, Progress.inGroup, hp, List.map_nil, List.append_nil]
    rfl
  | cons c text ih =>
    obtain ⟨hc, htext⟩ := List.forall_mem_cons.mp h
    obtain ⟨bound, rfl⟩ : ∃ less, bound = less + 1 :=
      Nat.exists_eq_add_one.mpr (Nat.lt_of_lt_of_le (Nat.succ_pos _) hbound)
    have hpush : (p.push (.literal c)).frames = [] := hp
    rw [readFrom_cons_plain hc hp, ih htext hpush (Nat.le_of_succ_le_succ hbound)]
    simp [Progress.push]

/-- A star and plain text behind it. -/
theorem parse_run_plain {text : String} (h : IsPlain text.toList) (lenient : Bool) :
    parse lenient ("*" ++ text) = .ok (.run :: text.toList.map .literal) := by
  have hchars : ("*" ++ text).toList = '*' :: text.toList := String.toList_append
  have hlength : ("*" ++ text).length = text.toList.length + 1 := by
    rw [← String.length_toList, hchars, List.length_cons]
  have hnostar : ∀ rest, text.toList = '*' :: rest → False := by
    intro rest hrest
    rw [hrest] at h
    exact h '*' List.mem_cons_self (by decide)
  rw [parse, hchars, hlength, readFrom]
  · exact readFrom_plain h rfl lenient (Nat.le_refl _) _
  · exact hnostar

/-! ## Matching -/

/-- A run that nothing stops leads to every tail. -/
theorem tailsUntil_never {stop : UInt8 → Bool} (h : ∀ b, stop b = false) (text : List UInt8) :
    tailsUntil stop text = text.tails := by
  induction text with
  | nil => rfl
  | cons b text ih => rw [tailsUntil, h, List.tails_cons, ih, if_neg Bool.false_ne_true]

theorem mem_rests_literal {strict : Bool} {c : Char} {rest text : List UInt8} :
    rest ∈ Token.rests strict (.literal c) text ↔ utf8EncodeChar c ++ rest = text := by
  rw [Token.rests, Option.mem_toList, List.isPrefixOf?_eq_some_iff_append_eq]

/-- Literals leave of a text what stands behind their bytes. -/
theorem mem_patternRests_literals {strict : Bool} {chars : List Char} {rest : List UInt8}
    {texts : List (List UInt8)} : rest ∈ patternRests strict (chars.map .literal) texts ↔
      Utf8.encode chars ++ rest ∈ texts := by
  induction chars generalizing texts with
  | nil => simp [patternRests, Utf8.encode_nil]
  | cons c chars ih =>
    rw [List.map_cons, patternRests, ih, List.mem_eraseDups, List.mem_flatMap, Utf8.encode_cons,
      List.append_assoc]
    simp [mem_rests_literal]

/-- A star and literals match what ends with their bytes. -/
theorem matchesText_run {chars : List Char} {text : Name} :
    matchesText false (.run :: chars.map .literal) text = true ↔ Utf8.encode chars <:+ text := by
  have hrests : patternRests false (.run :: chars.map .literal) [text] =
      patternRests false (chars.map .literal) text.tails.eraseDups := by
    simp [patternRests, Token.rests, tailsUntil_never]
  rw [matchesText, hrests, List.any_eq_true]
  · simp only [List.isEmpty_iff, exists_eq_right, mem_patternRests_literals, List.append_nil,
      List.mem_eraseDups, List.mem_tails]
  · intro h
    cases h

end HeaderIndex.Glob
