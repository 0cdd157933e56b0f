import HeaderIndex.Json.Parser
import HeaderIndex.Json.Printer
import HeaderIndex.Proofs.Text.Reading
import Mathlib.Data.Option.Basic

/-! Strings and numbers in JSON text. What is written for a string is read back whatever
follows it (`readString_quote`), since every character that ends a string or starts an
escape is itself escaped. What is written for a natural number is read back if what
follows cannot be part of a number (`readNumber_toDigits`). -/

namespace HeaderIndex.Json

open HeaderIndex.Text

/-! ## Strings -/

theorem hexValue?_digitChar : ∀ n < 16, hexValue? (Nat.digitChar n) = some n := by decide

theorem readHex_hexPair {n : Nat} (h : n < 256) (rest : List Char) :
    readHex ('0' :: '0' :: (hexPair n ++ rest)) = some ⟨n, rest⟩ := by
  have hzero : hexValue? '0' = some 0 := rfl
  have hhigh := hexValue?_digitChar (n / 16) (by omega)
  have hlow := hexValue?_digitChar (n % 16) (by omega)
  have hvalue : n / 16 * 16 + n % 16 = n := by omega
  simp only [hexPair, List.cons_append, List.nil_append, readHex, hzero, hhigh, hlow,
    Option.bind_eq_bind, Option.bind_some, Option.pure_def, Nat.zero_mul, Nat.zero_add, hvalue]

/-- A control character is no surrogate, so its escape stands alone. -/
theorem readUnicode_hexPair {c : Char} (h : c.toNat < 0x20) (rest : List Char) :
    readUnicode ('0' :: '0' :: (hexPair c.toNat ++ rest)) = some ⟨c, rest⟩ := by
  have hhigh : isHighSurrogate c.toNat = false := by simp [isHighSurrogate]; omega
  have hlow : isLowSurrogate c.toNat = false := by simp [isLowSurrogate]; omega
  rw [readUnicode, readHex_hexPair (by omega)]
  simp only [Option.bind_eq_bind, Option.bind_some, hhigh, hlow, Bool.false_eq_true, if_false,
    Char.ofNat_toNat, Option.pure_def]

/-- One written character is read back as that character. -/
theorem readChars_escape (bound : Nat) (c : Char) (text : List Char) :
    readChars (bound + 1) (escape c ++ text) =
      (readChars bound text).bind fun h => some ⟨c :: h.value, h.rest⟩ := by
  by_cases hquote : c = '"'
  · subst hquote; rfl
  by_cases hslash : c = '\\'
  · subst hslash; rfl
  by_cases hfeed : c = '\n'
  · subst hfeed; rfl
  by_cases hreturn : c = '\r'
  · subst hreturn; rfl
  by_cases htab : c = '\t'
  · subst htab; rfl
  by_cases hback : c = '\x08'
  · subst hback; rfl
  by_cases hform : c = '\x0c'
  · subst hform; rfl
  simp only [escape, beq_iff_eq, hquote, hslash, hfeed, hreturn, htab, hback, hform, if_false]
  split
  · rename_i hcontrol
    simp only [List.cons_append, readChars, readEscape, readUnicode_hexPair hcontrol]
    rfl
  · rename_i hplain
    simp only [List.cons_append, List.nil_append, readChars, beq_iff_eq, hquote,
      hslash, hplain, if_false]
    rfl

theorem readChars_written {bound : Nat} {s : List Char} (h : s.length < bound) (rest : List Char) :
    readChars bound (s.flatMap escape ++ '"' :: rest) = some ⟨s, rest⟩ := by
  induction s generalizing bound with
  | nil =>
    obtain ⟨bound, rfl⟩ := Nat.exists_eq_add_of_lt h
    rfl
  | cons c s ih =>
    obtain ⟨bound, rfl⟩ : ∃ n, bound = n + 1 :=
      ⟨bound - 1, by rw [List.length_cons] at h; omega⟩
    rw [List.length_cons] at h
    rw [List.flatMap_cons, List.append_assoc, readChars_escape, ih (by omega)]
    rfl

theorem length_pos_escape (c : Char) : 0 < (escape c).length := by
  grind [escape]

theorem length_le_flatMap_escape (s : List Char) : s.length ≤ (s.flatMap escape).length := by
  induction s with
  | nil => simp
  | cons c s ih =>
    have hc := length_pos_escape c
    rw [List.flatMap_cons, List.length_append, List.length_cons]
    omega

theorem readString_written (s : String) (rest : List Char) :
    readString (s.toList.flatMap escape ++ '"' :: rest) = some ⟨s, rest⟩ := by
  have hlength := length_le_flatMap_escape s.toList
  rw [readString, readChars_written (by rw [List.length_append, List.length_cons]; omega)]
  simp

theorem quote_append (s : String) (rest : List Char) :
    quote s ++ rest = '"' :: (s.toList.flatMap escape ++ '"' :: rest) := by
  simp [quote]

/-! ## Numbers -/

/-- Characters that a number may go on with. -/
def isNumeric (c : Char) : Bool := c.isDigit || c == '.' || c == 'e' || c == 'E'

theorem isDigit_of_mem_toDigits {n : Nat} {c : Char} (h : c ∈ Nat.toDigits 10 n) :
    c.isDigit = true :=
  Nat.isDigit_of_mem_toDigits (by decide) (Nat.le_refl 10) h

theorem toDigits_eq_cons (n : Nat) :
    ∃ d ds, Nat.toDigits 10 n = d :: ds ∧ d.isDigit = true := by
  obtain ⟨d, ds, hds⟩ := List.exists_cons_of_ne_nil (Nat.toDigits_ne_nil (n := n) (b := 10))
  exact ⟨d, ds, hds, isDigit_of_mem_toDigits (n := n) (by rw [hds]; exact List.mem_cons_self)⟩

theorem head?_toDigits {n : Nat} (h : 0 < n) : (Nat.toDigits 10 n).head? ≠ some '0' := by
  induction n using Nat.strongRecOn with
  | ind n ih =>
    by_cases hn : n < 10
    · rw [Nat.toDigits_of_lt_base hn]
      simp
      omega
    · rw [Nat.toDigits_of_base_le (by omega) (by omega), List.head?_append]
      have hfirst := ih (n / 10) (by omega) (by omega)
      obtain ⟨d, ds, hds, _⟩ := toDigits_eq_cons (n / 10)
      rw [hds] at hfirst ⊢
      exact hfirst

theorem readWhole_toDigits (n : Nat) {rest : List Char} (h : StopsRun Char.isDigit rest) :
    readWhole (Nat.toDigits 10 n ++ rest) = some ⟨Nat.toDigits 10 n, rest⟩ := by
  have hdigits : ∀ c ∈ Nat.toDigits 10 n, c.isDigit = true :=
    fun c hc => isDigit_of_mem_toDigits hc
  have hzero : ((Nat.toDigits 10 n).head? == some '0' && (Nat.toDigits 10 n).length != 1) =
      false := by
    rcases Nat.eq_zero_or_pos n with rfl | hpos
    · rfl
    · simp [head?_toDigits hpos]
  rw [readWhole, readDigits, takeWhile_run hdigits h, dropWhile_run hdigits h]
  obtain ⟨d, ds, hds, _⟩ := toDigits_eq_cons n
  rw [hds] at hzero ⊢
  simp only [Option.bind_eq_bind, Option.bind_some, hzero, Bool.false_eq_true, if_false]

theorem readFraction_stop {rest : List Char} (h : StopsRun isNumeric rest) :
    readFraction rest = some ⟨[], rest⟩ := by
  cases rest with
  | nil => rfl
  | cons c rest =>
    have hc := stopsRun_cons.mp h
    have hpoint : c ≠ '.' := by rintro rfl; cases hc
    rw [readFraction]
    simpa using hpoint

theorem readExponent_stop {rest : List Char} (h : StopsRun isNumeric rest) :
    readExponent rest = some ⟨[], rest⟩ := by
  cases rest with
  | nil => rfl
  | cons c rest =>
    have hc := stopsRun_cons.mp h
    have hmark : (c == 'e' || c == 'E') = false := by
      simp only [isNumeric, Bool.or_eq_false_iff] at hc ⊢
      exact ⟨hc.1.2, hc.2⟩
    simp only [readExponent.eq_def, hmark, Bool.false_eq_true, if_false]

theorem readNumber_toDigits (n : Nat) {rest : List Char} (h : StopsRun isNumeric rest) :
    readNumber (Nat.toDigits 10 n ++ rest) = some ⟨nat n, rest⟩ := by
  have hdigit : StopsRun Char.isDigit rest := by
    intro c hc
    have := h c hc
    simp only [isNumeric, Bool.or_eq_false_iff] at this
    exact this.1.1.1
  have hsign : ∀ tail, Nat.toDigits 10 n ++ rest ≠ '-' :: tail := by
    intro tail htail
    obtain ⟨d, ds, hds, hd⟩ := toDigits_eq_cons n
    rw [hds, List.cons_append, List.cons.injEq] at htail
    rw [htail.1] at hd
    cases hd
  unfold readNumber
  split
  rename_i sign text hmatch
  split at hmatch
  · rename_i tail htail
    exact absurd htail (hsign tail)
  · cases hmatch
    simp only [readWhole_toDigits n hdigit, readFraction_stop h, readExponent_stop h,
      Option.bind_eq_bind, Option.bind_some, Option.pure_def, List.append_nil, List.nil_append,
      beq_self_eq_true, if_true, Nat.ofDigitChars_ten_toDigits]

end HeaderIndex.Json
