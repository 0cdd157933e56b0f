import HeaderIndex.Proofs.Text.Utf8

/-! Bytes that are no text. Reading stops at the first place where no character can be read, and
what is before that place is the longest part that is a text (`length_le_of_decodeFrom`).
There the bytes either end inside a character or have a byte that cannot stand there
(`Fault`); which of the two it is, is the same as whether they begin a character
(`Fault.length_eq_none_iff`). -/

namespace HeaderIndex.Text.Utf8

open String (utf8EncodeChar)

/-! ## Beginnings of characters -/

/-- Bytes that may stand behind the first one of a character. -/
def Follow (first : UInt8) : List UInt8 → Prop
  | [] => True
  | b :: more => isSecond first b = true ∧ ∀ c ∈ more, isContinuation c = true

theorem Follow.of_append {first : UInt8} {more rest : List UInt8}
    (h : Follow first (more ++ rest)) : Follow first more := by
  cases more with
  | nil => exact trivial
  | cons b more => exact ⟨h.1, fun c hc => h.2 c (List.mem_append_left rest hc)⟩

theorem Spelled.follow {first : UInt8} {more : List UInt8} {n : Nat}
    (h : Spelled (first :: more) n) : width first = more.length + 1 ∧ Follow first more := by
  cases h with
  | one ha => exact ⟨ha, trivial⟩
  | two ha hb => exact ⟨ha, hb, by simp⟩
  | three ha hb hc => exact ⟨ha, hb, by simp [hc]⟩
  | four ha hb hc hd => exact ⟨ha, hb, by simp [hc, hd]⟩

theorem exists_spelled {first : UInt8} {more : List UInt8} (hwidth : width first = more.length + 1)
    (h : Follow first more) : ∃ n, Spelled (first :: more) n := by
  match more, h with
  | [], _ => exact ⟨_, .one hwidth⟩
  | [_], ⟨hb, _⟩ => exact ⟨_, .two hwidth hb⟩
  | [_, _], ⟨hb, hmore⟩ => exact ⟨_, .three hwidth hb (hmore _ (by simp))⟩
  | [_, _, _], ⟨hb, hmore⟩ =>
    exact ⟨_, .four hwidth hb (hmore _ (by simp)) (hmore _ (by simp))⟩
  | _ :: _ :: _ :: _ :: _, _ =>
    have hle := width_le first
    simp only [List.length_cons] at hwidth
    omega

/-- Every first byte has a byte that may stand behind it. -/
theorem exists_isSecond (first : UInt8) : ∃ b, isSecond first b = true := by
  by_cases hlong : first.toNat = 0xe0 ∨ first.toNat = 0xf0
  · refine ⟨0xa0, isSecond_iff.mpr ?_⟩
    simp only [UInt8.reduceToNat]
    omega
  · refine ⟨0x80, isSecond_iff.mpr ?_⟩
    simp only [UInt8.reduceToNat]
    omega

/-- What begins a character can be completed. -/
theorem exists_completion {first : UInt8} {more : List UInt8}
    (hopen : more.length + 1 ≤ width first) (h : Follow first more) :
    ∃ rest, width first = (more ++ rest).length + 1 ∧ Follow first (more ++ rest) := by
  cases more with
  | nil =>
    by_cases hone : width first = 1
    · exact ⟨[], hone, trivial⟩
    · obtain ⟨b, hb⟩ := exists_isSecond first
      refine ⟨b :: List.replicate (width first - 2) 0x80, ?_, hb, fun c hc => ?_⟩
      · simp only [List.nil_append, List.length_cons, List.length_replicate,
          List.length_nil] at hopen ⊢
        omega
      · rw [(List.mem_replicate.mp hc).2]
        rfl
  | cons b more =>
    refine ⟨List.replicate (width first - (more.length + 2)) 0x80, ?_, h.1, fun c hc => ?_⟩
    · simp only [List.cons_append, List.length_cons, List.length_append,
        List.length_replicate] at hopen ⊢
      omega
    · rcases List.mem_append.mp hc with hmore | hrest
      · exact h.2 c hmore
      · rw [(List.mem_replicate.mp hrest).2]
        rfl

/-- **Which bytes begin a character.** -/
theorem begins_iff {first : UInt8} {more : List UInt8} :
    (∃ char, first :: more <+: utf8EncodeChar char) ↔ more.length + 1 ≤ width first ∧
      Follow first more := by
  constructor
  · rintro ⟨char, rest, hrest⟩
    have hspelled := spelled_encodeChar char
    rw [← hrest, List.cons_append] at hspelled
    obtain ⟨hwidth, hfollow⟩ := hspelled.follow
    rw [List.length_append] at hwidth
    exact ⟨by omega, hfollow.of_append⟩
  · rintro ⟨hopen, hfollow⟩
    obtain ⟨rest, hwidth, hall⟩ := exists_completion hopen hfollow
    obtain ⟨n, hspelled⟩ := exists_spelled hwidth hall
    refine ⟨Char.ofNat n, rest, ?_⟩
    rw [hspelled.encodeChar, List.cons_append]

/-- What begins a character is shorter than it just if its first byte asks for more. -/
theorem ne_encodeChar_iff {first : UInt8} {more : List UInt8} {char : Char}
    (h : first :: more <+: utf8EncodeChar char) :
    first :: more ≠ utf8EncodeChar char ↔ more.length + 1 < width first := by
  obtain ⟨rest, hrest⟩ := h
  have hspelled := spelled_encodeChar char
  rw [← hrest, List.cons_append] at hspelled
  obtain ⟨hwidth, _⟩ := hspelled.follow
  rw [List.length_append] at hwidth
  rw [← hrest, Ne, List.self_eq_append_right, ← List.length_eq_zero_iff]
  omega

/-! ## Where reading stops -/

/-- Bytes of which no character can be read, and how many of them are wrong: the first one if no
character starts so; else those before the first that cannot stand where it does; none if
the bytes only end too early. -/
inductive Fault : List UInt8 → Option Nat → Prop where
  | start {first : UInt8} {rest : List UInt8} (hfirst : width first = 0) :
      Fault (first :: rest) (some 1)
  | inside {first b : UInt8} {more rest : List UInt8} (hopen : more.length + 1 < width first)
      (hmore : Follow first more)
      (hb : ¬ Follow first (more ++ [b])) :
        Fault (first :: (more ++ b :: rest)) (some (more.length + 1))
  | cut {first : UInt8} {more : List UInt8} (hopen : more.length + 1 < width first)
      (hmore : Follow first more) :
      Fault (first :: more) none

namespace Fault

variable {a b c d : UInt8} {rest : List UInt8}

theorem second (ha : 1 < width a) (hb : (!isSecond a b) = true) : Fault (a :: b :: rest) (some 1) :=
  @inside a b [] rest ha trivial fun h => by simp [h.1] at hb

theorem third (ha : 2 < width a) (hb : ¬ (!isSecond a b) = true)
    (hc : (!isContinuation c) = true) : Fault (a :: b :: c :: rest) (some 2) :=
  @inside a c [b] rest ha ⟨by simpa using hb, by simp⟩ fun h => by simp [h.2 c (by simp)] at hc

theorem fourth (ha : 3 < width a) (hb : ¬ (!isSecond a b) = true)
    (hc : ¬ (!isContinuation c) = true) (hd : (!isContinuation d) = true) :
    Fault (a :: b :: c :: d :: rest) (some 3) :=
  @inside a d [b, c] rest ha ⟨by simpa using hb, by simpa using hc⟩ fun h =>
    by simp [h.2 d (by simp)] at hd

end Fault

/-- At any place, either a character is read or there is a fault. -/
theorem spelled_or_fault (index : Nat) {bytes : List UInt8} (h : bytes ≠ []) :
    (∃ own n rest, Spelled own n ∧ bytes = own ++ rest) ∨
      ∃ length, Fault bytes length ∧ decodeFrom index bytes = .error ⟨index, length⟩ := by
  fun_cases decodeFrom index bytes with
  | case1 => exact absurd rfl h
  -- characters
  | case2 a rest ha => exact .inl ⟨_, _, rest, .one ha, rfl⟩
  | case5 a ha b rest hb => exact .inl ⟨_, _, rest, .two ha (by simpa using hb), rfl⟩
  | case11 a ha b c rest hb hc =>
    exact .inl ⟨_, _, rest, .three ha (by simpa using hb) (by simpa using hc), rfl⟩
  | case21 a ha b c d rest hb hc hd =>
    exact .inl ⟨_, _, rest, .four ha (by simpa using hb) (by simpa using hc) (by simpa using hd),
      rfl⟩
  -- bytes that end too early
  | case3 a short ha => exact .inr ⟨_, .cut (by simp [ha]) trivial, rfl⟩
  | case6 a short ha => exact .inr ⟨_, .cut (by simp [ha]) trivial, rfl⟩
  | case8 a short ha b hb =>
    exact .inr ⟨_, .cut (by simp [ha]) ⟨by simpa using hb, by simp⟩, rfl⟩
  | case12 a short ha => exact .inr ⟨_, .cut (by simp [ha]) trivial, rfl⟩
  | case14 a short ha b hb =>
    exact .inr ⟨_, .cut (by simp [ha]) ⟨by simpa using hb, by simp⟩, rfl⟩
  | case17 a short ha b c hb hc =>
    exact .inr ⟨_, .cut (by simp [ha]) ⟨by simpa using hb, by simpa using hc⟩, rfl⟩
  -- bytes that cannot stand where they do
  | case4 a wrong ha b rest hb => exact .inr ⟨_, .second (by omega) hb, rfl⟩
  | case7 a wrong ha b hb => exact .inr ⟨_, .second (by omega) hb, rfl⟩
  | case9 a wrong ha b c rest hb => exact .inr ⟨_, .second (by omega) hb, rfl⟩
  | case13 a wrong ha b hb => exact .inr ⟨_, .second (by omega) hb, rfl⟩
  | case15 a wrong ha b c hb => exact .inr ⟨_, .second (by omega) hb, rfl⟩
  | case18 a wrong ha b c d rest hb => exact .inr ⟨_, .second (by omega) hb, rfl⟩
  | case10 a wrong ha b c rest hb hc => exact .inr ⟨_, .third (by omega) hb hc, rfl⟩
  | case16 a wrong ha b c hb hc => exact .inr ⟨_, .third (by omega) hb hc, rfl⟩
  | case19 a wrong ha b c d rest hb hc => exact .inr ⟨_, .third (by omega) hb hc, rfl⟩
  | case20 a wrong ha b c d rest hb hc hd => exact .inr ⟨_, .fourth (by omega) hb hc hd, rfl⟩
  | case22 a rest wrong hone htwo hthree hfour =>
    have hle := width_le a
    have hnone : width a = 0 := by grind
    exact .inr ⟨_, .start hnone, rfl⟩

/-- Reading fails behind a text, at a fault. -/
theorem decodeFrom_eq_error {bytes : List UInt8} {index : Nat} {e : Error}
    (h : decodeFrom index bytes = .error e) : ∃ text rest, bytes = encode text ++ rest ∧
      Fault rest e.length ∧ e.index = index + (encode text).length := by
  induction hlength : bytes.length using Nat.strongRecOn generalizing bytes index with
  | _ length ih =>
    have hsome : bytes ≠ [] := by
      rintro rfl
      cases h
    rcases spelled_or_fault index hsome with ⟨own, n, rest, hown, rfl⟩ |
      ⟨wrong, hfault, herror⟩
    · obtain ⟨first, more, hfirst, _⟩ := hown.shape
      rw [hown.decodeFrom_append, map_eq_error] at h
      have hshorter : rest.length < length := by
        rw [← hlength, hfirst, List.length_append, List.length_cons]
        omega
      obtain ⟨text, left, hbytes, hfault, hindex⟩ := ih rest.length hshorter h rfl
      refine ⟨Char.ofNat n :: text, left, ?_, hfault, ?_⟩
      · rw [encode_cons, hown.encodeChar, List.append_assoc, ← hbytes]
      · rw [hindex, encode_cons, hown.encodeChar, List.length_append, Nat.add_assoc]
    · rw [herror] at h
      cases h
      exact ⟨[], bytes, rfl, hfault, rfl⟩

/-- No longer part at the start of the bytes is a text. -/
theorem length_le_of_decodeFrom {bytes : List UInt8} {index : Nat} {e : Error}
    (h : decodeFrom index bytes = .error e) {text : List Char} (htext : encode text <+: bytes) :
    index + (encode text).length ≤ e.index := by
  obtain ⟨rest, rfl⟩ := htext
  rw [decodeFrom_encode_append, map_eq_error] at h
  obtain ⟨_, _, _, _, hindex⟩ := decodeFrom_eq_error h
  omega

/-! ## What a fault tells -/

namespace Fault

variable {rest : List UInt8} {length : Option Nat}

/-- Bytes are called incomplete just if they are the beginning of a character. -/
theorem length_eq_none_iff (h : Fault rest length) :
    length = none ↔ ∃ char, rest <+: utf8EncodeChar char ∧ rest ≠ utf8EncodeChar char := by
  cases h with
  | start hfirst =>
    refine iff_of_false nofun ?_
    rintro ⟨char, hprefix, _⟩
    have hopen := (begins_iff.mp ⟨char, hprefix⟩).1
    omega
  | inside hopen hmore hb =>
    refine iff_of_false nofun ?_
    rintro ⟨char, hprefix, _⟩
    have hfollow := (begins_iff.mp ⟨char, hprefix⟩).2
    rw [List.append_cons] at hfollow
    exact hb hfollow.of_append
  | cut hopen hmore =>
    obtain ⟨char, hprefix⟩ := begins_iff.mpr ⟨Nat.le_of_lt hopen, hmore⟩
    exact iff_of_true rfl ⟨char, hprefix, (ne_encodeChar_iff hprefix).mpr hopen⟩

theorem length_pos (h : Fault rest length) : 0 < rest.length := by cases h <;> simp

theorem length_bounds {n : Nat} (h : Fault rest (some n)) : 1 ≤ n ∧ n ≤ 3 := by
  cases h with
  | start hfirst => omega
  | @inside first b more rest hopen hmore hb =>
    have hle := width_le first
    omega

/-- The bytes called wrong are as many as begin a character, though one at least. -/
theorem length_longest {n : Nat} (h : Fault rest (some n)) :
    (n = 1 ∨ ∃ char, rest.take n <+: utf8EncodeChar char) ∧ ∀ char,
      ¬ rest.take (n + 1) <+: utf8EncodeChar char := by
  cases h with
  | start hfirst =>
    refine ⟨.inl rfl, fun char hprefix => ?_⟩
    have hopen := (begins_iff.mp ⟨char, hprefix⟩).1
    omega
  | @inside first b more rest hopen hmore hb =>
    have hbefore : (first :: (more ++ b :: rest)).take (more.length + 1) = first :: more := by simp
    have hbehind : (first :: (more ++ b :: rest)).take (more.length + 1 + 1) = first ::
        (more ++ [b]) := by
      simp [List.take_append, List.take_of_length_le (Nat.le_succ more.length)]
    rw [hbefore, hbehind]
    exact ⟨.inr (begins_iff.mpr ⟨Nat.le_of_lt hopen, hmore⟩), fun char hprefix =>
      hb (begins_iff.mp ⟨char, hprefix⟩).2⟩

end Fault

/-! ## What an error tells -/

def IsText (bytes : List UInt8) : Prop := ∃ text : String, text.toUTF8.toList = bytes

theorem isText_iff {bytes : List UInt8} : IsText bytes ↔ ∃ text, bytes = encode text := by
  constructor
  · rintro ⟨text, rfl⟩
    exact ⟨text.toList, toList_toUTF8 text⟩
  · rintro ⟨text, rfl⟩
    refine ⟨String.ofList text, ?_⟩
    rw [toList_toUTF8, String.toList_ofList]

/-- What an error says about bytes is true of them. -/
structure Error.IsTrueOf (e : Error) (bytes : List UInt8) : Prop where
  within : e.index ≤ bytes.length
  /-- Before the index is a text, and the longest one that the bytes begin with. -/
  text : IsText (bytes.take e.index)
  longest : ∀ n ≤ bytes.length, IsText (bytes.take n) → n ≤ e.index
  /-- What is left is incomplete if it is the beginning of a character, but no character. -/
  incomplete : e.length = none ↔
    ∃ char, bytes.drop e.index <+: utf8EncodeChar char ∧
    bytes.drop e.index ≠ utf8EncodeChar char
  /-- Otherwise so much of it is wrong as begins a character, though one byte at least. -/
  wrong : ∀ n, e.length = some n → (1 ≤ n ∧ n ≤ 3) ∧
    (n = 1 ∨ ∃ char, (bytes.drop e.index).take n <+: utf8EncodeChar char) ∧
    ∀ char, ¬ (bytes.drop e.index).take (n + 1) <+: utf8EncodeChar char

theorem isTrueOf_of_decode {bytes : List UInt8} {e : Error} (h : decode bytes = .error e) :
    e.IsTrueOf bytes := by
  obtain ⟨text, rest, hbytes, hfault, hindex⟩ := decodeFrom_eq_error h
  rw [Nat.zero_add] at hindex
  have htake : bytes.take e.index = encode text := by rw [hbytes, hindex, List.take_left]
  have hdrop : bytes.drop e.index = rest := by rw [hbytes, hindex, List.drop_left]
  refine ⟨?_, isText_iff.mpr ⟨text, htake⟩, fun n hn hlonger => ?_, ?_, fun n hlength => ?_⟩
  · rw [hindex, hbytes, List.length_append]
    omega
  · obtain ⟨longer, hlonger⟩ := isText_iff.mp hlonger
    have hle := length_le_of_decodeFrom h (hlonger ▸ List.take_prefix n bytes)
    rw [← hlonger, List.length_take, Nat.zero_add] at hle
    omega
  · rw [hdrop]
    exact hfault.length_eq_none_iff
  · rw [hlength] at hfault
    rw [hdrop]
    exact ⟨hfault.length_bounds, hfault.length_longest⟩

/-! ## Showing bytes that are no text -/

@[simp] theorem lossy_encode (text : List Char) : lossy (encode text) = text := by
  rw [lossy, replaceFaults, decode_eq_ok_iff.mpr rfl]

theorem length_behind_lt {own : List UInt8} {e : Error} (h : decode own = .error e) :
    (e.behind own).length < own.length := by
  obtain ⟨text, rest, rfl, hfault, hindex⟩ := decodeFrom_eq_error h
  have hrest := hfault.length_pos
  rw [Error.behind, List.length_append]
  split
  · rename_i n hn
    rw [hn] at hfault
    have hbounds := hfault.length_bounds
    rw [List.length_drop, List.length_append]
    omega
  · simp only [List.length_nil]
    omega

/-- Any bound on the number of faults does. -/
theorem replaceFaults_eq {bound more : Nat} {own : List UInt8} (h : own.length < bound)
    (hmore : own.length < more) : replaceFaults bound own = replaceFaults more own := by
  induction bound generalizing more own with
  | zero => exact absurd h (Nat.not_lt_zero _)
  | succ bound ih =>
    obtain ⟨more, rfl⟩ := Nat.exists_eq_succ_of_ne_zero (Nat.ne_zero_of_lt hmore)
    rw [replaceFaults, replaceFaults]
    cases hdecode : decode own with
    | ok text => rfl
    | error e =>
      have hshorter := length_behind_lt hdecode
      have hbehind : replaceFaults bound (e.behind own) = replaceFaults more (e.behind own) :=
        ih (by omega) (by omega)
      simp only [hbehind]

/-- A replacement stands for the first fault, and what is behind it is shown in turn. -/
theorem lossy_of_error {own : List UInt8} {e : Error} (h : decode own = .error e) :
    lossy own = readable (own.take e.index) ++ '\ufffd' :: lossy (e.behind own) := by
  have hshorter := length_behind_lt h
  rw [lossy, replaceFaults, h]
  simp only [lossy, replaceFaults_eq hshorter (Nat.lt_succ_self _)]

end HeaderIndex.Text.Utf8
