import HeaderIndex.Proofs.Result
import HeaderIndex.Text.Utf8

/-! UTF-8 and text. Bytes can be read exactly if they spell a text, and then they are read as
that text (`decode_eq_ok_iff`). Both directions come down to one fact about each
width: the bytes of that width which are read as a character are those it is written
with. A text that the bytes of another one end with is an end of that one, since no
character starts inside another (`encode_suffix_iff`). -/

namespace HeaderIndex.Text.Utf8

open String (utf8EncodeChar)

/-! ## Bytes as numbers -/

theorem isContinuation_iff {b : UInt8} :
    isContinuation b = true ↔ 0x80 ≤ b.toNat ∧ b.toNat ≤ 0xbf := by
  simp [isContinuation, UInt8.le_iff_toNat_le]

theorem width_iff (b : UInt8) :
    (width b = 1 ↔ b.toNat < 0x80) ∧ (width b = 2 ↔ 0xc2 ≤ b.toNat ∧ b.toNat ≤ 0xdf) ∧
      (width b = 3 ↔ 0xe0 ≤ b.toNat ∧ b.toNat ≤ 0xef) ∧
      (width b = 4 ↔ 0xf0 ≤ b.toNat ∧ b.toNat ≤ 0xf4) := by
  simp only [width, UInt8.lt_iff_toNat_lt, UInt8.le_iff_toNat_le, Bool.and_eq_true,
    decide_eq_true_eq, UInt8.reduceToNat]
  grind

theorem width_le (b : UInt8) : width b ≤ 4 := by
  rw [width]
  split
  · omega
  · repeat' split
    all_goals omega

/-- A second byte continues a character. Next to some first bytes, part of the range is for
other forms or for no character at all. -/
theorem isSecond_iff {a b : UInt8} :
    isSecond a b = true ↔ (0x80 ≤ b.toNat ∧ b.toNat ≤ 0xbf) ∧
      (a.toNat = 0xe0 → 0xa0 ≤ b.toNat) ∧ (a.toNat = 0xed → b.toNat ≤ 0x9f) ∧
      (a.toNat = 0xf0 → 0x90 ≤ b.toNat) ∧ (a.toNat = 0xf4 → b.toNat ≤ 0x8f) := by
  simp only [isSecond, isContinuation, beq_iff_eq, ← UInt8.toNat_inj, UInt8.le_iff_toNat_le,
    UInt8.reduceToNat]
  grind

theorem toNat_ofNat {n : Nat} (h : n < 256) : (UInt8.ofNat n).toNat = n := by
  rw [UInt8.toNat_ofNat', Nat.mod_eq_of_lt h]

theorem ofNat_eq {n : Nat} {b : UInt8} (h : n = b.toNat) : UInt8.ofNat n = b := by
  rw [h, UInt8.ofNat_toNat]

theorem addBits_eq (n : Nat) (b : UInt8) : addBits n b = n * 64 + (b.toNat - 0x80) := rfl

/-! ## Characters as numbers -/

/-- Numbers that are characters. -/
def IsScalar (n : Nat) : Prop := n < 0xd800 ∨ 0xdfff < n ∧ n < 0x110000

theorem isScalar_toNat (c : Char) : IsScalar c.toNat := c.valid

theorem encodeChar_ofNat {n : Nat} (h : IsScalar n) :
    utf8EncodeChar (Char.ofNat n) =
      if n ≤ 0x7f then [.ofNat n]
      else if n ≤ 0x7ff then [.ofNat (n / 64 % 0x20 + 0xc0), .ofNat (n % 0x40 + 0x80)]
      else if n ≤ 0xffff then
        [.ofNat (n / 4096 % 0x10 + 0xe0), .ofNat (n / 64 % 0x40 + 0x80), .ofNat (n % 0x40 + 0x80)]
      else
        [.ofNat (n / 262144 % 0x08 + 0xf0), .ofNat (n / 4096 % 0x40 + 0x80),
          .ofNat (n / 64 % 0x40 + 0x80),
          .ofNat (n % 0x40 + 0x80)] := by
  have hval : (Char.ofNat n).val.toNat = n := by
    rw [Char.ofNat, dif_pos (show n.isValidChar from h)]
    rfl
  simp only [utf8EncodeChar, hval]

/-! ## Characters of each width -/

theorem encodeChar_one {a : UInt8} (ha : width a = 1) :
    utf8EncodeChar (Char.ofNat a.toNat) = [a] := by
  have hbound := (width_iff a).1.mp ha
  rw [encodeChar_ofNat (.inl (by omega)), if_pos (by omega), UInt8.ofNat_toNat]

theorem encodeChar_two {a b : UInt8} (ha : width a = 2) (hb : isSecond a b = true) :
    utf8EncodeChar (Char.ofNat (addBits (a.toNat - 0xc0) b)) = [a, b] := by
  have hfirst := (width_iff a).2.1.mp ha
  obtain ⟨hsecond, _⟩ := isSecond_iff.mp hb
  generalize hn : addBits (a.toNat - 0xc0) b = n
  rw [addBits_eq] at hn
  have hscalar : IsScalar n := .inl (by omega)
  have hmore : ¬ n ≤ 0x7f := by omega
  have hfits : n ≤ 0x7ff := by omega
  rw [encodeChar_ofNat hscalar, if_neg hmore, if_pos hfits, ofNat_eq (b := a) (by omega),
    ofNat_eq (b := b) (by omega)]

theorem encodeChar_three {a b c : UInt8} (ha : width a = 3) (hb : isSecond a b = true)
    (hc : isContinuation c = true) :
    utf8EncodeChar (Char.ofNat (addBits (addBits (a.toNat - 0xe0) b) c)) = [a, b, c] := by
  have hfirst := (width_iff a).2.2.1.mp ha
  obtain ⟨hsecond, hlong, hsurrogate, _⟩ := isSecond_iff.mp hb
  have hthird := isContinuation_iff.mp hc
  generalize hn : addBits (addBits (a.toNat - 0xe0) b) c = n
  rw [addBits_eq, addBits_eq] at hn
  have hscalar : IsScalar n := by
    rw [IsScalar]
    omega
  have hmore : ¬ n ≤ 0x7ff := by omega
  have hfits : n ≤ 0xffff := by omega
  rw [encodeChar_ofNat hscalar, if_neg (by omega), if_neg hmore, if_pos hfits,
    ofNat_eq (b := a) (by omega), ofNat_eq (b := b) (by omega), ofNat_eq (b := c) (by omega)]

theorem encodeChar_four {a b c d : UInt8} (ha : width a = 4) (hb : isSecond a b = true)
    (hc : isContinuation c = true) (hd : isContinuation d = true) :
    utf8EncodeChar (Char.ofNat (addBits (addBits (addBits (a.toNat - 0xf0) b) c) d)) =
      [a, b, c, d] := by
  have hfirst := (width_iff a).2.2.2.mp ha
  obtain ⟨hsecond, _, _, hlong, hlast⟩ := isSecond_iff.mp hb
  have hthird := isContinuation_iff.mp hc
  have hfourth := isContinuation_iff.mp hd
  generalize hn : addBits (addBits (addBits (a.toNat - 0xf0) b) c) d = n
  rw [addBits_eq, addBits_eq, addBits_eq] at hn
  have hscalar : IsScalar n := by
    rw [IsScalar]
    omega
  have hmore : ¬ n ≤ 0xffff := by omega
  rw [encodeChar_ofNat hscalar, if_neg (by omega), if_neg (by omega), if_neg hmore,
    ofNat_eq (b := a) (by omega), ofNat_eq (b := b) (by omega), ofNat_eq (b := c) (by omega),
    ofNat_eq (b := d) (by omega)]

/-! ## Reading a character -/

theorem decodeFrom_one {a : UInt8} (ha : width a = 1) (rest : List UInt8) (index : Nat) :
    decodeFrom index (a :: rest) =
      (decodeFrom (index + 1) rest).map (Char.ofNat a.toNat :: ·) := by
  rw [decodeFrom.eq_def]
  simp only [ha]

theorem decodeFrom_two {a b : UInt8} (ha : width a = 2) (hb : isSecond a b = true)
    (rest : List UInt8) (index : Nat) :
    decodeFrom index (a :: b :: rest) =
      (decodeFrom (index + 2) rest).map (Char.ofNat (addBits (a.toNat - 0xc0) b) :: ·) := by
  rw [decodeFrom.eq_def]
  simp only [ha, hb, Bool.not_true, Bool.false_eq_true, if_false]

theorem decodeFrom_three {a b c : UInt8} (ha : width a = 3) (hb : isSecond a b = true)
    (hc : isContinuation c = true) (rest : List UInt8) (index : Nat) :
    decodeFrom index (a :: b :: c :: rest) =
      (decodeFrom (index + 3) rest).map
        (Char.ofNat (addBits (addBits (a.toNat - 0xe0) b) c) :: ·) := by
  rw [decodeFrom.eq_def]
  simp only [ha, hb, hc, Bool.not_true, Bool.false_eq_true, if_false]

theorem decodeFrom_four {a b c d : UInt8} (ha : width a = 4) (hb : isSecond a b = true)
    (hc : isContinuation c = true) (hd : isContinuation d = true) (rest : List UInt8)
    (index : Nat) :
    decodeFrom index (a :: b :: c :: d :: rest) = (decodeFrom (index + 4) rest).map
      (Char.ofNat (addBits (addBits (addBits (a.toNat - 0xf0) b) c) d) :: ·) := by
  rw [decodeFrom.eq_def]
  simp only [ha, hb, hc, hd, Bool.not_true, Bool.false_eq_true, if_false]

/-- Bytes of one character, and the number of it. -/
inductive Spelled : List UInt8 → Nat → Prop where
  | one {a : UInt8} (ha : width a = 1) : Spelled [a] a.toNat
  | two {a b : UInt8} (ha : width a = 2) (hb : isSecond a b = true) :
      Spelled [a, b] (addBits (a.toNat - 0xc0) b)
  | three {a b c : UInt8} (ha : width a = 3) (hb : isSecond a b = true)
      (hc : isContinuation c = true) :
      Spelled [a, b, c] (addBits (addBits (a.toNat - 0xe0) b) c)
  | four {a b c d : UInt8} (ha : width a = 4) (hb : isSecond a b = true)
      (hc : isContinuation c = true)
      (hd : isContinuation d = true) :
        Spelled [a, b, c, d] (addBits (addBits (addBits (a.toNat - 0xf0) b) c) d)

namespace Spelled

variable {own : List UInt8} {n : Nat}

theorem encodeChar (h : Spelled own n) : utf8EncodeChar (Char.ofNat n) = own := by
  cases h with
  | one ha => exact encodeChar_one ha
  | two ha hb => exact encodeChar_two ha hb
  | three ha hb hc => exact encodeChar_three ha hb hc
  | four ha hb hc hd => exact encodeChar_four ha hb hc hd

theorem decodeFrom_append (h : Spelled own n) (rest : List UInt8) (index : Nat) :
    decodeFrom index (own ++ rest) =
      (decodeFrom (index + own.length) rest).map (Char.ofNat n :: ·) := by
  cases h with
  | one ha => exact decodeFrom_one ha rest index
  | two ha hb => exact decodeFrom_two ha hb rest index
  | three ha hb hc => exact decodeFrom_three ha hb hc rest index
  | four ha hb hc hd => exact decodeFrom_four ha hb hc hd rest index

/-- Every character has a spelling: its number is taken apart into six bits for each byte behind
the first. -/
theorem exists_of_isScalar (h : IsScalar n) : ∃ own, Spelled own n := by
  rw [IsScalar] at h
  by_cases hone : n ≤ 0x7f
  · obtain ⟨a, ha⟩ : ∃ a : UInt8, a.toNat = n := ⟨_, toNat_ofNat (by omega)⟩
    exact ⟨_, ha ▸ one ((width_iff a).1.mpr (by omega))⟩
  obtain ⟨z, hz⟩ : ∃ z : UInt8, z.toNat = n % 64 + 0x80 := ⟨_, toNat_ofNat (by omega)⟩
  by_cases htwo : n ≤ 0x7ff
  · obtain ⟨a, ha⟩ : ∃ a : UInt8, a.toNat = n / 64 + 0xc0 := ⟨_, toNat_ofNat (by omega)⟩
    have hn : addBits (a.toNat - 0xc0) z = n := by
      rw [addBits_eq]
      omega
    exact ⟨_, hn ▸ two ((width_iff a).2.1.mpr (by omega)) (isSecond_iff.mpr (by omega))⟩
  have hlast : isContinuation z = true := isContinuation_iff.mpr (by omega)
  obtain ⟨y, hy⟩ : ∃ y : UInt8, y.toNat = n / 64 % 64 + 0x80 :=
    ⟨_, toNat_ofNat (by omega)⟩
  by_cases hthree : n ≤ 0xffff
  · obtain ⟨a, ha⟩ : ∃ a : UInt8, a.toNat = n / 4096 + 0xe0 :=
      ⟨_, toNat_ofNat (by omega)⟩
    have hn : addBits (addBits (a.toNat - 0xe0) y) z = n := by
      rw [addBits_eq, addBits_eq]
      omega
    exact ⟨_, hn ▸ three ((width_iff a).2.2.1.mpr (by omega))
      (isSecond_iff.mpr (by omega)) hlast⟩
  · obtain ⟨a, ha⟩ : ∃ a : UInt8, a.toNat = n / 262144 + 0xf0 :=
      ⟨_, toNat_ofNat (by omega)⟩
    obtain ⟨b, hb⟩ : ∃ b : UInt8, b.toNat = n / 4096 % 64 + 0x80 :=
      ⟨_, toNat_ofNat (by omega)⟩
    have hthird : isContinuation y = true := isContinuation_iff.mpr (by omega)
    have hn : addBits (addBits (addBits (a.toNat - 0xf0) b) y) z = n := by
      rw [addBits_eq, addBits_eq, addBits_eq]
      omega
    exact ⟨_, hn ▸ four ((width_iff a).2.2.2.mpr (by omega))
      (isSecond_iff.mpr (by omega)) hthird hlast⟩

end Spelled

theorem spelled_encodeChar (char : Char) : Spelled (utf8EncodeChar char) char.toNat := by
  obtain ⟨own, hown⟩ := Spelled.exists_of_isScalar (isScalar_toNat char)
  have hsame := hown.encodeChar
  rw [Char.ofNat_toNat] at hsame
  rw [hsame]
  exact hown

/-- What stands for a character is read as that character. -/
theorem decodeFrom_encodeChar (char : Char) (rest : List UInt8) (index : Nat) :
    decodeFrom index (utf8EncodeChar char ++ rest) =
      (decodeFrom (index + (utf8EncodeChar char).length) rest).map (char :: ·) := by
  have hread := (spelled_encodeChar char).decodeFrom_append rest index
  rw [Char.ofNat_toNat] at hread
  exact hread

/-! ## Whole texts -/

theorem encode_nil : encode [] = [] := rfl

theorem encode_cons (c : Char) (text : List Char) :
    encode (c :: text) = utf8EncodeChar c ++ encode text :=
  List.flatMap_cons

theorem decodeFrom_encode_append (text : List Char) (rest : List UInt8) (index : Nat) :
    decodeFrom index (encode text ++ rest) =
      (decodeFrom (index + (encode text).length) rest).map (text ++ ·) := by
  induction text generalizing index with
  | nil =>
    rw [encode_nil, List.nil_append, List.length_nil, Nat.add_zero]
    cases decodeFrom index rest <;> rfl
  | cons c text ih =>
    rw [encode_cons, List.append_assoc, decodeFrom_encodeChar, ih,
      List.length_append, Nat.add_assoc]
    cases decodeFrom (index + ((utf8EncodeChar c).length + (encode text).length)) rest <;> rfl

theorem decodeFrom_encode (text : List Char) (index : Nat) :
    decodeFrom index (encode text) = .ok text := by
  have hread := decodeFrom_encode_append text [] index
  rw [List.append_nil] at hread
  rw [hread]
  exact congrArg Except.ok (List.append_nil text)

/-- A character and the text behind it, where both are read. -/
theorem eq_encode_of_map {char : Char} {own rest : List UInt8} {found : Except Error (List Char)}
    {text : List Char} (hown : utf8EncodeChar char = own)
    (hrest : ∀ {text}, found = .ok text → rest = encode text)
    (h : found.map (char :: ·) = .ok text) : own ++ rest = encode text := by
  cases found with
  | error e => cases h
  | ok more =>
    cases h
    rw [encode_cons, hown, ← hrest rfl]

theorem eq_encode_of_decodeFrom {index : Nat} {bytes : List UInt8} {text : List Char}
    (h : decodeFrom index bytes = .ok text) : bytes = encode text := by
  fun_induction decodeFrom index bytes generalizing text with
  | case1 =>
    cases h
    rfl
  | case2 index a rest ha ih => exact eq_encode_of_map (encodeChar_one ha) ih h
  | case5 index a ha b rest hb ih =>
    exact eq_encode_of_map (encodeChar_two ha (by simpa using hb)) ih h
  | case11 index a ha b c rest hb hc ih =>
    exact eq_encode_of_map (encodeChar_three ha (by simpa using hb) (by simpa using hc)) ih h
  | case21 index a ha b c d rest hb hc hd ih =>
    exact eq_encode_of_map
      (encodeChar_four ha (by simpa using hb) (by simpa using hc) (by simpa using hd)) ih h
  | _ => simp +zetaDelta at h

/-- **Bytes are read as a text exactly if they spell it.** -/
theorem decode_eq_ok_iff {bytes : List UInt8} {text : List Char} :
    decode bytes = .ok text ↔ bytes = encode text := by
  constructor
  · exact eq_encode_of_decodeFrom
  · rintro rfl
    exact decodeFrom_encode text 0

/-! ## Ends of texts -/

theorem isContinuation_of_isSecond {a b : UInt8} (h : isSecond a b = true) :
    isContinuation b = true :=
  isContinuation_iff.mpr (isSecond_iff.mp h).1

theorem not_isContinuation_of_width {a : UInt8} (h : width a ≠ 0) : isContinuation a = false := by
  rw [← Bool.not_eq_true, isContinuation_iff]
  obtain ⟨hone, htwo, hthree, hfour⟩ := width_iff a
  have hle : width a ≤ 4 := width_le a
  omega

theorem Spelled.shape {own : List UInt8} {n : Nat} (h : Spelled own n) :
    ∃ first more, own = first :: more ∧ isContinuation first = false ∧ ∀ b ∈ more,
      isContinuation b = true := by
  cases h with
  | one ha => exact ⟨_, _, rfl, not_isContinuation_of_width (by omega), by simp⟩
  | two ha hb =>
    exact ⟨_, _, rfl, not_isContinuation_of_width (by omega),
      by simp [isContinuation_of_isSecond hb]⟩
  | three ha hb hc =>
    exact ⟨_, _, rfl, not_isContinuation_of_width (by omega),
      by simp [isContinuation_of_isSecond hb, hc]⟩
  | four ha hb hc hd =>
    exact ⟨_, _, rfl, not_isContinuation_of_width (by omega),
      by simp [isContinuation_of_isSecond hb, hc, hd]⟩

/-- Of the ends of a character's bytes only the whole starts like a character. -/
theorem eq_encodeChar_of_suffix {char : Char} {first : UInt8} {more : List UInt8}
    (h : first :: more <:+ utf8EncodeChar char) (hfirst : isContinuation first = false) :
    first :: more = utf8EncodeChar char := by
  obtain ⟨own, rest, hown, _, hrest⟩ := (spelled_encodeChar char).shape
  rw [hown] at h ⊢
  rcases List.suffix_cons_iff.mp h with heq | hinside
  · exact heq
  · have hcontinues := hrest first (hinside.subset List.mem_cons_self)
    rw [hfirst] at hcontinues
    cases hcontinues

theorem encode_injective {text more : List Char} (h : encode text = encode more) : text = more := by
  have hread := decodeFrom_encode text 0
  rw [h, decodeFrom_encode] at hread
  exact (Except.ok.inj hread).symm

/-- **The bytes of a text end with those of another exactly if the text ends with it.** -/
theorem encode_suffix_iff {ending text : List Char} :
    encode ending <:+ encode text ↔ ending <:+ text := by
  constructor
  · intro h
    induction text with
    | nil =>
      have hnil : encode ending = encode [] := List.eq_nil_of_suffix_nil h
      exact encode_injective hnil ▸ List.suffix_refl _
    | cons c text ih =>
      rw [encode_cons] at h
      rcases List.suffix_or_suffix_of_suffix h (List.suffix_append _ _)
        with hinside | ⟨front, hfront⟩
      · exact (ih hinside).trans (List.suffix_cons c text)
      · -- what is left over of the first character starts like a character, so it is all of it
        rw [← hfront, List.suffix_append_self_iff] at h
        cases front with
        | nil => exact encode_injective hfront ▸ List.suffix_cons c text
        | cons first more =>
          have hfirst : isContinuation first = false := by
            cases ending with
            | nil => cases hfront
            | cons d ending =>
              obtain ⟨own, rest, hown, hstart, _⟩ := (spelled_encodeChar d).shape
              rw [encode_cons, hown] at hfront
              rw [(List.cons.inj hfront).1]
              exact hstart
          rw [eq_encodeChar_of_suffix h hfirst, ← encode_cons] at hfront
          exact encode_injective hfront ▸ List.suffix_refl _
  · rintro ⟨front, rfl⟩
    exact ⟨encode front, List.flatMap_append.symm⟩

/-! ## Strings -/

theorem toList_loop (bytes : ByteArray) (index : Nat) (front : List UInt8) :
    ByteArray.toList.loop bytes index front = front.reverse ++ bytes.data.toList.drop index := by
  fun_induction ByteArray.toList.loop bytes index front with
  | case1 index front h ih =>
    have hindex : index < bytes.data.toList.length := by simpa using h
    rw [ih, List.drop_eq_getElem_cons hindex]
    simp [ByteArray.get!, h]
  | case2 index front h =>
    have hindex : bytes.data.toList.length ≤ index := by simpa using h
    rw [List.drop_eq_nil_of_le hindex, List.append_nil]

theorem toList_toUTF8 (text : String) : text.toUTF8.toList = encode text.toList := by
  have hbytes : text.toByteArray.data.toList = encode text.toList := by
    rw [← String.utf8Encode_toList, List.utf8Encode, List.data_toByteArray]
    rfl
  rw [String.toUTF8_eq_toByteArray, ByteArray.toList, toList_loop, hbytes]
  rfl

theorem text?_eq_some_iff {own : List UInt8} {text : String} :
    text? own = some text ↔ own = bytes text := by
  rw [text?, Option.map_eq_some_iff]
  simp only [toOption_eq_some_iff, decode_eq_ok_iff, bytes]
  constructor
  · rintro ⟨chars, rfl, rfl⟩
    rw [String.toList_ofList]
  · rintro rfl
    exact ⟨text.toList, rfl, String.ofList_toList⟩

@[simp] theorem text?_bytes (text : String) : text? (bytes text) = some text :=
  text?_eq_some_iff.mpr rfl

theorem bytes_injective {text more : String} (h : bytes text = bytes more) : text = more :=
  String.toList_injective (encode_injective h)

end HeaderIndex.Text.Utf8
