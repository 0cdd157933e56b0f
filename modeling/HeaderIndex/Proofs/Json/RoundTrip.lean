import HeaderIndex.Proofs.Json.Scalar

/-! JSON text and the values it spells. A style says which blanks stand before the items of a
container and behind colons; the compact text is that of the style without blanks
(`compact_eq`). Text of any style is read back (`readValue_written`): by induction on the
value, whatever blanks stand before it and as long as what follows it cannot be part of a
number. Each item costs the readers at most two calls for every character it is spelled
with, so the bound that the length of the text gives suffices. -/

namespace HeaderIndex.Json

open HeaderIndex.Text

/-! ## Values with natural numbers only -/

mutual

def isNatural : Json → Bool
  | number _ => false
  | array items => areNatural items
  | object members => haveNatural members
  | _ => true

def areNatural : List Json → Bool
  | [] => true
  | item :: rest => item.isNatural && areNatural rest

def haveNatural : List (String × Json) → Bool
  | [] => true
  | (_, value) :: rest => value.isNatural && haveNatural rest

end

/-! ## Styles -/

/-- Where blanks stand in a text. -/
structure Style where
  /-- What stands before an item of a container at a depth, and before its end. -/
  line : Nat → List Char
  /-- What stands behind a colon. -/
  gap : List Char

/-- Only blanks are added. -/
structure Style.IsBlank (s : Style) : Prop where
  line : ∀ depth, ∀ c ∈ s.line depth, isSpace c = true
  gap : ∀ c ∈ s.gap, isSpace c = true

def Style.compact : Style := ⟨fun _ => [], []⟩

theorem Style.compact_isBlank : Style.compact.IsBlank := by
  refine ⟨fun _ c hc => ?_, fun c hc => ?_⟩ <;> cases hc

mutual

def written (s : Style) (depth : Nat) : Json → List Char
  | null => "null".toList
  | bool true => "true".toList
  | bool false => "false".toList
  | nat n => Nat.toDigits 10 n
  | number literal => literal.toList
  | string value => quote value
  | array [] => ['[', ']']
  | array (item :: rest) =>
    '[' :: (writtenItems s (depth + 1) (item :: rest) ++ (s.line depth ++ [']']))
  | object [] => ['\x7b', '\x7d']
  | object (member :: rest) =>
    '\x7b' :: (writtenMembers s (depth + 1) (member :: rest) ++ (s.line depth ++ ['\x7d']))

def writtenItems (s : Style) (depth : Nat) : List Json → List Char
  | [] => []
  | [item] => s.line depth ++ written s depth item
  | item :: next :: rest =>
    s.line depth ++ (written s depth item ++ ',' :: writtenItems s depth (next :: rest))

def writtenMembers (s : Style) (depth : Nat) : List (String × Json) → List Char
  | [] => []
  | [(key, value)] => s.line depth ++ (quote key ++ ':' :: (s.gap ++ written s depth value))
  | (key, value) :: next :: rest =>
    s.line depth ++ (quote key ++ ':' :: (s.gap ++ (written s depth value ++
      ',' :: writtenMembers s depth (next :: rest))))

end

theorem written_array (s : Style) (depth : Nat) (item : Json) (rest : List Json) :
    written s depth (array (item :: rest)) =
      '[' :: (writtenItems s (depth + 1) (item :: rest) ++ (s.line depth ++ [']'])) := rfl

theorem written_object (s : Style) (depth : Nat) (member : String × Json)
    (rest : List (String × Json)) :
    written s depth (object (member :: rest)) =
      '\x7b' :: (writtenMembers s (depth + 1) (member :: rest) ++ (s.line depth ++ ['\x7d'])) :=
  rfl

mutual

theorem compact_eq (depth : Nat) (j : Json) : compact j = written .compact depth j := by
  match j with
  | null | bool true | bool false | nat _ | number _ | string _ => rfl
  | array [] | object [] => rfl
  | array (item :: rest) =>
    show '[' :: compactItems (item :: rest) ++ [']'] = _
    rw [written_array, compactItems_eq (depth + 1) (item :: rest)]
    rfl
  | object (member :: rest) =>
    show '\x7b' :: compactMembers (member :: rest) ++ ['\x7d'] = _
    rw [written_object, compactMembers_eq (depth + 1) (member :: rest)]
    rfl

theorem compactItems_eq (depth : Nat) (items : List Json) :
    compactItems items = writtenItems .compact depth items := by
  match items with
  | [] => rfl
  | [item] => simp [compactItems, writtenItems, compact_eq depth item, Style.compact]
  | item :: next :: rest =>
    simp [compactItems, writtenItems, compact_eq depth item,
      compactItems_eq depth (next :: rest), Style.compact]

theorem compactMembers_eq (depth : Nat) (members : List (String × Json)) :
    compactMembers members = writtenMembers .compact depth members := by
  match members with
  | [] => rfl
  | [(key, value)] => simp [compactMembers, writtenMembers, compact_eq depth value, Style.compact]
  | (key, value) :: next :: rest =>
    simp [compactMembers, writtenMembers, compact_eq depth value,
      compactMembers_eq depth (next :: rest), Style.compact]

end

/-! ## Blanks -/

theorem skipSpace_run {blanks : List Char} (h : ∀ c ∈ blanks, isSpace c = true) {c : Char}
    (hc : isSpace c = false) (rest : List Char) : skipSpace (blanks ++ c :: rest) = c :: rest :=
  dropWhile_run h (stopsRun_cons.mpr hc)

theorem isNumeric_of_isSpace {c : Char} (h : isSpace c = true) : isNumeric c = false := by
  simp only [isSpace, Bool.or_eq_true, beq_iff_eq] at h
  rcases h with ((rfl | rfl) | rfl) | rfl <;> rfl

/-- A number ends where blanks or the end of its container follow. -/
theorem stopsRun_isNumeric {blanks : List Char} (h : ∀ c ∈ blanks, isSpace c = true) {c : Char}
    (hc : isNumeric c = false) (rest : List Char) : StopsRun isNumeric (blanks ++ c :: rest) := by
  cases blanks with
  | nil => exact stopsRun_cons.mpr hc
  | cons b blanks => exact stopsRun_cons.mpr (isNumeric_of_isSpace (h b (by simp)))

theorem isSpace_of_isDigit {c : Char} (h : c.isDigit = true) : isSpace c = false := by
  by_contra hc
  have := isNumeric_of_isSpace (by simpa using hc)
  simp [isNumeric, h] at this

/-- The text of a value starts with no blank and does not look like the end of an array. -/
theorem written_eq_cons (s : Style) (depth : Nat) {j : Json} (h : j.isNatural = true) :
    ∃ c cs, written s depth j = c :: cs ∧ isSpace c = false ∧ c ≠ ']' := by
  match j with
  | null => exact ⟨'n', _, rfl, rfl, by decide⟩
  | bool true => exact ⟨'t', _, rfl, rfl, by decide⟩
  | bool false => exact ⟨'f', _, rfl, rfl, by decide⟩
  | nat n =>
    obtain ⟨d, ds, hds, hd⟩ := toDigits_eq_cons n
    refine ⟨d, ds, hds, isSpace_of_isDigit hd, ?_⟩
    rintro rfl
    cases hd
  | number _ => cases h
  | string _ => exact ⟨'"', _, rfl, rfl, by decide⟩
  | array [] | array (_ :: _) => exact ⟨'[', _, rfl, rfl, by decide⟩
  | object [] | object (_ :: _) => exact ⟨'\x7b', _, rfl, rfl, by decide⟩

theorem skipSpace_quote {blanks : List Char} (h : ∀ c ∈ blanks, isSpace c = true) (key : String)
    (rest : List Char) : skipSpace (blanks ++ (quote key ++ rest)) = quote key ++ rest := by
  rw [quote_append]
  exact skipSpace_run h rfl _

/-- Items do not look like the end of their array. -/
theorem head?_writtenItems {s : Style} (hs : s.IsBlank) (depth : Nat) {item : Json}
    (h : item.isNatural = true) (items : List Json) (rest : List Char) :
    (skipSpace (writtenItems s depth (item :: items) ++ rest)).head? ≠ some ']' := by
  obtain ⟨c, cs, hcons, hc, hne⟩ := written_eq_cons s depth h
  have hfirst : ∃ more, writtenItems s depth (item :: items) = s.line depth ++ c :: more := by
    cases items with
    | nil => exact ⟨cs, by rw [writtenItems, hcons]⟩
    | cons next items => exact ⟨_, by rw [writtenItems, hcons, List.cons_append]⟩
  obtain ⟨more, hmore⟩ := hfirst
  rw [hmore, List.append_assoc, List.cons_append, skipSpace_run (hs.line depth) hc]
  simpa using hne

/-- Members do not look like the end of their object. -/
theorem head?_writtenMembers {s : Style} (hs : s.IsBlank) (depth : Nat) (member : String × Json)
    (members : List (String × Json)) (rest : List Char) :
    (skipSpace (writtenMembers s depth (member :: members) ++ rest)).head? ≠ some '\x7d' := by
  obtain ⟨key, value⟩ := member
  have hfirst : ∃ more, writtenMembers s depth ((key, value) :: members) = s.line depth ++
      (quote key ++ more) := by
    cases members with
    | nil => exact ⟨_, rfl⟩
    | cons next members => exact ⟨_, rfl⟩
  obtain ⟨more, hmore⟩ := hfirst
  rw [hmore, List.append_assoc, List.append_assoc, skipSpace_quote (hs.line depth), quote_append]
  simp

/-! ## Readers, by the character they find -/

variable {bound : Nat} {text cs : List Char}

/-- A value is read by the character it starts with; a container that closes at once is empty. -/
theorem readValue_cons {c : Char} (h : skipSpace text = c :: cs) : readValue (bound + 1) text =
    if c = '"' then (readString cs).map fun h => ⟨string h.value, h.rest⟩
    else if c = '[' then
      if (skipSpace cs).head? = some ']' then some ⟨array [], (skipSpace cs).tail⟩
      else (readItems bound cs).map fun h => ⟨array h.value, h.rest⟩
    else if c = '\x7b' then
      if (skipSpace cs).head? = some '\x7d' then some ⟨object [], (skipSpace cs).tail⟩
      else (readMembers bound cs).map fun h => ⟨object h.value, h.rest⟩
    else if c = 'n' then readLiteral "null" null (c :: cs)
    else if c = 't' then readLiteral "true" (bool true) (c :: cs)
    else if c = 'f' then readLiteral "false" (bool false) (c :: cs)
    else readNumber (c :: cs) := by
  simp only [readValue, h, beq_iff_eq]
  cases skipSpace cs with
  | nil => rfl
  | cons d ds => grind

theorem readValue_string (h : skipSpace text = '"' :: cs) :
    readValue (bound + 1) text = (readString cs).map fun h => ⟨string h.value, h.rest⟩ := by
  rw [readValue_cons h, if_pos rfl]

theorem readValue_digit {c : Char} (h : skipSpace text = c :: cs) (hc : c.isDigit = true) :
    readValue (bound + 1) text = readNumber (c :: cs) := by
  have hne : ∀ d : Char, d.isDigit = false → c ≠ d := by
    rintro d hd rfl
    rw [hc] at hd
    cases hd
  rw [readValue_cons h, if_neg (hne '"' rfl), if_neg (hne '[' rfl), if_neg (hne '\x7b' rfl),
    if_neg (hne 'n' rfl), if_neg (hne 't' rfl), if_neg (hne 'f' rfl)]

theorem readValue_array (h : skipSpace text = '[' :: cs) (hne : (skipSpace cs).head? ≠ some ']') :
    readValue (bound + 1) text = (readItems bound cs).map fun h => ⟨array h.value, h.rest⟩ := by
  rw [readValue_cons h, if_neg (by decide), if_pos rfl, if_neg hne]

theorem readValue_object (h : skipSpace text = '\x7b' :: cs)
    (hne : (skipSpace cs).head? ≠ some '\x7d') :
    readValue (bound + 1) text = (readMembers bound cs).map fun h =>
      ⟨object h.value, h.rest⟩ := by
  rw [readValue_cons h, if_neg (by decide), if_neg (by decide), if_pos rfl, if_neg hne]

theorem readValue_emptyArray {rest : List Char} (h : skipSpace text = '[' :: ']' :: rest) :
    readValue (bound + 1) text = some ⟨array [], rest⟩ := by
  rw [readValue_cons h]
  rfl

theorem readValue_emptyObject {rest : List Char} (h : skipSpace text = '\x7b' :: '\x7d' :: rest) :
    readValue (bound + 1) text = some ⟨object [], rest⟩ := by
  rw [readValue_cons h]
  rfl

theorem readLiteral_append (literal : String) (value : Json) (rest : List Char) :
    readLiteral literal value (literal.toList ++ rest) = some ⟨value, rest⟩ := by
  rw [readLiteral, List.isPrefixOf?_eq_some_iff_append_eq.mpr rfl]
  rfl

theorem readValue_null {rest : List Char} (h : skipSpace text = "null".toList ++ rest) :
    readValue (bound + 1) text = some ⟨null, rest⟩ := by
  rw [readValue_cons h]
  exact readLiteral_append "null" null rest

theorem readValue_true {rest : List Char} (h : skipSpace text = "true".toList ++ rest) :
    readValue (bound + 1) text = some ⟨bool true, rest⟩ := by
  rw [readValue_cons h]
  exact readLiteral_append "true" (bool true) rest

theorem readValue_false {rest : List Char} (h : skipSpace text = "false".toList ++ rest) :
    readValue (bound + 1) text = some ⟨bool false, rest⟩ := by
  rw [readValue_cons h]
  exact readLiteral_append "false" (bool false) rest

theorem readItems_last {item : Json} {blanks rest : List Char}
    (hblanks : ∀ c ∈ blanks, isSpace c = true)
    (h : readValue bound text = some ⟨item, blanks ++ ']' :: rest⟩) :
    readItems (bound + 1) text = some ⟨[item], rest⟩ := by
  have hclose : skipSpace (blanks ++ ']' :: rest) = ']' :: rest := skipSpace_run hblanks rfl rest
  simp [readItems, h, hclose]

theorem readItems_next {item : Json} {rest : List Char}
    (h : readValue bound text = some ⟨item, ',' :: rest⟩) :
    readItems (bound + 1) text = (readItems bound rest).map fun h =>
      ⟨item :: h.value, h.rest⟩ := by
  have hcomma : skipSpace (',' :: rest) = ',' :: rest := rfl
  simp [readItems, h, hcomma]

theorem readMembers_last {key : String} {value : Json} {blanks rest : List Char}
    (hskip : skipSpace text = quote key ++ ':' :: cs) (hblanks : ∀ c ∈ blanks, isSpace c = true)
    (h : readValue bound cs = some ⟨value, blanks ++ '\x7d' :: rest⟩) :
    readMembers (bound + 1) text = some ⟨[(key, value)], rest⟩ := by
  have hclose : skipSpace (blanks ++ '\x7d' :: rest) = '\x7d' :: rest :=
    skipSpace_run hblanks rfl rest
  have hcolon : skipSpace (':' :: cs) = ':' :: cs := rfl
  rw [quote_append] at hskip
  simp [readMembers, hskip, readString_written, hcolon, h, hclose]

theorem readMembers_next {key : String} {value : Json} {rest : List Char}
    (hskip : skipSpace text = quote key ++ ':' :: cs)
    (h : readValue bound cs = some ⟨value, ',' :: rest⟩) :
    readMembers (bound + 1) text = (readMembers bound rest).map fun h =>
      ⟨(key, value) :: h.value, h.rest⟩ := by
  have hcomma : skipSpace (',' :: rest) = ',' :: rest := rfl
  have hcolon : skipSpace (':' :: cs) = ':' :: cs := rfl
  rw [quote_append] at hskip
  simp [readMembers, hskip, readString_written, hcolon, h, hcomma]

/-! ## Reading what was written -/

mutual

theorem readValue_written {s : Style} (hs : s.IsBlank) (depth : Nat) (j : Json)
    (hj : j.isNatural = true) {bound : Nat} (hbound : 2 * (written s depth j).length ≤ bound)
    {blanks : List Char} (hblanks : ∀ c ∈ blanks, isSpace c = true) {rest : List Char}
    (hrest : StopsRun isNumeric rest) :
    readValue bound (blanks ++ (written s depth j ++ rest)) = some ⟨j, rest⟩ := by
  obtain ⟨c, cs, hcons, hc, _⟩ := written_eq_cons s depth hj
  have hskip : skipSpace (blanks ++ (written s depth j ++ rest)) = written s depth j ++ rest := by
    rw [hcons]
    exact skipSpace_run hblanks hc (cs ++ rest)
  obtain ⟨bound, rfl⟩ : ∃ n, bound = n + 1 :=
    ⟨bound - 1, by rw [hcons, List.length_cons] at hbound; omega⟩
  generalize blanks ++ (written s depth j ++ rest) = text at hskip ⊢
  match j with
  | null => exact readValue_null hskip
  | bool true => exact readValue_true hskip
  | bool false => exact readValue_false hskip
  | nat n =>
    obtain ⟨d, ds, hds, hd⟩ := toDigits_eq_cons n
    have hnumber := readNumber_toDigits n hrest
    rw [show written s depth (nat n) = d :: ds from hds, List.cons_append] at hskip
    rw [readValue_digit hskip hd, ← List.cons_append, ← hds, hnumber]
  | number _ => cases hj
  | string value =>
    rw [show written s depth (string value) = quote value from rfl, quote_append] at hskip
    rw [readValue_string hskip, readString_written]
    rfl
  | array [] => exact readValue_emptyArray hskip
  | object [] => exact readValue_emptyObject hskip
  | array (item :: items) =>
    simp only [written_array, List.length_cons, List.length_append, List.length_nil] at hbound
    simp only [written_array, List.append_assoc, List.cons_append, List.nil_append] at hskip
    have hitem : item.isNatural = true := by
      rw [isNatural, areNatural, Bool.and_eq_true] at hj
      exact hj.1
    rw [readValue_array hskip (head?_writtenItems hs _ hitem _ _),
      readItems_written hs (depth + 1) depth (item :: items) (by simp) hj (by omega)]
    rfl
  | object (member :: members) =>
    simp only [written_object, List.length_cons, List.length_append, List.length_nil] at hbound
    simp only [written_object, List.append_assoc, List.cons_append, List.nil_append] at hskip
    rw [readValue_object hskip (head?_writtenMembers hs _ _ _ _),
      readMembers_written hs (depth + 1) depth (member :: members) (by simp) hj (by omega)]
    rfl

theorem readItems_written {s : Style} (hs : s.IsBlank) (depth outer : Nat) (items : List Json)
    (hne : items ≠ []) (hitems : areNatural items = true) {bound : Nat}
    (hbound : 2 * (writtenItems s depth items).length < bound) (rest : List Char) :
    readItems bound (writtenItems s depth items ++ (s.line outer ++ ']' :: rest)) =
      some ⟨items, rest⟩ := by
  obtain ⟨bound, rfl⟩ : ∃ n, bound = n + 1 := ⟨bound - 1, by omega⟩
  match items with
  | [] => exact absurd rfl hne
  | [item] =>
    rw [areNatural, areNatural, Bool.and_true] at hitems
    simp only [writtenItems, List.length_append] at hbound
    simp only [writtenItems, List.append_assoc]
    exact readItems_last (hs.line outer) (readValue_written hs depth item hitems (by omega)
      (hs.line depth) (stopsRun_isNumeric (hs.line outer) rfl rest))
  | item :: next :: items =>
    rw [areNatural, Bool.and_eq_true] at hitems
    simp only [writtenItems, List.length_append, List.length_cons] at hbound
    simp only [writtenItems, List.append_assoc, List.cons_append]
    have hmore : 2 * (writtenItems s depth (next :: items)).length < bound := by omega
    have hfirst : 2 * (written s depth item).length ≤ bound := by omega
    have hrest := readItems_written hs depth outer (next :: items) (by simp) hitems.2 hmore rest
    rw [readItems_next
      (readValue_written hs depth item hitems.1 hfirst (hs.line depth) (stopsRun_cons.mpr rfl)),
      hrest]
    rfl

theorem readMembers_written {s : Style} (hs : s.IsBlank) (depth outer : Nat)
    (members : List (String × Json))
    (hne : members ≠ []) (hmembers : haveNatural members = true) {bound : Nat}
    (hbound : 2 * (writtenMembers s depth members).length < bound) (rest : List Char) :
    readMembers bound (writtenMembers s depth members ++ (s.line outer ++ '\x7d' :: rest)) =
      some ⟨members, rest⟩ := by
  obtain ⟨bound, rfl⟩ : ∃ n, bound = n + 1 := ⟨bound - 1, by omega⟩
  match members with
  | [] => exact absurd rfl hne
  | [(key, value)] =>
    rw [haveNatural, haveNatural, Bool.and_true] at hmembers
    simp only [writtenMembers, List.length_append, List.length_cons] at hbound
    simp only [writtenMembers, List.append_assoc, List.cons_append]
    exact readMembers_last (skipSpace_quote (hs.line depth) key _) (hs.line outer)
      (readValue_written hs depth value hmembers (by omega) hs.gap (stopsRun_isNumeric
        (hs.line outer) rfl rest))
  | (key, value) :: next :: members =>
    rw [haveNatural, Bool.and_eq_true] at hmembers
    simp only [writtenMembers, List.length_append, List.length_cons] at hbound
    simp only [writtenMembers, List.append_assoc, List.cons_append]
    have hmore : 2 * (writtenMembers s depth (next :: members)).length < bound := by omega
    have hfirst : 2 * (written s depth value).length ≤ bound := by omega
    have hrest :=
      readMembers_written hs depth outer (next :: members) (by simp) hmembers.2 hmore rest
    rw [readMembers_next (skipSpace_quote (hs.line depth) key _)
      (readValue_written hs depth value hmembers.1 hfirst hs.gap (stopsRun_cons.mpr rfl)), hrest]
    rfl

end

/-- The text of a value is read back, in any style. -/
theorem parse?_written {s : Style} (hs : s.IsBlank) {j : Json} (h : j.isNatural = true) :
    parse? (String.ofList (written s 0 j)) = some j := by
  have hread : readValue (2 * (written s 0 j).length + 2) ([] ++ (written s 0 j ++ [])) =
      some ⟨j, []⟩ :=
    readValue_written hs 0 j h (by omega) (by simp) (stopsRun_nil _)
  rw [List.append_nil, List.nil_append] at hread
  rw [parse?, String.toList_ofList, hread]
  rfl

theorem parse?_render {j : Json} (h : j.isNatural = true) : parse? j.render = some j := by
  rw [render, compact_eq 0 j]
  exact parse?_written Style.compact_isBlank h

end HeaderIndex.Json
