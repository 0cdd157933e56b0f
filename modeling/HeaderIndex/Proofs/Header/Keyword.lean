import HeaderIndex.Proofs.Header.Declaration
import HeaderIndex.Proofs.Header.Grammar

/-! Keywords and the lines that lack them. A search starts at its keyword and an
identifier is never taken for one, so a line none of whose literals holds the keyword
is passed over (`hits_line`), whatever stands below it. -/

namespace HeaderIndex.Header

open HeaderIndex.Text

/-! ## Names and numbers -/

theorem isNameStart_of_isDigit {c : Char} (h : c.isDigit = true) : isNameStart c = false := by
  have hbelow : ∀ n < 58, isNameStart (Char.ofNat n) = false := by decide
  have hc := hbelow c.toNat (Nat.lt_succ_of_le (toNat_le_of_isDigit h))
  rwa [Char.ofNat_toNat] at hc

theorem isAsciiWordChar_of_isDigit {c : Char} (h : c.isDigit = true) :
    isAsciiWordChar c = true := by
  simp [isAsciiWordChar, Char.isAlphanum, h]

theorem Identifier.isName (i : Identifier) : IsName i.text.toList where
  ne_nil h := by
    have hstart := i.start
    rw [h] at hstart
    cases hstart
  chars c hc := isWordChar_of_isAscii (i.chars c hc)
  start := i.start

theorem Digits.isWord (n : Digits) : IsWord n.text.toList where
  ne_nil := n.ne_empty
  chars c hc := isWordChar_of_isAscii (isAsciiWordChar_of_isDigit (n.chars c hc))

theorem Line.text_cons (t : Token) (line : Line) :
    Line.text (t :: line) = t.text ++ Line.text line :=
  List.flatMap_cons

theorem Line.infix_of_mem {t : Token} {line : Line} (h : t ∈ line) : t.text <:+: line.text := by
  obtain ⟨a, b, rfl⟩ := List.append_of_mem h
  exact ⟨Line.text a, Line.text b, by simp [Line.text]⟩

/-- Whether the token is no literal with the character. -/
def Token.avoids (c : Char) : Token → Bool
  | literal s => !s.toList.contains c
  | _ => true

/-- A mark that stands in no literal of a line does not stand in the line. -/
theorem Line.not_mem_text {c : Char} (hc : isWordChar c = false) {line : Line}
    (h : line.all (Token.avoids c) = true) : c ∉ line.text := by
  intro hmem
  obtain ⟨t, ht, hct⟩ := List.mem_flatMap.mp hmem
  have havoids := List.all_eq_true.mp h t ht
  cases t with
  | literal s => simp [Token.avoids, show c ∈ s.toList from hct] at havoids
  | name i => exact absurd (i.isName.chars c hct) (by simp [hc])
  | number n => exact absurd (n.isWord.chars c hct) (by simp [hc])

theorem listed_all {p : Token → Bool} (hname : ∀ i : Identifier, p i = true)
    (hcomma : p ", " = true) (hend : p ";" = true) (name : Identifier) (more : List Identifier) :
    (listed name more).all p = true := by
  induction more generalizing name with
  | nil => simp [listed, hname, hend]
  | cons next more ih => simpa [listed, hname, hcomma] using ih next

theorem forall_mem_closed {β : Type} {f : β → Line} {members : List β} {last : Line}
    {P : Line → Prop} (hinner : ∀ b, P (f b)) (hlast : P last) :
    ∀ line ∈ closed (members.map f) last, P line := by
  intro line hline
  rcases List.mem_append.mp hline with hline | hline
  · obtain ⟨b, _, rfl⟩ := List.mem_map.mp hline
    exact hinner b
  · exact List.mem_singleton.mp hline ▸ hlast

theorem not_mem_written {c : Char} (hc : isWordChar c = false) (hfeed : c ≠ '\n')
    {lines : List Line} (h : ∀ line ∈ lines, line.all (Token.avoids c) = true) :
    c ∉ written lines := by
  intro hmem
  obtain ⟨line, hline, hcl⟩ := List.mem_flatMap.mp hmem
  rcases List.mem_append.mp hcl with hcl | hcl
  · exact Line.not_mem_text hc (h line hline) hcl
  · exact hfeed (List.mem_singleton.mp hcl)

/-! ## Keywords -/

/-- What the searches start with. -/
inductive Keyword where
  | hash
  | interface
  | protocol
  | typedef
  | property
  | nsEnum
  | nsOptions
  | enum
  | struct
  deriving DecidableEq, Repr

namespace Keyword

def text : Keyword → String
  | hash => "#"
  | interface => "@interface"
  | protocol => "@protocol"
  | typedef => "typedef"
  | property => "property"
  | nsEnum => "NS_ENUM"
  | nsOptions => "NS_OPTIONS"
  | enum => "enum"
  | struct => "struct"

/-- Whether the keyword counts only with no word character on either side. -/
def isWhole : Keyword → Bool
  | enum | struct => true
  | _ => false

/-- The keyword stands at the start of a text that stands behind `prev`. -/
def Stands (k : Keyword) (prev : Option Char) (text : List Char) : Prop :=
  ∃ rest, text = k.text.toList ++ rest ∧
    (k.isWhole = true → wordBoundary prev = true ∧ wordBoundary rest.head? = true)

end Keyword

/-- A character that keywords are made of. -/
def isSolid (c : Char) : Bool := isWordChar c || c == '@' || c == '#'

theorem Keyword.isSolid_of_mem {k : Keyword} {c : Char} (h : c ∈ k.text.toList) :
    isSolid c = true := by
  have hall : k.text.toList.all isSolid = true := by cases k <;> decide
  exact List.all_eq_true.mp hall c h

theorem Keyword.text_ne_nil (k : Keyword) : k.text.toList ≠ [] := by cases k <;> decide

/-- A keyword that starts in a part of the text ends in it, if that part ends before the
next solid character. -/
theorem Keyword.prefix_of_apart {k : Keyword} {part rest : List Char}
    (h : k.text.toList <+: part ++ rest)
    (hapart : part.getLast?.any (!isSolid ·) = true ∨ StopsRun isSolid rest) :
    k.text.toList <+: part := by
  obtain ⟨tail, htail⟩ := h
  rcases List.append_eq_append_iff.mp htail with ⟨more, hpart, _⟩ | ⟨behind, hk, hrest⟩
  · exact ⟨more, hpart.symm⟩
  · cases behind with
    | nil => exact ⟨[], by simpa using hk⟩
    | cons c behind =>
      exfalso
      rcases hapart with hlast | hstop
      · cases hl : part.getLast? with
        | none => simp [hl] at hlast
        | some d =>
          have hd : isSolid d = true := k.isSolid_of_mem (by simp [hk, List.mem_of_getLast? hl])
          simp [hl, hd] at hlast
      · have hc : isSolid c = true := k.isSolid_of_mem (by simp [hk])
        rw [hstop c (by rw [hrest]; rfl)] at hc
        cases hc

/-- No identifier holds a keyword; of a whole keyword, none is one. -/
theorem Identifier.not_keyword (i : Identifier) (k : Keyword) :
    if k.isWhole then i.text ≠ k.text else ¬ k.text.toList <:+: i.text.toList := by
  have hmark : ∀ c, isAsciiWordChar c = false → ∀ k : String, k.toList.head? = some c →
      ¬ k.toList <:+: i.text.toList := by
    intro c hc k hhead hwithin
    have hmem : c ∈ i.text.toList := hwithin.subset (List.mem_of_head? hhead)
    rw [i.chars c hmem] at hc
    cases hc
  have hsome := i.holdsNone
  have hnone := i.isNone
  simp only [List.mem_cons, List.not_mem_nil, or_false, forall_eq_or_imp, forall_eq,
    not_or] at hsome hnone
  cases k with
  | hash => exact hmark '#' (by decide) _ rfl
  | interface => exact hmark '@' (by decide) _ rfl
  | protocol => exact hmark '@' (by decide) _ rfl
  | typedef => exact hsome.1
  | property => exact hsome.2.1
  | nsEnum => exact hsome.2.2.1
  | nsOptions => exact hsome.2.2.2
  | enum => exact hnone.1
  | struct => exact hnone.2.1

theorem Digits.not_keyword (n : Digits) (k : Keyword) : ¬ k.text.toList <:+: n.text.toList := by
  intro hwithin
  have hsome : k.text.toList.any (!·.isDigit) = true := by cases k <;> decide
  obtain ⟨c, hc, hdigit⟩ := List.any_eq_true.mp hsome
  simp [n.chars c (hwithin.subset hc)] at hdigit

/-! ## Lines without a keyword -/

namespace Token

/-- Whether the token starts with a character that no keyword has. -/
def opensApart : Token → Bool
  | literal s => s.toList.head?.any (!isSolid ·)
  | _ => false

/-- Whether the token ends with a character that no keyword has. -/
def closesApart : Token → Bool
  | literal s => s.toList.getLast?.any (!isSolid ·)
  | _ => false

/-- Whether the token is no literal that holds the keyword. -/
def lacks (k : Keyword) : Token → Bool
  | literal s => !contains k.text.toList s.toList
  | _ => true

end Token

/-- Whether no keyword can reach from one token of the line into the next. -/
def Line.isSpaced : Line → Bool
  | a :: b :: rest => (a.closesApart || b.opensApart) && isSpaced (b :: rest)
  | _ => true

/-- Whether the line holds the keyword nowhere. -/
def Line.lacks (k : Keyword) (line : Line) : Bool := line.isSpaced && line.all (Token.lacks k)

/-- A keyword does not stand inside a token that lacks it. -/
theorem Token.not_stands {k : Keyword} {t : Token} (hlacks : t.lacks k = true) {prev : Option Char}
    {lead here rest : List Char} (ht : t.text = lead ++ here) (hne : here ≠ [])
    (hapart : here.getLast?.any (!isSolid ·) = true ∨ StopsRun isSolid rest) :
    ¬ k.Stands (lead.getLast?.or prev) (here ++ rest) := by
  intro hstands
  obtain ⟨tail, htext, hwhole⟩ := hstands
  have hprefix := Keyword.prefix_of_apart ⟨tail, htext.symm⟩ hapart
  have hwithin : k.text.toList <:+: t.text :=
    ht ▸ hprefix.isInfix.trans (List.suffix_append lead here).isInfix
  cases t with
  | literal s =>
    rw [Token.lacks, Bool.not_eq_true', ← Bool.not_eq_true, contains_iff] at hlacks
    exact hlacks hwithin
  | number n => exact n.not_keyword k hwithin
  | name i =>
    have hname := i.not_keyword k
    split at hname
    · rename_i hk
      obtain ⟨hstart, hend⟩ := hwhole hk
      obtain ⟨more, rfl⟩ := hprefix
      obtain rfl : more ++ rest = tail := by simpa using htext
      rw [wordBoundary, Bool.not_eq_true'] at hstart hend
      exact hname (String.toList_inj.mp (eq_of_whole i.isName.chars ht hstart hend))
    · exact hname hwithin

/-- The shape hits only where the keyword stands. -/
def Needs {α : Type} (s : Shape α) (k : Keyword) : Prop :=
  ∀ prev text h, s prev text = some h → k.Stands prev text

variable {α : Type} {s : Shape α} {k : Keyword}

theorem hits_token (hs : Needs s k) {t : Token} (ht : t.lacks k = true) (prev : Option Char)
    {rest : List Char} (hapart : t.closesApart = true ∨ StopsRun isSolid rest) :
    s.hits prev (t.text ++ rest) = s.hits (t.text.getLast?.or prev) rest := by
  refine Shape.hits_pass fun lead here htext hne => ?_
  cases hhit : s (lead.getLast?.or prev) (here ++ rest) with
  | none => rfl
  | some h =>
    refine absurd (hs _ _ h hhit) (Token.not_stands ht htext hne ?_)
    refine hapart.imp_left fun hcloses => ?_
    cases t with
    | literal s =>
      rw [Token.closesApart] at hcloses
      rw [Token.text] at htext
      rwa [htext, List.getLast?_append_of_ne_nil _ hne] at hcloses
    | name i => cases hcloses
    | number n => cases hcloses

theorem Line.apart_of_isSpaced {t : Token} {line : Line} (h : Line.isSpaced (t :: line) = true)
    (rest : List Char) : (t.closesApart = true ∨ StopsRun isSolid (line.text ++ '\n' :: rest)) ∧
      line.isSpaced = true := by
  cases line with
  | nil => exact ⟨.inr (stopsRun_cons.mpr (by decide)), rfl⟩
  | cons next line =>
    rw [Line.isSpaced, Bool.and_eq_true, Bool.or_eq_true] at h
    refine ⟨h.1.imp_right fun hopens => ?_, h.2⟩
    cases next with
    | literal s =>
      rw [Line.text_cons, Token.text]
      cases hs : s.toList with
      | nil => simp [Token.opensApart, hs] at hopens
      | cons c cs => exact stopsRun_cons.mpr (by simpa [Token.opensApart, hs] using hopens)
    | name i => cases hopens
    | number n => cases hopens

/-- A line that lacks the keyword is passed over. -/
theorem hits_line (hs : Needs s k) {line : Line} (h : line.lacks k = true) (prev : Option Char)
    (rest : List Char) : s.hits prev (line.text ++ '\n' :: rest) = s.hits (some '\n') rest := by
  induction line generalizing prev with
  | nil => exact hits_token (t := .literal "\n") hs (by cases k <;> decide) prev (.inl (by decide))
  | cons t line ih =>
    rw [Line.lacks, Bool.and_eq_true, List.all_cons, Bool.and_eq_true] at h
    obtain ⟨hspaced, hlacks, hline⟩ := h
    obtain ⟨hapart, hspaced⟩ := Line.apart_of_isSpaced hspaced rest
    rw [Line.text_cons, List.append_assoc, hits_token hs hlacks prev hapart]
    exact ih (by rw [Line.lacks, hspaced, hline]; rfl) _

/-- A keyword that may stand inside words stands nowhere in a line that lacks it. -/
theorem Line.not_infix (hk : k.isWhole = false) {line : Line} (h : line.lacks k = true) :
    ¬ k.text.toList <:+: line.text := by
  -- the keyword alone is a shape, and the line is passed over by it
  let keyword : Shape Unit := fun _ text => (after k.text text).map fun rest => ⟨(), rest⟩
  have hneeds : Needs keyword k := by
    intro prev text found hhit
    obtain ⟨rest, hafter, _⟩ := Option.map_eq_some_iff.mp hhit
    exact ⟨rest, after_eq_some_iff.mp hafter, fun hwhole => by rw [hk] at hwhole; cases hwhole⟩
  have hnone := hits_line hneeds h none []
  intro hwithin
  obtain ⟨lead, rest, htext⟩ := hwithin
  have hhit : keyword (lead.getLast?.or none) (k.text.toList ++ (rest ++ ['\n'])) =
      some ⟨(), rest ++ ['\n']⟩ := by
    simp [keyword, after_append]
  refine Shape.hits_ne_nil (by simp [k.text_ne_nil]) hhit ?_
  simpa [← htext] using hnone

theorem written_cons (line : Line) (lines : List Line) (rest : List Char) :
    written (line :: lines) ++ rest = line.text ++ '\n' :: (written lines ++ rest) := by
  simp [written]

theorem hits_lines (hs : Needs s k) {lines : List Line}
    (h : ∀ line ∈ lines, line.lacks k = true) (rest : List Char) :
    s.hits (some '\n') (written lines ++ rest) = s.hits (some '\n') rest := by
  induction lines with
  | nil => rfl
  | cons line lines ih =>
    rw [written_cons, hits_line hs (h line (by simp))]
    exact ih fun l hl => h l (by simp [hl])

/-! ## The keywords of a declaration -/

def EnumMacro.toKeyword : EnumMacro → Keyword
  | nsEnum => .nsEnum
  | nsOptions => .nsOptions

def Decl.keywords : Decl → List Keyword
  | define .. => [.hash]
  | macroEnum call .. => [.typedef, call.toKeyword]
  | forwardEnum .. => [.typedef, .nsEnum]
  | plainEnum .. => [.enum]
  | typedefEnum .. => [.typedef, .enum]
  | struct .. => [.typedef, .struct]
  | typeAlias .. | callable .. => [.typedef]
  | interface .. | category .. => [.interface]
  | protocol .. | forwardProtocols .. => [.protocol]
  | externConstant .. | staticConstant .. | function .. | pointerFunction .. | forwardClass .. => []

theorem Enumerator.line_lacks (e : Enumerator) (k : Keyword) : e.line.lacks k = true := by
  obtain ⟨name, value⟩ := e
  cases value <;> cases k <;> rfl

theorem BitField.line_lacks (f : BitField) (k : Keyword) : f.line.lacks k = true := by
  cases k <;> rfl

theorem ended_lacks (methods : List Method) (k : Keyword) :
    ∀ line ∈ ended methods, line.lacks k = true := by
  refine forall_mem_closed (fun m => ?_) (by cases k <;> rfl)
  cases k <;> rfl

theorem Line.lacks_cons {t : Token} {line : Line} (hcloses : t.closesApart = true)
    (ht : t.lacks k = true) (hline : line.lacks k = true) : Line.lacks k (t :: line) = true := by
  cases line with
  | nil => simp [Line.lacks, Line.isSpaced, ht]
  | cons next line => simpa [Line.lacks, Line.isSpaced, hcloses, ht] using hline

theorem listed_lacks (name : Identifier) (more : List Identifier) (k : Keyword) :
    (listed name more).lacks k = true := by
  induction more generalizing name with
  | nil => cases k <;> rfl
  | cons next more ih =>
    show Line.lacks k (", " :: listed next more) = true
    exact Line.lacks_cons (by decide) (by cases k <;> rfl) (ih next)

/-- A declaration is written with no keyword but its own. -/
theorem Decl.lacks {d : Decl} (h : k ∉ d.keywords) :
    ∀ line ∈ d.lines, line.lacks k = true := by
  -- the line that spells the keywords is settled keyword by keyword, the others lack them all
  have hown : ∀ line : Line, (decide (k ∈ d.keywords) || line.lacks k) = true →
      line.lacks k = true := by
    intro line hline
    simpa [h] using hline
  have hone : ∀ line : Line, (decide (k ∈ d.keywords) || line.lacks k) = true →
      ∀ l ∈ [line], l.lacks k = true :=
    fun line hline => List.forall_mem_singleton.mpr (hown line hline)
  have hopened : ∀ (line : Line) (lines : List Line),
    (decide (k ∈ d.keywords) || line.lacks k) = true →
      (∀ l ∈ lines, l.lacks k = true) → ∀ l ∈ line :: lines, l.lacks k = true :=
    fun line _ hline hlines => List.forall_mem_cons.mpr ⟨hown line hline, hlines⟩
  cases d with
  | define name value => exact hone _ (by cases k <;> rfl)
  | externConstant type name => exact hone _ (by cases k <;> rfl)
  | staticConstant type name value fraction =>
    cases fraction <;> exact hone _ (by cases k <;> rfl)
  | macroEnum call type name body =>
    refine hopened _ _ ?_ (forall_mem_closed (·.line_lacks k) (by cases k <;> rfl))
    cases call <;> cases k <;> rfl
  | forwardEnum type name => exact hone _ (by cases k <;> rfl)
  | plainEnum body =>
    exact hopened _ _ (by cases k <;> rfl) (forall_mem_closed (·.line_lacks k)
      (by cases k <;> rfl))
  | typedefEnum body name =>
    exact hopened _ _ (by cases k <;> rfl) (forall_mem_closed (·.line_lacks k)
      (by cases k <;> rfl))
  | struct body name =>
    exact hopened _ _ (by cases k <;> rfl) (forall_mem_closed (·.line_lacks k)
      (by cases k <;> rfl))
  | typeAlias type name => exact hone _ (by cases k <;> rfl)
  | callable form result name parameter =>
    cases form <;> exact hone _ (by cases k <;> rfl)
  | function result name type parameter => exact hone _ (by cases k <;> rfl)
  | pointerFunction result name => exact hone _ (by cases k <;> rfl)
  | interface name super methods => exact hopened _ _ (by cases k <;> rfl) (ended_lacks methods k)
  | category name extension methods =>
    exact hopened _ _ (by cases k <;> rfl) (ended_lacks methods k)
  | protocol name parent methods => exact hopened _ _ (by cases k <;> rfl) (ended_lacks methods k)
  | forwardProtocols name more =>
    have hfirst : (decide (k ∈ [Keyword.protocol]) || Token.lacks k "@protocol ") = true := by
      cases k <;> rfl
    refine List.forall_mem_singleton.mpr (Line.lacks_cons (by decide) ?_ (listed_lacks name more k))
    simpa [show k ∉ [Keyword.protocol] from h] using hfirst
  | forwardClass name => exact hone _ (by cases k <;> rfl)

end HeaderIndex.Header
