import HeaderIndex.Proofs.Header.BodyNames
import HeaderIndex.Proofs.Header.Lexemes

/-! Enumerations and structures with any bodies. A text is a sequence of items, each written in
lexemes. A search for one keyword passes over the items of the others, and from each of its
own it takes the name and the body that stand there (`symbols_items`): nothing that a body
holds keeps the next item from being read. -/

namespace HeaderIndex.Header

open HeaderIndex.Text

/-! ## Items -/

/-- What is named behind its body. -/
inductive Aggregate where
  | enum
  | struct
  deriving DecidableEq, Repr

def Aggregate.toKeyword : Aggregate → Keyword
  | enum => .enum
  | struct => .struct

theorem EnumMacro.toKeyword_injective {m m' : EnumMacro} (h : m.toKeyword = m'.toKeyword) :
    m = m' := by
  cases m <;> cases m' <;> simp_all [toKeyword]

theorem Aggregate.toKeyword_injective {a a' : Aggregate} (h : a.toKeyword = a'.toKeyword) :
    a = a' := by
  cases a <;> cases a' <;> simp_all [toKeyword]

def EnumMacro.word (m : EnumMacro) : Word := ⟨m.toKeyword.text.toList, by cases m <;> decide⟩

def Aggregate.word (a : Aggregate) : Word := ⟨a.toKeyword.text.toList, by cases a <;> decide⟩

namespace Item

inductive Kind where
  /-- `K(B, N) {body};`, or `K(B, N);` if there is no body. -/
  | call (m : EnumMacro) (backing name : Label) (body : Option Block)
  /-- `enum Tag {body} N;` or `struct Tag {body} N;`, each with its tag and name or without. -/
  | aggregate (a : Aggregate) (tag : Option Label) (body : Block) (name : Option Label)

def Kind.keyword : Kind → Keyword
  | call m .. => m.toKeyword
  | aggregate a .. => a.toKeyword

end Item

/-- A declaration, which `typedef` may stand before. -/
structure Item where
  aliased : Bool
  kind : Item.Kind

namespace Item

def label (l : Option Label) : List Lexeme := (l.map fun l => .word l.toWord).toList

def Kind.tail : Kind → List Lexeme
  | call _ backing name body =>
    [.mark .opening, .word backing.toWord, .mark .comma, .word name.toWord, .mark .closing] ++
      ((body.map .block).toList ++ [.mark .semicolon])
  | aggregate _ tag body name => label tag ++ .block body :: (label name ++ [.mark .semicolon])

def Kind.word : Kind → Word
  | call m .. => m.word
  | aggregate a .. => a.word

def typedef : Word := ⟨"typedef".toList, by decide⟩

def lead (item : Item) : List Lexeme := if item.aliased then [.word typedef] else []

def lexemes (item : Item) : List Lexeme := item.lead ++ .word item.kind.word :: item.kind.tail

/-- The name and the body of what is defined, if anything is. -/
def Kind.defined? : Kind → Option (Option Label × Block)
  | call _ _ name body => body.map fun body => (some name, body)
  | aggregate _ _ body name => some (name, body)

/-- The symbols of an item that its keyword opens: its name, if it has one, and its members. -/
def symbols (k : Keyword) (members : List Char → List String) (item : Item) : List String :=
  if item.kind.keyword = k then
    item.kind.defined?.toList.flatMap fun d =>
      d.1.toList.map (fun l => String.ofList l.text) ++ members d.2.text
  else []

end Item

/-! ## What stands in lexemes -/

theorem writes_cons_iff {l : Lexeme} {later : List Lexeme} {text : List Char} :
    Writes (l :: later) text ↔ ∃ blanks rest, text = blanks ++ (l.text ++ rest) ∧
      (∀ c ∈ blanks, isBlank c = true) ∧
      (l.isWord = true → wordBoundary rest.head? = true) ∧ Writes later rest := by
  constructor
  · intro h
    cases h with
    | next hblank hapart h => exact ⟨_, _, rfl, hblank, hapart, h⟩
  · rintro ⟨blanks, rest, rfl, hblank, hapart, h⟩
    exact .next hblank hapart h

theorem not_mem_blanks {c : Char} (hc : isBlank c = false) {blanks : List Char}
    (h : ∀ d ∈ blanks, isBlank d = true) : c ∉ blanks :=
  fun hmem => by simp [h c hmem] at hc

theorem noWord_blanks {blanks : List Char} (h : ∀ c ∈ blanks, isBlank c = true) :
    ∀ c ∈ blanks, (!isWordChar c) = true := fun c hc => by simp [isWordChar_of_isBlank (h c hc)]

/-- Nothing follows, or a word does. -/
def OpensWithWord (later : List Lexeme) : Prop := ∀ l, later.head? = some l → l.isWord = true

theorem fresh_of_writes {later : List Lexeme} (hopens : OpensWithWord later) {text : List Char}
    (h : Writes later text) : Fresh text := by
  cases h with
  | done hblank =>
    exact fun hmem => not_mem_blanks (by decide) hblank ((List.takeWhile_prefix _).subset hmem)
  | @next l later blanks rest hblank hapart h =>
    cases l with
    | word w =>
      unfold Fresh
      rw [Lexeme.text, takeWhile_run (noWord_blanks hblank) (w.isWord.stopsNoWord rest)]
      exact not_mem_blanks (by decide) hblank
    | mark m => exact absurd (hopens _ rfl) (by simp [Lexeme.isWord])
    | block b => exact absurd (hopens _ rfl) (by simp [Lexeme.isWord])

theorem semicolon_of_writes {later : List Lexeme} {text : List Char}
    (h : Writes (.mark .semicolon :: later) text) :
    ∃ blanks rest, text = blanks ++ ';' :: rest ∧ (∀ c ∈ blanks, isBlank c = true) ∧
      Writes later rest := by
  obtain ⟨blanks, rest, rfl, hblank, _, hrest⟩ := writes_cons_iff.mp h
  exact ⟨blanks, rest, rfl, hblank, hrest⟩

/-- The arguments of a macro call. -/
theorem arguments_of_writes {backing name : Label} {later : List Lexeme} {text : List Char}
    (h : Writes ([.mark .opening, .word backing.toWord, .mark .comma, .word name.toWord,
      .mark .closing] ++ later) text) : ∃ front behind, text = front ++ behind ∧
      Enumeration.Arguments text name.text behind ∧ Writes later behind := by
  obtain ⟨b₁, _, rfl, hb₁, _, h⟩ := writes_cons_iff.mp h
  obtain ⟨b₂, _, rfl, hb₂, hapart, h⟩ := writes_cons_iff.mp h
  obtain ⟨b₃, _, rfl, hb₃, _, h⟩ := writes_cons_iff.mp h
  obtain ⟨b₄, _, rfl, hb₄, hapart', h⟩ := writes_cons_iff.mp h
  obtain ⟨b₅, behind, rfl, hb₅, _, h⟩ := writes_cons_iff.mp h
  have hcomma : wordBoundary
      (b₃ ++ ',' :: (b₄ ++ (name.text ++ (b₅ ++ ')' :: behind)))).head? = true :=
    hapart rfl
  have hclosing : wordBoundary (b₅ ++ ')' :: behind).head? = true := hapart' rfl
  rw [List.head?_append] at hcomma hclosing
  refine ⟨b₁ ++ '(' ::
    (b₂ ++ (backing.text ++ (b₃ ++ ',' :: (b₄ ++ (name.text ++ (b₅ ++ [')'])))))), behind,
    by simp [Lexeme.text, Mark.char], ?_, h⟩
  exact .mk (not_mem_blanks (by decide) hb₁) (noWord_blanks hb₂) backing.isWord hcomma
    (not_mem_blanks (by decide) hb₃)
    (noWord_blanks hb₄) name.isWord hclosing (not_mem_blanks (by decide) hb₅)

theorem gap_chars {gap : List Char} (hopen : '\x7b' ∉ gap) (hsemicolon : ';' ∉ gap) :
    ∀ c ∈ gap, (c != '\x7b' && c != ';') = true := by
  intro c hc
  have hopen : c ≠ '\x7b' := fun he => hopen (he ▸ hc)
  have hsemicolon : c ≠ ';' := fun he => hsemicolon (he ▸ hc)
  simp [hopen, hsemicolon]

theorem Block.body?_eq (body : Block) {gap : List Char} (hopen : '\x7b' ∉ gap)
    (hsemicolon : ';' ∉ gap) (rest : List Char) :
    Braced.body? (gap ++ ((Lexeme.block body).text ++ rest)) = some ⟨body.text, rest⟩ :=
  Braced.body?_eq_some_iff.mpr ⟨gap,
    by simp [Lexeme.text], gap_chars hopen hsemicolon, body.ne_nil, body.noBrace⟩

/-- A block, which a word may stand before. -/
theorem body?_of_writes (tag : Option Label) {body : Block} {later : List Lexeme} {text : List Char}
    (h : Writes (Item.label tag ++ .block body :: later) text) :
    ∃ front rest, text = front ++ rest ∧ Braced.body? text = some ⟨body.text, rest⟩ ∧
      Writes later rest := by
  cases tag with
  | none =>
    obtain ⟨blanks, rest, rfl, hblank, _, h⟩ := writes_cons_iff.mp h
    refine ⟨blanks ++ (Lexeme.block body).text, rest, by simp, ?_, h⟩
    exact body.body?_eq (not_mem_blanks (by decide) hblank) (not_mem_blanks (by decide) hblank) rest
  | some tag =>
    obtain ⟨blanks, _, rfl, hblank, _, h⟩ := writes_cons_iff.mp h
    obtain ⟨blanks', rest, rfl, hblank', _, h⟩ := writes_cons_iff.mp h
    have hgap : ∀ {c : Char}, isBlank c = false → isWordChar c = false →
        c ∉ blanks ++ (tag.text ++ blanks') := by
      intro c hc hword hmem
      rcases List.mem_append.mp hmem with hmem | hmem
      · exact not_mem_blanks hc hblank hmem
      · rcases List.mem_append.mp hmem with hmem | hmem
        · simp [tag.isWord.chars c hmem] at hword
        · exact not_mem_blanks hc hblank' hmem
    have hbody := body.body?_eq (hgap (by decide) (by decide)) (hgap (by decide) (by decide)) rest
    refine ⟨blanks ++ (tag.text ++ blanks') ++ (Lexeme.block body).text, rest,
      by simp [Lexeme.text], ?_, h⟩
    simpa [Lexeme.text] using hbody

/-- The end of a declaration named behind its body. -/
theorem tail?_of_writes {name : Option Label} {later : List Lexeme} (hopens : OpensWithWord later)
    {text : List Char} (h : Writes (Item.label name ++ .mark .semicolon :: later) text) :
    ∃ front rest, text = front ++ ';' :: rest ∧
      Braced.tail? text = some ⟨name.map fun l => l.text, rest⟩ ∧ Writes later rest := by
  cases name with
  | none =>
    obtain ⟨blanks, rest, rfl, hblank, hrest⟩ := semicolon_of_writes h
    exact ⟨blanks, rest, rfl, Braced.tail?_unnamed hblank rest, hrest⟩
  | some name =>
    obtain ⟨blanks, _, rfl, hblank, _, h⟩ := writes_cons_iff.mp h
    obtain ⟨blanks', rest, rfl, hblank', hrest⟩ := semicolon_of_writes h
    exact ⟨blanks ++ (name.text ++ blanks'), rest, by simp [Lexeme.text],
      Braced.tail?_named hblank name.isWord hblank' (fresh_of_writes hopens hrest), hrest⟩

/-! ## What is read at a keyword -/

/-- A shape reads an item from its keyword up to its semicolon, with its name and its body, and
it reads nothing where the item defines nothing. -/
def Item.Kind.IsReadBy (kind : Kind) (s : Shape Braced) : Prop :=
  ∀ (prev : Option Char) (text : List Char) (later : List Lexeme), wordBoundary prev = true →
    wordBoundary text.head? = true → OpensWithWord later → Writes (kind.tail ++ later) text →
    match kind.defined? with
    | none => s prev (kind.word.text ++ text) = none
    | some (name, body) => ∃ d front rest, text = front ++ ';' :: rest ∧ Writes later rest ∧
        s prev (kind.word.text ++ text) = some ⟨d, rest⟩ ∧
        d.name = name.map (fun l => l.text) ∧ d.body = body.text

theorem body?_semicolon {blanks : List Char} (h : ∀ c ∈ blanks, isBlank c = true)
    (rest : List Char) : Braced.body? (blanks ++ ';' :: rest) = none := by
  have hgap := gap_chars (not_mem_blanks (by decide) h) (not_mem_blanks (by decide) h)
  rw [Braced.body?, dropWhile_run hgap (stopsRun_cons.mpr rfl)]
  rfl

theorem isReadBy_macroCall (m : EnumMacro) (backing name : Label) (body : Option Block) :
    (Item.Kind.call m backing name body).IsReadBy (Enumeration.macroCall m.toKeyword.text) := by
  intro prev text later _ _ _ h
  simp only [Item.Kind.tail, List.append_assoc] at h
  obtain ⟨front, behind, htext, hargs, h⟩ := arguments_of_writes h
  cases body with
  | none =>
    obtain ⟨blanks, rest, rfl, hblank, _⟩ := semicolon_of_writes h
    exact Enumeration.macroCall_eq_none hargs (body?_semicolon hblank rest)
  | some body =>
    obtain ⟨front', behind', hbehind, hbody, h⟩ := body?_of_writes none h
    obtain ⟨blanks, rest, rfl, hblank, h⟩ := semicolon_of_writes h
    refine ⟨⟨before (behind.dropWhile (· != '\x7b')) text, some name.text, body.text⟩,
      front ++ (front' ++ blanks), rest, by simp [htext, hbehind], h, ?_, rfl, rfl⟩
    exact Enumeration.macroCall_eq_some_iff.mpr ⟨text, name.text, behind, blanks, _, rfl, hargs,
      hbody, rfl, not_mem_blanks (by decide) hblank, rfl, rfl⟩

theorem isReadBy_trailing (a : Aggregate) (tag : Option Label) (body : Block)
    (name : Option Label) :
    (Item.Kind.aggregate a tag body name).IsReadBy (Braced.trailing a.toKeyword.text) := by
  intro prev text later hprev hapart hopens h
  simp only [Item.Kind.tail, List.append_assoc, List.cons_append] at h
  obtain ⟨front, behind, htext, hbody, h⟩ := body?_of_writes tag h
  obtain ⟨front', rest, hbehind, htail, h⟩ := tail?_of_writes hopens h
  refine ⟨⟨text.takeWhile (· != '\x7b'), name.map fun l => l.text, body.text⟩,
    front ++ front', rest, by simp [htext, hbehind], h, ?_, rfl, rfl⟩
  exact Braced.trailing_eq_some_iff.mpr ⟨hprev, text, behind, rfl, hapart, hbody, htail, rfl⟩

/-! ## Where a keyword does not stand -/

theorem Keyword.isWord_of_opener {k : Keyword} (hk : k ∈ openers) : IsWord k.text.toList := by
  simp only [openers, List.mem_cons, List.not_mem_nil, or_false] at hk
  rcases hk with rfl | rfl | rfl | rfl <;> decide

namespace Item

theorem Kind.word_text (kind : Kind) : kind.word.text = kind.keyword.text.toList := by
  cases kind <;> rfl

theorem Kind.keyword_mem (kind : Kind) : kind.keyword ∈ Keyword.openers := by
  cases kind with
  | call m => cases m <;> simp [keyword, EnumMacro.toKeyword, Keyword.openers]
  | aggregate a => cases a <;> simp [keyword, Aggregate.toKeyword, Keyword.openers]

theorem Kind.word_lacks (kind : Kind) {k : Keyword} (hk : k ∈ Keyword.openers)
    (hne : kind.keyword ≠ k) : k.isIn kind.word.text = false := by
  have htable : (Keyword.openers.all fun k => Keyword.openers.all fun other =>
      other == k || !k.isIn other.text.toList) = true := by decide +kernel
  have hother := List.all_eq_true.mp (List.all_eq_true.mp htable k hk) _ kind.keyword_mem
  rw [kind.word_text]
  simpa [hne] using hother

theorem Kind.tail_lacks (kind : Kind) {k : Keyword} (hk : k ∈ Keyword.openers) :
    ∀ l ∈ kind.tail, k.isIn l.content = false := by
  have hmark : k.isIn [] = false := Keyword.not_isIn (by decide +kernel) hk
  have hlabel : ∀ l : Label, k.isIn l.text = false := fun l => Keyword.not_isIn l.free hk
  have hblock : ∀ b : Block, k.isIn b.text = false := fun b => Keyword.not_isIn b.free hk
  cases kind with
  | call m backing name body => cases body <;> simp [tail, Lexeme.content, hmark, hlabel, hblock]
  | aggregate a tag body name =>
    cases tag <;> cases name <;> simp [tail, label, Lexeme.content, hmark, hlabel, hblock]

theorem lead_lacks (item : Item) {k : Keyword} (hk : k ∈ Keyword.openers) :
    ∀ l ∈ item.lead, k.isIn l.content = false := by
  rw [lead]
  split
  · exact List.forall_mem_singleton.mpr (Keyword.not_isIn (by decide +kernel) hk)
  · exact List.forall_mem_nil _

end Item

/-! ## Reading items one after another -/

theorem Item.opensWithWord (item : Item) (later : List Lexeme) :
    OpensWithWord (item.lexemes ++ later) := by
  intro l hl
  rw [lexemes, lead] at hl
  split at hl
  all_goals
    cases hl
    rfl

theorem opens_items (items : List Item) : OpensWithWord (items.flatMap Item.lexemes) := by
  cases items with
  | nil => exact fun l hl => nomatch hl
  | cons item items => exact item.opensWithWord _

/-- The name of what is found, if it has one, and then its members. -/
def Braced.symbolsWith (members : List Char → List String) (d : Braced) : List String :=
  (d.name.map String.ofList).toList ++ members d.body

section Run

variable {s : Shape Braced} {k : Keyword} (hs : Needs s k) (hk : k ∈ Keyword.openers)
  (hreads : ∀ kind : Item.Kind, kind.keyword = k → kind.IsReadBy s)
  (members : List Char → List String)

include hs hk

/-- An item of another keyword is passed over. -/
theorem hits_other {item : Item} (hne : item.kind.keyword ≠ k) {later : List Lexeme}
    {prev : Option Char} {text : List Char} (hseam : Seam prev text)
    (h : Writes (item.lexemes ++ later) text) : ∃ prev' rest, Seam prev' rest ∧
      Writes later rest ∧ s.hits prev text = s.hits prev' rest := by
  refine pass_lexemes hs (Keyword.isWord_of_opener hk) (fun l hl => ?_) hseam h
  rcases List.mem_append.mp hl with hl | hl
  · exact item.lead_lacks hk l hl
  · rcases List.mem_cons.mp hl with rfl | hl
    · exact item.kind.word_lacks hk hne
    · exact item.kind.tail_lacks hk l hl

include hreads

/-- An item of the search's own keyword is taken if it defines something, and passed over
otherwise. -/
theorem symbols_own {item : Item} (hown : item.kind.keyword = k) {later : List Lexeme}
    (hopens : OpensWithWord later) {prev : Option Char} {text : List Char} (hseam : Seam prev text)
    (h : Writes (item.lexemes ++ later) text) :
    ∃ prev' rest, Seam prev' rest ∧ Writes later rest ∧
      (s.hits prev text).flatMap (Braced.symbolsWith members) = item.symbols k members ++
      (s.hits prev' rest).flatMap (Braced.symbolsWith members) := by
  have hword := Keyword.isWord_of_opener hk
  have htext := item.kind.word_text
  rw [hown] at htext
  rw [Item.lexemes, List.append_assoc, List.cons_append] at h
  obtain ⟨prev₁, text₁, hseam₁, h, hlead⟩ :=
    pass_lexemes hs hword (item.lead_lacks hk) hseam h
  obtain ⟨prev₂, text₂, hprev, hapart, h, hblanks⟩ := hits_nextWord hs hword hseam₁ h
  have hread := hreads item.kind hown _ _ _ hprev hapart hopens h
  rw [hlead, hblanks, Item.symbols, if_pos hown]
  cases hdefined : item.kind.defined? with
  | none =>
    rw [hdefined, htext] at hread
    -- nothing is read here, so the arguments still lie ahead of the search
    have hbehind : Seam (k.text.toList.getLast?.or prev₂) text₂ := .inr hapart
    obtain ⟨prev', rest, hseam', hlater, htail⟩ :=
      pass_lexemes hs hword (item.kind.tail_lacks hk) hbehind h
    exact ⟨prev', rest, hseam', hlater,
      by rw [htext, hits_missed hs hword hapart hread, htail]; rfl⟩
  | some found =>
    obtain ⟨name, body⟩ := found
    rw [hdefined] at hread
    obtain ⟨d, front, rest, rfl, hlater, hhit, hname, hbody⟩ := hread
    have hsplit : item.kind.word.text ++ (front ++ ';' :: rest) =
        (item.kind.word.text ++ (front ++ [';'])) ++ rest := by
      simp
    rw [hsplit] at hhit ⊢
    refine ⟨some ';', rest, .inl rfl, hlater, ?_⟩
    rw [Shape.hits_hit (by simp) hhit, List.flatMap_cons, Braced.symbolsWith, hname, hbody]
    cases name <;> simp

/-- A search takes the symbols of an item that its keyword opens, and goes on behind the item. -/
theorem symbols_item (item : Item) {later : List Lexeme} (hopens : OpensWithWord later)
    {prev : Option Char} {text : List Char} (hseam : Seam prev text)
    (h : Writes (item.lexemes ++ later) text) :
    ∃ prev' rest, Seam prev' rest ∧ Writes later rest ∧
      (s.hits prev text).flatMap (Braced.symbolsWith members) = item.symbols k members ++
      (s.hits prev' rest).flatMap (Braced.symbolsWith members) := by
  by_cases hown : item.kind.keyword = k
  · exact symbols_own hs hk hreads members hown hopens hseam h
  · obtain ⟨prev', rest, hseam', hlater, hhits⟩ := hits_other hs hk hown hseam h
    exact ⟨prev', rest, hseam', hlater,
      by rw [hhits, Item.symbols, if_neg hown, List.nil_append]⟩

/-- A search takes the symbols of all items that its keyword opens. -/
theorem symbols_items (items : List Item) {prev : Option Char} {text : List Char}
    (hseam : Seam prev text) (h : Writes (items.flatMap Item.lexemes) text) :
    (s.hits prev text).flatMap (Braced.symbolsWith members) =
      items.flatMap (Item.symbols k members) := by
  induction items generalizing prev text with
  | nil =>
    cases h with
    | done hblank =>
      have hnone := hits_blanks hs (Keyword.isWord_of_opener hk) hblank prev []
      rw [List.append_nil, Shape.hits_nil] at hnone
      rw [hnone]
      rfl
  | cons item items ih =>
    rw [List.flatMap_cons] at h
    obtain ⟨prev', rest, hseam', hlater, hstep⟩ :=
      symbols_item hs hk hreads members item (opens_items items) hseam h
    rw [hstep, ih hseam' hlater, List.flatMap_cons]

end Run

theorem symbols_macroCall (m : EnumMacro) (members : List Char → List String) (items : List Item)
    {text : List Char} (h : Writes (items.flatMap Item.lexemes) text) :
    ((Enumeration.macroCall m.toKeyword.text).occurrences text).flatMap
      (Braced.symbolsWith members) = items.flatMap (Item.symbols m.toKeyword members) := by
  have hneeds : Needs (Enumeration.macroCall m.toKeyword.text) m.toKeyword :=
    Enumeration.macroCall_needs rfl (by cases m <;> rfl)
  refine symbols_items hneeds (by cases m <;> decide) (fun kind hkind => ?_) members
    items (.inl rfl) h
  cases kind with
  | call m' backing name body =>
    obtain rfl := EnumMacro.toKeyword_injective hkind
    exact isReadBy_macroCall m' backing name body
  | aggregate a tag body name => cases m <;> cases a <;> cases hkind

theorem symbols_trailing (a : Aggregate) (members : List Char → List String) (items : List Item)
    {text : List Char} (h : Writes (items.flatMap Item.lexemes) text) :
    ((Braced.trailing a.toKeyword.text).occurrences text).flatMap (Braced.symbolsWith members) =
      items.flatMap (Item.symbols a.toKeyword members) := by
  have hneeds : Needs (Braced.trailing a.toKeyword.text) a.toKeyword := Braced.trailing_needs rfl
  refine symbols_items hneeds (by cases a <;> decide) (fun kind hkind => ?_) members
    items (.inl rfl) h
  cases kind with
  | call m backing name body => cases m <;> cases a <;> cases hkind
  | aggregate a' tag body name =>
    obtain rfl := Aggregate.toKeyword_injective hkind
    exact isReadBy_trailing a' tag body name

/-- Enumerations and structures are read exactly. The enumerations come by keyword, each with its
name and every name of its body, and a structure comes with its name and its bit fields. -/
theorem items_read_exactly (items : List Item) {text : List Char}
    (h : Writes (items.flatMap Item.lexemes) text) :
    Enumeration.find text =
        items.flatMap (Item.symbols .nsEnum bodyNames) ++
          (items.flatMap (Item.symbols .nsOptions bodyNames) ++
          items.flatMap (Item.symbols .enum bodyNames)) ∧
      Struct.find text = items.flatMap (Item.symbols .struct bitFields) := by
  have hnames : Enumeration.symbols = Braced.symbolsWith bodyNames := by
    funext d
    rw [Enumeration.symbols, names_eq, Braced.symbolsWith]
  have hmembers : Struct.symbols = Braced.symbolsWith bitFields := by
    funext d
    rw [Struct.symbols, members_eq, Braced.symbolsWith]
  constructor
  · have hfind : Enumeration.find text =
        ((Enumeration.macroCall EnumMacro.nsEnum.toKeyword.text).occurrences text).flatMap
          Enumeration.symbols ++
          (((Enumeration.macroCall EnumMacro.nsOptions.toKeyword.text).occurrences text).flatMap
            Enumeration.symbols ++
            (((Braced.trailing Aggregate.enum.toKeyword.text).occurrences text).flatMap
              Enumeration.symbols ++ [])) := rfl
    rw [hfind, List.append_nil, hnames, symbols_macroCall .nsEnum bodyNames items h,
      symbols_macroCall .nsOptions bodyNames items h, symbols_trailing .enum bodyNames items h]
    rfl
  · rw [Struct.find, hmembers]
    exact symbols_trailing .struct bitFields items h

/-- A call without a body before one with directives, marks and a brace in it, and then items of
every other keyword. -/
def neighbours : List Item :=
  [⟨false, .call .nsEnum { text := "Int".toList } { text := "Later".toList } none⟩,
    ⟨true, .aggregate .struct (some { text := "_S".toList })
      { text := " int a : 1, b:2;\n#if c : 3\n d; ".toList } (some { text := "S".toList })⟩,
    ⟨true, .call .nsEnum { text := "Int".toList } { text := "Hue".toList }
      (some { text := "#if On\n Red = 1; \x7b\n\t# Off\n Sky2, 3x ".toList })⟩,
    ⟨false, .aggregate .enum none { text := "A;".toList } none⟩,
    ⟨false, .aggregate .enum (some { text := "T".toList }) { text := "B # C".toList }
      (some { text := "N".toList })⟩,
    ⟨true, .call .nsOptions { text := "Int".toList } { text := "Way".toList }
      (some { text := "Up".toList })⟩]

theorem items_read_exactly_neighbours :
    let text :=
      "NS_ENUM( Int,Later) ;typedef struct _S\n\x7b int a : 1, b:2;\n#if c : 3\n d; \x7d S;".toList ++
      "typedef NS_ENUM (Int , Hue)\x7b#if On\n Red = 1; \x7b\n\t# Off\n Sky2, 3x \x7d\n;enum\x7bA;\x7d;\n".toList ++
        "enum T \x7bB # C\x7dN ;\ttypedef\nNS_OPTIONS(Int, Way) \x7bUp\x7d;\n".toList
    Writes (neighbours.flatMap Item.lexemes) text ∧
      Enumeration.find text = ["Hue", "Red", "Sky2", "Way", "Up", "A", "N", "B", "C"] ∧
        Struct.find text = ["S", "a", "b"] := by
  intro text
  have hwrites : Writes (neighbours.flatMap Item.lexemes) text :=
    writes_of_isWritten (by decide +kernel)
  obtain ⟨hfind, hstructs⟩ := items_read_exactly neighbours hwrites
  exact ⟨hwrites, hfind.trans (by decide +kernel), hstructs.trans (by decide +kernel)⟩

end HeaderIndex.Header
