import HeaderIndex.FileSystem
import HeaderIndex.Proofs.Text.Reading

/-! How paths are spelled. Going below a path adds to its components (`components_below`) and to
the names that a look-up follows (`named_foldl_below`). The form of a path from the root
is fixed by its components (`IsPlain.eq_of_same`), except that two slashes at its start
and one at its end are kept (`exists_plain_absolute`). -/

namespace HeaderIndex

open HeaderIndex.Text

/-- Whether an entry of a folder can have this name: a path can spell it, and it stands for
no other folder. -/
def isEntryName (name : Name) : Bool :=
  name != [] && name != [dot] && name != [dot, dot] && name.all fun c => c != slash && c != 0

theorem isEntryName_iff {name : Name} : isEntryName name = true ↔
    name ≠ [] ∧ name ≠ [dot] ∧ name ≠ [dot, dot] ∧ slash ∉ name ∧ 0 ∉ name := by
  simp only [isEntryName, Bool.and_eq_true, bne_iff_ne, List.all_eq_true, and_assoc]
  refine and_congr_right fun _ => and_congr_right fun _ => and_congr_right fun _ => ?_
  constructor
  · intro h
    exact ⟨fun hmem => (h _ hmem).1 rfl, fun hmem => (h _ hmem).2 rfl⟩
  · rintro ⟨hslash, hnul⟩ c hc
    exact ⟨fun he => hslash (he ▸ hc), fun he => hnul (he ▸ hc)⟩

namespace Path

/-- Putting a path below another adds its pieces, in the place of an empty one at the end. -/
theorem splitOn_below (p : Path) (name : Name) : ∃ pieces,
    (p.below name).bytes.splitOn slash = pieces ++ name.splitOn slash ∧
      (p.bytes.splitOn slash = pieces ++ [[]] ∨
        p.bytes.splitOn slash = pieces ∧ pieces ≠ [[]]) := by
  by_cases hempty : p.bytes = []
  · refine ⟨[], ?_, .inl ?_⟩ <;> simp [below, hempty]
  by_cases hslash : p.bytes.getLast? = some slash
  · obtain ⟨front, hfront⟩ := List.getLast?_eq_some_iff.mp hslash
    refine ⟨front.splitOn slash, ?_, .inl ?_⟩
    · have htext : (p.below name).bytes = front ++ slash :: name := by
        simp [below, hfront]
      rw [htext, List.splitOn_append_cons_self]
    · rw [hfront, List.splitOn_append_cons_self, List.splitOn_nil]
  · refine ⟨p.bytes.splitOn slash, ?_, .inr ⟨rfl, fun hone => hempty ?_⟩⟩
    · have htext : (p.below name).bytes = p.bytes ++ slash :: name := by
        simp [below, hslash, hempty]
      rw [htext, List.splitOn_append_cons_self]
    · have hjoin : [slash].intercalate (p.bytes.splitOn slash) = p.bytes :=
        List.intercalate_splitOn slash
      rw [hone] at hjoin
      exact hjoin.symm

/-- What a path starts with shows in its first piece, if that is not its only one. -/
theorem start_eq (pieces : List Name) : start pieces =
    if pieces.head? = some [dot] then [.here]
    else if pieces.head? = some [] ∧ 1 < pieces.length then [.root] else [] := by
  simp [start]

theorem components_below (p : Path) {name : Name} (hslash : slash ∉ name)
    (hhere : name ≠ [dot]) :
    (p.below name).components = p.components ++ (Component.ofPiece? name).toList := by
  obtain ⟨pieces, hbelow, hp⟩ := p.splitOn_below name
  have hstart : start (pieces ++ [name]) = start (p.bytes.splitOn slash) := by
    rw [start_eq, start_eq]
    rcases hp with hp | ⟨hp, hone⟩
    · cases pieces <;> simp [hp, hhere]
    · have hne := hp ▸ List.splitOn_ne_nil slash p.bytes
      match pieces with
      | [] => exact absurd rfl hne
      | [first] => simp_all
      | first :: second :: rest => simp [hp]
  have hempty : Component.ofPiece? [] = none := rfl
  rw [components, components, hbelow, List.splitOn_eq_singleton hslash, hstart,
    List.filterMap_append, List.append_assoc]
  rcases hp with hp | ⟨hp, _⟩ <;> cases hpiece : Component.ofPiece? name <;>
    simp [hp, hempty, hpiece]

theorem components_foldl_below (p : Path) {names : List Name}
    (h : ∀ name ∈ names, isEntryName name = true) :
    (names.foldl below p).components = p.components ++ names.map .name := by
  induction names generalizing p with
  | nil => rw [List.foldl_nil, List.map_nil, List.append_nil]
  | cons name names ih =>
    obtain ⟨hname, hnames⟩ := List.forall_mem_cons.mp h
    obtain ⟨hempty, hhere, hparent, hslash, _⟩ := isEntryName_iff.mp hname
    have hpiece : Component.ofPiece? name = some (.name name) := by
      simp [Component.ofPiece?, hempty, hhere, hparent]
    rw [List.foldl_cons, ih (p.below name) hnames, components_below p hslash hhere, hpiece,
      List.append_assoc]
    rfl

theorem below_text_ne (p : Path) {name : Name} (h : p.bytes ≠ []) :
    (p.below name).bytes ≠ [] := by
  rw [below]
  split <;> simp [h]

theorem head?_below (p : Path) (name : Name) (h : p.bytes ≠ []) :
    (p.below name).bytes.head? = p.bytes.head? := by
  obtain ⟨c, rest, htext⟩ := List.exists_cons_of_ne_nil h
  rw [below]
  split <;> simp [htext]

theorem ne_empty_of_isAbsolute {p : Path} (h : p.isAbsolute = true) : p.bytes ≠ [] := by
  intro hempty
  simp [isAbsolute, hempty] at h

theorem isAbsolute_below {p : Path} (h : p.isAbsolute = true) (name : Name) :
    (p.below name).isAbsolute = true := by
  rw [isAbsolute, head?_below p name (ne_empty_of_isAbsolute h)]
  exact h

theorem isAbsolute_foldl_below {p : Path} (h : p.isAbsolute = true) (names : List Name) :
    (names.foldl below p).isAbsolute = true := by
  induction names generalizing p with
  | nil => exact h
  | cons name names ih => exact ih (isAbsolute_below h name)

theorem mem_below {p : Path} {name : Name} {c : UInt8} (h : c ∈ (p.below name).bytes) :
    c ∈ p.bytes ∨ c = slash ∨ c ∈ name := by
  rw [below] at h
  split at h
  · exact (List.mem_append.mp h).imp_right .inr
  · simpa using h

theorem not_mem_foldl_below {p : Path} {c : UInt8} (hslash : c ≠ slash) (hp : c ∉ p.bytes)
    {names : List Name} (h : ∀ name ∈ names, c ∉ name) :
    c ∉ (names.foldl below p).bytes := by
  induction names generalizing p with
  | nil => exact hp
  | cons name names ih =>
    obtain ⟨hname, hnames⟩ := List.forall_mem_cons.mp h
    refine ih (fun hmem => ?_) hnames
    rcases mem_below hmem with hmem | hmem | hmem
    · exact hp hmem
    · exact hslash hmem
    · exact hname hmem

/-- A piece that a path can spell between two slashes, and that counts. -/
structure IsPiece (piece : Name) : Prop where
  ne_empty : piece ≠ []
  ne_here : piece ≠ [dot]
  noSlash : slash ∉ piece

theorem isPiece_of_isEntryName {name : Name} (h : isEntryName name = true) : IsPiece name := by
  obtain ⟨hempty, hhere, _, hslash, _⟩ := isEntryName_iff.mp h
  exact ⟨hempty, hhere, hslash⟩

theorem IsPiece.bytes_eq {piece : Name} (h : IsPiece piece) :
    ∃ c, Component.ofPiece? piece = some c ∧ c.bytes = piece := by
  by_cases hparent : piece = [dot, dot]
  · exact ⟨.parent, by simp [Component.ofPiece?, hparent], hparent.symm⟩
  · exact ⟨.name piece, by simp [Component.ofPiece?, h.ne_empty, h.ne_here, hparent], rfl⟩

theorem bytes_foldl_below {pieces : List Name} (h : ∀ piece ∈ pieces, IsPiece piece)
    (p : Path) :
    (pieces.foldl below p).components.map Component.bytes =
      p.components.map Component.bytes ++ pieces := by
  induction pieces generalizing p with
  | nil => rw [List.foldl_nil, List.append_nil]
  | cons piece pieces ih =>
    obtain ⟨hpiece, hpieces⟩ := List.forall_mem_cons.mp h
    obtain ⟨c, hc, htext⟩ := hpiece.bytes_eq
    rw [List.foldl_cons, ih hpieces, components_below p hpiece.noSlash hpiece.ne_here, hc]
    simp [htext]

/-- Spelled from the root, with one slash before each piece and no piece that does not count. -/
def IsPlain (p : Path) : Prop :=
  ∃ pieces : List Name, (∀ piece ∈ pieces, IsPiece piece) ∧
    p = pieces.foldl below ⟨[slash]⟩

theorem IsPlain.eq_of_same {p q : Path} (hp : p.IsPlain) (hq : q.IsPlain) (h : p.same q = true) :
    p = q := by
  obtain ⟨pieces, hpieces, rfl⟩ := hp
  obtain ⟨pieces', hpieces', rfl⟩ := hq
  have htexts := congrArg (List.map Component.bytes) (eq_of_beq h)
  rw [bytes_foldl_below hpieces, bytes_foldl_below hpieces'] at htexts
  rw [List.append_cancel_left htexts]

theorem IsPlain.foldl_below {p : Path} (hp : p.IsPlain) {pieces : List Name}
    (h : ∀ piece ∈ pieces, IsPiece piece) : (pieces.foldl below p).IsPlain := by
  obtain ⟨front, hfront, rfl⟩ := hp
  refine ⟨front ++ pieces, ?_, List.foldl_append.symm⟩
  intro piece hpiece
  exact (List.mem_append.mp hpiece).elim (hfront piece) (h piece)

theorem isPiece_of_mem_components {p : Path} {c : Component} (h : c ∈ p.components)
    (hroot : c ≠ .root) (hhere : c ≠ .here) : IsPiece c.bytes := by
  rcases List.mem_append.mp h with h | h
  · rw [start_eq] at h
    split at h
    · exact absurd (List.mem_singleton.mp h) hhere
    · split at h
      · exact absurd (List.mem_singleton.mp h) hroot
      · cases h
  · obtain ⟨piece, hpiece, hc⟩ := List.mem_filterMap.mp h
    have hslash := not_mem_of_mem_splitOn hpiece
    rw [Component.ofPiece?] at hc
    split at hc
    · cases hc
    · rename_i hcounts
      split at hc
      · cases hc
        exact ⟨by decide, by decide, by decide⟩
      · cases hc
        simp only [Bool.or_eq_true, beq_iff_eq, not_or] at hcounts
        exact ⟨hcounts.1, hcounts.2, hslash⟩

theorem below_of_no_slash {p : Path} (hne : p.bytes ≠ []) (h : p.bytes.getLast? ≠ some slash)
    (name : Name) : p.below name = ⟨p.bytes ++ slash :: name⟩ := by
  simp [below, hne, h]

theorem below_of_slash {p : Path} (h : p.bytes.getLast? = some slash) (name : Name) :
    p.below name = ⟨p.bytes ++ name⟩ := by
  simp [below, h]

theorem getLast?_below_empty {p : Path} (h : p.bytes ≠ []) :
    (p.below []).bytes.getLast? = some slash := by
  by_cases hslash : p.bytes.getLast? = some slash
  · rw [below_of_slash hslash, List.append_nil]
    exact hslash
  · rw [below_of_no_slash h hslash]
    simp

/-- Going below the empty name adds a slash at most. -/
theorem below_empty_below (p : Path) (name : Name) : (p.below []).below name = p.below name := by
  by_cases hempty : p.bytes = []
  · simp [below, hempty]
  by_cases hslash : p.bytes.getLast? = some slash
  · rw [below_of_slash hslash [], List.append_nil]
  · rw [below_of_no_slash hempty hslash, below_of_no_slash hempty hslash, below_of_slash (by simp)]
    simp

theorem IsPiece.getLast?_append {piece : Name} (h : IsPiece piece) (front : Name) :
    (front ++ piece).getLast? ≠ some slash := by
  intro hlast
  rw [List.getLast?_append, List.getLast?_eq_some_getLast h.ne_empty, Option.some_or] at hlast
  exact h.noSlash (Option.some.inj hlast ▸ List.getLast_mem h.ne_empty)

theorem foldl_below_eq {p : Path} (hne : p.bytes ≠ []) (hslash : p.bytes.getLast? ≠ some slash)
    {pieces : List Name} (hpieces : pieces ≠ []) (h : ∀ piece ∈ pieces, IsPiece piece) :
    pieces.foldl below p = ⟨p.bytes ++ slash :: [slash].intercalate pieces⟩ := by
  induction pieces generalizing p with
  | nil => exact absurd rfl hpieces
  | cons piece rest ih =>
    obtain ⟨hpiece, hrest⟩ := List.forall_mem_cons.mp h
    rw [List.foldl_cons, below_of_no_slash hne hslash]
    cases rest with
    | nil => simp
    | cons next rest =>
      have hlast := hpiece.getLast?_append (p.bytes ++ [slash])
      rw [List.append_assoc, List.singleton_append] at hlast
      rw [ih (by simp) hlast (by simp) hrest, List.intercalate_cons_cons]
      simp

theorem intercalate_eq_foldl_below {pieces : List Name} (h : ∀ piece ∈ pieces, IsPiece piece) :
    ⟨slash :: [slash].intercalate pieces⟩ = pieces.foldl below ⟨[slash]⟩ := by
  cases pieces with
  | nil => rfl
  | cons piece rest =>
    obtain ⟨hpiece, hrest⟩ := List.forall_mem_cons.mp h
    rw [List.foldl_cons, below_of_slash rfl]
    cases rest with
    | nil => simp
    | cons next rest =>
      have hlast := hpiece.getLast?_append [slash]
      rw [foldl_below_eq (by simp) hlast (by simp) hrest, List.intercalate_cons_cons]
      simp

end Path

namespace FileSystem

/-- The names that a path spells, empty ones aside. -/
def named (path : Name) : List Name := (path.splitOn slash).filter (!·.isEmpty)

theorem mem_of_mem_named {path name : Name} (h : name ∈ named path) {c : UInt8}
    (hc : c ∈ name) : c ∈ path := by
  exact mem_of_mem_splitOn (List.mem_filter.mp h).1 hc

theorem parts_eq (path : Name) :
    parts path = named path ∨ parts path = named path ++ [[dot]] := by
  rw [parts]
  split
  · exact .inr rfl
  · exact .inl rfl

/-- A slash at the end asks for a folder. -/
theorem parts_of_slash {path : Name} (h : path.getLast? = some slash) (hne : named path ≠ []) :
    parts path = named path ++ [[dot]] := by
  obtain ⟨front, hfront⟩ := List.getLast?_eq_some_iff.mp h
  have hlast : ((path.splitOn slash).getLast? == some []) = true := by
    rw [hfront, List.splitOn_append_cons_self]
    simp
  have hnamed : ((path.splitOn slash).filter (!·.isEmpty)).isEmpty = false := by
    rw [← Bool.not_eq_true, List.isEmpty_iff]
    exact hne
  simp only [parts, hlast, hnamed, Bool.not_false, Bool.and_self, if_true]
  rfl

theorem named_below (p : Path) {name : Name} (hslash : slash ∉ name) :
    named (p.below name).bytes = named p.bytes ++ [name].filter (!·.isEmpty) := by
  obtain ⟨pieces, hbelow, hp⟩ := p.splitOn_below name
  rw [named, named, hbelow, List.splitOn_eq_singleton hslash]
  rcases hp with hp | ⟨hp, _⟩ <;> simp [hp]

theorem named_foldl_below {pieces : List Name} (h : ∀ piece ∈ pieces, Path.IsPiece piece)
    (p : Path) : named (pieces.foldl Path.below p).bytes = named p.bytes ++ pieces := by
  induction pieces generalizing p with
  | nil => rw [List.foldl_nil, List.append_nil]
  | cons piece pieces ih =>
    obtain ⟨hpiece, hpieces⟩ := List.forall_mem_cons.mp h
    rw [List.foldl_cons, ih hpieces, named_below p hpiece.noSlash]
    simp [hpiece.ne_empty]

theorem parts_below (p : Path) {piece : Name} (h : Path.IsPiece piece) :
    parts (p.below piece).bytes = named p.bytes ++ [piece] := by
  have hlast : (((p.below piece).bytes.splitOn slash).getLast? == some []) = false := by
    obtain ⟨pieces, hbelow, _⟩ := p.splitOn_below piece
    rw [hbelow, List.splitOn_eq_singleton h.noSlash]
    simpa using h.ne_empty
  rw [← named_foldl_below (List.forall_mem_singleton.mpr h) p]
  simp only [parts, hlast, Bool.false_and, Bool.false_eq_true, if_false]
  rfl

theorem parts_of_named_nil {path : Name} (h : named path = []) : parts path = [] := by
  have hnamed : ((path.splitOn slash).filter (!·.isEmpty)).isEmpty = true := by
    rw [List.isEmpty_iff]
    exact h
  simp only [parts, hnamed, Bool.not_true, Bool.and_false, Bool.false_eq_true, if_false]
  exact h

theorem parts_foldl_below {p : Path} (hp : parts p.bytes = named p.bytes) {pieces : List Name}
    (h : ∀ piece ∈ pieces, Path.IsPiece piece) :
    parts (pieces.foldl Path.below p).bytes = named p.bytes ++ pieces := by
  rcases List.eq_nil_or_concat' pieces with rfl | ⟨front, last, rfl⟩
  · rw [List.foldl_nil, List.append_nil]
    exact hp
  · rw [List.foldl_concat, parts_below _ (h last (by simp)),
      named_foldl_below (fun piece hmem => h piece (List.mem_append_left _ hmem)),
      List.append_assoc]

/-! ## Paths from the root -/

/-- Whether a path starts with exactly two slashes, which its form from the root keeps. -/
def startsDoubled (path : Path) : Bool :=
  [slash, slash].isPrefixOf path.bytes && !([slash, slash, slash].isPrefixOf path.bytes)

/-- What the form of a path from the root starts with. -/
def absoluteStart (fs : FileSystem) (path : Path) : Path :=
  if !path.isAbsolute then fs.herePath
  else if startsDoubled path then ⟨[slash, slash]⟩ else ⟨[slash]⟩

/-- What of a path its form from the root keeps. -/
def absolutePieces (path : Path) : List Name :=
  (path.components.filter fun c => c != .root && c != .here).map Component.bytes

theorem absolute_eq (fs : FileSystem) (path : Path) : fs.absolute path =
    if path.bytes.getLast? == some slash then
      ((absolutePieces path).foldl Path.below (fs.absoluteStart path)).below []
    else (absolutePieces path).foldl Path.below (fs.absoluteStart path) := rfl

theorem isPiece_absolutePieces (path : Path) :
    ∀ piece ∈ absolutePieces path, Path.IsPiece piece := by
  intro piece h
  obtain ⟨c, hc, rfl⟩ := List.mem_map.mp h
  obtain ⟨hmem, hother⟩ := List.mem_filter.mp hc
  simp only [Bool.and_eq_true, bne_iff_ne] at hother
  exact Path.isPiece_of_mem_components hmem hother.1 hother.2

theorem absoluteStart_isAbsolute (fs : FileSystem) (path : Path) :
    (fs.absoluteStart path).isAbsolute = true := by
  rw [absoluteStart]
  split
  · rfl
  · split <;> rfl

theorem absolute_isAbsolute (fs : FileSystem) (path : Path) :
    (fs.absolute path).isAbsolute = true := by
  have hbody := Path.isAbsolute_foldl_below (fs.absoluteStart_isAbsolute path) (absolutePieces path)
  rw [absolute_eq]
  split
  · exact Path.isAbsolute_below hbody []
  · exact hbody

/-- A path from the root is plain, but for two slashes at its start and one at its end. -/
theorem exists_plain_absolute {fs : FileSystem} (hhere : ∀ name ∈ fs.here, Path.IsPiece name)
    {path : Path} (h : startsDoubled path = false) : ∃ body : Path, body.IsPlain ∧
      (fs.absolute path = body ∨ fs.absolute path = body.below []) := by
  have hstart : (fs.absoluteStart path).IsPlain := by
    rw [absoluteStart, h]
    split
    · exact ⟨fs.here, hhere, Path.intercalate_eq_foldl_below hhere⟩
    · exact ⟨[], List.forall_mem_nil _, rfl⟩
  refine ⟨_, hstart.foldl_below (isPiece_absolutePieces path), ?_⟩
  rw [absolute_eq]
  split
  · exact .inr rfl
  · exact .inl rfl

end FileSystem

end HeaderIndex
