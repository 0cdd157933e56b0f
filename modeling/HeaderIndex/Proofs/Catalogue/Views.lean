import HeaderIndex.Header.Extract
import HeaderIndex.Proofs.Catalogue.History

/-! The views of a catalogue: the names of each file, plain and by kind. A path has the groups of
its symbols (`valueAt?_byKind`), which hold every symbol in one group, the one of its kind
(`mem_groups`, `length_groups`). Symbols that come kind after kind, as those of a header do,
are found again by putting their groups together (`groups_of_inKindOrder`). -/

namespace HeaderIndex.Catalogue

/-- What a view says about a path, however it is spelled. -/
def valueAt? {α : Type} (view : List (Path × α)) (path : Path) : Option α :=
  (view.find? fun entry => entry.1.same path).map (·.2)

section

variable (c : Catalogue) (path : Path)

theorem valueAt?_records {α : Type} (f : List Symbol → α) :
    valueAt? (c.records.map fun r => (r.path, f r.symbols)) path = (c.get? path).map f := by
  rw [valueAt?, get?, List.find?_map, Option.map_map, Option.map_map]
  rfl

theorem valueAt?_names :
    valueAt? c.names path = (c.get? path).map fun symbols => symbols.map (·.name) :=
  valueAt?_records c path _

theorem valueAt?_byKind : valueAt? c.byKind path = (c.get? path).map groups :=
  valueAt?_records c path groups

end

/-! ## Groups -/

variable {symbols : List Symbol}

theorem kinds_groups_sublist (symbols : List Symbol) :
    ((groups symbols).map Prod.fst).Sublist Kind.all := by
  have hall : (Kind.all.map fun kind => (kind, namesOf kind symbols)).map Prod.fst = Kind.all := by
    rw [List.map_map]
    exact List.map_id _
  rw [groups, ← hall]
  exact List.filter_sublist.map Prod.fst

theorem namesOf_eq_nil {kind : Kind} :
    namesOf kind symbols = [] ↔ ∀ s ∈ symbols, s.kind ≠ kind := by
  simp [namesOf]

/-- A kind has a group if it occurs, and there the names of its symbols. -/
theorem mem_groups {kind : Kind} {names : List String} : (kind, names) ∈ groups symbols ↔
    (∃ s ∈ symbols, s.kind = kind) ∧ names = namesOf kind symbols := by
  have hoccurs : (∃ s ∈ symbols, s.kind = kind) ↔ namesOf kind symbols ≠ [] := by
    simp [namesOf_eq_nil]
  rw [hoccurs, groups, List.mem_filter]
  simp only [List.mem_map, Prod.mk.injEq, Bool.not_eq_true', List.isEmpty_eq_false_iff]
  constructor
  · rintro ⟨⟨_, _, rfl, rfl⟩, hne⟩
    exact ⟨hne, rfl⟩
  · rintro ⟨hne, rfl⟩
    exact ⟨⟨kind, kind.mem_all, rfl, rfl⟩, hne⟩

theorem mem_kinds_groups {kind : Kind} :
    kind ∈ (groups symbols).map Prod.fst ↔ ∃ s ∈ symbols, s.kind = kind := by
  simp [List.mem_map, mem_groups]

theorem sum_filter_kinds (symbols : List Symbol) :
    (Kind.all.map fun kind => (symbols.filter (·.kind == kind)).length).sum = symbols.length := by
  induction symbols with
  | nil => rfl
  | cons s symbols ih =>
    obtain ⟨name, kind⟩ := s
    cases kind <;> simp [Kind.all] at ih ⊢ <;> omega

theorem flatMap_groups (symbols : List Symbol) :
    (groups symbols).flatMap Prod.snd = Kind.all.flatMap fun kind => namesOf kind symbols := by
  rw [groups]
  induction Kind.all with
  | nil => rfl
  | cons kind kinds ih =>
    rw [List.map_cons, List.filter_cons, List.flatMap_cons, ← ih]
    cases hnames : namesOf kind symbols with
    | nil => rfl
    | cons name names => rfl

/-- Every symbol is in one group. -/
theorem length_groups (symbols : List Symbol) :
    ((groups symbols).map fun g => g.2.length).sum = symbols.length := by
  rw [← List.length_flatMap, flatMap_groups, List.length_flatMap, ← sum_filter_kinds]
  simp only [namesOf, List.length_map]

theorem sum_byKind (c : Catalogue) :
    (c.byKind.map fun entry => (entry.2.map fun g => g.2.length).sum).sum = c.symbolCount := by
  rw [symbolCount_eq, byKind, List.map_map]
  exact congrArg List.sum (List.map_congr_left fun r _ => length_groups r.symbols)

/-! ## Symbols in the order of their kinds -/

/-- The symbols of one kind come together, kind after kind. -/
def InKindOrder (symbols : List Symbol) : Prop :=
  (Kind.all.flatMap fun kind => symbols.filter (·.kind == kind)) = symbols

theorem groups_of_inKindOrder (h : InKindOrder symbols) :
    (groups symbols).flatMap Prod.snd = symbols.map (·.name) := by
  rw [flatMap_groups]
  calc (Kind.all.flatMap fun kind => namesOf kind symbols)
    _ = (Kind.all.flatMap fun kind => symbols.filter (·.kind == kind)).map (·.name) :=
      List.map_flatMap.symm
    _ = symbols.map (·.name) := by rw [h]

theorem inKindOrder_symbols (text : String) : InKindOrder (Header.symbols text) := by
  have hown : ∀ kind other : Kind,
    ((Header.extract other text).map fun name => (⟨name, other⟩ : Symbol)).filter
    (·.kind == kind) =
      if other = kind then (Header.extract kind text).map fun name => ⟨name, kind⟩ else [] := by
    intro kind other
    by_cases h : other = kind
    · simp [List.filter_map, Function.comp_def, h]
    · simp [List.filter_map, Function.comp_def, h]
  simp only [InKindOrder, Header.symbols, List.filter_flatMap, hown]
  simp [Kind.all]

theorem names_symbols (text : String) :
    (Header.symbols text).map (·.name) = Header.extractAll text := by
  simp [Header.symbols, Header.extractAll, List.map_flatMap, Function.comp_def]

/-- Every record that is stored has the symbols of a record that counts. -/
theorem exists_live {history : List Change} {r : Record} (h : r ∈ (after history).records) :
    ∃ record ∈ live history, record.symbols = r.symbols := by
  have hholds := after_holds history
  have hget := ((mem_records_iff hholds.sorted).mp h).2
  rw [hholds.get?_eq] at hget
  obtain ⟨record, hlast, hsymbols⟩ := Option.map_eq_some_iff.mp hget
  exact ⟨record, (List.mem_filter.mp (List.mem_of_getLast? hlast)).1, hsymbols⟩

end HeaderIndex.Catalogue
