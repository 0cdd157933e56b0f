import HeaderIndex.Listing
import HeaderIndex.Proofs.Catalogue.Views
import HeaderIndex.Proofs.Codec.Fields
import HeaderIndex.Proofs.Json.Layout

/-! Listings of a catalogue. The indented and the compact listing spell one value, an object whose
keys are the paths in order, and there is neither where a path spells no text
(`json_and_raw_spell_views`). The views behind it account for every symbol, and where
symbols come from headers the plain view and the one by kind say the same names in the
same order, in tables too (`views_agree`). -/

namespace HeaderIndex.Listing

open HeaderIndex.Catalogue

/-! ## Values -/

/-- What a listing says about each path. -/
def values (c : Catalogue) (byKind : Bool) : List (Path × Json) :=
  if byKind then c.byKind.map fun entry =>
    (entry.1, .object (entry.2.map fun g => (g.1.text, .array (g.2.map .string))))
  else c.names.map fun entry => (entry.1, .array (entry.2.map .string))

section Values

variable (c : Catalogue) (byKind : Bool)

theorem toJson_eq_byPath : toJson c byKind = Json.byPath (values c byKind) := by
  cases byKind with
  | false => rfl
  | true => rfl

theorem paths_values : (values c byKind).map Prod.fst = c.paths := by
  cases byKind with
  | false => simp [values, names, paths, Function.comp_def]
  | true => simp [values, Catalogue.byKind, paths, Function.comp_def]

theorem values_isNatural : Json.areNatural ((values c byKind).map Prod.snd) = true := by
  cases byKind with
  | false =>
    rw [values, if_neg Bool.false_ne_true, List.map_map]
    exact Json.areNatural_map (fun entry => Json.isNatural_ofStrings entry.2) c.names
  | true =>
    rw [values, if_pos rfl, List.map_map]
    refine Json.areNatural_map (fun entry => ?_) c.byKind
    show Json.haveNatural _ = true
    rw [Json.haveNatural_eq, List.map_map]
    exact Json.areNatural_map (fun g => Json.isNatural_ofStrings g.2) entry.2

end Values

/-- There is no value of a listing just if one of the paths spells no text. -/
theorem toJson_eq_error_iff {c : Catalogue} {byKind : Bool} {e : Json.Error} :
    toJson c byKind = .error e ↔ e = .pathNotText ∧ ∃ path ∈ c.paths,
      ¬ path.IsUnicode := by
  rw [toJson_eq_byPath, Json.byPath_eq_error_iff, ← paths_values c byKind]
  simp only [List.mem_map, exists_exists_and_eq_and]

theorem render_eq_error_iff {c : Catalogue} {format : Format} {byKind : Bool} {limit : Option Nat}
    {e : Json.Error} : render c format byKind limit = .error e ↔
      format ≠ .table ∧ e = .pathNotText ∧ ∃ path ∈ c.paths, ¬ path.IsUnicode := by
  cases format with
  | json => simp [render, map_eq_error, toJson_eq_error_iff]
  | raw => simp [render, map_eq_error, toJson_eq_error_iff]
  | table => simp [render]

/-- Where all of them do, it is an object with an entry for each path. -/
theorem exists_members {c : Catalogue} (h : ∀ path ∈ c.paths, path.IsUnicode) (byKind : Bool) :
    ∃ members, toJson c byKind = .ok (.object members) ∧
      (members.map fun m => (.ofText m.1, m.2)) = values c byKind := by
  match hj : toJson c byKind with
  | .ok j =>
    rw [toJson_eq_byPath] at hj
    obtain ⟨members, rfl, hmembers⟩ := Json.byPath_eq_ok_iff.mp hj
    exact ⟨members, rfl, hmembers.symm⟩
  | .error e =>
    obtain ⟨_, path, hpath, hnot⟩ := toJson_eq_error_iff.mp hj
    exact absurd (h path hpath) hnot

/-- Paths in order are different. -/
theorem paths_nodup {c : Catalogue} (h : Sorted c.records) : c.paths.Nodup := by
  refine List.pairwise_map.mpr (h.imp fun {a b} hlt hpath => ?_)
  have hne := Path.lt_irrefl hlt
  rw [hpath, Path.same_self] at hne
  cases hne

theorem groups_of_mem_byKind {c : Catalogue} {entry : Path × List (Kind × List String)}
    (h : entry ∈ c.byKind) :
    (entry.2.map Prod.fst).Sublist Kind.all ∧ ∀ g ∈ entry.2, g.2 ≠ [] := by
  obtain ⟨r, _, rfl⟩ := List.mem_map.mp h
  refine ⟨kinds_groups_sublist r.symbols, fun g hg => ?_⟩
  simpa using (List.mem_filter.mp hg).2

/-- **The JSON and the raw listing spell one value.** It is an object that has the paths as keys,
different ones and in path order, and as values the names of each path or the groups of
its names, which are not empty and in the order of the kinds. The raw listing has no
control character. All this is where the paths spell texts; if one of them does not, both
listings fail for that reason. -/
theorem json_and_raw_spell_views (history : List Change) (byKind : Bool) (limit : Option Nat) :
    ((∀ path ∈ (after history).paths, path.IsUnicode) →
      ∃ (indented compact : String) (members : List (String × Json)),
        render (after history) .json byKind limit = .ok indented ∧
        render (after history) .raw byKind limit = .ok compact ∧
        Json.parse? indented = some (.object members) ∧
        Json.parse? compact = some (.object members) ∧
        (members.map fun m => .ofText m.1) = (after history).paths ∧
        (members.map Prod.fst).Nodup ∧
        (byKind = false → (members.map fun m => (.ofText m.1, m.2)) =
          (after history).names.map fun entry => (entry.1, .array (entry.2.map .string))) ∧
        (byKind = true → (members.map fun m => (.ofText m.1, m.2)) =
          (after history).byKind.map fun entry =>
            (entry.1, .object (entry.2.map fun g => (g.1.text, .array (g.2.map .string))))) ∧
        ∀ char ∈ compact.toList, 0x20 ≤ char.toNat) ∧
    (after history).paths.Pairwise (fun p q => p.order q = .lt) ∧
    (∀ entry ∈ (after history).byKind,
      (entry.2.map Prod.fst).Sublist Kind.all ∧ ∀ g ∈ entry.2, g.2 ≠ []) ∧
    ∀ format e, render (after history) format byKind limit = .error e ↔
      format ≠ .table ∧ e = .pathNotText ∧
        ∃ path ∈ (after history).paths, ¬ path.IsUnicode := by
  have hsorted := (after_holds history).sorted
  refine ⟨fun hunicode => ?_, List.pairwise_map.mpr hsorted, fun entry => groups_of_mem_byKind,
    fun format e => render_eq_error_iff⟩
  · obtain ⟨members, hjson, hmembers⟩ := exists_members hunicode byKind
    have hkeys : (members.map fun m => .ofText m.1) = (after history).paths := by
      rw [← paths_values (after history) byKind, ← hmembers, List.map_map]
      rfl
    have hnatural : (Json.object members).isNatural = true := by
      have hvalues := values_isNatural (after history) byKind
      rw [← hmembers, List.map_map] at hvalues
      show Json.haveNatural members = true
      rw [Json.haveNatural_eq]
      exact hvalues
    have hnodup : (members.map Prod.fst).Nodup := by
      refine List.Nodup.of_map Path.ofText ?_
      rw [List.map_map]
      exact hkeys ▸ paths_nodup hsorted
    refine ⟨_, _, members, ?_, ?_, Json.parse?_renderIndented hnatural,
      Json.parse?_render hnatural, hkeys, hnodup, ?_, ?_, ?_⟩
    · rw [render, hjson]
      rfl
    · rw [render, hjson]
      rfl
    · rintro rfl
      exact hmembers
    · rintro rfl
      exact hmembers
    · rw [Json.render, String.toList_ofList]
      exact Json.compact_controlFree _ hnatural

/-- A path with a line feed in it and a name with a quote and a letter that is not ASCII. -/
theorem json_and_raw_spell_views_escaped :
    ∃ (history : List Change) (indented compact : String),
      (after history).byKind = [(.ofText "a\n.h", [(.enum, ["é\""])])] ∧
      render (after history) .json true none = .ok indented ∧
      render (after history) .raw true none = .ok compact ∧
      Json.parse? indented =
        some (.object [("a\n.h", .object [("enum", .array [.string "é\""])])]) ∧
      Json.parse? compact =
        some (.object [("a\n.h", .object [("enum", .array [.string "é\""])])]) ∧
      '\n' ∉ compact.toList := by
  let history : List Change := [.insert ⟨.ofText "a\n.h", [⟨"é\"", .enum⟩]⟩]
  have hunicode : ∀ path ∈ (after history).paths, path.IsUnicode := by
    intro path hpath
    exact ⟨"a\n.h", List.mem_singleton.mp hpath⟩
  obtain ⟨indented, compact, members, hjson, hraw, hindented, hcompact, _, _, _,
      hgroups, hline⟩ :=
    (json_and_raw_spell_views history true none).1 hunicode
  have hmembers : members = [("a\n.h", .object [("enum", .array [.string "é\""])])] := by
    obtain ⟨⟨text, value⟩, rfl, hmember⟩ := List.map_eq_singleton_iff.mp (hgroups rfl)
    have htext : text = "a\n.h" := Path.ofText_injective (Prod.mk.inj hmember).1
    have hvalue : value = .object [("enum", .array [.string "é\""])] := (Prod.mk.inj hmember).2
    rw [htext, hvalue]
  rw [hmembers] at hindented hcompact
  exact ⟨history, indented, compact, rfl, hjson, hraw, hindented, hcompact,
    fun hmem => absurd (hline _ hmem) (by decide)⟩

/-! ## Rows -/

/-- Without the column behind the path, the rows of a file are those of its shorter entries. -/
theorem eraseIdx_fileRows (path : Path) (width : Nat) (entries : List (List String)) :
    (fileRows path (width + 1) entries).map (·.eraseIdx 1) =
      fileRows path width (entries.map List.tail) := by
  cases entries with
  | nil => simp [fileRows, List.replicate_succ]
  | cons entry rest => simp [fileRows, Function.comp_def]

theorem kindRows_of_inKindOrder {c : Catalogue} (h : ∀ r ∈ c.records, InKindOrder r.symbols) :
    (kindRows c).map (·.eraseIdx 1) = nameRows c := by
  have hrows : ∀ r ∈ c.records,
    ((groups r.symbols).flatMap fun g => g.2.map fun n => [g.1.text, n]).map List.tail =
      (r.symbols.map (·.name)).map fun n => [n] := by
    intro r hr
    rw [← groups_of_inKindOrder (h r hr), List.map_flatMap, List.map_flatMap]
    simp only [List.map_map]
    rfl
  rw [kindRows, nameRows, Catalogue.byKind, names, List.map_flatMap,
    List.flatMap_map, List.flatMap_map]
  refine List.flatMap_congr fun r hr => ?_
  rw [eraseIdx_fileRows]
  exact congrArg (fileRows r.path 1) (hrows r hr)

/-- **The views lose nothing and agree.** About every path of a catalogue the view by kind has the
kinds that occur among its symbols, in order, and for each the names of that kind as the
symbols have them; so its groups count all symbols. Where the last record of a path has
the symbols of a header, the groups put together are the names of that path, which are all
names that the header declares; and where all records have, the table by kind has the
rows of the plain table with one column more, whatever width it is made for. -/
theorem views_agree (history : List Change) :
    (∀ path symbols, (after history).get? path = some symbols →
      ∃ groups, valueAt? (after history).byKind path = some groups ∧
        valueAt? (after history).names path = some (symbols.map (·.name)) ∧
        (groups.map Prod.fst).Sublist Kind.all ∧
        (∀ kind, kind ∈ groups.map Prod.fst ↔ ∃ s ∈ symbols, s.kind = kind) ∧
        ∀ kind names, (kind, names) ∈ groups →
          names = (symbols.filter (·.kind == kind)).map (·.name)) ∧
    (∀ path, (after history).get? path = none →
      valueAt? (after history).byKind path = none ∧
        valueAt? (after history).names path = none) ∧
    ((after history).byKind.map fun entry => (entry.2.map fun g => g.2.length).sum).sum =
      (after history).symbolCount ∧
    (∀ path record text,
      ((live history).filter fun r => r.path.same path).getLast? = some record →
      record.symbols = Header.symbols text →
      ∃ groups, valueAt? (after history).byKind path = some groups ∧
        groups.flatMap Prod.snd = Header.extractAll text ∧
        valueAt? (after history).names path = some (Header.extractAll text)) ∧
    ((∀ record ∈ live history, ∃ text, record.symbols = Header.symbols text) →
      (kindRows (after history)).map (·.eraseIdx 1) = nameRows (after history) ∧
      ∀ limit, (after history).isEmpty = false →
        render (after history) .table true limit =
          .ok (Table.render ["file", "kind", "symbol"] (kindRows (after history)) limit) ∧
        render (after history) .table false limit =
          .ok (Table.render ["file", "symbol"]
            ((kindRows (after history)).map (·.eraseIdx 1)) limit)) ∧
    ∀ byKind limit, (after history).isEmpty = true →
      render (after history) .table byKind limit = .ok "(no files)" := by
  refine ⟨?_, ?_, sum_byKind _, ?_, ?_, ?_⟩
  · intro path symbols hget
    refine ⟨groups symbols, ?_, ?_, kinds_groups_sublist symbols, fun kind =>
      mem_kinds_groups, ?_⟩
    · rw [valueAt?_byKind, hget, Option.map_some]
    · rw [valueAt?_names, hget, Option.map_some]
    · exact fun kind names hmem => (mem_groups.mp hmem).2
  · intro path hget
    rw [valueAt?_byKind, valueAt?_names, hget]
    exact ⟨rfl, rfl⟩
  · intro path record text hlast hsymbols
    have hget : (after history).get? path = some (Header.symbols text) := by
      rw [(after_holds history).get?_eq, hlast, Option.map_some, hsymbols]
    refine ⟨groups (Header.symbols text), ?_, ?_, ?_⟩
    · rw [valueAt?_byKind, hget, Option.map_some]
    · rw [groups_of_inKindOrder (inKindOrder_symbols text), names_symbols]
    · rw [valueAt?_names, hget, Option.map_some, names_symbols]
  · intro hlive
    have hrows : (kindRows (after history)).map (·.eraseIdx 1) = nameRows (after history) := by
      refine kindRows_of_inKindOrder fun r hr => ?_
      obtain ⟨record, hrecord, hsymbols⟩ := exists_live hr
      obtain ⟨text, htext⟩ := hlive record hrecord
      rw [← hsymbols, htext]
      exact inKindOrder_symbols text
    refine ⟨hrows, fun limit hsome => ?_⟩
    simp [render, table, hsome, hrows]
  · intro byKind limit hnone
    simp [render, table, hnone]

/-- A header that declares names of two kinds, not in their order, after an empty record of its
path; and a file without symbols. -/
theorem views_agree_twoKinds :
    ∃ (history : List Change) (text : String),
      Header.symbols text = [⟨"B", .define⟩, ⟨"T", .typedef⟩] ∧
      live history = [⟨.ofText "d/a.h", []⟩, ⟨.ofText "b.h", []⟩,
        ⟨.ofText "d//a.h", Header.symbols text⟩] ∧
      (∃ groups, valueAt? (after history).byKind (.ofText "d/a.h") = some groups ∧
        groups.flatMap Prod.snd = Header.extractAll text) ∧
      kindRows (after history) =
        [["b.h", "-", "-"], ["d/a.h", "define", "B"], ["", "typedef", "T"]] ∧
      (kindRows (after history)).map (·.eraseIdx 1) = nameRows (after history) ∧
      render (after history) .table false none =
        .ok (Table.render ["file", "symbol"] [["b.h", "-"], ["d/a.h", "B"], ["", "T"]] none) := by
  let text := "typedef int T;\n#define B 1\n"
  let history : List Change :=
    [.collect [⟨.ofText "d/a.h", []⟩, ⟨.ofText "b.h", []⟩], .insert ⟨.ofText "d//a.h",
      Header.symbols text⟩]
  have hsymbols : Header.symbols text = [⟨"B", .define⟩, ⟨"T", .typedef⟩] := by
    decide +kernel
  have hnone : [] = Header.symbols "" := by decide +kernel
  obtain ⟨_, _, _, hheaders, htables, _⟩ := views_agree history
  have hlast : ((live history).filter fun r => r.path.same (.ofText "d/a.h")).getLast? =
      some ⟨.ofText "d//a.h", Header.symbols text⟩ := by decide +kernel
  obtain ⟨groups, hgroups, htogether, _⟩ := hheaders _ _ text hlast rfl
  have hkinds : kindRows (after history) =
      [["b.h", "-", "-"], ["d/a.h", "define", "B"], ["", "typedef", "T"]] := by decide +kernel
  obtain ⟨hrows, htable⟩ := htables fun record hrecord => by
    rcases List.mem_cons.mp hrecord with rfl | hrecord
    · exact ⟨"", hnone⟩
    rcases List.mem_cons.mp hrecord with rfl | hrecord
    · exact ⟨"", hnone⟩
    · rw [List.mem_singleton.mp hrecord]
      exact ⟨text, rfl⟩
  have hplain := (htable none rfl).2
  rw [hkinds] at hplain
  exact ⟨history, text, hsymbols, rfl, ⟨groups, hgroups, htogether⟩, hkinds, hrows, hplain⟩

end HeaderIndex.Listing
