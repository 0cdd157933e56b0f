import HeaderIndex.Proofs.Catalogue.History
import HeaderIndex.Proofs.Codec.Fields

/-! Values and their JSON text. Each type has a writer and a reader (`Codec`). What is written is
read back, and whatever is read is a value that would be read back (`Codec.Lawful`); so
reading and writing again changes a text once at most (`Codec.Lawful.roundTrips`). The one
reader that does more than look at its fields is that of catalogues: it takes the paths in
the order of their characters, and puts them back into path order. -/

namespace HeaderIndex

open HeaderIndex.Text
open Json (required)

/-- How values of a type are written and read, and which of them a run can come upon. -/
structure Codec (α : Type) where
  toJson : α → Except Json.Error Json
  ofJson? : Json → Option α
  Valid : α → Prop

namespace Codec

variable {α : Type} {c : Codec α}

def text (c : Codec α) (value : α) : Except Json.Error String := (c.toJson value).map Json.render

def ofText? (c : Codec α) (text : String) : Option α := (Json.parse? text).bind c.ofJson?

/-- The text of the value that is read from JSON. -/
def rewrite? (c : Codec α) (j : Json) : Option String :=
  (c.ofJson? j).bind fun value => (c.text value).toOption

/-- Every value has a text and is read back from it. Whatever can be read can be rewritten,
and what has been rewritten once stays as it is. -/
def RoundTrips (c : Codec α) : Prop :=
  (∀ value, c.Valid value → ∃ text, c.text value = .ok text ∧
    c.ofText? text = some value) ∧
  ∀ j value, c.ofJson? j = some value →
    ∃ text, c.rewrite? j = some text ∧ (Json.parse? text).bind c.rewrite? = some text

/-- JSON that is written for a value, and from which the value is read. -/
structure Spells (c : Codec α) (j : Json) (value : α) : Prop where
  written : c.toJson value = .ok j
  natural : j.isNatural = true
  read : c.ofJson? j = some value

structure Lawful (c : Codec α) : Prop where
  spelled : ∀ value, c.Valid value → ∃ j, c.Spells j value
  valid : ∀ j value, c.ofJson? j = some value → c.Valid value

theorem Spells.text_eq {j : Json} {value : α} (h : c.Spells j value) :
    c.text value = .ok j.render := by
  rw [text, h.written]
  rfl

theorem Spells.parse? {j : Json} {value : α} (h : c.Spells j value) :
    Json.parse? j.render = some j := Json.parse?_render h.natural

theorem Spells.rewrite? {j own : Json} {value : α} (h : c.Spells j value)
    (hown : c.ofJson? own = some value) : c.rewrite? own = some j.render := by
  rw [Codec.rewrite?, hown, Option.bind_some, h.text_eq]
  rfl

theorem Lawful.roundTrips (h : c.Lawful) : c.RoundTrips := by
  constructor
  · intro value hvalue
    obtain ⟨j, hj⟩ := h.spelled value hvalue
    refine ⟨j.render, hj.text_eq, ?_⟩
    rw [ofText?, hj.parse?]
    exact hj.read
  · intro own value hown
    obtain ⟨j, hj⟩ := h.spelled value (h.valid own value hown)
    refine ⟨j.render, hj.rewrite? hown, ?_⟩
    rw [hj.parse?]
    exact hj.rewrite? hj.read

/-- Values whose writer has no reason to fail. -/
def plain (toJson : α → Json) (ofJson? : Json → Option α) (Valid : α → Prop) : Codec α :=
  ⟨fun value => .ok (toJson value), ofJson?, Valid⟩

theorem plain_lawful {toJson : α → Json} {ofJson? : Json → Option α} {Valid : α → Prop}
    (hnatural : ∀ value, (toJson value).isNatural = true)
    (hreads : ∀ value, Valid value → ofJson? (toJson value) = some value)
    (hvalid : ∀ j value, ofJson? j = some value → Valid value) :
    (plain toJson ofJson? Valid).Lawful where
  spelled value hvalue := ⟨toJson value, rfl, hnatural value, hreads value hvalue⟩
  valid := hvalid

/-- Where every item is spelled, so is the list of them. -/
theorem Lawful.spelled_list (h : c.Lawful) {items : List α} (hitems : ∀ a ∈ items, c.Valid a) :
    ∃ js, items.mapM c.toJson = .ok js ∧ (Json.array js).isNatural = true ∧
      (Json.array js).list? c.ofJson? = some items := by
  induction items with
  | nil => exact ⟨[], rfl, rfl, rfl⟩
  | cons a items ih =>
    obtain ⟨ha, hitems⟩ := List.forall_mem_cons.mp hitems
    obtain ⟨j, hj⟩ := h.spelled a ha
    obtain ⟨js, hwritten, hnatural, hread⟩ := ih hitems
    refine ⟨j :: js, ?_, ?_, ?_⟩
    · rw [List.mapM_cons, hj.written, hwritten]
      rfl
    · show (j.isNatural && (Json.array js).isNatural) = true
      rw [hj.natural, hnatural, Bool.and_self]
    · show (j :: js).mapM c.ofJson? = some (a :: items)
      rw [List.mapM_cons, hj.read, show js.mapM c.ofJson? = some items from hread]
      rfl

end Codec

/-! ## Kinds, symbols and records -/

theorem Kind.ofJson?_toJson (k : Kind) : Kind.ofJson? k.toJson = some k := ofText?_text k

theorem Symbol.ofJson?_toJson (s : Symbol) : Symbol.ofJson? s.toJson = some s := by
  have hfields : s.toJson.fields? ["name", "kind"] =
      some [some (.string s.name), some s.kind.toJson] :=
    Json.fields?_object ["name", "kind"] (by decide) [.string s.name, s.kind.toJson] rfl
  simp [ofJson?, hfields, required, Json.string?, Kind.ofJson?_toJson]

theorem symbolsOfJson?_symbolsToJson (symbols : List Symbol) :
    symbolsOfJson? (symbolsToJson symbols) = some symbols :=
  Json.list?_array Symbol.toJson Symbol.ofJson?_toJson symbols

theorem symbolsToJson_isNatural (symbols : List Symbol) :
    (symbolsToJson symbols).isNatural = true :=
  Json.areNatural_map (fun _ => rfl) symbols

namespace Path

theorem toJson_ofText (text : String) : (ofText text).toJson = .ok (.string text) := by
  rw [toJson, jsonText_ofText]
  rfl

theorem ofJson?_string (text : String) : ofJson? (.string text) = some (ofText text) := rfl

theorem isUnicode_of_ofJson? {j : Json} {p : Path} (h : ofJson? j = some p) : p.IsUnicode := by
  obtain ⟨text, _, rfl⟩ := Option.map_eq_some_iff.mp h
  exact ⟨text, rfl⟩

theorem isUnicode_of_required {field : Option Json} {p : Path}
    (h : required ofJson? field = some p) : p.IsUnicode := by
  obtain ⟨j, -, hj⟩ := Json.required_eq_some_iff.mp h
  exact isUnicode_of_ofJson? hj

end Path

theorem Record.toJson_ofText (text : String) (symbols : List Symbol) :
    Record.toJson ⟨.ofText text, symbols⟩ =
      .ok (.object [("path", .string text), ("symbols", symbolsToJson symbols)]) := by
  rw [toJson, Path.toJson_ofText]
  rfl

theorem Record.ofJson?_object (text : String) (symbols : List Symbol) :
    Record.ofJson? (.object [("path", .string text), ("symbols", symbolsToJson symbols)]) =
      some ⟨.ofText text, symbols⟩ := by
  have hfields : (Json.object [("path", .string text), ("symbols", symbolsToJson symbols)]).fields?
      ["path", "symbols"] = some [some (.string text), some (symbolsToJson symbols)] :=
    Json.fields?_object ["path", "symbols"] (by decide) [.string text, symbolsToJson symbols] rfl
  simp [ofJson?, hfields, required, Path.ofJson?_string, symbolsOfJson?_symbolsToJson]

theorem Record.isUnicode_of_ofJson? {j : Json} {r : Record} (h : Record.ofJson? j = some r) :
    r.path.IsUnicode := by
  obtain ⟨fields, _, h⟩ := Option.bind_eq_some_iff.mp h
  split at h
  · simp only [Option.bind_eq_bind, Option.bind_eq_some_iff, Option.pure_def,
      Option.some.injEq] at h
    obtain ⟨path, hpath, symbols, -, rfl⟩ := h
    exact Path.isUnicode_of_required hpath
  · cases h

/-! ## Catalogues -/

namespace Catalogue

theorem eraseDupsBy_eq_self {members : List (String × Json)}
    (h : members.Pairwise fun a b => a.1 ≠ b.1) :
    members.eraseDupsBy (fun a b => a.1 == b.1) = members := by
  induction members with
  | nil => rfl
  | cons member members ih =>
    obtain ⟨hmember, hmembers⟩ := List.pairwise_cons.mp h
    have hkept : (members.filter fun other => (other.1 == member.1) = false) = members := by
      refine List.filter_eq_self.mpr fun other hother => ?_
      simpa using Ne.symm (hmember other hother)
    rw [List.eraseDupsBy_cons, hkept, ih hmembers]

theorem sortMembers_perm {members : List (String × Json)}
    (h : members.Pairwise fun a b => a.1 ≠ b.1) : (sortMembers members).Perm members := by
  have hreverse : members.reverse.Pairwise fun a b => a.1 ≠ b.1 :=
    List.pairwise_reverse.mpr (h.imp Ne.symm)
  rw [sortMembers, eraseDupsBy_eq_self hreverse]
  exact (List.mergeSort_perm _ _).trans (List.reverse_perm members)

theorem toJson_eq_ok_iff {c : Catalogue} {j : Json} :
    c.toJson = .ok j ↔ ∃ members, j = .object members ∧
      (c.records.map fun r => (r.path, symbolsToJson r.symbols)) = members.map fun m =>
      (.ofText m.1, m.2) :=
  Json.byPath_eq_ok_iff

section Members

variable {c : Catalogue} {members : List (String × Json)}
  (hmembers : (c.records.map fun r => (r.path, symbolsToJson r.symbols)) =
    members.map fun m => (.ofText m.1, m.2))

include hmembers

theorem members_isNatural : (Json.object members).isNatural = true := by
  have hvalues : members.map Prod.snd = c.records.map fun r => symbolsToJson r.symbols := by
    have hsnd := congrArg (List.map Prod.snd) hmembers
    rw [List.map_map, List.map_map] at hsnd
    exact hsnd.symm
  show Json.haveNatural members = true
  rw [Json.haveNatural_eq, hvalues]
  exact Json.areNatural_map (fun r => symbolsToJson_isNatural r.symbols) c.records

/-- The paths of a catalogue come back in another order, which makes no difference. -/
theorem ofJson?_members (h : Sorted c.records) : ofJson? (.object members) = some c := by
  let read (member : String × Json) : Option Record :=
    (symbolsOfJson? member.2).bind fun symbols => some ⟨.ofText member.1, symbols⟩
  have hread : members.map read = c.records.map some := by
    have hboth := congrArg (List.map fun value : Path × Json =>
      (symbolsOfJson? value.2).bind fun symbols => some (⟨value.1, symbols⟩ : Record)) hmembers
    simp only [List.map_map] at hboth
    refine hboth.symm.trans (List.map_congr_left fun r _ => ?_)
    show (symbolsOfJson? (symbolsToJson r.symbols)).bind _ = _
    rw [symbolsOfJson?_symbolsToJson]
    rfl
  have hkeys : members.Pairwise fun a b => a.1 ≠ b.1 := by
    have hpaths : (members.map fun m => Path.ofText m.1) = c.records.map (·.path) := by
      have hfst := congrArg (List.map Prod.fst) hmembers
      rw [List.map_map, List.map_map] at hfst
      exact hfst.symm
    have hsorted : (c.records.map (·.path)).Pairwise fun p q => p.order q = .lt :=
      List.pairwise_map.mpr h
    rw [← hpaths, List.pairwise_map] at hsorted
    refine hsorted.imp fun {a b} hlt htext => ?_
    have hne := Path.lt_irrefl hlt
    rw [htext, Path.same_self] at hne
    cases hne
  have hperm := sortMembers_perm hkeys
  have hsome : (sortMembers members).mapM read = some ((sortMembers members).filterMap read) := by
    refine Json.mapM_eq_filterMap fun member hmember => ?_
    have hmem := List.mem_map_of_mem (f := read) (hperm.subset hmember)
    rw [hread] at hmem
    obtain ⟨r, _, hr⟩ := List.mem_map.mp hmem
    rw [← hr]
    rfl
  have hrecords : ((sortMembers members).filterMap read).Perm c.records := by
    refine (hperm.filterMap read).trans (.of_eq ?_)
    calc members.filterMap read
      _ = (members.map read).filterMap id := by rw [List.filterMap_map, Function.id_comp]
      _ = c.records.filterMap some := by rw [hread, List.filterMap_map]; rfl
      _ = c.records := List.filterMap_some
  show ((sortMembers members).mapM read).bind (fun records => some (ofRecords records)) = some c
  rw [hsome, Option.bind_some, ← ofRecords_congr (h.imp Path.lt_irrefl) hrecords.symm,
    ofRecords_records h]

end Members

theorem valid_of_ofJson? {j : Json} {c : Catalogue} (h : ofJson? j = some c) :
    Reachable c ∧ ∀ path ∈ c.paths, path.IsUnicode := by
  cases j with
  | object members =>
    obtain ⟨records, hrecords, h⟩ := Option.bind_eq_some_iff.mp h
    cases h
    refine ⟨ofRecords_reachable records, fun path hpath => ?_⟩
    obtain ⟨stored, hstored, rfl⟩ := List.mem_map.mp hpath
    obtain ⟨record, hrecord, hsame⟩ := (Holds.ofRecords records).exists_path hstored
    obtain ⟨⟨key, value⟩, _, hread⟩ := Json.exists_of_mapM_eq_some hrecords hrecord
    obtain ⟨symbols, _, hread⟩ := Option.bind_eq_some_iff.mp hread
    cases hread
    exact ⟨key, hsame.symm⟩
  | _ => cases h

end Catalogue

/-! ## Reports -/

theorem Failure.toJson_ofText (text error : String) : Failure.toJson ⟨.ofText text, error⟩ =
    .ok (.object [("path", .string text), ("error", .string error)]) := by
  rw [toJson, Path.toJson_ofText]
  rfl

theorem Failure.ofJson?_object (text error : String) :
    Failure.ofJson? (.object [("path", .string text), ("error", .string error)]) =
      some ⟨.ofText text, error⟩ := by
  have hfields : (Json.object [("path", .string text), ("error", .string error)]).fields?
      ["path", "error"] = some [some (.string text), some (.string error)] :=
    Json.fields?_object ["path", "error"] (by decide) [.string text, .string error] rfl
  simp [ofJson?, hfields, required, Json.string?, Path.ofJson?_string]

theorem Failure.isUnicode_of_ofJson? {j : Json} {f : Failure} (h : Failure.ofJson? j = some f) :
    f.path.IsUnicode := by
  obtain ⟨fields, _, h⟩ := Option.bind_eq_some_iff.mp h
  split at h
  · simp only [Option.bind_eq_bind, Option.bind_eq_some_iff, Option.pure_def,
      Option.some.injEq] at h
    obtain ⟨path, hpath, error, -, rfl⟩ := h
    exact Path.isUnicode_of_required hpath
  · cases h

/-- Counts that a machine word holds. -/
def Stats.Fits (s : Stats) : Prop :=
  s.filesScanned < wordLimit ∧ s.filesFailed < wordLimit ∧ s.symbols < wordLimit ∧
    s.elapsedMs < wordLimit

theorem Stats.ofJson?_toJson {s : Stats} (h : s.Fits) : Stats.ofJson? s.toJson = some s := by
  have hfields : s.toJson.fields? ["files_scanned", "files_failed", "symbols", "elapsed_ms"] =
      some [some (.nat s.filesScanned), some (.nat s.filesFailed), some (.nat s.symbols),
        some (.nat s.elapsedMs)] :=
    Json.fields?_object ["files_scanned", "files_failed", "symbols", "elapsed_ms"] (by decide)
      [.nat s.filesScanned, .nat s.filesFailed, .nat s.symbols, .nat s.elapsedMs] rfl
  obtain ⟨hscanned, hfailed, hsymbols, helapsed⟩ := h
  simp [ofJson?, required, Json.word?_nat, *]

theorem Stats.fits_of_ofJson? {j : Json} {s : Stats} (h : Stats.ofJson? j = some s) : s.Fits := by
  obtain ⟨fields, _, h⟩ := Option.bind_eq_some_iff.mp h
  split at h
  · simp only [Option.bind_eq_bind, Option.bind_eq_some_iff, Option.pure_def,
      Option.some.injEq] at h
    obtain ⟨scanned, hscanned, failed, hfailed, symbols, hsymbols, elapsed, helapsed, rfl⟩ := h
    exact ⟨Json.required_word?_lt hscanned, Json.required_word?_lt hfailed,
      Json.required_word?_lt hsymbols, Json.required_word?_lt helapsed⟩
  · cases h

/-! ## Rules and problems -/

theorem CheckRules.fields?_toJson (r : CheckRules) : r.toJson.fields? ["min_length", "suspicious"] =
    some [some (.nat r.minLength), some (.ofStrings r.suspicious)] :=
  Json.fields?_object ["min_length", "suspicious"]
    (by decide) [.nat r.minLength, .ofStrings r.suspicious] rfl

theorem CheckRules.ofJson?_toJson {r : CheckRules} (h : r.minLength < wordLimit) :
    CheckRules.ofJson? r.toJson = some r := by
  simp [ofJson?, r.fields?_toJson, required, Json.word?_nat h, Json.strings?_ofStrings]

theorem CheckRules.toJson_isNatural (r : CheckRules) : r.toJson.isNatural = true := by
  show ((Json.ofStrings r.suspicious).isNatural && true) = true
  rw [Json.isNatural_ofStrings]
  rfl

theorem CheckRules.minLength_lt_of_ofJson? {j : Json} {r : CheckRules}
    (h : CheckRules.ofJson? j = some r) : r.minLength < wordLimit := by
  obtain ⟨fields, _, h⟩ := Option.bind_eq_some_iff.mp h
  split at h
  · simp only [Option.bind_eq_bind, Option.bind_eq_some_iff, Option.pure_def,
      Option.some.injEq] at h
    obtain ⟨minLength, hminLength, suspicious, -, rfl⟩ := h
    exact Json.required_word?_lt hminLength
  · cases h

theorem Reason.ofJson?_toJson (r : Reason) : Reason.ofJson? r.toJson = some r := by
  cases r with
  | tooShort => rfl
  | suspicious token => rfl

theorem Reason.toJson_isNatural (r : Reason) : r.toJson.isNatural = true := by
  cases r with
  | tooShort => rfl
  | suspicious token => rfl

theorem Problem.toJson_ofText (text symbol : String) (reason : Reason) :
    Problem.toJson ⟨.ofText text, symbol, reason⟩ =
      .ok (.object [("path", .string text), ("symbol", .string symbol),
        ("reason", reason.toJson)]) := by
  rw [toJson, Path.toJson_ofText]
  rfl

theorem Problem.ofJson?_object (text symbol : String) (reason : Reason) :
    Problem.ofJson? (.object [("path", .string text), ("symbol", .string symbol),
      ("reason", reason.toJson)]) = some ⟨.ofText text, symbol, reason⟩ := by
  have hfields : (Json.object [("path", .string text), ("symbol", .string symbol),
      ("reason", reason.toJson)]).fields? ["path", "symbol", "reason"] =
        some [some (.string text), some (.string symbol), some reason.toJson] :=
    Json.fields?_object ["path", "symbol", "reason"] (by decide)
      [.string text, .string symbol, reason.toJson] rfl
  simp [ofJson?, hfields, required, Json.string?, Path.ofJson?_string, Reason.ofJson?_toJson]

theorem Problem.isUnicode_of_ofJson? {j : Json} {p : Problem} (h : Problem.ofJson? j = some p) :
    p.path.IsUnicode := by
  obtain ⟨fields, _, h⟩ := Option.bind_eq_some_iff.mp h
  split at h
  · simp only [Option.bind_eq_bind, Option.bind_eq_some_iff, Option.pure_def,
      Option.some.injEq] at h
    obtain ⟨path, hpath, symbol, -, reason, -, rfl⟩ := h
    exact Path.isUnicode_of_required hpath
  · cases h

/-! ## Settings -/

/-- Settings whose numbers machine words hold. -/
def Settings.Fits (s : Settings) : Prop :=
  s.scan.workers < wordLimit ∧ s.check.minLength < wordLimit

theorem ScanSettings.ofJson?_toJson {s : ScanSettings} (h : s.workers < wordLimit) :
    ScanSettings.ofJson? s.toJson = some s := by
  have hfields : s.toJson.fields? ["extensions", "workers", "respect_ignore"] =
      some [some (.ofStrings s.extensions), some (.nat s.workers), some (.bool s.respectIgnore)] :=
    Json.fields?_object ["extensions", "workers", "respect_ignore"] (by decide)
      [.ofStrings s.extensions, .nat s.workers, .bool s.respectIgnore] rfl
  simp [ofJson?, hfields, Json.optional, Json.strings?_ofStrings, Json.word?_nat h, Json.bool?]

theorem ScanSettings.workers_lt_of_ofJson? {j : Json} {s : ScanSettings}
    (h : ScanSettings.ofJson? j = some s) : s.workers < wordLimit := by
  obtain ⟨fields, _, h⟩ := Option.bind_eq_some_iff.mp h
  split at h
  · simp only [Option.bind_eq_bind, Option.bind_eq_some_iff, Option.pure_def,
      Option.some.injEq] at h
    obtain ⟨extensions, -, workers, hworkers, respectIgnore, -, rfl⟩ := h
    exact Json.optional_word?_lt (by decide) hworkers
  · cases h

theorem CheckRules.ofPartialJson?_toJson {r : CheckRules} (h : r.minLength < wordLimit) :
    CheckRules.ofPartialJson? r.toJson = some r := by
  simp [ofPartialJson?, r.fields?_toJson, Json.optional, Json.word?_nat h, Json.strings?_ofStrings]

theorem CheckRules.minLength_lt_of_ofPartialJson? {j : Json} {r : CheckRules}
    (h : CheckRules.ofPartialJson? j = some r) : r.minLength < wordLimit := by
  obtain ⟨fields, _, h⟩ := Option.bind_eq_some_iff.mp h
  split at h
  · simp only [Option.bind_eq_bind, Option.bind_eq_some_iff, Option.pure_def,
      Option.some.injEq] at h
    obtain ⟨minLength, hminLength, suspicious, -, rfl⟩ := h
    exact Json.optional_word?_lt (by decide) hminLength
  · cases h

theorem Settings.ofJson?_toJson {s : Settings} (h : s.Fits) :
    Settings.ofJson? s.toJson = some s := by
  have hfields : s.toJson.fields? ["scan", "check"] = some [some s.scan.toJson,
      some s.check.toJson] :=
    Json.fields?_object ["scan", "check"] (by decide) [s.scan.toJson, s.check.toJson] rfl
  simp [ofJson?, hfields, Json.optional, ScanSettings.ofJson?_toJson h.1,
    CheckRules.ofPartialJson?_toJson h.2]

theorem Settings.toJson_isNatural (s : Settings) : s.toJson.isNatural = true := by
  show (((Json.ofStrings s.scan.extensions).isNatural && true) &&
    (s.check.toJson.isNatural && true)) = true
  rw [Json.isNatural_ofStrings, s.check.toJson_isNatural]
  rfl

theorem Settings.fits_of_ofJson? {j : Json} {s : Settings} (h : Settings.ofJson? j = some s) :
    s.Fits := by
  obtain ⟨fields, _, h⟩ := Option.bind_eq_some_iff.mp h
  split at h
  · simp only [Option.bind_eq_bind, Option.bind_eq_some_iff, Option.pure_def,
      Option.some.injEq] at h
    obtain ⟨scan, hscan, check, hcheck, rfl⟩ := h
    constructor
    · obtain rfl | ⟨j, -, hscan⟩ := Json.optional_eq_some hscan
      · exact (by decide : Settings.standard.scan.workers < wordLimit)
      · exact ScanSettings.workers_lt_of_ofJson? hscan
    · obtain rfl | ⟨j, -, hcheck⟩ := Json.optional_eq_some hcheck
      · exact (by decide : Settings.standard.check.minLength < wordLimit)
      · exact CheckRules.minLength_lt_of_ofPartialJson? hcheck
  · cases h

/-! ## All of them -/

namespace Codec

def kind : Codec Kind := plain Kind.toJson Kind.ofJson? fun _ => True

def symbol : Codec Symbol := plain Symbol.toJson Symbol.ofJson? fun _ => True

def record : Codec Record := ⟨Record.toJson, Record.ofJson?, fun r => r.path.IsUnicode⟩

def catalogue : Codec Catalogue :=
  ⟨Catalogue.toJson, Catalogue.ofJson?, fun c => c.Reachable ∧
    ∀ path ∈ c.paths, path.IsUnicode⟩

def failure : Codec Failure := ⟨Failure.toJson, Failure.ofJson?, fun f => f.path.IsUnicode⟩

def report : Codec Report := ⟨Report.toJson, Report.ofJson?, fun r =>
  catalogue.Valid r.catalogue ∧ (∀ f ∈ r.failures, failure.Valid f) ∧ r.stats.Fits⟩

def checkRules : Codec CheckRules :=
  plain CheckRules.toJson CheckRules.ofJson? fun r => r.minLength < wordLimit

def problem : Codec Problem := ⟨Problem.toJson, Problem.ofJson?, fun p => p.path.IsUnicode⟩

def settings : Codec Settings := plain Settings.toJson Settings.ofJson? Settings.Fits

theorem kind_lawful : kind.Lawful :=
  plain_lawful (fun _ => rfl) (fun k _ => k.ofJson?_toJson) fun _ _ _ => trivial

theorem symbol_lawful : symbol.Lawful :=
  plain_lawful (fun _ => rfl) (fun s _ => s.ofJson?_toJson) fun _ _ _ => trivial

theorem record_lawful : record.Lawful where
  spelled := by
    rintro ⟨_, symbols⟩ ⟨text, rfl⟩
    refine ⟨_, Record.toJson_ofText text symbols, ?_, Record.ofJson?_object text symbols⟩
    show (true && ((symbolsToJson symbols).isNatural && true)) = true
    rw [symbolsToJson_isNatural]
    rfl
  valid _ _ h := Record.isUnicode_of_ofJson? h

theorem catalogue_lawful : catalogue.Lawful where
  spelled := by
    rintro c ⟨hreachable, hpaths⟩
    match hj : c.toJson with
    | .ok j =>
      obtain ⟨members, rfl, hmembers⟩ := Catalogue.toJson_eq_ok_iff.mp hj
      exact ⟨_, hj, Catalogue.members_isNatural hmembers,
        Catalogue.ofJson?_members hmembers hreachable.sorted⟩
    | .error e =>
      obtain ⟨_, value, hvalue, hnot⟩ := Json.byPath_eq_error_iff.mp hj
      obtain ⟨r, hr, rfl⟩ := List.mem_map.mp hvalue
      exact absurd (hpaths r.path (List.mem_map_of_mem hr)) hnot
  valid _ _ h := Catalogue.valid_of_ofJson? h

theorem failure_lawful : failure.Lawful where
  spelled := by
    rintro ⟨_, error⟩ ⟨text, rfl⟩
    exact ⟨_, Failure.toJson_ofText text error, rfl, Failure.ofJson?_object text error⟩
  valid _ _ h := Failure.isUnicode_of_ofJson? h

theorem report_lawful : report.Lawful where
  spelled := by
    rintro r ⟨hcatalogue, hfailures, hstats⟩
    obtain ⟨j, hj⟩ := catalogue_lawful.spelled r.catalogue hcatalogue
    obtain ⟨js, hwritten, hnatural, hread⟩ := failure_lawful.spelled_list hfailures
    refine ⟨.object [("result", j), ("failures", .array js), ("stats", r.stats.toJson)],
      ?_, ?_, ?_⟩
    · show Report.toJson r = _
      rw [Report.toJson, show r.catalogue.toJson = .ok j from hj.written,
        show r.failures.mapM Failure.toJson = .ok js from hwritten]
      rfl
    · show (j.isNatural && ((Json.array js).isNatural && _)) = true
      rw [hj.natural, hnatural]
      rfl
    · have hfields : (Json.object [("result", j), ("failures", .array js),
          ("stats", r.stats.toJson)]).fields? ["result", "failures", "stats"] =
            some [some j, some (.array js), some r.stats.toJson] :=
        Json.fields?_object ["result", "failures", "stats"] (by decide)
          [j, .array js, r.stats.toJson] rfl
      have hresult : Catalogue.ofJson? j = some r.catalogue := hj.read
      have hlist : (Json.array js).list? Failure.ofJson? = some r.failures := hread
      show Report.ofJson? _ = some r
      simp [Report.ofJson?, hfields, required, hresult, hlist, Stats.ofJson?_toJson hstats]
  valid := by
    intro j r h
    obtain ⟨fields, _, h⟩ := Option.bind_eq_some_iff.mp h
    split at h
    · simp only [Option.bind_eq_bind, Option.bind_eq_some_iff, Option.pure_def,
        Option.some.injEq] at h
      obtain ⟨catalogue, hcatalogue, failures, hfailures, stats, hstats, rfl⟩ := h
      obtain ⟨_, -, hcatalogue⟩ := Json.required_eq_some_iff.mp hcatalogue
      obtain ⟨_, -, hfailures⟩ := Json.required_eq_some_iff.mp hfailures
      obtain ⟨_, -, hstats⟩ := Json.required_eq_some_iff.mp hstats
      refine ⟨Catalogue.valid_of_ofJson? hcatalogue, fun f hf => ?_,
        Stats.fits_of_ofJson? hstats⟩
      obtain ⟨_, hf⟩ := Json.exists_of_list?_eq_some hfailures hf
      exact Failure.isUnicode_of_ofJson? hf
    · cases h

theorem checkRules_lawful : checkRules.Lawful :=
  plain_lawful (fun r => r.toJson_isNatural) (fun _ h => CheckRules.ofJson?_toJson h)
    fun _ _ h => CheckRules.minLength_lt_of_ofJson? h

theorem problem_lawful : problem.Lawful where
  spelled := by
    rintro ⟨_, symbol, reason⟩ ⟨text, rfl⟩
    refine ⟨_, Problem.toJson_ofText text symbol reason, ?_,
      Problem.ofJson?_object text symbol reason⟩
    show (true && (true && (reason.toJson.isNatural && true))) = true
    rw [Reason.toJson_isNatural]
    rfl
  valid _ _ h := Problem.isUnicode_of_ofJson? h

theorem settings_lawful : settings.Lawful :=
  plain_lawful (fun s => s.toJson_isNatural) (fun _ h => Settings.ofJson?_toJson h)
    fun _ _ h => Settings.fits_of_ofJson? h

/-- Every value is what its text says: kinds and symbols whatever they hold, records, failures
and problems whose path is any text, catalogues of such paths that come of some history,
and counts that machine words hold. Whatever form a value is read from, it can be written,
and writing it and reading it again changes nothing. -/
theorem all_roundTrip :
    kind.RoundTrips ∧ symbol.RoundTrips ∧ record.RoundTrips ∧ catalogue.RoundTrips ∧
      failure.RoundTrips ∧ report.RoundTrips ∧ checkRules.RoundTrips ∧ problem.RoundTrips ∧
      settings.RoundTrips :=
  ⟨kind_lawful.roundTrips, symbol_lawful.roundTrips, record_lawful.roundTrips,
    catalogue_lawful.roundTrips, failure_lawful.roundTrips, report_lawful.roundTrips,
    checkRules_lawful.roundTrips, problem_lawful.roundTrips, settings_lawful.roundTrips⟩

/-- Paths whose order is not that of their characters, and a problem as an array whose reason has
its token first. -/
theorem all_roundTrip_reordered :
    let shelf := Catalogue.after
      [.insert ⟨.ofText "/a.b", []⟩, .insert ⟨.ofText "/a/b", [⟨"\u0001\"", .struct⟩]⟩]
    let reordered := Json.array [.string "p", .string "s",
      .object [("token", .string "t"), ("reason", .string "suspicious")]]
    let text := "\x7b\"path\":\"p\",\"symbol\":\"s\"," ++
      "\"reason\":\x7b\"reason\":\"suspicious\",\"token\":\"t\"\x7d\x7d"
    shelf.paths = [.ofText "/a/b", .ofText "/a.b"] ∧
      (∃ text, catalogue.text shelf = .ok text ∧ catalogue.ofText? text = some shelf) ∧
      problem.rewrite? reordered = some text ∧
      (Json.parse? text).bind problem.rewrite? = some text := by
  intro shelf reordered text
  have hpaths : shelf.paths = [.ofText "/a/b", .ofText "/a.b"] := by decide +kernel
  obtain ⟨-, -, -, hcatalogue, -, -, -, hproblem, -⟩ := all_roundTrip
  have hrewrite : problem.rewrite? reordered = some text := by decide +kernel
  obtain ⟨_, hsame, hstays⟩ :=
    hproblem.2 reordered ⟨.ofText "p", "s", .suspicious "t"⟩ (by decide +kernel)
  rw [hrewrite, Option.some.injEq] at hsame
  rw [← hsame] at hstays
  refine ⟨hpaths, hcatalogue.1 shelf ⟨⟨_, rfl⟩, ?_⟩, hrewrite, hstays⟩
  rw [hpaths]
  intro path hpath
  rcases List.mem_cons.mp hpath with rfl | hpath
  · exact ⟨_, rfl⟩
  · exact ⟨_, List.mem_singleton.mp hpath⟩

end Codec

end HeaderIndex
