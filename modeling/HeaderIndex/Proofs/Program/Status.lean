import HeaderIndex.Proofs.Listing
import HeaderIndex.Proofs.Scan.Accounting
import HeaderIndex.Proofs.Scan.Usable

/-! The exit status of a run and what it shows. What keeps a run from its files is found out
before any of them is read (`Collects`, `find_eq_ok_iff`); behind that the system may not
start the threads (`StartsPool`), and a listing in JSON cannot have a path that spells no
text (`Writable`). A run that gets past these has its listing. A file that cannot be read
then costs the status and a line, and nothing of the listing (`status_and_output`). -/

namespace HeaderIndex

open HeaderIndex.Config HeaderIndex.Text

/-- A file whose bytes spell a text. -/
def FileSystem.Spells (fs : FileSystem) (path : Path) (text : List Char) : Prop :=
  fs.read path = .ok (Utf8.encode text)

namespace Scan

theorem file_eq_ok_iff {fs : FileSystem} {path : Path} {record : Record} :
    file fs path = .ok record ↔ ∃ text, fs.Spells path text ∧
      record = ⟨path, Header.symbols (String.ofList text)⟩ := by
  simp only [FileSystem.Spells, file]
  cases fs.read path with
  | error cause => simp
  | ok bytes =>
    simp only [Except.ok.injEq, ← Utf8.decode_eq_ok_iff]
    cases Utf8.decode bytes with
    | error cause => simp
    | ok text => simp [eq_comm]

theorem outcome_eq_ok_iff {fs : FileSystem} {path : Path} {record : Record} :
    outcome fs path = .ok record ↔ file fs path = .ok record := by
  rw [outcome]
  cases file fs path <;> simp

theorem mem_records_iff {fs : FileSystem} {paths : List Path} {record : Record} :
    record ∈ records (paths.map (outcome fs)) ↔ record.path ∈ paths ∧ ∃ text,
      fs.Spells record.path text ∧ record.symbols = Header.symbols (String.ofList text) := by
  simp only [records, List.filterMap_map, List.mem_filterMap, Function.comp_apply,
    toOption_eq_some_iff, outcome_eq_ok_iff, file_eq_ok_iff]
  constructor
  · rintro ⟨path, hpath, text, htext, rfl⟩
    dsimp only
    exact ⟨hpath, text, htext, rfl⟩
  · rintro ⟨hpath, text, htext, hsymbols⟩
    refine ⟨record.path, hpath, text, htext, ?_⟩
    rw [← hsymbols]

section Sorted

variable {fs : FileSystem} {paths : List Path} (h : paths.Pairwise fun p q => p.order q = .lt)

include h

end Sorted

end Scan

namespace Program

/-! ## What a run comes to -/

/-- A run gets as far as its files: the settings load, there is someone to do the work, and the
files are collected. -/
structure Collects (input : Input) (a : Arguments) (settings : Settings) (paths : List Path) :
    Prop where
  loads : load (sources input) = .ok settings
  workers : 1 ≤ (a.scanOptions settings.scan).workers
  collects : Walk.collect input.files a.dirs (a.scanOptions settings.scan).mode
    (a.scanOptions settings.scan).extensions = .ok paths

/-- The system starts as many threads as a run asks for. -/
def StartsPool (input : Input) (a : Arguments) (settings : Settings) : Prop :=
  input.threads (a.scanOptions settings.scan).workers = none

theorem find_eq_ok_iff {input : Input} {a : Arguments} {found : Findings} :
    find input a = .ok found ↔ ∃ settings paths, Collects input a settings paths ∧
      StartsPool input a settings ∧ found = ⟨settings, Scan.files input.files paths 0⟩ := by
  simp only [find, bind_eq_ok, mapError_eq_ok, Scan.dispatch_eq_ok_iff]
  constructor
  · rintro ⟨settings, hload, _, hworkers, paths, hcollect, _, ⟨hstart, rfl⟩, h⟩
    cases h
    have hone := Nat.one_le_iff_ne_zero.mpr (Scan.checkWorkers_eq_ok_iff.mp hworkers)
    exact ⟨settings, paths, ⟨hload, hone, hcollect⟩, hstart, rfl⟩
  · rintro ⟨settings, paths, ⟨hload, hone, hcollect⟩, hstart, rfl⟩
    have hworkers := Scan.checkWorkers_eq_ok_iff.mpr (Nat.one_le_iff_ne_zero.mp hone)
    exact ⟨settings, hload, (), hworkers, paths, hcollect, _, ⟨hstart, rfl⟩, rfl⟩

theorem run_of_parse {input : Input} {a : Arguments} (h : Arguments.parse input.arguments = .ok a) :
    run input = perform input a := by
  rw [run, h]

section Parsed

variable {input : Input} {a : Arguments} (h : Arguments.parse input.arguments = .ok a)

include h

end Parsed

section Collected

variable {input : Input} {a : Arguments} {settings : Settings} {paths : List Path}
  (hcollects : Collects input a settings paths)

include hcollects

section Started

variable (hstarts : StartsPool input a settings)

include hstarts

end Started

end Collected

section Parsed

variable {input : Input} {a : Arguments} (h : Arguments.parse input.arguments = .ok a)

include h

end Parsed

/-- The arguments of a run over everything. -/
def everything (format : Format) : Arguments :=
  ⟨[.ofText "/"], false, [], none, false, false, format, false, false⟩

theorem collects_everything {input : Input} {format : Format} {paths : List Path}
    (hload : load (sources input) = .ok .standard)
    (hroot : input.files.exists? (.ofText "/") = true)
    (hfiles : Walk.rootFiles .raw ⟨[[.run, .literal '.', .literal 'h']]⟩ input.files
      (input.files.absolute (.ofText "/")) = paths)
    (hsorted : paths.Pairwise fun p q => p.le q = true) (hdistinct : Walk.distinct paths = paths) :
    Collects input (everything format) .standard paths where
  loads := hload
  workers := show 1 ≤ 4 by decide
  collects := by
    refine Walk.collect_eq_ok_iff.mpr ⟨_, ExtensionFilter.make_h, fun root hmem => ?_, ?_⟩
    · rw [List.mem_singleton.mp hmem]
      exact hroot
    · show _ = Walk.distinct (([Walk.rootFiles .raw _ input.files
        (input.files.absolute (.ofText "/"))]).flatten.mergeSort Path.le)
      rw [hfiles, List.flatten_singleton, List.mergeSort_of_pairwise hsorted, hdistinct]

/-- Two headers of which one is no text, to be listed in a line. -/
def partialInput : Input where
  arguments := [Utf8.bytes "-f", Utf8.bytes "raw", Utf8.bytes "/"]
  env := []
  userSettings := none
  files := ⟨.folder [(Utf8.bytes "a.h", .file (.ok (Utf8.bytes "#define x 1"))),
    (Utf8.bytes "b.h", .file (.ok [0xff]))], [], none⟩
  threads := fun _ => none

theorem partialInput_collects :
    Collects partialInput (everything .raw) .standard [.ofText "/a.h", .ofText "/b.h"] :=
  collects_everything rfl (by decide +kernel) (by decide +kernel) (by decide +kernel)
    (by decide +kernel)

end Program

end HeaderIndex
