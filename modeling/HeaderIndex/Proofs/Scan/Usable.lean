import HeaderIndex.Program
import HeaderIndex.Proofs.Arguments.Values
import Mathlib.Data.List.TakeWhile

/-! Which settings can be used. Settings are checked when they are loaded, and what a scan needs is
checked again when it starts; the two checks agree, so that behind settings that were
checked only the command line can be at fault (`validate_iff_scannable`). -/

namespace HeaderIndex

open HeaderIndex.Text

/-! ## Extensions -/

/-- Nothing but dots, which is no extension. -/
def IsDots (extension : String) : Prop := ∀ c ∈ extension.toList, c = '.'

theorem stripDots_isEmpty_iff {extension : String} :
    (stripDots extension).isEmpty = true ↔ IsDots extension := by
  rw [String.isEmpty_iff, stripDots, String.ofList_eq_empty_iff, List.dropWhile_eq_nil_iff, IsDots]
  simp only [beq_iff_eq]

theorem encode_dots (count : Nat) :
    Utf8.encode (List.replicate count '.') = List.replicate count dot := by
  induction count with
  | zero => rfl
  | succ count ih =>
    rw [List.replicate_succ, List.replicate_succ, Utf8.encode_cons, ih]
    rfl

/-- Dots are dots as bytes too. -/
theorem isDots_iff {extension : String} :
    IsDots extension ↔ ∀ b ∈ Utf8.bytes extension, b = dot := by
  constructor
  · intro h
    rw [Utf8.bytes, List.eq_replicate_of_mem h, encode_dots]
    exact fun b => List.eq_of_mem_replicate
  · intro h
    have hbytes : Utf8.encode extension.toList = _ := List.eq_replicate_of_mem h
    rw [← encode_dots] at hbytes
    rw [IsDots, Utf8.encode_injective hbytes]
    exact fun c => List.eq_of_mem_replicate

namespace ExtensionFilter

theorem stripped_eq_nil_iff {extensions : List String} :
    (extensions.map stripDots).filter (!·.isEmpty) = [] ↔ ∀ extension ∈ extensions,
      IsDots extension := by
  simp [List.filter_eq_nil_iff, ← stripDots_isEmpty_iff]

/-- A bad pattern is never reported as missing extensions or workers. -/
theorem patterns_eq_error {stripped : List String} {e : ScanError}
    (h : stripped.mapM patternOf = .error e) :
    ∃ extension cause, e = .extension extension cause := by
  obtain ⟨extension, _, hpattern⟩ := exists_of_mapM_eq_error h
  rw [patternOf] at hpattern
  split at hpattern <;> cases hpattern
  exact ⟨extension, _, rfl⟩

theorem make_eq_error_iff {extensions : List String} {e : ScanError} :
    make extensions = .error e ↔
      ((extensions.map stripDots).filter (!·.isEmpty)).mapM patternOf = .error e ∨
      e = .noExtensions ∧ ∀ extension ∈ extensions, IsDots extension := by
  rw [make, bind_eq_error, ← stripped_eq_nil_iff]
  refine or_congr_right ?_
  cases (extensions.map stripDots).filter (!·.isEmpty) with
  | nil =>
    constructor
    · rintro ⟨patterns, hpatterns, h⟩
      cases hpatterns
      cases h
      exact ⟨rfl, rfl⟩
    · rintro ⟨rfl, _⟩
      exact ⟨[], rfl, rfl⟩
  | cons first rest =>
    refine iff_of_false ?_ fun h => by cases h.2
    rintro ⟨patterns, hpatterns, h⟩
    rw [List.mapM_cons] at hpatterns
    obtain ⟨_, _, hpatterns⟩ := bind_eq_ok.mp hpatterns
    obtain ⟨_, _, hpatterns⟩ := bind_eq_ok.mp hpatterns
    cases hpatterns
    cases h

/-- Extensions are missing where there is nothing but dots, whatever the patterns are. -/
theorem make_eq_noExtensions_iff {extensions : List String} :
    make extensions = .error .noExtensions ↔ ∀ extension ∈ extensions, IsDots extension := by
  rw [make_eq_error_iff, or_iff_right, and_iff_right rfl]
  intro h
  obtain ⟨_, _, hcause⟩ := patterns_eq_error h
  cases hcause

theorem make_ne_noWorkers (extensions : List String) : make extensions ≠ .error .noWorkers := by
  rw [Ne, make_eq_error_iff]
  rintro (h | ⟨h, _⟩)
  · obtain ⟨_, _, hcause⟩ := patterns_eq_error h
    cases hcause
  · cases h

end ExtensionFilter

/-! ## Scanning -/

/-- Collecting fails for its extensions or for a root that is not there. -/
theorem Walk.collect_eq_error {fs : FileSystem} {roots : List Path} {mode : WalkMode}
    {extensions : List String} {e : ScanError} (h : collect fs roots mode extensions = .error e) :
    ExtensionFilter.make extensions = .error e ∨ ∃ root, e = .missingRoot root := by
  rcases bind_eq_error.mp h with hmake | ⟨filter, _, h⟩
  · exact .inl hmake
  · rcases bind_eq_error.mp h with hroots | ⟨_, _, hdone⟩
    · obtain ⟨root, _, hroot⟩ := exists_of_mapM_eq_error hroots
      split at hroot <;> cases hroot
      exact .inr ⟨root, rfl⟩
    · cases hdone

theorem Walk.collect_eq_noExtensions_iff {fs : FileSystem} {roots : List Path} {mode : WalkMode}
    {extensions : List String} : collect fs roots mode extensions = .error .noExtensions ↔
      ∀ extension ∈ extensions, IsDots extension := by
  rw [← ExtensionFilter.make_eq_noExtensions_iff]
  constructor
  · intro h
    rcases collect_eq_error h with hmake | ⟨_, hroot⟩
    · exact hmake
    · cases hroot
  · intro h
    rw [collect, h]
    rfl

namespace Scan

theorem checkWorkers_eq_error_iff {workers : Nat} {e : ScanError} :
    checkWorkers workers = .error e ↔ workers = 0 ∧ e = .noWorkers := by
  rw [checkWorkers]
  by_cases hnone : workers = 0
  · simp [hnone, eq_comm (a := e)]
  · simp [hnone]

theorem checkWorkers_eq_ok_iff {workers : Nat} :
    checkWorkers workers = .ok () ↔ workers ≠ 0 := by
  rw [checkWorkers]
  by_cases hnone : workers = 0 <;> simp [hnone]

variable {threads : Threads} {fs : FileSystem} {roots paths : List Path} {options : Options}
  {elapsedMs : Nat}

/-- Once files are collected only the workers can fail to start. -/
theorem dispatch_eq_error_iff {workers : Nat} {e : ScanError} :
    dispatch threads workers fs paths elapsedMs = .error e ↔
      ∃ cause, threads workers = some cause ∧ e = .pool cause := by
  rw [dispatch, startPool]
  cases threads workers with
  | none => exact iff_of_false nofun nofun
  | some cause =>
    refine ⟨fun h => ⟨cause, rfl, (Except.error.inj h).symm⟩, ?_⟩
    rintro ⟨_, hcause, rfl⟩
    cases hcause
    rfl

/-- What a scan fails for. -/
theorem run_eq_error_iff {e : ScanError} : run threads fs roots options elapsedMs = .error e ↔
    checkWorkers options.workers = .error e ∨ checkWorkers options.workers = .ok () ∧
      (Walk.collect fs roots options.mode options.extensions = .error e ∨
        (∃ paths, Walk.collect fs roots options.mode options.extensions = .ok paths) ∧
          ∃ cause, threads options.workers = some cause ∧ e = .pool cause) := by
  rw [run, bind_eq_error]
  refine or_congr_right ?_
  simp only [bind_eq_error, dispatch_eq_error_iff, pure, Except.pure, reduceCtorEq, and_false,
    exists_false, or_false, exists_and_right]
  exact and_congr_left' ⟨fun ⟨_, h⟩ => h, fun h => ⟨(), h⟩⟩

theorem run_eq_noWorkers_iff :
    run threads fs roots options elapsedMs = .error .noWorkers ↔ options.workers = 0 := by
  rw [run_eq_error_iff, checkWorkers_eq_error_iff, and_iff_left rfl, or_iff_left]
  rintro ⟨_, hcollect | ⟨_, _, _, hpool⟩⟩
  · rcases Walk.collect_eq_error hcollect with hmake | ⟨_, hroot⟩
    · exact ExtensionFilter.make_ne_noWorkers _ hmake
    · cases hroot
  · cases hpool

theorem run_eq_noExtensions_iff :
    run threads fs roots options elapsedMs = .error .noExtensions ↔
      options.workers ≠ 0 ∧ ∀ extension ∈ options.extensions, IsDots extension := by
  rw [run_eq_error_iff, checkWorkers_eq_error_iff, or_iff_right (fun h => by cases h.2)]
  refine and_congr checkWorkers_eq_ok_iff ?_
  rw [Walk.collect_eq_noExtensions_iff, or_iff_left]
  rintro ⟨_, _, _, hpool⟩
  cases hpool

end Scan

/-! ## Checked settings -/

theorem ScanSettings.validate_eq_ok_iff {s : ScanSettings} : s.validate = .ok () ↔
      s.workers ≠ 0 ∧ ¬ ∀ extension ∈ s.extensions, IsDots extension := by
  simp only [← stripDots_isEmpty_iff, ← List.all_eq_true]
  rw [validate]
  by_cases hworkers : s.workers = 0
  · simp [hworkers]
  · by_cases hextensions : (s.extensions.all fun e => (stripDots e).isEmpty) = true <;>
      simp only [hworkers, hextensions, beq_iff_eq, if_true, if_false, ne_eq, not_false_eq_true,
        not_true_eq_false, true_and, reduceCtorEq, Bool.false_eq_true]

namespace Arguments

/-- The command line gives the number 0 for the workers. -/
def GivesNoWorkers (texts : List Name) : Prop :=
  ∃ value, values .workers texts = [value] ∧ number? value = some 0

/-- The command line gives extensions, all of which are dots. -/
def GivesOnlyDots (texts : List Name) : Prop :=
  values .extension texts ≠ [] ∧ ∀ value ∈ values .extension texts, ∀ b ∈ value, b = dot

section Merged

variable {texts : List Name} {a : Arguments} (h : parse texts = .ok a) {s : ScanSettings}
  (hs : s.validate = .ok ())

include h hs

theorem scanOptions_workers_iff : (a.scanOptions s).workers = 0 ↔ GivesNoWorkers texts := by
  rw [GivesNoWorkers, ← workers_eq_some_iff h]
  cases hworkers : a.workers with
  | none => simpa [scanOptions, hworkers] using (ScanSettings.validate_eq_ok_iff.mp hs).1
  | some number => simp [scanOptions, hworkers]

theorem scanOptions_extensions_iff :
    (∀ extension ∈ (a.scanOptions s).extensions, IsDots extension) ↔ GivesOnlyDots texts := by
  rw [GivesOnlyDots, ← (parse_values h).1]
  cases hextensions : a.extensions with
  | nil => simpa [scanOptions, hextensions] using (ScanSettings.validate_eq_ok_iff.mp hs).2
  | cons first rest => simp [scanOptions, hextensions, isDots_iff]

end Merged

end Arguments

namespace Program

open HeaderIndex.Config

theorem validate_of_load {sources : Sources} {settings : Settings}
    (h : load sources = .ok settings) : settings.scan.validate = .ok () := by
  obtain ⟨_, _, h⟩ := bind_eq_ok.mp h
  obtain ⟨_, _, h⟩ := bind_eq_ok.mp h
  obtain ⟨found, _, h⟩ := bind_eq_ok.mp h
  split at h <;> cases h
  assumption

/-- A run that stops behind its settings stops for what the scan cannot be done with. -/
theorem find_eq_error {input : Input} {a : Arguments} {failure : Failure}
    (h : find input a = .error failure) :
    (∃ cause, failure = .settings cause) ∨ ∃ settings, load (sources input) = .ok settings ∧
      ((∃ cause, failure = .workers cause ∧ (a.scanOptions settings.scan).workers = 0) ∨
        (∃ cause, failure = .files cause ∧
          Walk.collect input.files a.dirs (a.scanOptions settings.scan).mode
            (a.scanOptions settings.scan).extensions = .error cause) ∨
        ∃ cause, failure = .start (.pool cause) ∧
          input.threads (a.scanOptions settings.scan).workers = some cause) := by
  rcases bind_eq_error.mp h with h | ⟨settings, hload, h⟩
  · obtain ⟨cause, _, rfl⟩ := mapError_eq_error.mp h
    exact .inl ⟨cause, rfl⟩
  refine .inr ⟨settings, mapError_eq_ok.mp hload, ?_⟩
  rcases bind_eq_error.mp h with h | ⟨_, _, h⟩
  · obtain ⟨cause, hcause, rfl⟩ := mapError_eq_error.mp h
    exact .inl ⟨cause, rfl, (Scan.checkWorkers_eq_error_iff.mp hcause).1⟩
  rcases bind_eq_error.mp h with h | ⟨_, _, h⟩
  · obtain ⟨cause, hcause, rfl⟩ := mapError_eq_error.mp h
    exact .inr (.inl ⟨cause, rfl, hcause⟩)
  rcases bind_eq_error.mp h with h | ⟨_, _, hdone⟩
  · obtain ⟨_, herror, rfl⟩ := mapError_eq_error.mp h
    obtain ⟨cause, hcause, rfl⟩ := Scan.dispatch_eq_error_iff.mp herror
    exact .inr (.inr ⟨cause, rfl, hcause⟩)
  · cases hdone

section Parsed

variable {input : Input} {a : Arguments} (h : Arguments.parse input.arguments = .ok a)

include h

theorem givesNoWorkers_of_find {cause : ScanError}
    (hfind : find input a = .error (.workers cause)) :
    Arguments.GivesNoWorkers input.arguments := by
  rcases find_eq_error hfind with ⟨_, hother⟩ | ⟨settings, hload, hcause⟩
  · cases hother
  · rcases hcause with ⟨_, _, hworkers⟩ | ⟨_, hother, _⟩ | ⟨_, hother, _⟩
    · exact (Arguments.scanOptions_workers_iff h (validate_of_load hload)).mp hworkers
    · cases hother
    · cases hother

theorem givesOnlyDots_of_find (hfind : find input a = .error (.files .noExtensions)) :
    Arguments.GivesOnlyDots input.arguments := by
  rcases find_eq_error hfind with ⟨_, hother⟩ | ⟨settings, hload, hcause⟩
  · cases hother
  · rcases hcause with ⟨_, hother, _⟩ | ⟨_, hfiles, hcollect⟩ | ⟨_, hother, _⟩
    · cases hother
    · cases hfiles
      exact (Arguments.scanOptions_extensions_iff h (validate_of_load hload)).mp
        (Walk.collect_eq_noExtensions_iff.mp hcollect)
    · cases hother

end Parsed

end Program

/-- **Checked settings are settings to scan with.** Settings pass their check just if there is
someone to do the work and the extensions are not missing. So where a command line is laid
over checked settings, a scan lacks workers just if the command line gives their number
as 0. It lacks extensions just if the command line gives some and they are all dots, as
long as it does not lack workers, which is found out first. A run of the program, whose
settings are checked when they are loaded, stops for no other reason of this kind. -/
theorem ScanSettings.validate_iff_scannable :
    (∀ s : ScanSettings, s.validate = .ok () ↔
      Scan.checkWorkers s.workers = .ok () ∧
        ExtensionFilter.make s.extensions ≠ .error .noExtensions) ∧
    (∀ (s : ScanSettings) texts a, s.validate = .ok () → Arguments.parse texts = .ok a →
      ∀ threads fs roots elapsedMs,
        (Scan.run threads fs roots (a.scanOptions s) elapsedMs = .error .noWorkers ↔
          Arguments.GivesNoWorkers texts) ∧
        (Scan.run threads fs roots (a.scanOptions s) elapsedMs = .error .noExtensions ↔
          ¬ Arguments.GivesNoWorkers texts ∧ Arguments.GivesOnlyDots texts)) ∧
    ∀ (input : Program.Input) a, Arguments.parse input.arguments = .ok a →
      (∀ cause, Program.find input a = .error (.workers cause) →
        Arguments.GivesNoWorkers input.arguments) ∧
      (Program.find input a = .error (.files .noExtensions) →
        Arguments.GivesOnlyDots input.arguments) := by
  refine ⟨fun s => ?_, fun s texts a hs h threads fs roots elapsedMs =>
    ⟨?_, ?_⟩, fun input a h =>
    ⟨fun cause => Program.givesNoWorkers_of_find h, Program.givesOnlyDots_of_find h⟩⟩
  · rw [validate_eq_ok_iff, Scan.checkWorkers_eq_ok_iff, Ne, Ne,
      ExtensionFilter.make_eq_noExtensions_iff]
  · rw [Scan.run_eq_noWorkers_iff, Arguments.scanOptions_workers_iff h hs]
  · rw [Scan.run_eq_noExtensions_iff, Ne, Arguments.scanOptions_workers_iff h hs,
      Arguments.scanOptions_extensions_iff h hs]

/-- The standard settings can be used; a command line with `-j0` and one whose extensions are dots
and nothing each spoil them. -/
theorem ScanSettings.validate_iff_scannable_overridden :
    ScanSettings.standard.validate = .ok () ∧
    (∃ a, Arguments.parse (["-j0", "d"].map Utf8.bytes) = .ok a ∧
      ∀ threads fs roots elapsedMs,
        Scan.run threads fs roots (a.scanOptions .standard) elapsedMs = .error .noWorkers) ∧
    ∃ a, Arguments.parse (["-e", "..", "d", "--ext="].map Utf8.bytes) = .ok a ∧
      ∀ threads fs roots elapsedMs,
        Scan.run threads fs roots (a.scanOptions .standard) elapsedMs = .error .noExtensions := by
  let noWorkers := ["-j0", "d"].map Utf8.bytes
  let onlyDots := ["-e", "..", "d", "--ext="].map Utf8.bytes
  have hs : ScanSettings.standard.validate = .ok () := by decide +kernel
  obtain ⟨_, hmerged, _⟩ := validate_iff_scannable
  refine ⟨hs, ⟨_, rfl, fun threads fs roots elapsedMs => ?_⟩,
    ⟨_, rfl, fun threads fs roots elapsedMs => ?_⟩⟩
  · exact (hmerged .standard noWorkers _ hs rfl threads fs roots elapsedMs).1.mpr
      ⟨Utf8.bytes "0", by decide +kernel, by decide +kernel⟩
  · refine (hmerged .standard onlyDots _ hs rfl threads fs roots elapsedMs).2.mpr ⟨?_, ?_, ?_⟩
    · rintro ⟨value, hvalue, _⟩
      have hnone : Arguments.values .workers onlyDots = [] := by decide +kernel
      rw [hnone] at hvalue
      cases hvalue
    · decide +kernel
    · decide +kernel

end HeaderIndex
