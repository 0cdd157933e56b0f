import HeaderIndex.Proofs.Result
import HeaderIndex.Proofs.Scan.Schedule
import Mathlib

/-! What a scan of a tree accounts for. The files collected are in strictly increasing path
order, so no two of them are spellings of one path, and each is found in the report
once: with its symbols, or with its failure (`run_accounts`). -/

namespace HeaderIndex

open HeaderIndex.Text

/-- The filter for headers. -/
theorem ExtensionFilter.make_h :
    ExtensionFilter.make ["h"] = .ok ⟨[[.run, .literal '.', .literal 'h']]⟩ := by cbv

namespace Walk

theorem mem_of_mem_distinct {paths : List Path} {p : Path} (h : p ∈ distinct paths) :
    p ∈ paths := by
  induction paths with
  | nil => exact h
  | cons q rest ih =>
    cases rest with
    | nil => exact h
    | cons r rest =>
      rw [distinct] at h
      split at h
      · rw [List.mem_singleton.mp h]
        exact List.mem_cons_self
      · rename_i s more hrest
        rw [hrest] at ih
        split at h
        · rcases List.mem_cons.mp h with rfl | hp
          · exact List.mem_cons_self
          · exact List.mem_cons_of_mem q (ih (List.mem_cons_of_mem s hp))
        · rcases List.mem_cons.mp h with rfl | hp
          · exact List.mem_cons_self
          · exact List.mem_cons_of_mem q (ih hp)

/-- Of paths in order those that repeat one before them are dropped. -/
theorem distinct_sorted {paths : List Path} (h : paths.Pairwise fun p q => p.le q = true) :
    (distinct paths).Pairwise fun p q => p.order q = .lt := by
  induction paths with
  | nil => exact List.Pairwise.nil
  | cons p rest ih =>
    obtain ⟨hp, hrest⟩ := List.pairwise_cons.mp h
    cases rest with
    | nil => exact List.pairwise_singleton _ _
    | cons q rest =>
      rw [distinct]
      split
      · exact List.pairwise_singleton _ _
      · rename_i r more heq
        have hsorted := ih hrest
        rw [heq] at hsorted
        obtain ⟨hr, hmore⟩ := List.pairwise_cons.mp hsorted
        split
        · rename_i hsame
          refine List.pairwise_cons.mpr ⟨fun x hx => ?_, hmore⟩
          rw [Path.order_congr hsame]
          exact hr x hx
        · rename_i hne
          have hpr : p.order r = .lt := by
            refine Path.lt_of_le (hp r (mem_of_mem_distinct ?_)) (by simpa using hne)
            rw [heq]
            exact List.mem_cons_self
          refine List.pairwise_cons.mpr ⟨fun x hx => ?_, hsorted⟩
          rcases List.mem_cons.mp hx with rfl | hx
          · exact hpr
          · exact Std.TransCmp.lt_trans hpr (hr x hx)

theorem collect_sorted {fs : FileSystem} {roots paths : List Path} {mode : WalkMode}
    {extensions : List String} (h : collect fs roots mode extensions = .ok paths) :
    paths.Pairwise fun p q => p.order q = .lt := by
  unfold collect at h
  cases hfilter : ExtensionFilter.make extensions with
  | error e => rw [hfilter] at h; cases h
  | ok filter =>
    rw [hfilter] at h
    simp only [bind, Except.bind] at h
    split at h
    · cases h
    · cases h
      exact distinct_sorted (List.pairwise_mergeSort Path.le_trans Path.le_total _)

/-- Files are collected if the extensions make a filter and every root is there. -/
theorem collect_eq_ok_iff {fs : FileSystem} {roots paths : List Path} {mode : WalkMode}
    {extensions : List String} : collect fs roots mode extensions = .ok paths ↔
      ∃ filter, ExtensionFilter.make extensions = .ok filter ∧
        (∀ root ∈ roots, fs.exists? root = true) ∧
        paths = distinct ((roots.map fun root =>
          rootFiles mode filter fs (fs.absolute root)).flatten.mergeSort Path.le) := by
  rw [collect, bind_eq_ok]
  refine exists_congr fun filter => and_congr_right fun _ => ?_
  rw [bind_eq_ok]
  simp only [mapM_guard_eq_ok]
  constructor
  · rintro ⟨_, ⟨hroots, rfl⟩, h⟩
    cases h
    exact ⟨hroots, rfl⟩
  · rintro ⟨hroots, rfl⟩
    exact ⟨_, ⟨hroots, rfl⟩, rfl⟩

end Walk

namespace Scan

theorem startPool_eq_ok_iff {threads : Threads} {workers : Nat} :
    startPool threads workers = .ok () ↔ threads workers = none := by
  rw [startPool]
  cases threads workers <;> simp

/-- Files are scanned if the workers can be started. -/
theorem dispatch_eq_ok_iff {threads : Threads} {workers : Nat} {fs : FileSystem}
    {paths : List Path} {elapsedMs : Nat} {report : Report} :
    dispatch threads workers fs paths elapsedMs = .ok report ↔
      threads workers = none ∧ report = files fs paths elapsedMs := by
  rw [dispatch, bind_eq_ok]
  constructor
  · rintro ⟨⟨⟩, hstart, h⟩
    cases h
    exact ⟨startPool_eq_ok_iff.mp hstart, rfl⟩
  · rintro ⟨hstart, rfl⟩
    exact ⟨(), startPool_eq_ok_iff.mpr hstart, rfl⟩

/-- A successful scan reports on the files it collects. -/
theorem run_eq_ok {threads : Threads} {fs : FileSystem} {roots paths : List Path}
    {options : Options} {elapsedMs : Nat} {report : Report}
    (h : run threads fs roots options elapsedMs = .ok (paths, report)) :
    Walk.collect fs roots options.mode options.extensions = .ok paths ∧
      report = files fs paths elapsedMs := by
  obtain ⟨_, _, h⟩ := bind_eq_ok.mp h
  obtain ⟨collected, hcollect, h⟩ := bind_eq_ok.mp h
  obtain ⟨scanned, hdispatch, h⟩ := bind_eq_ok.mp h
  cases h
  exact ⟨hcollect, (dispatch_eq_ok_iff.mp hdispatch).2⟩

/-- The outcomes about a path of the list are one. -/
theorem filter_outcomes_singleton {fs : FileSystem} {paths : List Path}
    (h : paths.Pairwise fun p q => p.same q = false) {path : Path} (hmem : path ∈ paths) :
    (paths.map (outcome fs)).filter (fun o => (pathOf o).same path) = [outcome fs path] := by
  rw [filter_outcomes]
  induction paths with
  | nil => cases hmem
  | cons p rest ih =>
    obtain ⟨hp, hrest⟩ := List.pairwise_cons.mp h
    rcases List.mem_cons.mp hmem with rfl | hmem
    · have hnone : rest.filter (fun p => p.same path) = [] := by
        refine List.filter_eq_nil_iff.mpr fun q hq => ?_
        rw [Path.same_comm, hp q hq]
        exact Bool.false_ne_true
      rw [List.filter_cons, if_pos (Path.same_self path), hnone]
      rfl
    · rw [List.filter_cons_of_neg (by simp [hp path hmem])]
      exact ih hrest hmem

/-- **A scan accounts for every file once.** The paths on record and those of the failures are
together the paths collected, each in strictly increasing order; about every path
collected there are either symbols and no failure, or one failure and no symbols; the
statistics count them; and every schedule that ends has announced each of them once and
come to this report. -/
theorem run_accounts (threads : Threads) (fs : FileSystem) (roots : List Path) (options : Options)
    (elapsedMs : Nat) (paths : List Path) (report : Report)
    (h : run threads fs roots options elapsedMs = .ok (paths, report)) :
    Walk.collect fs roots options.mode options.extensions = .ok paths ∧
    (report.catalogue.paths ++ report.failures.map (·.path)).Perm paths ∧
    (∀ path ∈ paths, (∃ symbols, report.about path = (some symbols, [])) ∨
      ∃ failure, failure.path = path ∧ report.about path = (none, [failure])) ∧
    report.catalogue.paths.Pairwise (fun p q => p.order q = .lt) ∧
    (report.failures.map (·.path)).Pairwise (fun p q => p.order q = .lt) ∧
    report.stats.filesScanned = paths.length ∧
    report.stats.filesFailed = report.failures.length ∧
    report.stats.symbols = (report.catalogue.records.map fun r => r.symbols.length).sum ∧
    ∀ schedule w, Work.after? fs paths options.workers schedule = some w → w.isDone = true →
      w.announced.Perm paths ∧ w.report elapsedMs = report := by
  obtain ⟨hcollect, rfl⟩ := run_eq_ok h
  have hpaths : paths.Pairwise fun p q => p.same q = false :=
    (Walk.collect_sorted hcollect).imp Path.lt_irrefl
  have hdistinct : Distinct (paths.map (outcome fs)) := distinct_outcomes hpaths
  have hperm := report_paths hdistinct elapsedMs
  rw [map_pathOf_outcome] at hperm
  refine ⟨hcollect, hperm, ?_, ?_, ?_, ?_, ?_, ?_, ?_⟩
  · intro path hmem
    rw [files, about_report, filter_outcomes_singleton hpaths hmem]
    have hpath := pathOf_outcome fs path
    cases houtcome : outcome fs path with
    | ok record => exact .inl ⟨record.symbols, rfl⟩
    | error failure =>
      rw [houtcome] at hpath
      exact .inr ⟨failure, hpath, rfl⟩
  · exact List.pairwise_map.mpr (Catalogue.ofRecords_sorted _)
  · exact List.pairwise_map.mpr (Path.sorted_mergeSort hdistinct.failures)
  · rw [files, report_filesScanned hdistinct, List.length_map]
  · exact (List.length_mergeSort _).symm
  · exact Catalogue.symbolCount_eq _
  · intro schedule w hafter hdone
    obtain ⟨finished, hsound⟩ := Work.after?_sound hafter
    exact ⟨hsound.announced_perm hdone, hsound.report_eq hdone elapsedMs⟩

/-- Two roots overlap, and one of the files cannot be decoded. -/
theorem run_accounts_overlapping :
    ∃ (fs : FileSystem) (report : Report),
      run (fun _ => none) fs [.ofText "/", .ofText "/b.h"] ⟨["h"], 2, .raw⟩ 0 =
        .ok ([.ofText "/a.h", .ofText "/b.h"], report) ∧
      (report.catalogue.paths ++ report.failures.map (·.path)).Perm
        [.ofText "/a.h", .ofText "/b.h"] ∧
      report.stats.filesScanned = 2 := by
  let fs : FileSystem :=
    ⟨.folder [(Utf8.bytes "a.h", .file (.ok [])), (Utf8.bytes "b.h", .file (.ok [0xff]))],
      [], none⟩
  have hcollect : Walk.collect fs [.ofText "/", .ofText "/b.h"] .raw ["h"] =
      .ok [.ofText "/a.h", .ofText "/b.h"] := by
    refine Walk.collect_eq_ok_iff.mpr ⟨_, ExtensionFilter.make_h, by decide +kernel, ?_⟩
    rw [List.mergeSort_of_pairwise (by decide +kernel)]
    decide +kernel
  have hrun : run (fun _ => none) fs [.ofText "/", .ofText "/b.h"] ⟨["h"], 2, .raw⟩ 0 =
      .ok ([.ofText "/a.h", .ofText "/b.h"], files fs [.ofText "/a.h", .ofText "/b.h"] 0) := by
    rw [run, hcollect]
    rfl
  obtain ⟨_, hperm, _, _, _, hscanned, _⟩ := run_accounts _ fs _ _ _ _ _ hrun
  exact ⟨fs, _, hrun, hperm, hscanned⟩

end Scan

end HeaderIndex
