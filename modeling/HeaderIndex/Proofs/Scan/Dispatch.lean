import HeaderIndex.Proofs.FileSystem.Lookup
import HeaderIndex.Proofs.Scan.Schedule
import Mathlib

/-! Dispatching files to workers. Whatever the schedule is, the report is that of scanning the
files one after another; files with different paths may be listed in any order; and a
file that changes makes no difference to what is reported about paths that do not lead
to it (`dispatch_independent`). Paths that do lead to it are seen to change with it, be
they other names of the file or names below it (`about_linked_and_below`). -/

namespace HeaderIndex.Scan

open HeaderIndex.Text

/-! ## What is reported about one path -/

theorem outcome_congr {fs fs' : FileSystem} {path : Path} (h : fs'.read path = fs.read path) :
    outcome fs' path = outcome fs path := by
  rw [outcome, outcome, file, file, h]

/-- What is reported about a path depends on how its spellings read, and on nothing else. -/
theorem about_files_congr {fs fs' : FileSystem} {paths : List Path} {path : Path}
    (h : ∀ p ∈ paths, p.same path = true → fs'.read p = fs.read p)
    (elapsedMs elapsedMs' : Nat) :
    (files fs' paths elapsedMs').about path = (files fs paths elapsedMs).about path := by
  have houtcomes : (paths.filter fun p => p.same path).map (outcome fs') =
      (paths.filter fun p => p.same path).map (outcome fs) := by
    refine List.map_congr_left fun p hp => ?_
    obtain ⟨hmem, hsame⟩ := List.mem_filter.mp hp
    exact outcome_congr (h p hmem hsame)
  rw [files, files, about_report, about_report, filter_outcomes, filter_outcomes, houtcomes]

theorem files_untimed (fs : FileSystem) (paths : List Path) (elapsedMs elapsedMs' : Nat) :
    (files fs paths elapsedMs).untimed = (files fs paths elapsedMs').untimed := rfl

/-- A path that is another name of a file, or that goes on below it, is reported differently
when the bytes of the file change, or when the file is gone. -/
theorem about_linked_and_below :
    ∃ (fs : FileSystem) (place : List Name) (bytes : List UInt8) (file link below : Path),
      fs.root.at? place = some (.file (.ok bytes)) ∧ fs.resolve file = .ok place ∧
      file.same link = false ∧ file.same below = false ∧
      (files (fs.put place (.file (.ok [0xff]))) [file, link] 0).about link ≠
        (files fs [file, link] 0).about link ∧
      (files (fs.remove place) [file, below] 0).about below ≠
        (files fs [file, below] 0).about below := by
  let root : Node :=
    .folder [(Utf8.bytes "a.h", .file (.ok [])), (Utf8.bytes "b.h", .link (Utf8.bytes "a.h"))]
  refine ⟨⟨root, [], none⟩, [Utf8.bytes "a.h"], [], .ofText "a.h", .ofText "b.h",
    .ofText "a.h/c.h", rfl, by decide +kernel, by decide +kernel, by decide +kernel, ?_, ?_⟩
  · rw [files, files, about_report, about_report]
    decide +kernel
  · rw [files, files, about_report, about_report]
    decide +kernel

/-! ## Dispatching -/

/-- **Dispatch depends on the files and on nothing else.** Every schedule keeps to the workers,
can be carried to its end, and ends with the report of a scan in list order and with each
list element announced once. A list of different paths gives one report in every order.
When a file changes, or can no longer be read, nothing else is reported about a path whose
spellings on the list do not lead to that file; nor when it is gone and they do not come
upon it. -/
theorem dispatch_independent (fs : FileSystem) (paths : List Path) (workers : Nat)
    (hworkers : 1 ≤ workers) :
    (∀ schedule w, Work.after? fs paths workers schedule = some w →
      w.running.length ≤ workers ∧
      (∃ more w', Work.after? fs paths workers (schedule ++ more) = some w' ∧
        w'.isDone = true) ∧
      (w.isDone = true → w.announced.Perm paths ∧
        ∀ elapsedMs elapsedMs',
          (w.report elapsedMs).untimed = (files fs paths elapsedMs').untimed)) ∧
    (paths.Pairwise (fun p q => p.same q = false) → ∀ paths', paths'.Perm paths →
      ∀ elapsedMs, files fs paths' elapsedMs = files fs paths elapsedMs) ∧
    (∀ place contents, fs.root.at? place = some (.file contents) → ∀ path elapsedMs,
      (∀ contents', (∀ p ∈ paths, p.same path = true → fs.resolve p ≠ .ok place) →
        (files (fs.put place (.file contents')) paths elapsedMs).about path =
          (files fs paths elapsedMs).about path) ∧
      (place ≠ [] → (∀ p ∈ paths, p.same path = true → place ∉ fs.trail p) →
        (files (fs.remove place) paths elapsedMs).about path =
          (files fs paths elapsedMs).about path)) := by
  refine ⟨?_, ?_, ?_⟩
  · intro schedule w hafter
    obtain ⟨finished, hsound⟩ := Work.after?_sound hafter
    refine ⟨hsound.capacity, ?_, fun hdone => ⟨hsound.announced_perm hdone,
      fun elapsedMs elapsedMs' => ?_⟩⟩
    · obtain ⟨more, w', hrun, hdone⟩ := hsound.completes hworkers
      refine ⟨more, w', ?_, hdone⟩
      rw [Work.after?] at hafter ⊢
      rw [List.foldlM_append, hafter]
      exact hrun
    · rw [hsound.report_eq hdone, files_untimed]
  · intro hdistinct paths' hperm elapsedMs
    have houtcomes : (paths.map (outcome fs)).Perm (paths'.map (outcome fs)) := (hperm.map _).symm
    exact (report_congr (distinct_outcomes hdistinct) houtcomes elapsedMs).symm
  · intro place contents hfile path elapsedMs
    refine ⟨fun contents' hpaths => ?_, fun hplace hpaths => ?_⟩
    · exact about_files_congr
        (fun p hp hsame => FileSystem.read_put hfile contents' (hpaths p hp hsame)) _ _
    · exact about_files_congr
        (fun p hp hsame => FileSystem.read_remove hfile hplace (hpaths p hp hsame)) _ _

/-- Two workers take two files in the other order and finish in list order; and one of the files
cannot be read any more, or is gone. -/
theorem dispatch_independent_pair :
    ∃ (fs : FileSystem) (w : Work) (a b : Path), a = .ofText "a.h" ∧ b = .ofText "b.h" ∧
      Work.after? fs [a, b] 2 [.start 1, .start 0, .finish 0, .finish 1] = some w ∧
      (w.report 7).untimed = (files fs [a, b] 0).untimed ∧
      files fs [b, a] 0 = files fs [a, b] 0 ∧
      (files (fs.put [a.bytes] (.file (.error .denied))) [a, b] 0).about b =
        (files fs [a, b] 0).about b ∧
      (files (fs.remove [a.bytes]) [a, b] 0).about b = (files fs [a, b] 0).about b := by
  let a : Path := .ofText "a.h"
  let b : Path := .ofText "b.h"
  let fs : FileSystem :=
    ⟨.folder [(a.bytes, .file (.ok [])), (b.bytes, .file (.ok []))], [], none⟩
  obtain ⟨hschedules, horders, hchanges⟩ := dispatch_independent fs [a, b] 2 (by decide)
  obtain ⟨w, hw, hdone⟩ : ∃ w, Work.after? fs [a, b] 2
      [.start 1, .start 0, .finish 0, .finish 1] = some w ∧ w.isDone = true := ⟨_, rfl, rfl⟩
  obtain ⟨_, _, hend⟩ := hschedules _ w hw
  obtain ⟨hput, hremove⟩ := hchanges [a.bytes] (.ok []) rfl b 0
  have hresolve : fs.resolve b = .ok [b.bytes] := by decide +kernel
  refine ⟨fs, w, a, b, rfl, rfl, hw, (hend hdone).2 7 0,
    horders (by decide +kernel) _ (List.Perm.swap _ _ _) 0, hput _ ?_, hremove (by decide) ?_⟩
  · intro p hp hsame
    rcases List.mem_cons.mp hp with rfl | hp
    · exact absurd hsame (by decide +kernel)
    · rw [List.mem_singleton.mp hp, hresolve]
      decide +kernel
  · decide +kernel

end HeaderIndex.Scan
