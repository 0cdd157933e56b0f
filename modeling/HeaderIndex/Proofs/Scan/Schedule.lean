import HeaderIndex.Proofs.Scan.Outcome
import HeaderIndex.Scan.Schedule

/-! Schedules. Every index is waiting, in work or finished, and the slots hold the outcomes of
the finished ones (`Sound`). Each event keeps that (`step?_sound`), so when nothing is left
to do the slots hold every outcome at its index, whatever the order of the events was. -/

namespace HeaderIndex.Scan.Work

variable {fs : FileSystem} {paths : List Path} {workers : Nat} {w w' : Work} {finished : List Nat}

/-- What an event can do. -/
theorem step?_cases {e : Event} (h : step? fs paths workers w e = some w') :
    (∃ i, e = .start i ∧ i ∈ w.waiting ∧ w.running.length < workers ∧
      w' = { w with waiting := w.waiting.erase i, running := w.running ++ [i] }) ∨
    (∃ i path, e = .finish i ∧ i ∈ w.running ∧ paths[i]? = some path ∧
      w' = { w with
        running := w.running.erase i
        slots := w.slots.set i (some (outcome fs path))
        announced := w.announced ++ [path] }) := by
  cases e with
  | start i =>
    rw [step?] at h
    split at h
    · rename_i hguard
      rw [Bool.and_eq_true, List.contains_iff_mem, decide_eq_true_eq] at hguard
      exact .inl ⟨i, rfl, hguard.1, hguard.2, (Option.some.inj h).symm⟩
    · cases h
  | finish i =>
    rw [step?] at h
    split at h
    · rename_i hguard
      obtain ⟨path, hpath, hw⟩ := Option.map_eq_some_iff.mp h
      exact .inr ⟨i, path, rfl, List.contains_iff_mem.mp hguard, hpath, hw.symm⟩
    · cases h

theorem step?_start {i : Nat} (hi : i ∈ w.waiting) (hfree : w.running.length < workers) :
    step? fs paths workers w (.start i) =
      some { w with waiting := w.waiting.erase i, running := w.running ++ [i] } := by
  simp [step?, hi, hfree]

theorem step?_finish {i : Nat} {path : Path} (hi : i ∈ w.running)
    (hpath : paths[i]? = some path) :
    step? fs paths workers w (.finish i) = some { w with
      running := w.running.erase i
      slots := w.slots.set i (some (outcome fs path))
      announced := w.announced ++ [path] } := by
  simp [step?, hi, hpath]

/-- The state of the work when the files of some indices are finished, in that order. -/
structure Sound (fs : FileSystem) (paths : List Path) (workers : Nat) (finished : List Nat)
    (w : Work) : Prop where
  capacity : w.running.length ≤ workers
  indices : (w.waiting ++ (w.running ++ finished)).Perm (List.range paths.length)
  slots : w.slots = (List.range paths.length).map fun i =>
    if i ∈ finished then paths[i]?.map (outcome fs) else none
  announced : w.announced = finished.filterMap fun i => paths[i]?

theorem start_sound : Sound fs paths workers [] (start paths) where
  capacity := Nat.zero_le _
  indices := by
    show (List.range paths.length ++ ([] ++ [])).Perm _
    rw [List.append_nil, List.append_nil]
  slots := by
    simp only [start, List.not_mem_nil, if_false, List.map_const', List.length_range]
  announced := rfl

/-- The path of the index of a file in work. -/
theorem Sound.exists_path (h : Sound fs paths workers finished w) {i : Nat} (hi : i ∈ w.running) :
    ∃ path, paths[i]? = some path := by
  have hmem : i ∈ w.waiting ++ (w.running ++ finished) := by simp [hi]
  have hlt : i < paths.length := List.mem_range.mp (h.indices.subset hmem)
  exact ⟨paths[i], List.getElem?_eq_getElem hlt⟩

theorem step?_sound {e : Event} (h : Sound fs paths workers finished w)
    (hstep : step? fs paths workers w e = some w') :
    ∃ finished', Sound fs paths workers finished' w' := by
  obtain ⟨i, _, hi, hfree, rfl⟩ | ⟨i, path, _, hi, hpath, rfl⟩ := step?_cases hstep
  · refine ⟨finished, ?_, ?_, h.slots, h.announced⟩
    · rw [List.length_append, List.length_singleton]
      omega
    · refine List.Perm.trans ?_ h.indices
      have hwaiting := (List.perm_cons_erase hi).symm.append_right (w.running ++ finished)
      refine List.Perm.trans ?_ hwaiting
      simp only [List.append_assoc, List.singleton_append]
      rw [← List.append_assoc, ← List.append_assoc, List.cons_append]
      exact List.perm_middle
  · refine ⟨finished ++ [i], ?_, ?_, ?_, ?_⟩
    · have hlength : (w.running.erase i).length ≤ w.running.length :=
        List.erase_sublist.length_le
      have hcapacity := h.capacity
      show (w.running.erase i).length ≤ workers
      omega
    · refine List.Perm.trans (List.Perm.append_left w.waiting ?_) h.indices
      have hrunning := (List.perm_cons_erase hi).symm.append_right finished
      refine List.Perm.trans ?_ hrunning
      rw [← List.append_assoc, List.cons_append]
      exact List.perm_append_singleton i _
    · show w.slots.set i (some (outcome fs path)) = _
      rw [h.slots]
      refine List.ext_getElem (by simp) fun j hj hj' => ?_
      have hlt : j < paths.length := by simpa using hj'
      by_cases hij : i = j
      · subst hij
        simp [hpath]
      · simp [hij, Ne.symm hij]
    · show w.announced ++ [path] = _
      rw [h.announced, List.filterMap_append]
      simp [hpath]

theorem run_sound (schedule : List Event) (h : Sound fs paths workers finished w)
    (hrun : schedule.foldlM (step? fs paths workers) w = some w') :
    ∃ finished', Sound fs paths workers finished' w' := by
  induction schedule generalizing w finished with
  | nil =>
    obtain rfl : w = w' := Option.some.inj hrun
    exact ⟨finished, h⟩
  | cons e schedule ih =>
    rw [List.foldlM_cons] at hrun
    obtain ⟨next, hstep, hrun⟩ := Option.bind_eq_some_iff.mp hrun
    obtain ⟨finished', hnext⟩ := step?_sound h hstep
    exact ih hnext hrun

theorem after?_sound {schedule : List Event} (h : after? fs paths workers schedule = some w) :
    ∃ finished, Sound fs paths workers finished w :=
  run_sound schedule start_sound h

/-! ## The end -/

theorem Sound.finished_perm (h : Sound fs paths workers finished w) (hdone : w.isDone = true) :
    finished.Perm (List.range paths.length) := by
  rw [isDone, Bool.and_eq_true, List.isEmpty_iff, List.isEmpty_iff] at hdone
  have hindices := h.indices
  rw [hdone.1, hdone.2] at hindices
  exact hindices

theorem Sound.report_eq (h : Sound fs paths workers finished w) (hdone : w.isDone = true)
    (elapsedMs : Nat) : w.report elapsedMs = files fs paths elapsedMs := by
  have hslots : w.slots = paths.map fun p => some (outcome fs p) := by
    rw [h.slots]
    refine List.ext_getElem (by simp) fun i hi hi' => ?_
    have hlt : i < paths.length := by simpa using hi'
    have hmem : i ∈ finished := (h.finished_perm hdone).mem_iff.mpr (List.mem_range.mpr hlt)
    simp [hmem, hlt]
  have houtcomes : w.slots.filterMap id = paths.map (outcome fs) := by
    rw [hslots, List.filterMap_map]
    exact congrFun List.filterMap_eq_map paths
  rw [report, houtcomes]
  rfl

/-- Every element of the list is announced once. -/
theorem Sound.announced_perm (h : Sound fs paths workers finished w) (hdone : w.isDone = true) :
    w.announced.Perm paths := by
  have hget : (List.range paths.length).map (fun i => paths[i]?) = paths.map some :=
    List.ext_getElem (by simp) fun i hi hi' => by
      have hlt : i < paths.length := by simpa using hi'
      simp [hlt]
  have hall : (List.range paths.length).filterMap (fun i => paths[i]?) = paths := by
    have hmap : (List.range paths.length).filterMap (fun i => paths[i]?) =
        ((List.range paths.length).map fun i => paths[i]?).filterMap id := by
      rw [List.filterMap_map]
      rfl
    rw [hmap, hget, List.filterMap_map]
    exact List.filterMap_some
  rw [h.announced]
  exact ((h.finished_perm hdone).filterMap _).trans (by rw [hall])

/-- What is still to be done: two events for a file that waits, one for a file in work. -/
def left (w : Work) : Nat := 2 * w.waiting.length + w.running.length

/-- Where there is a worker nothing gets stuck: every schedule can be carried to its end. -/
theorem Sound.completes (hworkers : 0 < workers) (h : Sound fs paths workers finished w) :
    ∃ (more : List Event) (w' : Work), more.foldlM (step? fs paths workers) w = some w' ∧
      w'.isDone = true := by
  induction hn : w.left using Nat.strongRecOn generalizing w finished with
  | ind n ih =>
    have hnext : ∀ e next, step? fs paths workers w e = some next → next.left < w.left →
        ∃ (more : List Event) (w' : Work), more.foldlM (step? fs paths workers) w = some w' ∧
        w'.isDone = true := by
      intro e next hstep hless
      obtain ⟨finished', hsound⟩ := step?_sound h hstep
      obtain ⟨more, w', hrun, hdone⟩ := ih next.left (by omega) hsound rfl
      refine ⟨e :: more, w', ?_, hdone⟩
      rw [List.foldlM_cons, hstep]
      exact hrun
    cases hrunning : w.running with
    | cons i running =>
      have hi : i ∈ w.running := by simp [hrunning]
      obtain ⟨path, hpath⟩ := h.exists_path hi
      refine hnext (.finish i) _ (step?_finish hi hpath) ?_
      simp only [left, hrunning, List.erase_cons_head, List.length_cons]
      omega
    | nil =>
      cases hwaiting : w.waiting with
      | cons i waiting =>
        refine hnext (.start i) _ (step?_start (by simp [hwaiting])
          (by simp [hrunning, hworkers])) ?_
        simp only [left, hwaiting, hrunning, List.erase_cons_head, List.length_cons,
          List.nil_append, List.length_nil]
        omega
      | nil => exact ⟨[], w, rfl, by simp [isDone, hwaiting, hrunning]⟩

end HeaderIndex.Scan.Work
