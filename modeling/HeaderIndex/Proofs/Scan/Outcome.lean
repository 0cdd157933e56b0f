import HeaderIndex.Proofs.Catalogue
import HeaderIndex.Scan.Basic

/-! Outcomes and the report made of them. What a report says about a path comes from the
outcomes of that path alone (`about_report`). Outcomes of pairwise different paths are all
accounted for, and their order does not matter (`report_paths`, `report_congr`). -/

namespace HeaderIndex

/-- A report without the time it took. -/
def Report.untimed (r : Report) : Report := { r with stats := { r.stats with elapsedMs := 0 } }

/-- What a report says about a path, however it is spelled: its symbols, if it has any on
record, and its failures. -/
def Report.about (r : Report) (path : Path) : Option (List Symbol) × List Failure :=
  (r.catalogue.get? path, r.failures.filter fun f => f.path.same path)

namespace Scan

def pathOf : Except Failure Record → Path
  | .ok record => record.path
  | .error failure => failure.path

theorem pathOf_outcome (fs : FileSystem) (path : Path) : pathOf (outcome fs path) = path := by
  unfold outcome
  split
  · rename_i record hfile
    unfold file at hfile
    split at hfile
    · cases hfile
    · split at hfile
      · cases hfile
      · cases hfile
        rfl
  · rfl

theorem map_pathOf_outcome (fs : FileSystem) (paths : List Path) :
    (paths.map (outcome fs)).map pathOf = paths := by
  rw [List.map_map]
  exact (List.map_congr_left fun p _ => pathOf_outcome fs p).trans (List.map_id paths)

def Distinct (outcomes : List (Except Failure Record)) : Prop :=
  (outcomes.map pathOf).Pairwise fun p q => p.same q = false

theorem distinct_outcomes {fs : FileSystem} {paths : List Path}
    (h : paths.Pairwise fun p q => p.same q = false) : Distinct (paths.map (outcome fs)) := by
  rw [Distinct, map_pathOf_outcome]
  exact h

theorem Distinct.perm {outcomes outcomes' : List (Except Failure Record)} (h : Distinct outcomes)
    (hperm : outcomes.Perm outcomes') : Distinct outcomes' :=
  (hperm.map pathOf).pairwise h fun hpq => by rwa [Path.same_comm]

/-! ## Records and failures among outcomes -/

variable {outcomes outcomes' : List (Except Failure Record)}

theorem records_cons_error (f : Failure) : records (.error f :: outcomes) = records outcomes := rfl

theorem failures_cons_error (f : Failure) :
    failures (.error f :: outcomes) = f :: failures outcomes :=
  rfl

/-- Every outcome is a record or a failure. -/
theorem paths_perm (outcomes : List (Except Failure Record)) :
    ((records outcomes).map (·.path) ++ (failures outcomes).map (·.path)).Perm
      (outcomes.map pathOf) := by
  induction outcomes with
  | nil => exact List.Perm.refl _
  | cons o outcomes ih =>
    cases o with
    | ok r => exact ih.cons r.path
    | error f =>
      rw [records_cons_error, failures_cons_error, List.map_cons]
      exact List.perm_middle.trans (ih.cons f.path)

/-- Choosing by path and choosing by kind of outcome may be done in either order. -/
theorem filter_filterMap_pathOf {α : Type} {f : Except Failure Record → Option α}
    {key : α → Path} (hf : ∀ o a, f o = some a → key a = pathOf o)
    (outcomes : List (Except Failure Record)) (path : Path) :
    (outcomes.filterMap f).filter (fun a => (key a).same path) = (outcomes.filter fun o =>
      (pathOf o).same path).filterMap f := by
  rw [List.filter_filterMap, List.filterMap_filter]
  refine congrArg (outcomes.filterMap ·) (funext fun o => ?_)
  cases ho : f o with
  | none => simp
  | some a => simp [Option.filter, hf o a ho]

theorem filter_records (outcomes : List (Except Failure Record)) (path : Path) :
    (records outcomes).filter (fun r => r.path.same path) =
      records (outcomes.filter fun o => (pathOf o).same path) := by
  refine filter_filterMap_pathOf (fun o r ho => ?_) outcomes path
  cases o with
  | ok record => cases ho; rfl
  | error failure => cases ho

theorem filter_failures (outcomes : List (Except Failure Record)) (path : Path) :
    (failures outcomes).filter (fun f => f.path.same path) =
      failures (outcomes.filter fun o => (pathOf o).same path) := by
  refine filter_filterMap_pathOf (fun o f ho => ?_) outcomes path
  cases o with
  | ok record => cases ho
  | error failure => cases ho; rfl

theorem Distinct.paths (h : Distinct outcomes) :
    ((records outcomes).map (·.path) ++ (failures outcomes).map (·.path)).Pairwise fun p q =>
      p.same q = false :=
  (paths_perm outcomes).symm.pairwise h fun hpq => by rwa [Path.same_comm]

theorem Distinct.records (h : Distinct outcomes) : Catalogue.Distinct (records outcomes) :=
  List.pairwise_map.mp (List.pairwise_append.mp h.paths).1

theorem Distinct.failures (h : Distinct outcomes) :
    (failures outcomes).Pairwise fun f g => f.path.same g.path = false :=
  List.pairwise_map.mp (List.pairwise_append.mp h.paths).2.1

/-! ## Reports -/

theorem about_report (outcomes : List (Except Failure Record)) (elapsedMs : Nat) (path : Path) :
    (report outcomes elapsedMs).about path =
      (((records (outcomes.filter fun o => (pathOf o).same path)).getLast?).map (·.symbols),
        failures (outcomes.filter fun o => (pathOf o).same path)) := by
  show (Catalogue.get? (.ofRecords (records outcomes)) path, _) = _
  rw [Catalogue.get?_ofRecords, filter_records]
  refine congrArg (Prod.mk _) ?_
  exact (Path.filter_mergeSort _ path).trans (filter_failures outcomes path)

theorem filter_outcomes (fs : FileSystem) (paths : List Path) (path : Path) :
    (paths.map (outcome fs)).filter (fun o => (pathOf o).same path) =
      (paths.filter fun p => p.same path).map (outcome fs) := by
  rw [List.filter_map]
  refine congrArg (List.map (outcome fs)) (List.filter_congr fun p _ => ?_)
  rw [Function.comp_apply, pathOf_outcome]

/-- The outcomes of different paths may come in any order. -/
theorem report_congr (h : Distinct outcomes) (hperm : outcomes.Perm outcomes') (elapsedMs : Nat) :
    report outcomes elapsedMs = report outcomes' elapsedMs := by
  have h' := h.perm hperm
  have hrecords : (records outcomes).Perm (records outcomes') := hperm.filterMap _
  have hfailures : (failures outcomes).Perm (failures outcomes') := hperm.filterMap _
  have hsorted : (failures outcomes).mergeSort (fun f g => f.path.le g.path) =
      (failures outcomes').mergeSort fun f g => f.path.le g.path :=
    Path.eq_of_perm_of_sorted (Path.sorted_mergeSort h.failures) (Path.sorted_mergeSort h'.failures)
      ((List.mergeSort_perm _ _).trans (hfailures.trans (List.mergeSort_perm _ _).symm))
  rw [report, report, Report.make, Report.make, Catalogue.ofRecords_congr h.records hrecords,
    hsorted, hfailures.length_eq]

theorem report_paths (h : Distinct outcomes) (elapsedMs : Nat) :
    ((report outcomes elapsedMs).catalogue.paths ++
      (report outcomes elapsedMs).failures.map (·.path)).Perm (outcomes.map pathOf) := by
  have hrecords := (Catalogue.ofRecords_perm h.records).map (·.path)
  have hfailures :=
    (List.mergeSort_perm (failures outcomes) fun f g => f.path.le g.path).map (·.path)
  exact (hrecords.append hfailures).trans (paths_perm outcomes)

theorem report_filesScanned (h : Distinct outcomes) (elapsedMs : Nat) :
    (report outcomes elapsedMs).stats.filesScanned = outcomes.length := by
  have hcount := (paths_perm outcomes).length_eq
  rw [List.length_append, List.length_map, List.length_map, List.length_map] at hcount
  show (Catalogue.ofRecords (records outcomes)).records.length +
    (failures outcomes).length = outcomes.length
  rw [(Catalogue.ofRecords_perm h.records).length_eq, hcount]

end Scan

end HeaderIndex
