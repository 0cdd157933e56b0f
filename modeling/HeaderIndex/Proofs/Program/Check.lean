import HeaderIndex.Proofs.Arguments
import HeaderIndex.Proofs.Program.Status

/-! A run with the check and the same run without it. What a run finds does not depend on whether
it is checked, so the check can only add what it has to say at the end of one channel
(`check_only_adds`). -/

namespace HeaderIndex.Program

open HeaderIndex.Text

/-- The problems in what a run lists; a run that lists nothing has none. -/
def problems (input : Input) (a : Arguments) : List Problem :=
  match find input a with
  | .error _ => []
  | .ok found =>
    match listing input a found with
    | .error _ => []
    | .ok _ => found.report.catalogue.check found.settings.check

theorem lines_nil : lines [] = "" := rfl

/-- What a checked run shows, by what the same run shows without the check. -/
theorem perform_check (input : Input) (arguments : List Name) {a : Arguments}
    (h : a.check = false) :
    let added := lines ((problems input a).map Problem.message)
    perform { input with arguments := arguments } { a with check := true } =
      if a.format = .json then { perform input a with err := (perform input a).err ++ added }
      else { perform input a with out := (perform input a).out ++ added } := by
  intro added
  have hfind : find { input with arguments := arguments } { a with check := true } =
      find input a := rfl
  have hlisting : ∀ found, listing { input with arguments := arguments } { a with check := true }
      found = listing input a found := fun _ => rfl
  simp only [perform, complete, hfind, hlisting, added, problems]
  cases find input a with
  | error failure => simp [lines_nil, bind, Except.bind]
  | ok found =>
    simp only [bind, Except.bind]
    cases listing input a found with
    | error failure => simp [lines_nil]
    | ok text =>
      by_cases hformat : a.format = .json
      · simp [pure, Except.pure, present, problemLines, h, hformat]
      · simp [pure, Except.pure, present, problemLines, h, hformat]

/-- **The check never changes a run.** Let a command line be understood and not ask for the check.
To add `--check` to it, before any `--` and not in place of an option's value, leaves the
status as it is. In JSON the listing stays and the problems come last on the other
channel; otherwise they come last behind the listing and the other channel stays. Where
there are none, nothing changes. -/
theorem check_only_adds (input : Input) (before after : List Name) (a : Arguments)
    (hline : input.arguments = before ++ after) (hdash : Utf8.bytes "--" ∉ before)
    (hlast : ∀ text ∈ before.getLast?, Arguments.awaitsValue text = false)
    (hparse : Arguments.parse input.arguments = .ok a) (hcheck : a.check = false) :
    let plain := run input
    let checked := run { input with arguments := before ++ Utf8.bytes "--check" :: after }
    let added := lines ((problems input a).map fun p =>
      "Problem: " ++ p.symbol ++ " in " ++ p.path.display)
    checked.status = plain.status ∧
    (a.format = .json → checked.out = plain.out ∧ checked.err = plain.err ++ added) ∧
    (a.format ≠ .json → checked.err = plain.err ∧ checked.out = plain.out ++ added) ∧
    (problems input a = [] → checked = plain) := by
  intro plain checked added
  have hplain : plain = perform input a := run_of_parse hparse
  have hchecked : checked = if a.format = .json then { plain with err := plain.err ++ added }
      else { plain with out := plain.out ++ added } := by
    rw [hline] at hparse
    rw [hplain]
    have hparse' := Arguments.parse_insert_check hdash hlast hparse hcheck
    exact (run_of_parse hparse').trans (perform_check input _ hcheck)
  refine ⟨?_, fun hformat => ?_, fun hformat => ?_, fun hnone => ?_⟩
  · rw [hchecked]
    split <;> rfl
  · rw [hchecked, if_pos hformat]
    exact ⟨rfl, rfl⟩
  · rw [hchecked, if_neg hformat]
    exact ⟨rfl, rfl⟩
  · have hadded : added = "" := by
      simp only [added, hnone, List.map_nil, lines_nil]
    rw [hchecked, hadded, String.append_empty, String.append_empty]
    split <;> rfl

/-- A symbol with a short name, beside a file that cannot be read. -/
theorem check_only_adds_partial :
    let checked := run { partialInput with
      arguments := [Utf8.bytes "-f", Utf8.bytes "raw", Utf8.bytes "--check", Utf8.bytes "/"] }
    checked.status = (run partialInput).status ∧ checked.err = (run partialInput).err ∧
      checked.out = (run partialInput).out ++ "Problem: x in /a.h\n" := by
  intro checked
  have hproblems : problems partialInput (everything .raw) =
      [⟨.ofText "/a.h", "x", .tooShort⟩] := by
    rw [problems, find_eq_ok_iff.mpr ⟨_, _, partialInput_collects, rfl, rfl⟩]
    decide +kernel
  obtain ⟨hstatus, _, hother, _⟩ :=
    check_only_adds partialInput [Utf8.bytes "-f", Utf8.bytes "raw"] [Utf8.bytes "/"]
      (everything .raw) rfl (by decide) (by decide) rfl rfl
  obtain ⟨herr, hout⟩ := hother (by decide)
  rw [hproblems] at hout
  exact ⟨hstatus, herr, hout⟩

end HeaderIndex.Program
