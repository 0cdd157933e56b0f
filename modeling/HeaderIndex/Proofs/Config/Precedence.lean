import HeaderIndex.Proofs.Config.Boxed
import HeaderIndex.Proofs.Config.Dotenv
import HeaderIndex.Proofs.Config.Fields
import HeaderIndex.Proofs.Result

/-! Which source settings are taken from. The layers are the user's file, the project's file
and the environment, and each field is taken from the last of them that has it
(`load_takes_last_layer`); what the others say there is never read. -/

namespace HeaderIndex.Config

open HeaderIndex.Text

/-- The settings that the values of the fields give. The first field that cannot be read is
reported. -/
def gathered (values : Field → Option Value) : Except Error Settings := do
  let minLength : Nat ← Field.read values .minLength
  let suspicious : List String ← Field.read values .suspicious
  let extensions : List String ← Field.read values .extensions
  let respectIgnore : Bool ← Field.read values .respectIgnore
  let workers : Nat ← Field.read values .workers
  return ⟨⟨extensions, workers, respectIgnore⟩, ⟨minLength, suspicious⟩⟩

theorem gathered_eq_ok_iff {values : Field → Option Value} {s : Settings} :
    gathered values = .ok s ↔ ∀ f, Field.read values f = .ok (f.ofSettings s) := by
  unfold gathered
  simp only [bind_eq_ok]
  constructor
  · intro h
    obtain ⟨minLength, h₁, suspicious, h₂, extensions, h₃, respectIgnore, h₄,
        workers, h₅, h⟩ :=
      h
    obtain rfl := Except.ok.inj h
    intro f
    cases f
    · exact h₃
    · exact h₅
    · exact h₄
    · exact h₁
    · exact h₂
  · intro h
    exact ⟨_, h .minLength, _, h .suspicious, _, h .extensions, _, h .respectIgnore,
      _, h .workers, rfl⟩

section Sections

variable {members : Members} (h : members.Plain)

include h

theorem checkRules_eq : keyed [] members "check" CheckRules.standard checkRules = do
    let minLength : Nat ← Field.read members.at? .minLength
    let suspicious : List String ← Field.read members.at? .suspicious
    return ⟨minLength, suspicious⟩ := by
  simp only [Field.read, Members.at?, Field.place, keyed]
  cases hpart : members.lookup "check" with
  | none => rfl
  | some part =>
    rw [h.tables "check" (by decide) part hpart]
    rfl

theorem scanSettings_eq : keyed [] members "scan" ScanSettings.standard scanSettings = do
    let extensions : List String ← Field.read members.at? .extensions
    let respectIgnore : Bool ← Field.read members.at? .respectIgnore
    let workers : Nat ← Field.read members.at? .workers
    return ⟨extensions, workers, respectIgnore⟩ := by
  simp only [Field.read, Members.at?, Field.place, keyed]
  cases hpart : members.lookup "scan" with
  | none => rfl
  | some part =>
    rw [h.tables "scan" (by decide) part hpart]
    rfl

/-- Members whose sections are tables are read field by field. -/
theorem settings_eq : settings members = gathered members.at? := by
  rw [settings, checkRules_eq h, scanSettings_eq h, gathered]
  simp only [bind_assoc, pure_bind]

end Sections

/-! ## Layers -/

/-- The value of a field from the last layer that has it. -/
def resolved (user project environment : Members) (f : Field) : Option Value :=
  (environment.at? f).or ((project.at? f).or (user.at? f))

theorem at?_layered {user project environment : Members} (hu : user.Plain) (hp : project.Plain)
    (he : environment.Plain) (hpd : project.Distinct) (hed : environment.Distinct) :
    (layered user project environment).Plain ∧
      (layered user project environment).at? = resolved user project environment := by
  have hup := hu.merge hp hpd
  refine ⟨hup.merge he hed, funext fun f => ?_⟩
  rw [layered, Members.at?_merge hup he hed, Members.at?_merge hu hp hpd]
  rfl

def checked (s : Settings) : Except Error Settings :=
  match s.validate with
  | .ok () => .ok s
  | .error cause => .error (.unusable cause)

theorem checked_eq_ok_iff {s s' : Settings} :
    checked s = .ok s' ↔ s = s' ∧ s.validate = .ok () := by
  unfold checked
  split
  · rename_i h
    simp [h]
  · rename_i h
    simp [h]

theorem checked_eq_error_iff {s : Settings} {cause : SettingsError} :
    checked s = .error (.unusable cause) ↔ s.validate = .error cause := by
  unfold checked
  split
  · rename_i h
    simp [h]
  · rename_i h
    simp [h]

theorem load_eq {user project : Option (List UInt8)} {env : Variables} {u p : Members}
    (hu : fileMembers user = .ok u) (hp : fileMembers project = .ok p)
    (hplain : u.Plain ∧ p.Plain) (he : (environmentMembers env).Plain) :
    load ⟨user, project, env⟩ =
      gathered (resolved u p (environmentMembers env)) >>= checked := by
  obtain ⟨hlayers, hvalues⟩ := at?_layered hplain.1 hplain.2 he (distinct_of_fileMembers hp)
    (distinct_environmentMembers env)
  have husable : usable (layered u p (environmentMembers env)) =
      settings (layered u p (environmentMembers env)) >>= checked := rfl
  simp only [load, hu, hp]
  rw [← hvalues, ← settings_eq hlayers]
  exact husable

/-! ## Errors of single fields -/

theorem textsFrom_ne_unusable {path : List String} {index : Nat} {items : List Value}
    {cause : SettingsError} : textsFrom path index items ≠ .error (.unusable cause) := by
  induction items generalizing index with
  | nil => exact nofun
  | cons item rest ih =>
    rw [textsFrom, Ne, bind_eq_error, not_or]
    refine ⟨?_, ?_⟩
    · cases item <;> exact nofun
    · intro h
      obtain ⟨first, _, hrest⟩ := h
      rcases bind_eq_error.mp hrest with hrest | ⟨_, _, hdone⟩
      · exact ih hrest
      · cases hdone

/-- What can be wrong with a value by itself is never that the settings are unusable. -/
theorem Field.read_ne_unusable (values : Field → Option Value) (f : Field)
    (cause : SettingsError) : Field.read values f ≠ .error (.unusable cause) := by
  have hnatural : ∀ path value, natural path value ≠ .error (.unusable cause) := by
    intro path value
    unfold natural
    split
    · exact nofun
    · split <;> exact nofun
    · exact nofun
  have htexts : ∀ path value, texts path value ≠ .error (.unusable cause) := by
    intro path value
    unfold texts
    split
    · exact textsFrom_ne_unusable
    · exact nofun
  have hflag : ∀ path value, flag path value ≠ .error (.unusable cause) := by
    intro path value
    unfold flag
    split <;> exact nofun
  unfold Field.read
  cases values f with
  | none => exact nofun
  | some value =>
    cases f
    · exact htexts _ value
    · exact hnatural _ value
    · exact hflag _ value
    · exact hnatural _ value
    · exact htexts _ value

theorem gathered_ne_unusable (values : Field → Option Value) (cause : SettingsError) :
    gathered values ≠ .error (.unusable cause) := by
  intro h
  simp only [gathered, bind_eq_error] at h
  rcases h with h | ⟨_, _, h | ⟨_, _, h | ⟨_, _, h | ⟨_, _, h | ⟨_, _, h⟩⟩⟩⟩⟩
  · exact Field.read_ne_unusable _ _ _ h
  · exact Field.read_ne_unusable _ _ _ h
  · exact Field.read_ne_unusable _ _ _ h
  · exact Field.read_ne_unusable _ _ _ h
  · exact Field.read_ne_unusable _ _ _ h
  · cases h

/-- **The last layer that has a field gives it.** Where sections are tables and no field has a
key below it, the settings are what the fields have in the last of the user's file, the
project's file and the environment that sets them, or else their standard values; these are
read one by one and then checked, and nothing else is. A file gives what its text spells
unless that has boxes. A variable counts as the process has it, or without that as the file
of variables first assigns it, and of several for one field the last counts. -/
theorem load_takes_last_layer {user project dotenv : Option (List UInt8)} {env vars : Variables}
    {u p : Members} (hu : fileMembers user = .ok u) (hp : fileMembers project = .ok p)
    (hvars : vars = Dotenv.completed env dotenv) (hfiles : u.Plain ∧ p.Plain)
    (henv : (environmentMembers vars).Plain) :
    load ⟨user, project, vars⟩ =
      gathered (resolved u p (environmentMembers vars)) >>= checked ∧
    (∀ s, load ⟨user, project, vars⟩ = .ok s ↔
      (∀ f, Field.read (resolved u p (environmentMembers vars)) f = .ok (f.ofSettings s)) ∧
        s.validate = .ok ()) ∧
    (∀ cause, load ⟨user, project, vars⟩ = .error (.unusable cause) ↔
      ∃ s, (∀ f, Field.read (resolved u p (environmentMembers vars)) f = .ok (f.ofSettings s)) ∧
        s.validate = .error cause) ∧
    (∀ text members, Toml.parse? text = some members →
      (∀ member ∈ members, member.2.Boxless) →
      fileMembers (some (Utf8.encode text)) = .ok members) ∧
    (∀ name value, (name, value) ∈ vars ↔ (name, value) ∈ env ∨ env.get? name = none ∧
      ∃ bytes, dotenv = some bytes ∧ (Dotenv.written env bytes).get? name = some value) ∧
    ((∀ entry ∈ vars, (variableMembers entry.1 entry.2).Plain) →
      ∀ f, (environmentMembers vars).at? f =
        vars.reverse.findSome? fun entry => (variableMembers entry.1 entry.2).at? f) := by
  have hload := load_eq hu hp hfiles henv
  refine ⟨hload, fun s => ?_, fun cause => ?_, fun text members => fileMembers_of_boxless,
    fun name value => ?_, fun hentries => (at?_environmentMembers hentries).2⟩
  · rw [hload, bind_eq_ok]
    simp only [gathered_eq_ok_iff, checked_eq_ok_iff]
    constructor
    · intro h
      obtain ⟨found, hfields, rfl, hvalid⟩ := h
      exact ⟨hfields, hvalid⟩
    · intro h
      exact ⟨s, h.1, rfl, h.2⟩
  · rw [hload, bind_eq_error, or_iff_right (gathered_ne_unusable _ cause)]
    simp only [gathered_eq_ok_iff, checked_eq_error_iff]
  · rw [hvars]
    exact Dotenv.mem_completed

/-- Files and variables with values that are overridden: a number of workers that is no use, and
extensions that are no list. -/
def overridden : Sources where
  user := some (Utf8.encode "[scan]\nworkers = 0\nextensions = 5\nother = 1\n".toList)
  project := some (Utf8.encode "check.min_length = 3\n".toList)
  env := Dotenv.completed [("HSYM_SCAN__WORKERS", "2")]
    (some (Utf8.encode "HSYM_SCAN__WORKERS=9\nHSYM_SCAN__EXTENSIONS=[m]\n".toList))

/-- Nothing is wrong with the settings, and each field is read from one source. -/
theorem load_takes_last_layer_overridden :
    ∃ u p, fileMembers overridden.user = .ok u ∧ fileMembers overridden.project = .ok p ∧
      load overridden = .ok ⟨⟨["m"], 2, false⟩, ⟨3, CheckRules.standard.suspicious⟩⟩ ∧
      ∀ f, Field.read (resolved u p (environmentMembers overridden.env)) f =
        .ok (f.ofSettings ⟨⟨["m"], 2, false⟩, ⟨3, CheckRules.standard.suspicious⟩⟩) := by
  have huser : (fileMembers overridden.user).toOption.any (fun u => decide u.Plain) = true := by
    decide +kernel
  have hproject : (fileMembers overridden.project).toOption.any
      (fun p => decide p.Plain) = true := by
    decide +kernel
  have hload : (load overridden).toOption =
      some ⟨⟨["m"], 2, false⟩, ⟨3, CheckRules.standard.suspicious⟩⟩ := by
    decide +kernel
  obtain ⟨u, hu, huplain⟩ := (Option.any_eq_true ..).mp huser
  obtain ⟨p, hp, hpplain⟩ := (Option.any_eq_true ..).mp hproject
  rw [toOption_eq_some_iff] at hu hp hload
  have henv : (environmentMembers overridden.env).Plain := by decide +kernel
  have hvars : overridden.env = Dotenv.completed [("HSYM_SCAN__WORKERS", "2")]
    (some (Utf8.encode "HSYM_SCAN__WORKERS=9\nHSYM_SCAN__EXTENSIONS=[m]\n".toList)) := rfl
  obtain ⟨_, hok, _⟩ := load_takes_last_layer hu hp hvars
    ⟨of_decide_eq_true huplain, of_decide_eq_true hpplain⟩ henv
  exact ⟨u, p, hu, hp, hload, ((hok _).mp hload).1⟩

/-- A section with a field and, beside it, the key that no table may have. -/
def markedSection : List Char := "[check]\n___figment_value_id = 3\nmin_length = 4\n".toList

/-- Though the text spells a table with the field in it, nothing of it can be read. -/
theorem marked_section_loses_field :
    (∃ members, Toml.parse? markedSection = some members ∧ members.Plain ∧
      (members.at? .minLength).map Value.description = some "signed int `4`") ∧
      ∃ e, load ⟨none, some (Utf8.encode markedSection), []⟩ = .error e ∧
      e.detail = "malformed document" := by
  have hparse : (Toml.parse? markedSection).any (fun members => decide (members.Plain ∧
      (members.at? .minLength).map Value.description = some "signed int `4`")) = true := by
    decide +kernel
  have hload : (load ⟨none, some (Utf8.encode markedSection), []⟩).mapError Error.detail =
      .error "malformed document" := by
    decide +kernel
  obtain ⟨members, hmembers, hfield⟩ := (Option.any_eq_true ..).mp hparse
  exact ⟨⟨members, hmembers, of_decide_eq_true hfield⟩, mapError_eq_error.mp hload⟩

end HeaderIndex.Config
