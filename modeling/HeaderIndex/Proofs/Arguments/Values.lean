import HeaderIndex.Proofs.Arguments

/-! The values that a command line gives its options. They can be read off the command line:
each stands attached to its option or in the argument behind it (`given`). A command line
that is understood has taken all of them, in their order and nothing else
(`parse_values`). -/

namespace HeaderIndex.Arguments

open HeaderIndex.Arguments.Action HeaderIndex.Text

/-- The settings that actions give values for, with the values. -/
def given : List Action → List (Setting × Name)
  | [] => []
  | .give setting (some value) :: rest => (setting, value) :: given rest
  | .give setting none :: .word value :: rest => (setting, value) :: given rest
  | _ :: rest => given rest

def valuesOf (setting : Setting) (pairs : List (Setting × Name)) : List Name :=
  (pairs.filter fun pair => pair.1 == setting).map Prod.snd

/-- The values that a command line gives for a setting. -/
def values (setting : Setting) (texts : List Name) : List Name :=
  valuesOf setting (given (lineActions texts))

def number? (value : Name) : Option Nat := (Utf8.text? value).bind fun text => natural? text.toList

theorem valuesOf_append (setting : Setting) (pairs more : List (Setting × Name)) :
    valuesOf setting (pairs ++ more) = valuesOf setting pairs ++ valuesOf setting more := by
  rw [valuesOf, List.filter_append, List.map_append]
  rfl

/-! ## Taking values -/

/-- What has been read is the same but for some values. A number of workers is taken only once,
so no more than one value for it can be among them. -/
structure Takes (p : Progress) (pairs : List (Setting × Name)) (p' : Progress) : Prop where
  extensions : p'.extensions.map Utf8.bytes =
    p.extensions.map Utf8.bytes ++ valuesOf .extension pairs
  workers : p'.workers.toList.map some =
    p.workers.toList.map some ++ (valuesOf .workers pairs).map number?

namespace Takes

variable {p q r : Progress} {pairs more : List (Setting × Name)}

theorem nothing (hextensions : q.extensions = p.extensions) (hworkers : q.workers = p.workers) :
    Takes p [] q := by
  refine ⟨?_, ?_⟩
  · rw [hextensions]
    exact (List.append_nil _).symm
  · rw [hworkers]
    exact (List.append_nil _).symm

theorem trans (h : Takes p pairs q) (h' : Takes q more r) : Takes p (pairs ++ more) r := by
  refine ⟨?_, ?_⟩
  · rw [h'.extensions, h.extensions, valuesOf_append, List.append_assoc]
  · rw [h'.workers, h.workers, valuesOf_append, List.map_append, List.append_assoc]

theorem of_set {setting : Setting} {value : Name} (h : p.set setting value = .ok q) :
    Takes p [(setting, value)] q := by
  obtain ⟨hfree, text, rfl, htake⟩ := Progress.set_eq_ok_iff.mp h
  cases setting with
  | extension =>
    cases htake
    exact ⟨List.map_append, (List.append_nil _).symm⟩
  | workers =>
    simp only [Progress.take] at htake
    split at htake <;> cases htake
    rename_i number hnumber
    have hnone : p.workers = none :=
      Option.isNone_iff_eq_none.mp (Option.isSome_eq_false_iff.mp hfree)
    refine ⟨(List.append_nil _).symm, ?_⟩
    rw [hnone]
    show [some number] = [] ++ [number? (Utf8.bytes text)]
    rw [number?, Utf8.text?_bytes, Option.bind_some, hnumber, List.nil_append]
  | format =>
    simp only [Progress.take] at htake
    split at htake <;> cases htake
    exact ⟨(List.append_nil _).symm, (List.append_nil _).symm⟩

end Takes

theorem Progress.clear_of_nothing {p : Progress} (h : p.pending = .nothing) : p.clear = .ok p := by
  rw [clear_of_not_awaits (not_awaits_of_nothing h), settle_of_nothing h]

/-- A folder takes no value. -/
theorem takes_of_positional {p p' : Progress} (hp : p.pending = .nothing) {text : Name}
    (h : p.positional text >>= Progress.clear = .ok p') :
    Takes p [] p' ∧ p'.pending = .nothing := by
  obtain ⟨flags, extensions, workers, format, dirs, pending⟩ := p
  cases hp
  have hsettle :
      Progress.settle ⟨flags, extensions, workers, format, dirs, .dirs [text]⟩ = .ok p' :=
    h
  refine ⟨?_, Progress.settle_pending hsettle⟩
  simp only [Progress.settle] at hsettle
  split at hsettle <;> cases hsettle
  exact .nothing rfl rfl

/-- An action for which no value is awaited, and which awaits none, takes what it gives. -/
theorem takes_of_eager {p p' : Progress} (hp : p.pending = .nothing) {action : Action}
    (h : eager p action = .ok p') (haction : action.awaits = false) :
    Takes p (given [action]) p' ∧ p'.pending = .nothing := by
  refine ⟨?_, eager_pending h haction⟩
  cases action with
  | raise flag =>
    obtain ⟨q, hq, hclear⟩ := bind_eq_ok.mp h
    obtain ⟨_, r, hr, _, rfl⟩ := Progress.raise_eq_ok_iff.mp hq
    rw [Progress.settle_of_nothing hp] at hr
    cases hr
    have hpending : (p.withFlags (p.flags ++ [flag])).pending = .nothing := hp
    rw [Progress.clear_of_nothing hpending] at hclear
    cases hclear
    exact .nothing rfl rfl
  | give setting value =>
    cases value with
    | none => cases haction
    | some value =>
      obtain ⟨q, hq, hclear⟩ := bind_eq_ok.mp h
      obtain ⟨r, hr, hset⟩ := bind_eq_ok.mp hq
      rw [Progress.settle_of_nothing hp] at hr
      cases hr
      rw [Progress.clear_of_nothing ((Progress.set_pending hset).trans hp)] at hclear
      cases hclear
      exact .of_set hset
  | word text =>
    rw [eager, perform_word (Progress.not_awaits_of_nothing hp)] at h
    exact (takes_of_positional hp h).1
  | folder text => exact (takes_of_positional hp h).1
  | stop cause => cases h

/-- Where a value is awaited, only a word will do, and it is the value. -/
theorem takes_of_awaited {p p' : Progress} {setting : Setting} (hp : p.pending = .nothing)
    {action : Action}
    (h : eager { p with pending := .setting setting none } action = .ok p') :
    ∃ value, action = .word value ∧ Takes p [(setting, value)] p' ∧
      p'.pending = .nothing := by
  obtain ⟨flags, extensions, workers, format, dirs, pending⟩ := p
  cases hp
  cases action with
  | raise flag =>
    obtain ⟨q, hq, _⟩ := bind_eq_ok.mp h
    obtain ⟨_, r, hr, _⟩ := Progress.raise_eq_ok_iff.mp hq
    cases hr
  | give own value => cases value <;> cases h
  | word value =>
    have hset : Progress.set ⟨flags, extensions, workers, format, dirs, .nothing⟩
        setting value = .ok p' :=
      h
    exact ⟨value, rfl, .of_set hset, Progress.set_pending hset⟩
  | folder text => cases h
  | stop cause => cases h

theorem run_awaiting {p : Progress} (hp : p.pending = .nothing) (setting : Setting)
    (rest : List Action) : (.give setting none :: rest).foldlM eager p =
      rest.foldlM eager { p with pending := .setting setting none } := by
  rw [List.foldlM_cons, eager, perform, Progress.give, Progress.settle_of_nothing hp]
  rfl

theorem exists_give_of_awaits {action : Action} (h : action.awaits = true) :
    ∃ setting, action = .give setting none := by
  cases action with
  | give setting value =>
    cases value with
    | none => exact ⟨setting, rfl⟩
    | some value => cases h
  | _ => cases h

theorem given_of_not_attached {action : Action}
    (h : ∀ setting value, action ≠ .give setting (some value)) : given [action] = [] := by
  cases action with
  | give setting value =>
    cases value with
    | none => rfl
    | some value => exact absurd rfl (h setting value)
  | _ => rfl

/-- A run takes the values that its actions give. -/
theorem takes_of_run {actions : List Action} {p p' q : Progress} (hp : p.pending = .nothing)
    (h : actions.foldlM eager p = .ok p') (hq : p'.settle = .ok q) : Takes p (given actions) q := by
  fun_induction given actions generalizing p with
  | case1 =>
    cases h
    rw [Progress.settle_of_nothing hp] at hq
    cases hq
    exact .nothing rfl rfl
  | case2 setting value rest ih =>
    obtain ⟨r, hr, hrest⟩ := bind_eq_ok.mp h
    obtain ⟨htakes, hpending⟩ := takes_of_eager hp hr rfl
    exact htakes.trans (ih hpending hrest)
  | case3 setting value rest ih =>
    rw [run_awaiting hp] at h
    obtain ⟨r, hr, hrest⟩ := bind_eq_ok.mp h
    obtain ⟨_, hword, htakes, hpending⟩ := takes_of_awaited hp hr
    cases hword
    exact htakes.trans (ih hpending hrest)
  | case4 action rest hattached hseparate ih =>
    cases haction : action.awaits with
    | false =>
      obtain ⟨r, hr, hrest⟩ := bind_eq_ok.mp h
      obtain ⟨htakes, hpending⟩ := takes_of_eager hp hr haction
      rw [given_of_not_attached hattached] at htakes
      exact htakes.trans (ih hpending hrest)
    | true =>
      -- an option without its value: the run stops at the next action, or at its end
      obtain ⟨setting, rfl⟩ := exists_give_of_awaits haction
      rw [run_awaiting hp] at h
      cases rest with
      | nil =>
        cases h
        cases hq
      | cons next rest =>
        obtain ⟨r, hr, _⟩ := bind_eq_ok.mp h
        obtain ⟨value, rfl, _⟩ := takes_of_awaited hp hr
        exact absurd rfl (hseparate setting value rest rfl)

/-- What a command line that is understood asks for: the extensions are the values given for
them, and the number of workers is the one value given for it, if there is one. -/
theorem parse_values {texts : List Name} {a : Arguments} (h : parse texts = .ok a) :
    a.extensions.map Utf8.bytes = values .extension texts ∧
      a.workers.toList.map some = (values .workers texts).map number? := by
  obtain ⟨p, q, hp, hq, ha⟩ := parse_eq_ok_iff.mp h
  have htakes := takes_of_run rfl hp hq
  have hfinish : a.extensions = q.extensions ∧ a.workers = q.workers := by
    simp only [finish] at ha
    split at ha
    · cases ha
    · split at ha <;> cases ha
      exact ⟨rfl, rfl⟩
  rw [hfinish.1, hfinish.2]
  exact ⟨htakes.extensions, htakes.workers⟩

theorem workers_eq_some_iff {texts : List Name} {a : Arguments} (h : parse texts = .ok a)
    {number : Nat} :
    a.workers = some number ↔
      ∃ value, values .workers texts = [value] ∧ number? value = some number := by
  have hworkers := (parse_values h).2
  constructor
  · intro hnumber
    rw [hnumber] at hworkers
    obtain ⟨value, hvalue, heq⟩ := List.map_eq_singleton_iff.mp hworkers.symm
    exact ⟨value, hvalue, heq⟩
  · rintro ⟨value, hvalue, heq⟩
    rw [hvalue, List.map_singleton, heq] at hworkers
    cases hnumber : a.workers with
    | none => simp [hnumber] at hworkers
    | some own => simpa [hnumber] using hworkers

end HeaderIndex.Arguments
