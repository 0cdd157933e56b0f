import HeaderIndex.Arguments
import HeaderIndex.Proofs.Text.Utf8
import Mathlib.Data.List.Nodup

/-! Command lines as lists of actions. Each argument stands for a few actions, whatever has been
read before it (`argument_eq`), so a command line is one list of them. Values are looked at
late, but a command line that is understood would be understood in the same way if each
value were looked at as soon as it is complete (`run_eager`). Then the actions
between which a flag is raised do not notice it (`parse_insert_check`). -/

namespace HeaderIndex.Arguments

open HeaderIndex.Text

/-- A part of what an argument does. -/
inductive Action where
  | raise (flag : Flag)
  | give (setting : Setting) (value : Option Name)
  /-- The value that is awaited, or a folder if none is. -/
  | word (text : Name)
  | folder (text : Name)
  | stop (cause : Stop)

namespace Action

def perform (p : Progress) : Action → Except Stop Progress
  | raise flag => p.raise flag
  | give setting value => p.give setting value
  | word text =>
    match p.pending with
    | .setting setting none => .ok { p with pending := .setting setting (some text) }
    | _ => p.positional text
  | folder text => p.positional text
  | stop cause => .error cause

/-- Whether the next argument is the value of this option. -/
def awaits : Action → Bool
  | give _ none => true
  | _ => false

def flag? : Action → Option Flag
  | raise flag => some flag
  | _ => none

end Action

/-! ## Actions of arguments -/

def attached? : Name → Option Name
  | [] => none
  | sign :: value => some (if sign == equals then value else sign :: value)

def letterActions : Name → List Action
  | [] => []
  | letter :: rest =>
    match short? (Char.ofUInt8 letter) with
    | none => [.stop (.unknown (letter :: rest))]
    | some (.flag flag) => .raise flag :: letterActions rest
    | some (.setting setting) => [.give setting (attached? rest)]

def longAction (name : Name) (value : Option Name) : Action :=
  match (Utf8.text? name).bind long? with
  | none => .stop (.unknown name)
  | some (.setting setting) => .give setting value
  | some (.flag flag) => if value.isSome then .stop (.needlessValue flag) else .raise flag

/-- What an argument does where it may be an option. -/
def actions (text : Name) : List Action :=
  match text with
  | dash :: dash :: rest =>
    match rest.dropWhile (· != equals) with
    | [] => [longAction rest none]
    | _ :: value => [longAction (rest.takeWhile (· != equals)) (some value)]
  | dash :: letter :: rest => letterActions (letter :: rest)
  | _ => [.word text]

def lineActions : List Name → List Action
  | [] => []
  | text :: rest =>
    if text == [dash, dash] then rest.map .folder else actions text ++ lineActions rest

/-- Whether an argument ends in an option whose value is the next argument. -/
def awaitsValue (text : Name) : Bool := (actions text).getLast?.any Action.awaits

open HeaderIndex.Arguments.Action

theorem letters_eq (letters : Name) (p : Progress) :
    p.letters letters = (letterActions letters).foldlM perform p := by
  induction letters generalizing p with
  | nil => rfl
  | cons letter rest ih =>
    rw [Progress.letters.eq_def, letterActions]
    dsimp only
    cases short? (Char.ofUInt8 letter) with
    | none => rfl
    | some choice =>
      cases choice with
      | flag flag => simp only [List.foldlM_cons, perform, ih]
      | setting setting =>
        simp only [List.foldlM_cons, List.foldlM_nil, bind_pure, perform]
        rfl

theorem long_eq (p : Progress) (name : Name) (value : Option Name) :
    p.long name value = perform p (longAction name value) := by
  rw [Progress.long, longAction]
  cases (Utf8.text? name).bind long? with
  | none => rfl
  | some choice =>
    cases choice with
    | setting setting => rfl
    | flag flag =>
      by_cases hvalue : value.isSome = true
      · simp only [if_pos hvalue, perform]
      · simp only [if_neg hvalue, perform]

theorem argument_eq (p : Progress) (text : Name) :
    p.argument text = (actions text).foldlM perform p := by
  rw [Progress.argument.eq_def]
  fun_cases actions text with
  | case1 rest hvalue =>
    simp only [hvalue, long_eq, List.foldlM_cons, List.foldlM_nil, bind_pure]
  | case2 rest sign value hvalue =>
    simp only [hvalue, long_eq, List.foldlM_cons, List.foldlM_nil, bind_pure]
  | case3 letter rest hdash => simp only [← letters_eq]
  | case4 text hlong hletter =>
    simp only [List.foldlM_cons, List.foldlM_nil, bind_pure]
    rfl

theorem arguments_eq (texts : List Name) (p : Progress) :
    p.arguments texts = (lineActions texts).foldlM perform p >>= Progress.settle := by
  induction texts generalizing p with
  | nil => rfl
  | cons text rest ih =>
    rw [Progress.arguments, lineActions]
    by_cases hdash : (text == [dash, dash]) = true
    · simp only [if_pos hdash, List.foldlM_map]
      rfl
    · simp only [if_neg hdash, argument_eq, ih, List.foldlM_append, bind_assoc]

theorem lineActions_append {before : List Name} (h : [dash, dash] ∉ before) (after : List Name) :
    lineActions (before ++ after) = before.flatMap actions ++ lineActions after := by
  induction before with
  | nil => rfl
  | cons text rest ih =>
    have htext : ¬ (text == [dash, dash]) = true := by
      intro heq
      exact h (by rw [eq_of_beq heq]; exact List.mem_cons_self)
    rw [List.cons_append, lineActions, if_neg htext, ih fun hrest =>
      h (List.mem_cons_of_mem text hrest), List.flatMap_cons, List.append_assoc]

theorem letterActions_ne_nil (letter : UInt8) (rest : Name) :
    letterActions (letter :: rest) ≠ [] := by
  rw [letterActions]
  split <;> simp

theorem actions_ne_nil (text : Name) : actions text ≠ [] := by
  fun_cases actions text with
  | case3 letter rest => exact letterActions_ne_nil letter rest
  | _ => simp

theorem getLast?_flatMap_actions {texts : List Name}
    (h : ∀ text ∈ texts.getLast?, awaitsValue text = false) :
    ∀ action ∈ (texts.flatMap actions).getLast?, action.awaits = false := by
  obtain rfl | ⟨before, text, rfl⟩ := texts.eq_nil_or_concat
  · simp
  · intro action haction
    have htext : awaitsValue text = false := h text (by simp)
    rw [List.concat_eq_append, List.flatMap_append, List.flatMap_singleton,
      List.getLast?_append_of_ne_nil _ (actions_ne_nil text)] at haction
    rw [awaitsValue, Option.mem_def.mp haction] at htext
    exact htext

/-! ## Looking at values at once -/

namespace Progress

/-- Look at what is pending, unless a value is awaited. -/
def clear (p : Progress) : Except Stop Progress :=
  match p.pending with
  | .setting _ none => .ok p
  | _ => p.settle

/-- Whether the next argument is a value. -/
def Awaits (p : Progress) : Prop := ∃ setting, p.pending = .setting setting none

theorem clear_of_awaits {p : Progress} (h : p.Awaits) : p.clear = .ok p := by
  obtain ⟨setting, h⟩ := h
  simp only [clear, h]

theorem clear_of_not_awaits {p : Progress} (h : ¬ p.Awaits) : p.clear = p.settle := by
  rw [clear]
  split
  · exact absurd ⟨_, ‹_›⟩ h
  · rfl

theorem set_eq_ok_iff {p p' : Progress} {setting : Setting} {value : Name} :
    p.set setting value = .ok p' ↔ p.isSet setting = false ∧ ∃ text,
      value = Utf8.bytes text ∧ p.take setting text = .ok p' := by
  simp only [set, ← Utf8.text?_eq_some_iff]
  cases p.isSet setting <;> cases Utf8.text? value <;> simp

/-- A value is taken whatever flags are up and whatever is pending. -/
theorem take_with {p p' : Progress} {setting : Setting} {value : String}
    (h : p.take setting value = .ok p') (flags : List Flag) (pending : Pending) :
    take { p with flags := flags, pending := pending } setting value =
      .ok { p' with flags := flags, pending := pending } := by
  cases setting with
  | extension => cases h; rfl
  | workers =>
    simp only [take] at h ⊢
    split at h <;> cases h
    rfl
  | format =>
    simp only [take] at h ⊢
    split at h <;> cases h
    rfl

theorem set_with {p p' : Progress} {setting : Setting} {value : Name}
    (h : p.set setting value = .ok p') (flags : List Flag) (pending : Pending) :
    set { p with flags := flags, pending := pending } setting value =
      .ok { p' with flags := flags, pending := pending } := by
  obtain ⟨hfree, text, htext, htake⟩ := set_eq_ok_iff.mp h
  refine set_eq_ok_iff.mpr ⟨?_, text, htext, take_with htake flags pending⟩
  cases setting <;> exact hfree

theorem set_pending {p p' : Progress} {setting : Setting} {value : Name}
    (h : p.set setting value = .ok p') : p'.pending = p.pending := by
  have hsame : Except.ok p' = .ok { p' with flags := p.flags, pending := p.pending } :=
    h.symm.trans (set_with h p.flags p.pending)
  rw [Except.ok.inj hsame]

theorem settle_pending {p p' : Progress} (h : p.settle = .ok p') : p'.pending = .nothing := by
  simp only [settle] at h
  split at h
  · cases h; rfl
  · cases h
  · exact set_pending h
  · split at h <;> cases h
    rfl

theorem not_awaits_of_nothing {p : Progress} (h : p.pending = .nothing) : ¬ p.Awaits := by
  rintro ⟨setting, hsetting⟩
  rw [h] at hsetting
  cases hsetting

theorem settle_of_nothing {p : Progress} (h : p.pending = .nothing) : p.settle = .ok p := by
  obtain ⟨flags, extensions, workers, format, dirs, pending⟩ := p
  cases h
  rfl

/-- Looking twice is looking once. -/
theorem settle_settle {α : Type} (p : Progress) (f : Progress → Except Stop α) :
    (p.settle >>= fun p' => p'.settle >>= f) = p.settle >>= f := by
  cases h : p.settle with
  | error cause => rfl
  | ok p' =>
    show p'.settle >>= f = f p'
    rw [settle_of_nothing (settle_pending h)]
    rfl

theorem raise_settle (p : Progress) (flag : Flag) :
    p.raise flag = p.settle >>= (·.raise flag) := by
  simp only [raise, settle_settle]

theorem give_settle (p : Progress) (setting : Setting) (value : Option Name) :
    p.give setting value = p.settle >>= (·.give setting value) := by
  cases value <;> simp only [give, settle_settle]

theorem positional_settle {p : Progress} (h : ∀ texts, p.pending ≠ .dirs texts) (text : Name) :
    p.positional text = p.settle >>= (·.positional text) := by
  have hpositional : ∀ q : Progress, (∀ texts, q.pending ≠ .dirs texts) →
      q.positional text = q.settle >>= fun q' => pure { q' with pending := .dirs [text] } := by
    intro q hq
    rw [positional]
    split
    · exact absurd ‹_› (hq _)
    · rfl
  rw [hpositional p h, ← settle_settle]
  cases hp : p.settle with
  | error cause => rfl
  | ok p' =>
    refine (hpositional p' fun texts htexts => ?_).symm
    rw [settle_pending hp] at htexts
    cases htexts

/-- Folders that are listed together are settled as they would be one by one. -/
theorem positional_dirs {p : Progress} {texts : List Name} (h : p.pending = .dirs texts)
    (text : Name) :
    p.positional text >>= clear = p.settle >>= fun p' => p'.positional text >>= clear := by
  obtain ⟨flags, extensions, workers, format, dirs, pending⟩ := p
  cases h
  show settle ⟨flags, extensions, workers, format, dirs, .dirs (texts ++ [text])⟩ = _
  by_cases htexts : texts.any List.isEmpty = true
  · simp [settle, htexts, bind, Except.bind]
  · by_cases htext : text.isEmpty = true <;>
      simp [clear, settle, positional, htexts, htext, bind, Except.bind, pure, Except.pure]

theorem positional_clear (p : Progress) (text : Name) :
    p.positional text >>= clear = p.settle >>= fun p' => p'.positional text >>= clear := by
  by_cases hdirs : ∃ texts, p.pending = .dirs texts
  · obtain ⟨texts, hdirs⟩ := hdirs
    exact positional_dirs hdirs text
  · rw [positional_settle (fun texts htexts => hdirs ⟨texts, htexts⟩), bind_assoc]

end Progress

/-- An action, with values looked at as soon as they are complete. -/
def Action.eager (p : Progress) (action : Action) : Except Stop Progress :=
  perform p action >>= Progress.clear

theorem perform_word {p : Progress} (h : ¬ p.Awaits) (text : Name) :
    perform p (.word text) = p.positional text := by
  rw [perform]
  split
  · exact absurd ⟨_, ‹_›⟩ h
  · rfl

/-- Looking at a complete value before an action rather than after it makes no difference, unless
it is for which of two reasons there is no run. -/
theorem eager_clear (p : Progress) (action : Action) :
    (eager p action).toOption = (p.clear >>= fun p' => eager p' action).toOption := by
  by_cases hawaits : p.Awaits
  · rw [Progress.clear_of_awaits hawaits]
    rfl
  · rw [Progress.clear_of_not_awaits hawaits]
    cases action with
    | raise flag => simp only [eager, perform, ← bind_assoc, ← Progress.raise_settle]
    | give setting value => simp only [eager, perform, ← bind_assoc, ← Progress.give_settle]
    | folder text => simp only [eager, perform, ← Progress.positional_clear]
    | stop cause => cases p.settle <;> rfl
    | word text =>
      rw [eager, perform_word hawaits, Progress.positional_clear]
      cases hp : p.settle with
      | error cause => rfl
      | ok p' =>
        have hp' : ¬ p'.Awaits := Progress.not_awaits_of_nothing (Progress.settle_pending hp)
        show (p'.positional text >>= Progress.clear).toOption =
          (perform p' (.word text) >>= Progress.clear).toOption
        rw [perform_word hp']

theorem settle_clear (p : Progress) : p.settle = p.clear >>= Progress.settle := by
  by_cases hawaits : p.Awaits
  · rw [Progress.clear_of_awaits hawaits]
    rfl
  · have htwice := p.settle_settle pure
    rw [Progress.clear_of_not_awaits hawaits]
    simpa only [bind_pure] using htwice.symm

/-- A command line is understood as if every value were looked at when it is complete. -/
theorem run_eager (actions : List Action) (p : Progress) :
    (actions.foldlM perform p >>= Progress.settle).toOption =
      (p.clear >>= fun p' => actions.foldlM eager p' >>= Progress.settle).toOption := by
  induction actions generalizing p with
  | nil =>
    simp only [List.foldlM_nil, pure_bind]
    rw [settle_clear]
  | cons action rest ih =>
    -- The induction moves the look at a value from behind the rest to right behind the action;
    -- `eager_clear` moves the one before the action past it.
    have hnext : ∀ q : Progress,
      ((eager q action) >>= fun q' => rest.foldlM eager q' >>= Progress.settle).toOption =
        (perform q action >>= fun q' => rest.foldlM perform q' >>= Progress.settle).toOption := by
      intro q
      rw [eager, bind_assoc, toOption_bind, toOption_bind]
      exact congrArg _ (funext fun q' => (ih q').symm)
    simp only [List.foldlM_cons, bind_assoc]
    rw [← hnext, toOption_bind, eager_clear, ← toOption_bind, bind_assoc]

/-! ## Flags -/

namespace Progress

def withFlags (p : Progress) (flags : List Flag) : Progress := { p with flags := flags }

theorem set_withFlags {p p' : Progress} {setting : Setting} {value : Name}
    (h : p.set setting value = .ok p') (flags : List Flag) :
    (p.withFlags flags).set setting value = .ok (p'.withFlags flags) := by
  have hset : (p.withFlags flags).set setting value =
      .ok { p' with flags := flags, pending := p.pending } := set_with h flags p.pending
  rw [← set_pending h] at hset
  exact hset

theorem settle_withFlags {p p' : Progress} (h : p.settle = .ok p') (flags : List Flag) :
    (p.withFlags flags).settle = .ok (p'.withFlags flags) := by
  obtain ⟨own, extensions, workers, format, dirs, pending⟩ := p
  cases pending with
  | nothing => cases h; rfl
  | setting setting value =>
    cases value with
    | none => cases h
    | some value => exact set_withFlags h flags
  | dirs texts =>
    simp only [settle, withFlags] at h ⊢
    split at h <;> cases h
    exact if_neg ‹_›

theorem settle_flags {p p' : Progress} (h : p.settle = .ok p') : p'.flags = p.flags := by
  have hsame : Except.ok p' = .ok (p'.withFlags p.flags) :=
    h.symm.trans (settle_withFlags h p.flags)
  rw [Except.ok.inj hsame]
  rfl

theorem clear_withFlags {p p' : Progress} (h : p.clear = .ok p') (flags : List Flag) :
    (p.withFlags flags).clear = .ok (p'.withFlags flags) := by
  by_cases hawaits : p.Awaits
  · rw [clear_of_awaits hawaits] at h
    cases h
    exact clear_of_awaits hawaits
  · rw [clear_of_not_awaits hawaits] at h
    rw [clear_of_not_awaits (p := p.withFlags flags) hawaits, settle_withFlags h flags]

theorem give_withFlags {p p' : Progress} {setting : Setting} {value : Option Name}
    (h : p.give setting value = .ok p') (flags : List Flag) :
    (p.withFlags flags).give setting value = .ok (p'.withFlags flags) := by
  cases value with
  | none =>
    obtain ⟨q, hq, h⟩ := bind_eq_ok.mp h
    cases h
    exact bind_eq_ok.mpr ⟨_, settle_withFlags hq flags, rfl⟩
  | some value =>
    obtain ⟨q, hq, h⟩ := bind_eq_ok.mp h
    exact bind_eq_ok.mpr ⟨_, settle_withFlags hq flags, set_withFlags h flags⟩

theorem positional_withFlags {p p' : Progress} {text : Name} (h : p.positional text = .ok p')
    (flags : List Flag) : (p.withFlags flags).positional text = .ok (p'.withFlags flags) := by
  simp only [positional] at h ⊢
  split at h
  · cases h
    simp only [withFlags, *]
  · obtain ⟨q, hq, h⟩ := bind_eq_ok.mp h
    cases h
    simp only [withFlags, *]
    exact bind_eq_ok.mpr ⟨_, settle_withFlags hq flags, rfl⟩

theorem raise_eq {flag : Flag} (hhelp : flag ≠ .help) (hversion : flag ≠ .version)
    (p : Progress) : p.raise flag = p.settle >>= fun q =>
      if q.flags.contains flag then .error .repeated
      else .ok (q.withFlags (q.flags ++ [flag])) := by
  cases flag with
  | help => exact absurd rfl hhelp
  | version => exact absurd rfl hversion
  | _ => rfl

theorem raise_eq_ok_iff {p p' : Progress} {flag : Flag} : p.raise flag = .ok p' ↔
    (flag ≠ .help ∧ flag ≠ .version) ∧
      ∃ q, p.settle = .ok q ∧ flag ∉ q.flags ∧ p' = q.withFlags (q.flags ++ [flag]) := by
  by_cases hordinary : flag ≠ .help ∧ flag ≠ .version
  · rw [raise_eq hordinary.1 hordinary.2, bind_eq_ok, and_iff_right hordinary]
    refine exists_congr fun q => and_congr_right fun _ => ?_
    by_cases hmem : flag ∈ q.flags
    · simp [hmem]
    · simp [hmem, eq_comm]
  · refine iff_of_false (fun h => ?_) fun h => hordinary h.1
    obtain ⟨q, _, h⟩ := bind_eq_ok.mp h
    cases flag with
    | help => cases h
    | version => cases h
    | _ => simp at hordinary

theorem raise_withFlags {p p' : Progress} {flag : Flag} (h : p.raise flag = .ok p')
    {flags : List Flag} (hflags : flag ∉ flags) :
    (p.withFlags flags).raise flag = .ok (p'.withFlags (flags ++ [flag])) := by
  obtain ⟨hordinary, q, hq, _, rfl⟩ := raise_eq_ok_iff.mp h
  exact raise_eq_ok_iff.mpr ⟨hordinary, _, settle_withFlags hq flags, hflags, rfl⟩

end Progress

/-- Actions look at flags only to raise them. -/
theorem perform_withFlags {p p' : Progress} {action : Action} (h : perform p action = .ok p')
    {flags : List Flag} (hflags : ∀ flag, action.flag? = some flag → flag ∉ flags) :
    perform (p.withFlags flags) action = .ok (p'.withFlags (flags ++ action.flag?.toList)) := by
  cases action with
  | raise flag => exact Progress.raise_withFlags h (hflags flag rfl)
  | give setting value =>
    simp only [flag?, Option.toList_none, List.append_nil]
    exact Progress.give_withFlags h flags
  | word text =>
    simp only [flag?, Option.toList_none, List.append_nil]
    simp only [perform] at h ⊢
    split at h
    · cases h
      simp only [Progress.withFlags, *]
    · simp only [Progress.withFlags, *]
      exact Progress.positional_withFlags h flags
  | folder text =>
    simp only [flag?, Option.toList_none, List.append_nil]
    exact Progress.positional_withFlags h flags
  | stop cause => cases h

theorem eager_withFlags {p p' : Progress} {action : Action} (h : eager p action = .ok p')
    {flags : List Flag} (hflags : ∀ flag, action.flag? = some flag → flag ∉ flags) :
    eager (p.withFlags flags) action = .ok (p'.withFlags (flags ++ action.flag?.toList)) := by
  obtain ⟨q, hq, hclear⟩ := bind_eq_ok.mp h
  exact bind_eq_ok.mpr ⟨_, perform_withFlags hq hflags, Progress.clear_withFlags hclear _⟩

/-- A flag that is raised was not up. -/
theorem eager_flag_not_mem {p p' : Progress} {action : Action} (h : eager p action = .ok p')
    {flag : Flag} (hflag : action.flag? = some flag) : flag ∉ p.flags := by
  cases action with
  | raise own =>
    cases hflag
    obtain ⟨q, hq, _⟩ := bind_eq_ok.mp h
    obtain ⟨_, q, hsettle, hmem, _⟩ := Progress.raise_eq_ok_iff.mp hq
    rw [← Progress.settle_flags hsettle]
    exact hmem
  | _ => cases hflag

theorem eager_flags {p p' : Progress} {action : Action} (h : eager p action = .ok p') :
    p'.flags = p.flags ++ action.flag?.toList := by
  have hsame : Except.ok p' = .ok (p'.withFlags (p.flags ++ action.flag?.toList)) :=
    h.symm.trans (eager_withFlags h fun _ => eager_flag_not_mem h)
  rw [Except.ok.inj hsame]
  rfl

/-- The flags that are up at the end are those that were raised, each once. -/
theorem run_flags {actions : List Action} {p p' : Progress} (h : actions.foldlM eager p = .ok p') :
    p'.flags = p.flags ++ actions.filterMap flag? ∧ (p.flags.Nodup → p'.flags.Nodup) := by
  induction actions generalizing p with
  | nil =>
    cases h
    simp
  | cons action rest ih =>
    obtain ⟨q, hq, hrest⟩ := bind_eq_ok.mp h
    obtain ⟨hflags, hnodup⟩ := ih hrest
    have hone := eager_flags hq
    constructor
    · rw [hflags, hone]
      cases haction : action.flag? <;> simp [haction]
    · intro hp
      refine hnodup ?_
      rw [hone]
      cases haction : action.flag? with
      | none => simpa using hp
      | some flag =>
        have hmem := eager_flag_not_mem hq haction
        exact List.perm_append_comm.nodup_iff.mpr (List.nodup_cons.mpr ⟨hmem, hp⟩)

theorem run_withFlags {actions : List Action} {p p' : Progress}
    (h : actions.foldlM eager p = .ok p') {flags : List Flag}
    (hflags : (flags ++ actions.filterMap flag?).Nodup) :
    actions.foldlM eager (p.withFlags flags) =
      .ok (p'.withFlags (flags ++ actions.filterMap flag?)) := by
  induction actions generalizing p flags with
  | nil =>
    cases h
    rw [List.filterMap_nil, List.append_nil]
    rfl
  | cons action rest ih =>
    obtain ⟨q, hq, hrest⟩ := bind_eq_ok.mp h
    have hsplit : flags ++ (action :: rest).filterMap flag? =
        (flags ++ action.flag?.toList) ++ rest.filterMap flag? := by
      cases haction : action.flag? <;> simp [haction]
    rw [hsplit] at hflags ⊢
    refine bind_eq_ok.mpr ⟨_, eager_withFlags hq fun flag hflag hmem => ?_, ih hrest hflags⟩
    rw [hflag, List.append_assoc, List.nodup_append] at hflags
    exact hflags.2.2 flag hmem flag (by simp) rfl

/-! ## One more flag -/

theorem Progress.positional_not_awaits {p p' : Progress} {text : Name}
    (h : p.positional text = .ok p') : ¬ p'.Awaits := by
  rintro ⟨setting, hpending⟩
  simp only [positional] at h
  split at h
  · cases h
    cases hpending
  · obtain ⟨q, _, h⟩ := bind_eq_ok.mp h
    cases h
    cases hpending

theorem perform_pending {p p' : Progress} {action : Action} (h : perform p action = .ok p')
    (hawaits : p'.Awaits) : action.awaits = true := by
  cases action with
  | raise flag =>
    obtain ⟨_, q, hq, _, rfl⟩ := Progress.raise_eq_ok_iff.mp h
    refine absurd hawaits (Progress.not_awaits_of_nothing ?_)
    exact (Progress.settle_pending hq : q.pending = .nothing)
  | give own value =>
    cases value with
    | none => rfl
    | some value =>
      obtain ⟨q, hq, h⟩ := bind_eq_ok.mp h
      have hpending : p'.pending = .nothing :=
        (Progress.set_pending h).trans (Progress.settle_pending hq)
      exact absurd hawaits (Progress.not_awaits_of_nothing hpending)
  | word text =>
    simp only [perform] at h
    split at h
    · cases h
      obtain ⟨setting, hpending⟩ := hawaits
      cases hpending
    · exact absurd hawaits (Progress.positional_not_awaits h)
  | folder text => exact absurd hawaits (Progress.positional_not_awaits h)
  | stop cause => cases h

/-- After an action that is complete in itself, nothing is pending. -/
theorem eager_pending {p p' : Progress} {action : Action} (h : eager p action = .ok p')
    (hawaits : action.awaits = false) : p'.pending = .nothing := by
  obtain ⟨q, hq, hclear⟩ := bind_eq_ok.mp h
  have hq' : ¬ q.Awaits := fun hq' => by simp [perform_pending hq hq'] at hawaits
  rw [Progress.clear_of_not_awaits hq'] at hclear
  exact Progress.settle_pending hclear

theorem run_pending {actions : List Action} {p p' : Progress} (h : actions.foldlM eager p = .ok p')
    (hp : p.pending = .nothing) (hlast : ∀ action ∈ actions.getLast?, action.awaits = false) :
    p'.pending = .nothing := by
  obtain rfl | ⟨before, last, rfl⟩ := actions.eq_nil_or_concat
  · cases h
    exact hp
  · rw [List.concat_eq_append, List.foldlM_append] at h
    obtain ⟨q, _, h⟩ := bind_eq_ok.mp h
    obtain ⟨q', hq', h⟩ := bind_eq_ok.mp h
    cases h
    exact eager_pending hq' (hlast last (by simp))

/-- A flag can be raised wherever no value is awaited, if it is not raised elsewhere. -/
theorem run_insert {flag : Flag} (hhelp : flag ≠ .help) (hversion : flag ≠ .version)
    {before after : List Action}
    {p r : Progress} (hp : p.pending = .nothing) (hnodup : p.flags.Nodup)
    (hlast : ∀ action ∈ before.getLast?, action.awaits = false)
    (h : (before ++ after).foldlM eager p = .ok r) (hflag : flag ∉ r.flags) :
    ∃ flags, (before ++ .raise flag :: after).foldlM eager p = .ok (r.withFlags flags) ∧
      ∀ other, other ∈ flags ↔ other = flag ∨ other ∈ r.flags := by
  rw [List.foldlM_append] at h
  obtain ⟨q, hq, hr⟩ := bind_eq_ok.mp h
  -- All flags of the whole run are known at its end, so the new one clashes with none of them.
  obtain ⟨hflags, hrnodup⟩ := run_flags hr
  have hpending : q.pending = .nothing := run_pending hq hp hlast
  have hall : flag ∉ q.flags ∧ flag ∉ after.filterMap flag? := by
    rw [hflags] at hflag
    exact not_or.mp (mt List.mem_append.mpr hflag)
  have hraise : eager q (.raise flag) = .ok (q.withFlags (q.flags ++ [flag])) := by
    have hup : q.raise flag = .ok (q.withFlags (q.flags ++ [flag])) :=
      Progress.raise_eq_ok_iff.mpr ⟨⟨hhelp, hversion⟩, q,
        Progress.settle_of_nothing hpending, hall.1, rfl⟩
    refine bind_eq_ok.mpr ⟨_, hup, ?_⟩
    have hpending : (q.withFlags (q.flags ++ [flag])).pending = .nothing := hpending
    rw [Progress.clear_of_not_awaits (Progress.not_awaits_of_nothing hpending)]
    exact Progress.settle_of_nothing hpending
  have hdistinct : ((q.flags ++ [flag]) ++ after.filterMap flag?).Nodup := by
    have hrest := hrnodup ((run_flags hq).2 hnodup)
    rw [hflags] at hrest
    rw [List.append_assoc, List.singleton_append, List.nodup_middle]
    exact List.nodup_cons.mpr ⟨fun hmem => (List.mem_append.mp hmem).elim hall.1 hall.2, hrest⟩
  refine ⟨(q.flags ++ [flag]) ++ after.filterMap flag?, ?_, fun other => ?_⟩
  · rw [List.foldlM_append]
    exact bind_eq_ok.mpr ⟨q, hq, bind_eq_ok.mpr ⟨_, hraise, run_withFlags hr hdistinct⟩⟩
  · rw [hflags]
    simp only [List.mem_append, List.mem_singleton]
    rw [or_assoc, or_left_comm]

def finish (p : Progress) : Except Stop Arguments :=
  if p.flags.contains .quiet && p.flags.contains .verbose then .error .quietAndVerbose
  else if p.dirs.isEmpty then .error .noDirs
  else return {
    dirs := p.dirs
    check := p.flags.contains .check
    extensions := p.extensions
    workers := p.workers
    respectIgnore := p.flags.contains .respectIgnore
    byKind := p.flags.contains .byKind
    format := p.format.getD .json
    quiet := p.flags.contains .quiet
    verbose := p.flags.contains .verbose }

theorem parse_eq (texts : List Name) : parse texts = Progress.start.arguments texts >>= finish :=
  rfl

theorem finish_check {p : Progress} {a : Arguments} (h : finish p = .ok a) :
    a.check = p.flags.contains .check := by
  simp only [finish] at h
  split at h
  · cases h
  · split at h <;> cases h
    rfl

theorem finish_withFlags {p : Progress} {a : Arguments} (h : finish p = .ok a) {flags : List Flag}
    (hflags : ∀ other, other ∈ flags ↔ other = .check ∨ other ∈ p.flags) :
    finish (p.withFlags flags) = .ok { a with check := true } := by
  have hcontains : ∀ other,
      flags.contains other = (other == .check || p.flags.contains other) := by
    intro other
    rw [Bool.eq_iff_iff]
    simp [hflags]
  have hcheck : flags.contains .check = true := hcontains .check
  have hquiet : flags.contains .quiet = p.flags.contains .quiet := hcontains .quiet
  have hverbose : flags.contains .verbose = p.flags.contains .verbose := hcontains .verbose
  have hignore : flags.contains .respectIgnore = p.flags.contains .respectIgnore :=
    hcontains .respectIgnore
  have hkind : flags.contains .byKind = p.flags.contains .byKind := hcontains .byKind
  simp only [finish, Progress.withFlags, hcheck, hquiet, hverbose, hignore, hkind] at h ⊢
  by_cases hboth : (p.flags.contains .quiet && p.flags.contains .verbose) = true
  · rw [if_pos hboth] at h
    cases h
  · by_cases hdirs : p.dirs.isEmpty = true
    · rw [if_neg hboth, if_pos hdirs] at h
      cases h
    · rw [if_neg hboth, if_neg hdirs] at h ⊢
      cases h
      rfl

theorem parse_eq_ok_iff {texts : List Name} {a : Arguments} :
    parse texts = .ok a ↔ ∃ p q, (lineActions texts).foldlM eager .start = .ok p ∧
      p.settle = .ok q ∧ finish q = .ok a := by
  have hrun : ∀ q, Progress.start.arguments texts = .ok q ↔
      (lineActions texts).foldlM eager .start >>= Progress.settle = .ok q := by
    intro q
    rw [arguments_eq, ← toOption_eq_some_iff, run_eager, toOption_eq_some_iff]
    rfl
  rw [parse_eq, bind_eq_ok]
  simp only [hrun, bind_eq_ok]
  constructor
  · rintro ⟨q, ⟨p, hp, hq⟩, ha⟩
    exact ⟨p, q, hp, hq, ha⟩
  · rintro ⟨p, q, hp, hq, ha⟩
    exact ⟨q, ⟨p, hp, hq⟩, ha⟩

/-- To add the check to a command line that does without it changes nothing else that is asked
for, wherever it is added: before any `--`, and not in place of an option's value. -/
theorem parse_insert_check {before after : List Name} (hdash : [dash, dash] ∉ before)
    (hlast : ∀ text ∈ before.getLast?, awaitsValue text = false) {a : Arguments}
    (h : parse (before ++ after) = .ok a) (hcheck : a.check = false) :
    parse (before ++ Utf8.bytes "--check" :: after) = .ok { a with check := true } := by
  obtain ⟨p, q, hp, hq, ha⟩ := parse_eq_ok_iff.mp h
  rw [lineActions_append hdash] at hp
  have hflag : Flag.check ∉ p.flags := by
    rw [finish_check ha, Progress.settle_flags hq] at hcheck
    simpa using hcheck
  obtain ⟨flags, hrun, hflags⟩ := run_insert (by decide) (by decide) rfl List.nodup_nil
    (getLast?_flatMap_actions hlast) hp hflag
  refine parse_eq_ok_iff.mpr ⟨p.withFlags flags, q.withFlags flags, ?_,
    Progress.settle_withFlags hq flags, ?_⟩
  · rw [lineActions_append hdash]
    exact hrun
  · refine finish_withFlags ha fun other => ?_
    rw [hflags, Progress.settle_flags hq]

end HeaderIndex.Arguments
