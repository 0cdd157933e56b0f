import HeaderIndex.Config.Dotenv

/-! Variables from a file complete those that are set. A file assigns values to names, one
assignment after the other (`Dotenv.written`); a variable has the value that it had before,
and only without one the first that the file assigns (`Dotenv.mem_completed`). -/

namespace HeaderIndex.Config

open HeaderIndex.Text

namespace Variables

/-- Variables with further ones, each unless it is set already. -/
def addAll (env added : Variables) : Variables :=
  added.foldl (fun env entry => env.addNew entry.1 entry.2) env

theorem get?_nil (name : String) : get? [] name = none := rfl

theorem get?_cons_self (name value : String) (rest : Variables) :
    get? ((name, value) :: rest) name = some value := by
  simp [get?]

theorem get?_cons_of_ne {name other : String} (h : name ≠ other) (value : String)
    (rest : Variables) : get? ((name, value) :: rest) other = get? rest other := by
  simp [get?, h]

theorem get?_concat (env : Variables) (name value other : String) :
    get? (env ++ [(name, value)]) other = (env.get? other).or (get? [(name, value)] other) := by
  unfold get?
  rw [List.find?_append]
  cases env.find? (·.1 == other) <;> rfl

/-- A variable is one that was set, or the first of its name among those that are added. -/
theorem mem_addAll {env added : Variables} {name value : String} :
    (name, value) ∈ env.addAll added ↔
      (name, value) ∈ env ∨ env.get? name = none ∧ added.get? name = some value := by
  induction added generalizing env with
  | nil => exact ⟨.inl, fun h => h.resolve_right nofun⟩
  | cons entry added ih =>
    obtain ⟨new, text⟩ := entry
    have hstep : env.addAll ((new, text) :: added) = (env.addNew new text).addAll added := rfl
    rw [hstep, ih, addNew]
    by_cases hname : new = name
    · subst hname
      rw [get?_cons_self]
      split
      · rename_i hset
        have hsome : env.get? new ≠ none := Option.isSome_iff_ne_none.mp hset
        simp [hsome]
      · rename_i hset
        have hnone : env.get? new = none := by simpa using hset
        simp [get?_concat, hnone, get?_cons_self, eq_comm]
    · rw [get?_cons_of_ne hname]
      split
      · rfl
      · simp [get?_concat, get?_cons_of_ne hname, get?_nil, Ne.symm hname]

end Variables

namespace Dotenv

/-- What assignments give names, in order, up to the first that fails. -/
def assigned (env earlier : Variables) : List (Option (List Char)) → Variables
  | [] => []
  | none :: _ => []
  | some text :: rest =>
    match parse env earlier text with
    | .nothing => assigned env earlier rest
    | .failed => []
    | .assigned name value =>
      (name, value) :: assigned (env.addNew name value) ((name, value) :: earlier) rest

theorem apply_eq (env earlier : Variables) (lines : List (Option (List Char))) :
    apply env earlier lines = env.addAll (assigned env earlier lines) := by
  induction lines generalizing env earlier with
  | nil => rfl
  | cons line rest ih =>
    cases line with
    | none => rfl
    | some text =>
      rw [apply, assigned]
      cases parse env earlier text with
      | nothing => exact ih env earlier
      | failed => rfl
      | assigned name value => exact ih _ _

/-- What a file assigns, in order. -/
def written (env : Variables) (bytes : List UInt8) : Variables :=
  assigned env [] (assignments [] .closed (Lines.kept (Utf8.skipMark (Utf8.readableLines bytes))))

theorem load_eq (env : Variables) (bytes : List UInt8) :
    load env bytes = env.addAll (written env bytes) :=
  apply_eq env [] _

/-- Variables, completed by those of a file if there is one. -/
def completed (env : Variables) (file : Option (List UInt8)) : Variables := file.elim env (load env)

/-- What a file assigns counts where nothing is set, the first assignment of a name before
others. -/
theorem mem_completed {env : Variables} {file : Option (List UInt8)} {name value : String} :
    (name, value) ∈ completed env file ↔ (name, value) ∈ env ∨ env.get? name = none ∧
      ∃ bytes, file = some bytes ∧ (written env bytes).get? name = some value := by
  cases file with
  | none => exact ⟨.inl, fun h => h.resolve_right fun ⟨_, _, hfile, _⟩ => nomatch hfile⟩
  | some bytes =>
    have hload : completed env (some bytes) = env.addAll (written env bytes) := load_eq env bytes
    rw [hload, Variables.mem_addAll]
    simp

end Dotenv

end HeaderIndex.Config
