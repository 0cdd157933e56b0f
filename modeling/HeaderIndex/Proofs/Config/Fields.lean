import HeaderIndex.Proofs.Config.Distinct

/-! The five fields that settings have, each by itself. A field stands in a section under a
key. In layers whose sections are tables and whose fields have nothing below them, merging
takes each field from the later layer that has it (`Members.at?_merge`), whatever else
the layers hold. -/

namespace HeaderIndex.Config

inductive Field where
  | extensions
  | workers
  | respectIgnore
  | minLength
  | suspicious
  deriving DecidableEq, Repr

namespace Field

def sections : List String := ["scan", "check"]

/-- The section of a field, and its key there. -/
def place : Field → String × String
  | extensions => ("scan", "extensions")
  | workers => ("scan", "workers")
  | respectIgnore => ("scan", "respect_ignore")
  | minLength => ("check", "min_length")
  | suspicious => ("check", "suspicious")

theorem section_mem (f : Field) : f.place.1 ∈ sections := by
  cases f <;> decide

def all : List Field := [extensions, workers, respectIgnore, minLength, suspicious]

theorem mem_all (f : Field) : f ∈ all := by
  cases f <;> decide

abbrev Content : Field → Type
  | extensions => List String
  | workers => Nat
  | respectIgnore => Bool
  | minLength => Nat
  | suspicious => List String

def reader : (f : Field) → Reader f.Content
  | extensions => texts
  | workers => natural
  | respectIgnore => flag
  | minLength => natural
  | suspicious => texts

def ofSettings : (f : Field) → Settings → f.Content
  | extensions, s => s.scan.extensions
  | workers, s => s.scan.workers
  | respectIgnore, s => s.scan.respectIgnore
  | minLength, s => s.check.minLength
  | suspicious, s => s.check.suspicious

/-- What a field gets from its value, or without one. -/
def read (values : Field → Option Value) (f : Field) : Except Error f.Content :=
  orStandard (f.ofSettings .standard) f.reader [f.place.1, f.place.2] (values f)

end Field

/-! ## Fields of a layer -/

/-- The members of a table; anything else has none. -/
def Value.members : Value → Members
  | .table members => members
  | _ => []

def Value.isTable : Value → Bool
  | .table _ => true
  | _ => false

theorem Value.isTable_iff {value : Value} :
    value.isTable = true ↔ value = .table value.members := by
  cases value <;> simp [isTable, members]

@[simp] theorem Value.members_table (members : Members) : (Value.table members).members = members :=
  rfl

/-- Two tables are merged by their members. -/
theorem Value.merge_tables {old new : Value} (hold : old = .table old.members)
    (hnew : new = .table new.members) : old.merge new = .table (old.members.merge new.members) := by
  rw [hold, hnew, Value.merge, Value.members_table, Value.members_table]

/-- There is no key below a value. -/
def Value.Flat (value : Value) : Prop := value.members = []

instance (value : Value) : Decidable value.Flat :=
  decidable_of_iff (value.members.isEmpty = true) List.isEmpty_iff

/-- A later value without keys replaces any other without keys. -/
theorem Value.Flat.merge {old new : Value} (hold : old.Flat) (hnew : new.Flat) :
    old.merge new = new := by
  cases new with
  | table members =>
    obtain rfl : members = [] := hnew
    cases old with
    | table members =>
      obtain rfl : members = [] := hold
      rw [Value.merge, Members.merge]
    | _ => rfl
  | _ => rfl

namespace Members

def at? (members : Members) (f : Field) : Option Value :=
  (members.lookup f.place.1).bind fun part => part.members.lookup f.place.2

/-- Sections are tables where they are present, and no field has a key below it. -/
structure Plain (members : Members) : Prop where
  tables : ∀ name ∈ Field.sections, ∀ part, members.lookup name = some part →
    part = .table part.members
  flat : ∀ f value, members.at? f = some value → value.Flat

/-- Only the sections and the fields that are present have to be looked at. -/
theorem plain_iff {members : Members} : members.Plain ↔
    (∀ name ∈ Field.sections, ∀ part ∈ members.lookup name, part.isTable = true) ∧
      ∀ f ∈ Field.all, ∀ value ∈ members.at? f, value.Flat := by
  simp only [Value.isTable_iff, Option.mem_def]
  exact ⟨fun h => ⟨h.tables, fun f _ => h.flat f⟩, fun h => ⟨h.1,
    fun f => h.2 f f.mem_all⟩⟩

instance (members : Members) : Decidable members.Plain := decidable_of_iff' _ plain_iff

variable {old new : Members}

/-- Sections laid over each other are tables as well. -/
theorem Plain.lookup_merge (hold : old.Plain) (hnew : new.Plain) (hd : new.Distinct) {name : String}
    (hname : name ∈ Field.sections) :
    lookup name (old.merge new) =
      match lookup name old, lookup name new with
      | some above, some below => some (.table (above.members.merge below.members))
      | above, none => above
      | none, some below => some (.table below.members) := by
  rw [Members.lookup_merge (distinct_iff.mp hd).1]
  cases hn : lookup name new with
  | none => cases lookup name old <;> rfl
  | some below =>
    have hbelow := hnew.tables name hname below hn
    cases ho : lookup name old with
    | none => exact congrArg some hbelow
    | some above =>
      have habove := hold.tables name hname above ho
      exact congrArg some (Value.merge_tables habove hbelow)

/-- Each field has its value from the later layer if that has it, else from the earlier one. -/
theorem at?_merge (hold : old.Plain) (hnew : new.Plain) (hd : new.Distinct) (f : Field) :
    (old.merge new).at? f = (new.at? f).or (old.at? f) := by
  unfold at?
  rw [hold.lookup_merge hnew hd f.section_mem]
  cases hn : lookup f.place.1 new with
  | none => cases ho : lookup f.place.1 old <;> rfl
  | some below =>
    cases ho : lookup f.place.1 old with
    | none => simp
    | some above =>
      have hbelow := hnew.tables _ f.section_mem below hn
      have hkeys := (distinct_iff.mp (hbelow ▸ hd.of_lookup hn)).1
      simp only [Option.bind_some, Value.members_table, Members.lookup_merge hkeys]
      cases hv : lookup f.place.2 below.members with
      | none => rfl
      | some value =>
        cases hw : lookup f.place.2 above.members with
        | none => rfl
        | some previous =>
          have hprevious : previous.Flat :=
            hold.flat f previous (by rw [at?, ho, Option.bind_some, hw])
          have hvalue : value.Flat := hnew.flat f value (by rw [at?, hn, Option.bind_some, hv])
          exact congrArg some (hprevious.merge hvalue)

theorem Plain.merge (hold : old.Plain) (hnew : new.Plain) (hd : new.Distinct) :
    (old.merge new).Plain := by
  refine ⟨fun name hname part hpart => ?_, fun f value hvalue => ?_⟩
  · rw [hold.lookup_merge hnew hd hname] at hpart
    split at hpart
    · obtain rfl := Option.some.inj hpart
      rfl
    · exact hold.tables name hname part hpart
    · obtain rfl := Option.some.inj hpart
      rfl
  · rw [at?_merge hold hnew hd] at hvalue
    rcases Option.or_eq_some_iff.mp hvalue with hvalue | ⟨_, hvalue⟩
    · exact hnew.flat f value hvalue
    · exact hold.flat f value hvalue

theorem plain_nil : Plain [] := ⟨nofun, nofun⟩

end Members

/-! ## The environment as a layer -/

/-- Of several variables that set a field the last counts. -/
theorem at?_environmentMembers {env : Variables}
    (h : ∀ entry ∈ env, (variableMembers entry.1 entry.2).Plain) :
    (environmentMembers env).Plain ∧ ∀ f, (environmentMembers env).at? f =
      env.reverse.findSome? fun entry => (variableMembers entry.1 entry.2).at? f := by
  induction env using List.reverseRecOn with
  | nil => exact ⟨Members.plain_nil, fun _ => rfl⟩
  | append_singleton env entry ih =>
    obtain ⟨hplain, hlast⟩ := ih fun v hv => h v (List.mem_append_left _ hv)
    have hentry := h entry (by simp)
    have hd := distinct_variableMembers entry.1 entry.2
    rw [environmentMembers_concat]
    refine ⟨hplain.merge hentry hd, fun f => ?_⟩
    rw [Members.at?_merge hplain hentry hd, hlast, List.reverse_concat, List.findSome?_cons]
    cases (variableMembers entry.1 entry.2).at? f <;> rfl

end HeaderIndex.Config
