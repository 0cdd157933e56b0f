/-! Results that may be errors: what it takes for a chain of steps to come to a value. -/

namespace HeaderIndex

variable {ε δ α β : Type}

theorem bind_eq_ok {x : Except ε α} {f : α → Except ε β} {b : β} :
    x >>= f = .ok b ↔ ∃ a, x = .ok a ∧ f a = .ok b := by
  cases x with
  | error e => simp [bind, Except.bind]
  | ok a => simp [bind, Except.bind]

theorem bind_eq_error {x : Except ε α} {f : α → Except ε β} {e : ε} :
    x >>= f = .error e ↔ x = .error e ∨ ∃ a, x = .ok a ∧ f a = .error e := by
  cases x with
  | error e => simp [bind, Except.bind]
  | ok a => simp [bind, Except.bind]

theorem map_eq_error {x : Except ε α} {f : α → β} {e : ε} :
    x.map f = .error e ↔ x = .error e := by
  cases x with
  | error e => simp [Except.map]
  | ok a => exact iff_of_false nofun nofun

theorem mapError_eq_ok {x : Except ε α} {f : ε → δ} {a : α} :
    x.mapError f = .ok a ↔ x = .ok a := by
  cases x with
  | error e => exact iff_of_false nofun nofun
  | ok b =>
    exact ⟨fun h => congrArg Except.ok (Except.ok.inj h), fun h =>
      congrArg Except.ok (Except.ok.inj h)⟩

theorem mapError_eq_error {x : Except ε α} {f : ε → δ} {d : δ} :
    x.mapError f = .error d ↔ ∃ e, x = .error e ∧ f e = d := by
  cases x with
  | error e =>
    refine ⟨fun h => ⟨e, rfl, Except.error.inj h⟩, fun h => ?_⟩
    obtain ⟨_, he, hd⟩ := h
    obtain rfl := Except.error.inj he
    exact congrArg Except.error hd
  | ok a => exact iff_of_false nofun nofun

theorem toOption_eq_some_iff {x : Except ε α} {a : α} : x.toOption = some a ↔ x = .ok a := by
  cases x <;> simp [Except.toOption]

theorem toOption_bind (x : Except ε α) (f : α → Except ε β) :
    (x >>= f).toOption = x.toOption.bind fun a => (f a).toOption := by
  cases x <;> rfl

theorem mapM_of_forall_ok {f : α → Except ε β} {g : α → β} {items : List α}
    (h : ∀ a ∈ items, f a = .ok (g a)) : items.mapM f = .ok (items.map g) := by
  induction items with
  | nil => rfl
  | cons a items ih =>
    obtain ⟨ha, hitems⟩ := List.forall_mem_cons.mp h
    rw [List.mapM_cons, ha, ih hitems]
    rfl

/-- A step that can be undone, taken for each item. -/
theorem mapM_eq_ok_iff {f : α → Except ε β} {g : β → α}
    (h : ∀ a b, f a = .ok b ↔ a = g b) {items : List α} {taken : List β} :
    items.mapM f = .ok taken ↔ items = taken.map g := by
  induction items generalizing taken with
  | nil =>
    rw [List.mapM_nil, eq_comm (b := taken.map g), List.map_eq_nil_iff]
    exact ⟨fun hnil => (Except.ok.inj hnil).symm, fun hnil => congrArg Except.ok hnil.symm⟩
  | cons a items ih =>
    simp only [List.mapM_cons, bind_eq_ok, h, ih]
    constructor
    · rintro ⟨b, rfl, rest, rfl, htaken⟩
      cases htaken
      rfl
    · intro hitems
      cases taken with
      | nil => cases hitems
      | cons b rest =>
        obtain ⟨rfl, rfl⟩ := List.cons.inj hitems
        exact ⟨b, rfl, rest, rfl, rfl⟩

/-- Where taking items one by one fails, one of them cannot be taken. -/
theorem exists_of_mapM_eq_error {f : α → Except ε β} {items : List α} {e : ε}
    (h : items.mapM f = .error e) : ∃ a ∈ items, f a = .error e := by
  induction items with
  | nil => cases h
  | cons a items ih =>
    rw [List.mapM_cons, bind_eq_error] at h
    rcases h with hfirst | ⟨_, _, hrest⟩
    · exact ⟨a, List.mem_cons_self, hfirst⟩
    · rcases bind_eq_error.mp hrest with hrest | ⟨_, _, hdone⟩
      · obtain ⟨other, hmem, hother⟩ := ih hrest
        exact ⟨other, List.mem_cons_of_mem a hmem, hother⟩
      · cases hdone

/-- Items that are all admitted are all taken; one that is not admitted spoils the rest. -/
theorem mapM_guard_eq_ok {admitted : α → Bool} {take : α → β} {error : α → ε}
    {items : List α} {taken : List β} :
    (items.mapM fun a => if admitted a then Except.ok (take a) else Except.error (error a)) =
      .ok taken ↔ (∀ a ∈ items, admitted a = true) ∧ taken = items.map take := by
  induction items generalizing taken with
  | nil =>
    rw [List.mapM_nil, List.map_nil, and_iff_right (List.forall_mem_nil _)]
    exact ⟨fun h => (Except.ok.inj h).symm, fun h => congrArg Except.ok h.symm⟩
  | cons a items ih =>
    by_cases ha : admitted a = true
    · rw [List.mapM_cons, if_pos ha, bind_eq_ok]
      simp only [bind_eq_ok, ih]
      constructor
      · rintro ⟨_, hfirst, rest, ⟨hrest, rfl⟩, h⟩
        cases hfirst
        cases h
        exact ⟨List.forall_mem_cons.mpr ⟨ha, hrest⟩, rfl⟩
      · rintro ⟨hall, rfl⟩
        exact ⟨_, rfl, _, ⟨(List.forall_mem_cons.mp hall).2, rfl⟩, rfl⟩
    · refine iff_of_false ?_ fun h => ha (h.1 a List.mem_cons_self)
      rw [List.mapM_cons, if_neg ha]
      exact nofun

end HeaderIndex
