import HeaderIndex.Codec.Settings
import HeaderIndex.Proofs.Json.RoundTrip
import HeaderIndex.Proofs.Result
import HeaderIndex.Proofs.Text.Malformed

/-! Records, lists, words and paths in JSON values. The fields of a record that was written by
name are found by name (`fields?_object`), a list whose items are all read is read
(`list?_array`), and a word that was read is one (`word?_lt`). A path can be written just
if it spells a text (`jsonText_eq_ok_iff`), and so can an object with paths for keys
(`byPath_eq_ok_iff`, `byPath_eq_error_iff`). -/

namespace HeaderIndex

open HeaderIndex.Text

/-! ## Paths -/

namespace Path

/-- A path that spells a text. -/
def IsUnicode (p : Path) : Prop := ∃ text, p = .ofText text

theorem ofText_injective {text more : String} (h : ofText text = ofText more) : text = more :=
  Utf8.bytes_injective (congrArg Path.bytes h)

theorem jsonText_ofText (text : String) : (ofText text).jsonText = .ok text := by
  rw [jsonText, text?, ofText, Utf8.text?_bytes]

theorem jsonText_eq_ok_iff {p : Path} {text : String} :
    p.jsonText = .ok text ↔ p = .ofText text := by
  constructor
  · intro h
    rw [jsonText] at h
    split at h
    · rename_i htext
      cases h
      obtain ⟨bytes⟩ := p
      exact congrArg Path.mk (Utf8.text?_eq_some_iff.mp htext)
    · cases h
  · rintro rfl
    exact jsonText_ofText text

end Path

namespace Json

section ByPath

variable {values : List (Path × Json)}

theorem withText_eq_ok_iff {value : Path × Json} {member : String × Json} :
    (do return (← value.1.jsonText, value.2) : Except Error (String × Json)) = .ok member ↔
      value = (.ofText member.1, member.2) := by
  obtain ⟨path, j⟩ := value
  obtain ⟨text, j'⟩ := member
  simp only [bind_eq_ok, Path.jsonText_eq_ok_iff, Prod.mk.injEq]
  constructor
  · rintro ⟨_, rfl, h⟩
    cases h
    exact ⟨rfl, rfl⟩
  · rintro ⟨rfl, rfl⟩
    exact ⟨text, rfl, rfl⟩

theorem byPath_eq_ok_iff {j : Json} : byPath values = .ok j ↔
    ∃ members, j = .object members ∧ values = members.map fun m => (.ofText m.1, m.2) := by
  rw [byPath, bind_eq_ok]
  simp only [mapM_eq_ok_iff fun value member => withText_eq_ok_iff]
  constructor
  · rintro ⟨members, rfl, hj⟩
    cases hj
    exact ⟨members, rfl, rfl⟩
  · rintro ⟨members, rfl, rfl⟩
    exact ⟨members, rfl, rfl⟩

theorem byPath_eq_error_iff {e : Error} : byPath values = .error e ↔ e = .pathNotText ∧
      ∃ value ∈ values, ¬ value.1.IsUnicode := by
  cases e
  rw [and_iff_right rfl]
  constructor
  · intro h
    rw [byPath, bind_eq_error] at h
    rcases h with h | ⟨_, _, h⟩
    · obtain ⟨⟨path, j⟩, hmem, hvalue⟩ := exists_of_mapM_eq_error h
      refine ⟨(path, j), hmem, ?_⟩
      rintro ⟨text, htext⟩
      dsimp only at htext hvalue
      rw [htext, Path.jsonText_ofText] at hvalue
      cases hvalue
    · cases h
  · rintro ⟨value, hmem, hvalue⟩
    match h : byPath values with
    | .error .pathNotText => rfl
    | .ok j =>
      obtain ⟨members, rfl, rfl⟩ := byPath_eq_ok_iff.mp h
      obtain ⟨member, _, rfl⟩ := List.mem_map.mp hmem
      exact absurd ⟨member.1, rfl⟩ hvalue

end ByPath

/-! ## Fields -/

theorem get?_cons_of_ne {key other : String} (h : other ≠ key) (value : Json)
    (members : List (String × Json)) :
    get? key (object ((other, value) :: members)) = get? key (object members) := by
  simp [get?, List.find?_append, h]

theorem get?_cons_self {key : String} {members : List (String × Json)}
    (h : key ∉ members.map Prod.fst) (value : Json) :
    get? key (object ((key, value) :: members)) = some value := by
  have hnone : members.reverse.find? (·.1 == key) = none := by
    refine List.find?_eq_none.mpr fun member hmember hkey => h ?_
    rw [← eq_of_beq hkey]
    exact List.mem_map_of_mem (List.mem_reverse.mp hmember)
  simp [get?, List.find?_append, hnone]

/-- The fields of a record that is written with each name once. -/
theorem fields?_object (names : List String) (hnodup : names.Nodup) (values : List Json)
    (hlength : names.length = values.length) :
    fields? names (object (names.zip values)) = some (values.map some) := by
  refine congrArg some ?_
  induction names generalizing values with
  | nil =>
    rw [List.length_nil] at hlength
    rw [List.length_eq_zero_iff.mp hlength.symm]
    rfl
  | cons name names ih =>
    obtain ⟨value, values, rfl⟩ := List.exists_cons_of_length_eq_add_one hlength.symm
    obtain ⟨hname, hnodup⟩ := List.nodup_cons.mp hnodup
    have hlength : names.length = values.length := Nat.succ.inj hlength
    have hkeys : (names.zip values).map Prod.fst = names := List.map_fst_zip hlength.le
    rw [List.zip_cons_cons, List.map_cons, List.map_cons,
      get?_cons_self (by rw [hkeys]; exact hname), ← ih hnodup values hlength]
    refine congrArg _ (List.map_congr_left fun other hother => ?_)
    refine get?_cons_of_ne ?_ value _
    rintro rfl
    exact hname hother

theorem required_eq_some_iff {α : Type} {read : Json → Option α} {field : Option Json}
    {a : α} : required read field = some a ↔ ∃ j, field = some j ∧ read j = some a := by
  cases field <;> simp [required]

theorem optional_eq_some {α : Type} {default : α} {read : Json → Option α}
    {field : Option Json} {a : α} (h : optional default read field = some a) :
    a = default ∨ ∃ j, field = some j ∧ read j = some a := by
  cases field with
  | none => exact .inl (Option.some.inj h).symm
  | some j => exact .inr ⟨j, rfl, h⟩

/-! ## Lists -/

/-- Where every item can be read, reading all of them leaves none out. -/
theorem mapM_eq_filterMap {α β : Type} {read : α → Option β} {items : List α}
    (h : ∀ item ∈ items, (read item).isSome = true) :
    items.mapM read = some (items.filterMap read) := by
  induction items with
  | nil => rfl
  | cons item items ih =>
    obtain ⟨value, hvalue⟩ := Option.isSome_iff_exists.mp (h item (by simp))
    rw [List.mapM_cons, ih fun i hi => h i (by simp [hi]), List.filterMap_cons, hvalue]
    rfl

/-- What is read from a list is read from one of its items. -/
theorem exists_of_mapM_eq_some {α β : Type} {read : α → Option β} {items : List α}
    {values : List β} (h : items.mapM read = some values) {value : β}
    (hvalue : value ∈ values) : ∃ item ∈ items, read item = some value := by
  induction items generalizing values with
  | nil =>
    cases h
    cases hvalue
  | cons item items ih =>
    simp only [List.mapM_cons, Option.bind_eq_bind, Option.bind_eq_some_iff, Option.pure_def,
      Option.some.injEq] at h
    obtain ⟨first, hfirst, rest, hrest, rfl⟩ := h
    rcases List.mem_cons.mp hvalue with rfl | hmem
    · exact ⟨item, List.mem_cons_self, hfirst⟩
    · obtain ⟨other, hother, hread⟩ := ih hrest hmem
      exact ⟨other, List.mem_cons_of_mem item hother, hread⟩

theorem exists_of_list?_eq_some {α : Type} {read : Json → Option α} {j : Json}
    {values : List α} (h : list? read j = some values) {value : α} (hvalue : value ∈ values) :
    ∃ item, read item = some value := by
  obtain ⟨items, _, hitems⟩ := Option.bind_eq_some_iff.mp h
  obtain ⟨item, _, hitem⟩ := exists_of_mapM_eq_some hitems hvalue
  exact ⟨item, hitem⟩

theorem list?_array {α : Type} {read : Json → Option α} (write : α → Json)
    (h : ∀ a, read (write a) = some a) (items : List α) :
    list? read (array (items.map write)) = some items := by
  have hread : ∀ j ∈ items.map write, (read j).isSome = true := by
    intro j hj
    obtain ⟨a, _, rfl⟩ := List.mem_map.mp hj
    rw [h]
    rfl
  have hitems : (items.map write).filterMap read = items := by
    rw [List.filterMap_map]
    exact (List.filterMap_congr fun a _ => h a).trans List.filterMap_some
  exact (mapM_eq_filterMap hread).trans (congrArg some hitems)

theorem strings?_ofStrings (values : List String) : strings? (ofStrings values) = some values :=
  list?_array string (fun _ => rfl) values

theorem areNatural_map {α : Type} {write : α → Json} (h : ∀ a, (write a).isNatural = true)
    (items : List α) : areNatural (items.map write) = true := by
  induction items with
  | nil => rfl
  | cons a items ih => rw [List.map_cons, areNatural, h, ih, Bool.and_self]

theorem haveNatural_eq (members : List (String × Json)) :
    haveNatural members = areNatural (members.map Prod.snd) := by
  induction members with
  | nil => rfl
  | cons member members ih => rw [List.map_cons, haveNatural, areNatural, ih]

theorem isNatural_ofStrings (values : List String) : (ofStrings values).isNatural = true :=
  areNatural_map (fun _ => rfl) values

/-! ## Words -/

theorem word?_nat {n : Nat} (h : n < wordLimit) : word? (nat n) = some n := if_pos h

theorem word?_lt {j : Json} {n : Nat} (h : word? j = some n) : n < wordLimit := by
  unfold word? at h
  split at h
  · split at h
    · cases h
      assumption
    · cases h
  · cases h

theorem required_word?_lt {field : Option Json} {n : Nat} (h : required word? field = some n) :
    n < wordLimit := by
  obtain ⟨j, -, hj⟩ := required_eq_some_iff.mp h
  exact word?_lt hj

theorem optional_word?_lt {default : Nat} (hdefault : default < wordLimit) {field : Option Json}
    {n : Nat} (h : optional default word? field = some n) : n < wordLimit := by
  obtain rfl | ⟨j, -, hj⟩ := optional_eq_some h
  · exact hdefault
  · exact word?_lt hj

end Json

end HeaderIndex
