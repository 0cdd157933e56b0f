import HeaderIndex.Proofs.Text.Scan
import Mathlib.Data.List.Basic

/-! What stands at the places of a text. A reader is tried at every place from left to right, which
gives all its sightings (`sightings_all`). A scan passes over what a hit covers; but where a hit
has its mark at its start only, nothing that could be read is covered, and the scan comes upon
every sighting (`filterMap_hits`). Names are reported once, where each is first seen
(`firsts_eraseDups`, `exists_sightings`). -/

namespace HeaderIndex.Text

/-- All places of a text where a name is read, from left to right. A place is told by how many
characters are before it. -/
structure Sightings (NamedAt : List Char → List Char → Prop) (text : List Char)
    (found : List (Nat × List Char)) : Prop where
  ordered : found.Pairwise fun a b => a.1 < b.1
  mem_iff : ∀ place name, (place, name) ∈ found ↔ NamedAt (text.drop place) name

/-- The names seen, from left to right and with repetitions. -/
def namesOf (found : List (Nat × List Char)) : List String :=
  found.map fun seen => String.ofList seen.2

/-- The different ones of some names, in the order in which each is seen first. -/
structure Firsts (names out : List String) : Prop where
  mem_iff : ∀ name, name ∈ out ↔ name ∈ names
  ordered : out.Pairwise fun a b => names.idxOf a < names.idxOf b

theorem Firsts.nodup {names out : List String} (h : Firsts names out) : out.Nodup := by
  refine h.ordered.imp fun {a b} hlt hab => ?_
  rw [hab] at hlt
  exact absurd hlt (Nat.lt_irrefl _)

/-! ## Names, each once -/

/-- To leave others out does not change which of two names is seen first. -/
theorem idxOf_lt_of_filter {p : String → Bool} {a b : String} (ha : p a = true) (hb : p b = true)
    {names : List String} (h : (names.filter p).idxOf a < (names.filter p).idxOf b) :
    names.idxOf a < names.idxOf b := by
  induction names with
  | nil => exact absurd h (Nat.lt_irrefl _)
  | cons c names ih =>
    by_cases hca : c = a
    · subst hca
      have hcb : c ≠ b := by
        intro he
        rw [he] at h
        exact absurd h (Nat.lt_irrefl _)
      rw [List.idxOf_cons_self, List.idxOf_cons_ne names hcb]
      exact Nat.succ_pos _
    · by_cases hcb : c = b
      · subst hcb
        rw [List.filter_cons_of_pos hb, List.idxOf_cons_self] at h
        exact absurd h (Nat.not_lt_zero _)
      · rw [List.idxOf_cons_ne names hca, List.idxOf_cons_ne names hcb]
        refine Nat.succ_lt_succ (ih ?_)
        by_cases hc : p c = true
        · rw [List.filter_cons_of_pos hc, List.idxOf_cons_ne _ hca, List.idxOf_cons_ne _ hcb] at h
          exact Nat.lt_of_succ_lt_succ h
        · rwa [List.filter_cons_of_neg hc] at h

theorem firsts_eraseDups (names : List String) : Firsts names names.eraseDups := by
  -- what is left behind a name is filtered before it goes on, so the induction is on the length
  induction hn : names.length using Nat.strongRecOn generalizing names with
  | ind n ih =>
    cases names with
    | nil => exact ⟨fun _ => Iff.rfl, .nil⟩
    | cons a names =>
      refine ⟨fun name => List.mem_eraseDups, ?_⟩
      have hshorter : (names.filter fun b => !b == a).length < n := by
        rw [← hn, List.length_cons]
        exact Nat.lt_succ_of_le (List.length_filter_le _ _)
      have hrest := ih _ hshorter _ rfl
      have hother : ∀ b ∈ (names.filter fun b => !b == a).eraseDups, (!b == a) = true := by
        intro b hb
        exact (List.mem_filter.mp ((hrest.mem_iff b).mp hb)).2
      have hne : ∀ b ∈ (names.filter fun b => !b == a).eraseDups, a ≠ b := by
        intro b hb he
        simpa [he] using hother b hb
      rw [List.eraseDups_cons]
      refine List.pairwise_cons.mpr ⟨fun b hb => ?_, hrest.ordered.imp_of_mem
        fun {b d} hb hd hlt => ?_⟩
      · rw [List.idxOf_cons_self, List.idxOf_cons_ne names (hne b hb)]
        exact Nat.succ_pos _
      · rw [List.idxOf_cons_ne names (hne b hb), List.idxOf_cons_ne names (hne d hd)]
        exact Nat.succ_lt_succ (idxOf_lt_of_filter (hother b hb) (hother d hd) hlt)

/-! ## Places, one by one -/

/-- What a reader sees in a text from its start on, the first place being numbered `place`. -/
def sightings (read : List Char → Option (List Char)) :
    Nat → List Char → List (Nat × List Char)
  | _, [] => []
  | place, c :: cs =>
    ((read (c :: cs)).map fun name => (place, name)).toList ++ sightings read (place + 1) cs

section

variable {read : List Char → Option (List Char)}

theorem le_of_mem_sightings {start : Nat} {text : List Char} {seen : Nat × List Char}
    (h : seen ∈ sightings read start text) : start ≤ seen.1 := by
  induction text generalizing start with
  | nil => cases h
  | cons c cs ih =>
    rcases List.mem_append.mp h with hhere | hlater
    · obtain ⟨name, _, rfl⟩ := Option.map_eq_some_iff.mp (Option.mem_toList.mp hhere)
      exact Nat.le_refl _
    · exact Nat.le_of_succ_le (ih hlater)

theorem sightings_ordered (start : Nat) (text : List Char) :
    (sightings read start text).Pairwise fun a b => a.1 < b.1 := by
  induction text generalizing start with
  | nil => exact .nil
  | cons c cs ih =>
    refine List.pairwise_append.mpr ⟨?_, ih (start + 1), fun a ha b hb => ?_⟩
    · cases read (c :: cs) with
      | none => exact .nil
      | some name => exact List.pairwise_singleton _ _
    · obtain ⟨name, _, rfl⟩ := Option.map_eq_some_iff.mp (Option.mem_toList.mp ha)
      exact le_of_mem_sightings hb

theorem mem_sightings_iff (hnil : read [] = none) (start : Nat) {place : Nat}
    {text name : List Char} :
    (start + place, name) ∈ sightings read start text ↔ read (text.drop place) = some name := by
  induction text generalizing start place with
  | nil => simp [sightings, hnil]
  | cons c cs ih =>
    rw [sightings, List.mem_append, Option.mem_toList, Option.map_eq_some_iff]
    simp only [Prod.mk.injEq]
    cases place with
    | zero =>
      have hlater : (start + 0, name) ∉ sightings read (start + 1) cs := fun h =>
        absurd (le_of_mem_sightings h) (Nat.not_succ_le_self start)
      rw [or_iff_left hlater]
      simp
    | succ place =>
      have hhere : ¬ ∃ a, read (c :: cs) = some a ∧
          start = start + (place + 1) ∧ a = name := by
        intro h
        obtain ⟨_, _, hplace, _⟩ := h
        omega
      rw [or_iff_right hhere, Nat.add_comm place, ← Nat.add_assoc, ih, Nat.add_comm 1,
        List.drop_succ_cons]

theorem sightings_all (hnil : read [] = none) (text : List Char) :
    Sightings (fun here name => read here = some name) text (sightings read 0 text) where
  ordered := sightings_ordered 0 text
  mem_iff place name := by
    rw [← mem_sightings_iff hnil 0, Nat.zero_add]

end

/-! ## Scans that miss nothing -/

namespace Shape

variable {α : Type} {s : Shape α} {mark : Char}

/-- A scan for a marked shape comes upon everything that can be read at some place. -/
theorem Marked.filterMap_hits (hs : s.Marked mark)
    (hblind : ∀ prev here, s prev here = s none here) (name? : α → Option (List Char))
    (start : Nat) (prev : Option Char) (text : List Char) :
    (s.hits prev text).filterMap name? = (sightings (fun here =>
      (s none here).bind fun h => name? h.value) start text).map Prod.snd := by
  induction text generalizing start prev with
  | nil => rw [hits_nil]; rfl
  | cons c cs ih =>
    rw [hs.hits_cons, List.filterMap_append, ih (start + 1), sightings,
      List.map_append, hblind prev]
    cases s none (c :: cs) with
    | none => rfl
    | some h => cases hname : name? h.value <;> simp [hname]

/-- What a scan for a marked shape names, each name once, are the first sightings of these names. -/
theorem Marked.exists_sightings (hs : s.Marked mark)
    (hblind : ∀ prev here, s prev here = s none here)
    (name? : α → Option (List Char)) {NamedAt : List Char → List Char → Prop}
    (hread : ∀ here name, NamedAt here name ↔ ∃ h, s none here = some h ∧
      name? h.value = some name)
    (text : List Char) :
    ∃ found, Sightings NamedAt text found ∧
      Firsts (namesOf found)
        (((s.occurrences text).filterMap name?).map String.ofList).eraseDups := by
  let read : List Char → Option (List Char) :=
    fun here => (s none here).bind fun h => name? h.value
  have hnil : read [] = none := Option.bind_eq_none_iff.mpr fun h hh => by
    rw [hs.consumes.apply_nil] at hh
    cases hh
  have hall := sightings_all hnil text
  refine ⟨_, ⟨hall.ordered, fun place name => ?_⟩, ?_⟩
  · rw [hall.mem_iff, hread, Option.bind_eq_some_iff]
  · have hnames := congrArg (List.map String.ofList) (hs.filterMap_hits hblind name? 0 none text)
    rw [List.map_map] at hnames
    rw [occurrences_eq_hits, hnames]
    exact firsts_eraseDups _

end Shape

end HeaderIndex.Text
