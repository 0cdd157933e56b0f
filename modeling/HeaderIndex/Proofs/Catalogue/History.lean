import HeaderIndex.Proofs.Catalogue
import Mathlib.Data.List.Dedup

/-! Histories of a catalogue. Whatever is done to it, a catalogue holds the records that came
since it was last built anew (`Holds`): in strictly increasing path order, under the first
spelling of each path and with the symbols of its last record. One insertion keeps that
(`Holds.insert`), so every history does (`Holds.run`). Such a catalogue is determined by
what came for each path, which is why records of different paths may come in any order. -/

namespace HeaderIndex.Catalogue

inductive Change where
  | insert (record : Record)
  | extend (records : List Record)
  /-- Build it anew from some records. -/
  | collect (records : List Record)

namespace Change

def apply (c : Catalogue) : Change → Catalogue
  | insert record => c.insert record
  | extend records => c.extend records
  | collect records => ofRecords records

def records : Change → List Record
  | insert record => [record]
  | extend records => records
  | collect records => records

def isCollect : Change → Bool
  | collect _ => true
  | _ => false

end Change

/-- The catalogue after a history that starts with nothing. -/
def after (history : List Change) : Catalogue := history.foldl Change.apply empty

def Reachable (c : Catalogue) : Prop := ∃ history, after history = c

/-- The records that count: those of the last `collect` and of all changes behind it. -/
def live : List Change → List Record
  | [] => []
  | change :: rest => if rest.any Change.isCollect then live rest else change.records ++ live rest

/-- How a path is spelled where it is stored. -/
def spelling? (c : Catalogue) (path : Path) : Option Path :=
  (c.records.find? fun r => r.path.same path).map (·.path)

/-! ## Sorted records -/

theorem find?_eq_some_iff {records : List Record} (h : Sorted records) {path : Path} {r : Record} :
    (records.find? fun r => r.path.same path) = some r ↔ r ∈ records ∧
      r.path.same path = true := by
  constructor
  · intro hfind
    exact ⟨List.mem_of_find?_eq_some hfind,
      List.find?_some (p := fun r : Record => r.path.same path) hfind⟩
  · rintro ⟨hmem, hsame⟩
    induction records with
    | nil => cases hmem
    | cons x rest ih =>
      obtain ⟨hx, hrest⟩ := List.pairwise_cons.mp h
      rcases List.mem_cons.mp hmem with rfl | hmem
      · exact List.find?_cons_of_pos hsame
      · have hne : x.path.same path = false := by
          rw [← Path.same_congr_right hsame]
          exact Path.lt_irrefl (hx r hmem)
        rw [List.find?_cons_of_neg (by simp [hne])]
        exact ih hrest hmem

theorem mem_records_iff {c : Catalogue} (h : Sorted c.records) {r : Record} :
    r ∈ c.records ↔ c.spelling? r.path = some r.path ∧ c.get? r.path = some r.symbols := by
  have hmem : r ∈ c.records ↔ (c.records.find? fun x => x.path.same r.path) = some r := by
    rw [find?_eq_some_iff h]
    exact (and_iff_left (Path.same_self r.path)).symm
  rw [hmem, spelling?, get?]
  cases c.records.find? fun x => x.path.same r.path with
  | none => simp
  | some x =>
    obtain ⟨path, symbols⟩ := x
    obtain ⟨path', symbols'⟩ := r
    simp

theorem Sorted.nodup {records : List Record} (h : Sorted records) : records.Nodup := by
  refine h.imp fun {a b} hlt hab => ?_
  have hself := Path.lt_irrefl hlt
  rw [hab, Path.same_self] at hself
  cases hself

/-- A catalogue is determined by how it spells its paths and by what it knows about them. -/
theorem ext_of_sorted {c c' : Catalogue} (h : Sorted c.records) (h' : Sorted c'.records)
    (hspelling : ∀ path, c.spelling? path = c'.spelling? path)
    (hget : ∀ path, c.get? path = c'.get? path) : c = c' := by
  have hperm : c.records.Perm c'.records := by
    refine (List.perm_ext_iff_of_nodup h.nodup h'.nodup).mpr fun r => ?_
    rw [mem_records_iff h, mem_records_iff h', hspelling, hget]
  exact congrArg Catalogue.mk (Path.eq_of_perm_of_sorted h h' hperm)

/-- A path that is stored already keeps its spelling. -/
theorem spelling?_insert {c : Catalogue} (h : Sorted c.records) (record : Record) (path : Path) :
    (c.insert record).spelling? path =
      if record.path.same path then some ((c.spelling? path).getD record.path)
      else c.spelling? path := by
  obtain ⟨records⟩ := c
  show ((place record records).find? fun r => r.path.same path).map (·.path) =
    if record.path.same path
    then some (((records.find? fun r => r.path.same path).map (·.path)).getD record.path)
    else (records.find? fun r => r.path.same path).map (·.path)
  induction records with
  | nil => cases hsame : record.path.same path <;> simp [place, hsame]
  | cons r rest ih =>
    obtain ⟨hr, hrest⟩ := List.pairwise_cons.mp h
    rw [place]
    split
    · rename_i hlt
      cases hsame : record.path.same path with
      | false => simp [hsame]
      | true =>
        -- what the new record comes before is not another record of its path
        have hnone : ((r :: rest).find? fun x => x.path.same path) = none := by
          refine List.find?_eq_none.mpr fun x hx => ?_
          have hx : record.path.order x.path = .lt := by
            rcases List.mem_cons.mp hx with rfl | hx
            · exact hlt
            · exact Std.TransCmp.lt_trans hlt (hr x hx)
          rw [Path.same_comm, ← Path.same_congr hsame, Path.lt_irrefl hx]
          exact Bool.false_ne_true
        simp [hnone, hsame]
    · rename_i heq
      have hcongr := Path.same_congr (Path.order_eq_iff.mp heq) path
      cases hsame : record.path.same path <;> simp [← hcongr, hsame]
    · rename_i hgt
      cases hsame : r.path.same path with
      | false => simpa [hsame] using ih hrest
      | true =>
        have hne : record.path.same path = false := by
          rw [← Bool.not_eq_true, ← Path.same_congr_right hsame, ← Path.order_eq_iff, hgt]
          simp
        simp [hsame, hne]

/-! ## What a catalogue holds -/

/-- A catalogue that holds records which came in this order. -/
structure Holds (records : List Record) (c : Catalogue) : Prop where
  sorted : Sorted c.records
  get?_eq : ∀ path,
    c.get? path = ((records.filter fun r => r.path.same path).getLast?).map (·.symbols)
  spelling?_eq : ∀ path,
    c.spelling? path = ((records.filter fun r => r.path.same path).head?).map (·.path)

namespace Holds

variable {records records' : List Record} {c c' : Catalogue}

theorem empty : Holds [] Catalogue.empty := ⟨List.Pairwise.nil, fun _ => rfl, fun _ => rfl⟩

theorem insert (h : Holds records c) (record : Record) :
    Holds (records ++ [record]) (c.insert record) where
  sorted := place_sorted record h.sorted
  get?_eq := by
    intro path
    rw [get?_insert, h.get?_eq, List.filter_append, List.filter_singleton]
    cases record.path.same path <;> simp
  spelling?_eq := by
    intro path
    rw [spelling?_insert h.sorted, h.spelling?_eq, List.filter_append, List.filter_singleton,
      List.head?_append]
    cases record.path.same path with
    | false => simp
    | true => cases (records.filter fun r => r.path.same path).head? <;> rfl

theorem extend (h : Holds records c) (more : List Record) :
    Holds (records ++ more) (c.extend more) := by
  induction more generalizing records c with
  | nil =>
    rw [List.append_nil]
    exact h
  | cons record more ih =>
    rw [extend_cons, List.append_cons]
    exact ih (h.insert record)

theorem ofRecords (records : List Record) : Holds records (ofRecords records) :=
  Holds.empty.extend records

theorem apply (h : Holds records c) (change : Change) :
    Holds (if change.isCollect then change.records else records ++ change.records)
      (change.apply c) := by
  cases change with
  | insert record => exact h.insert record
  | extend more => exact h.extend more
  | collect more => exact Holds.ofRecords more

/-- What a history adds to the records that a catalogue holds already. -/
theorem run (h : Holds records c) (history : List Change) :
    Holds (if history.any Change.isCollect then live history else records ++ live history)
      (history.foldl Change.apply c) := by
  induction history generalizing records c with
  | nil =>
    show Holds (records ++ []) c
    rw [List.append_nil]
    exact h
  | cons change rest ih =>
    have hrest := ih (h.apply change)
    rw [List.foldl_cons, List.any_cons, live]
    cases hlater : rest.any Change.isCollect with
    | true => simpa [hlater] using hrest
    | false => cases hcollect : change.isCollect <;> simpa [hlater, hcollect] using hrest

/-- Only what came for each path matters, and in which order. -/
theorem eq_of_filter (h : Holds records c) (h' : Holds records' c')
    (hfilter : ∀ path, (records.filter fun r => r.path.same path) = records'.filter
      fun r => r.path.same path) : c = c' := by
  refine ext_of_sorted h.sorted h'.sorted (fun path => ?_) fun path => ?_
  · rw [h.spelling?_eq, h'.spelling?_eq, hfilter]
  · rw [h.get?_eq, h'.get?_eq, hfilter]

theorem mem_components_iff (h : Holds records c) (key : List Component) :
    key ∈ c.records.map (fun r => r.path.components) ↔ key ∈ records.map fun r =>
      r.path.components := by
  -- a path is stored if it has a spelling there, and that if a record of it came
  have hmem : ∀ (l : List Record) (path : Path),
      path.components ∈ l.map (fun r => r.path.components) ↔ ∃ r ∈ l,
      r.path.same path = true := by
    intro l path
    simp [Path.same]
  have hstored : ∀ path : Path,
      (∃ r ∈ c.records, r.path.same path = true) ↔ ∃ r ∈ records,
      r.path.same path = true := by
    intro path
    have hspelling := congrArg Option.isSome (h.spelling?_eq path)
    rw [spelling?, Option.isSome_map, Option.isSome_map, List.head?_filter,
      Bool.eq_iff_iff] at hspelling
    rwa [List.find?_isSome, List.find?_isSome] at hspelling
  constructor
  · intro hkey
    obtain ⟨r, _, rfl⟩ := List.mem_map.mp hkey
    exact (hmem records r.path).mpr ((hstored r.path).mp ((hmem c.records r.path).mp hkey))
  · intro hkey
    obtain ⟨r, _, rfl⟩ := List.mem_map.mp hkey
    exact (hmem c.records r.path).mpr ((hstored r.path).mpr ((hmem records r.path).mp hkey))

/-- Every path is spelled as some record spells it. -/
theorem exists_path (h : Holds records c) {r : Record} (hr : r ∈ c.records) :
    ∃ record ∈ records, record.path = r.path := by
  have hspelling := ((mem_records_iff h.sorted).mp hr).1
  rw [h.spelling?_eq] at hspelling
  obtain ⟨record, hhead, hpath⟩ := Option.map_eq_some_iff.mp hspelling
  exact ⟨record, (List.mem_filter.mp (List.mem_of_head? hhead)).1, hpath⟩

/-- As many paths are stored as there are different ones among the records. -/
theorem size_eq (h : Holds records c) :
    c.size = (records.map fun r => r.path.components).dedup.length := by
  have hnodup : (c.records.map fun r => r.path.components).Nodup := by
    refine List.pairwise_map.mpr (h.sorted.imp fun {a b} hlt hab => ?_)
    have hne := Path.lt_irrefl hlt
    rw [Path.same, hab, beq_self_eq_true] at hne
    cases hne
  have hperm := (List.perm_ext_iff_of_nodup hnodup (List.nodup_dedup _)).mpr fun key => by
    rw [h.mem_components_iff, List.mem_dedup]
  rw [size, ← hperm.length_eq, List.length_map]

end Holds

theorem after_holds (history : List Change) : Holds (live history) (after history) := by
  have h := Holds.empty.run history
  rwa [List.nil_append, ite_self] at h

theorem Reachable.sorted {c : Catalogue} (h : Reachable c) : Sorted c.records := by
  obtain ⟨history, rfl⟩ := h
  exact (after_holds history).sorted

theorem ofRecords_reachable (records : List Record) : Reachable (ofRecords records) :=
  ⟨[.collect records], rfl⟩

/-! ## Order -/

/-- Of different paths' records at most one is of a path. -/
theorem Distinct.filter_eq {records records' : List Record} (h : Distinct records)
    (hperm : records.Perm records') (path : Path) :
    (records.filter fun r => r.path.same path) = records'.filter fun r => r.path.same path := by
  have hfilter := hperm.filter fun r => r.path.same path
  have hdistinct := h.sublist (List.filter_sublist (p := fun r => r.path.same path))
  have hsame : ∀ r ∈ records.filter fun r => r.path.same path, r.path.same path = true :=
    fun r hr => (List.mem_filter.mp hr).2
  match hl : records.filter fun r => r.path.same path with
  | [] =>
    rw [hl] at hfilter
    rw [hl, List.nil_perm.mp hfilter]
  | [r] =>
    rw [hl] at hfilter
    rw [hl, List.singleton_perm.mp hfilter]
  | r :: r' :: rest =>
    rw [hl] at hdistinct hsame
    have hne := (List.pairwise_cons.mp hdistinct).1 r' (by simp)
    rw [Path.same_congr (hsame r (by simp)), Path.same_comm, hsame r' (by simp)] at hne
    cases hne

theorem foldl_insert_eq_extend (c : Catalogue) (records : List Record) :
    (records.map Change.insert).foldl Change.apply c = c.extend records :=
  List.foldl_map

/-- **The last record of a path counts.** After every history the paths are in strictly
increasing order, so no two of them are the same; of the records that count, a path has
the symbols of its last and the spelling of its first; it is as long as they have
different paths; and records of different paths may be inserted in any order. -/
theorem after_last_record_counts (history : List Change) :
    (after history).paths.Pairwise (fun p q => p.order q = .lt ∧ p.same q = false) ∧
    (∀ path, (after history).get? path =
      (((live history).filter fun r => r.path.same path).getLast?).map (·.symbols)) ∧
    (∀ path, (after history).spelling? path =
      (((live history).filter fun r => r.path.same path).head?).map (·.path)) ∧
    (after history).size = ((live history).map fun r => r.path.components).dedup.length ∧
    ((after history).isEmpty = true ↔ (after history).size = 0) ∧
    (after history).symbolCount = ((after history).records.map fun r => r.symbols.length).sum ∧
    ∀ records records' : List Record, records.Pairwise (fun a b => a.path.same b.path = false) →
      records.Perm records' →
      after (history ++ records.map Change.insert) =
        after (history ++ records'.map Change.insert) := by
  have hholds := after_holds history
  refine ⟨?_, hholds.get?_eq, hholds.spelling?_eq, hholds.size_eq, ?_, symbolCount_eq _, ?_⟩
  · refine List.pairwise_map.mpr (hholds.sorted.imp fun hlt => ?_)
    exact ⟨hlt, Path.lt_irrefl hlt⟩
  · rw [isEmpty, size, List.isEmpty_iff, List.length_eq_zero_iff]
  · intro records records' hdistinct hperm
    rw [after, after, List.foldl_append, List.foldl_append, foldl_insert_eq_extend,
      foldl_insert_eq_extend]
    refine (hholds.extend records).eq_of_filter (hholds.extend records') fun path => ?_
    rw [List.filter_append, List.filter_append, Distinct.filter_eq hdistinct hperm]

/-- A path that comes back in another spelling, after a `collect` that drops what was there
before; then two more records, whose order does not matter. -/
theorem after_last_record_counts_respelled :
    ∃ (history : List Change) (records records' : List Record),
      live history = [⟨.ofText "a//b", [⟨"X", .define⟩]⟩, ⟨.ofText "a.b", []⟩,
        ⟨.ofText "a/./b/", [⟨"Y", .enum⟩]⟩] ∧
      (after history).get? (.ofText "a/b") = some [⟨"Y", .enum⟩] ∧
      (after history).spelling? (.ofText "a/b") = some (.ofText "a//b") ∧
      (after history).size = 2 ∧
      records.Pairwise (fun a b => a.path.same b.path = false) ∧
      records.Perm records' ∧ records ≠ records' ∧
      after (history ++ records.map Change.insert) =
        after (history ++ records'.map Change.insert) := by
  let history : List Change :=
    [.insert ⟨.ofText "c", []⟩, .collect [⟨.ofText "a//b", [⟨"X", .define⟩]⟩],
      .extend [⟨.ofText "a.b", []⟩], .insert ⟨.ofText "a/./b/", [⟨"Y", .enum⟩]⟩]
  let records : List Record := [⟨.ofText "d", []⟩, ⟨.ofText "a/b", []⟩]
  have hrecords : records.Pairwise fun a b => a.path.same b.path = false := by decide +kernel
  have hperm : records.Perm records.reverse := (List.reverse_perm records).symm
  obtain ⟨_, hget, hspelling, hsize, _, _, horder⟩ := after_last_record_counts history
  refine ⟨history, records, records.reverse, rfl, (hget _).trans ?_, (hspelling _).trans ?_,
    hsize.trans ?_, hrecords, hperm, by decide, horder records records.reverse hrecords hperm⟩
  · decide +kernel
  · decide +kernel
  · decide +kernel

end HeaderIndex.Catalogue
