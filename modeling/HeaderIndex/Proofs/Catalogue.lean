import HeaderIndex.Catalogue
import HeaderIndex.Proofs.Path
import Mathlib.Algebra.GroupWithZero.Nat

/-! Catalogues. Inserting keeps the records in strictly increasing path order and changes what
is known about one path only. Of records with pairwise different paths none is lost, so
their catalogue holds them all and does not depend on the order in which they came
(`ofRecords_perm`, `ofRecords_congr`). -/

namespace HeaderIndex.Catalogue

/-- Records in strictly increasing path order. -/
def Sorted (records : List Record) : Prop := records.Pairwise fun a b => a.path.order b.path = .lt

def Distinct (records : List Record) : Prop :=
  records.Pairwise fun a b => a.path.same b.path = false

/-! ## One record -/

theorem path_of_mem_place {record x : Record} {records : List Record}
    (h : x ∈ place record records) :
    x.path = record.path ∨ ∃ y ∈ records, x.path = y.path := by
  induction records with
  | nil => exact .inl (by rw [List.mem_singleton.mp h])
  | cons r rest ih =>
    rw [place] at h
    split at h
    · rcases List.mem_cons.mp h with rfl | hx
      · exact .inl rfl
      · exact .inr ⟨x, hx, rfl⟩
    · rcases List.mem_cons.mp h with rfl | hx
      · exact .inr ⟨r, by simp, rfl⟩
      · exact .inr ⟨x, by simp [hx], rfl⟩
    · rcases List.mem_cons.mp h with rfl | hx
      · exact .inr ⟨x, by simp, rfl⟩
      · rcases ih hx with hpath | ⟨y, hy, hpath⟩
        · exact .inl hpath
        · exact .inr ⟨y, by simp [hy], hpath⟩

theorem place_sorted {records : List Record} (record : Record) (h : Sorted records) :
    Sorted (place record records) := by
  induction records with
  | nil => exact List.pairwise_singleton _ _
  | cons r rest ih =>
    obtain ⟨hr, hrest⟩ := List.pairwise_cons.mp h
    rw [place]
    split
    · rename_i hlt
      refine List.pairwise_cons.mpr ⟨?_, h⟩
      intro x hx
      rcases List.mem_cons.mp hx with rfl | hx
      · exact hlt
      · exact Std.TransCmp.lt_trans hlt (hr x hx)
    · exact List.pairwise_cons.mpr ⟨hr, hrest⟩
    · rename_i hgt
      refine List.pairwise_cons.mpr ⟨?_, ih hrest⟩
      intro x hx
      rcases path_of_mem_place hx with hpath | ⟨y, hy, hpath⟩
      · rw [hpath, Path.order_swap, hgt]
        rfl
      · rw [hpath]
        exact hr y hy

theorem place_perm {record : Record} {records : List Record}
    (h : ∀ r ∈ records, record.path.same r.path = false) :
    (place record records).Perm (record :: records) := by
  induction records with
  | nil => exact List.Perm.refl _
  | cons r rest ih =>
    rw [place]
    split
    · exact List.Perm.refl _
    · rename_i heq
      have hsame := h r (by simp)
      rw [Path.order_eq_iff.mp heq] at hsame
      cases hsame
    · exact ((ih fun x hx => h x (by simp [hx])).cons r).trans (List.Perm.swap record r rest)

/-- Inserting a record changes what is known about its path and about no other. -/
theorem get?_insert (c : Catalogue) (record : Record) (path : Path) :
    (c.insert record).get? path = if record.path.same path then some record.symbols
      else c.get? path := by
  have hplace : ∀ records : List Record,
      ((place record records).find? fun r => r.path.same path).map (·.symbols) =
        if record.path.same path then some record.symbols
        else (records.find? fun r => r.path.same path).map (·.symbols) := by
    intro records
    induction records with
    | nil => cases hsame : record.path.same path <;> simp [place, hsame]
    | cons r rest ih =>
      rw [place]
      split
      · cases hsame : record.path.same path <;> simp [hsame]
      · rename_i heq
        have hcongr := Path.same_congr (Path.order_eq_iff.mp heq) path
        cases hsame : record.path.same path <;> simp [← hcongr, hsame]
      · rename_i hgt
        cases hr : r.path.same path with
        | false => simpa [hr] using ih
        | true =>
          -- both would be spellings of one path, which the order would not tell apart
          have hne : record.path.same path = false := by
            rw [← Bool.not_eq_true, ← Path.same_congr_right hr, ← Path.order_eq_iff, hgt]
            simp
          simp [hr, hne]
  exact hplace c.records

/-! ## Many records -/

theorem extend_cons (c : Catalogue) (record : Record) (records : List Record) :
    c.extend (record :: records) = (c.insert record).extend records := rfl

theorem extend_sorted {c : Catalogue} (h : Sorted c.records) (records : List Record) :
    Sorted (c.extend records).records := by
  induction records generalizing c with
  | nil => exact h
  | cons record records ih =>
    rw [extend_cons]
    exact ih (place_sorted record h)

theorem extend_perm {c : Catalogue} {records : List Record} (h : Distinct (c.records ++ records)) :
    (c.extend records).records.Perm (c.records ++ records) := by
  induction records generalizing c with
  | nil => rw [List.append_nil]; exact List.Perm.refl _
  | cons record records ih =>
    have hnew : ∀ r ∈ c.records, record.path.same r.path = false := by
      intro r hr
      rw [Path.same_comm]
      exact (List.pairwise_append.mp h).2.2 r hr record (by simp)
    have hperm : ((c.insert record).records ++ records).Perm (c.records ++ record :: records) :=
      ((place_perm hnew).append_right records).trans List.perm_middle.symm
    have hdistinct : Distinct ((c.insert record).records ++ records) :=
      hperm.symm.pairwise h fun hab => by rwa [Path.same_comm]
    rw [extend_cons]
    exact (ih hdistinct).trans hperm

/-- Of several records for one path the last one counts. -/
theorem get?_extend (c : Catalogue) (records : List Record) (path : Path) :
    (c.extend records).get? path =
      (((records.filter fun r => r.path.same path).getLast?).map (·.symbols)).or
        (c.get? path) := by
  induction records generalizing c with
  | nil => rfl
  | cons record records ih =>
    rw [extend_cons, ih, get?_insert, List.filter_cons]
    cases record.path.same path with
    | false => rfl
    | true =>
      rw [if_pos rfl, if_pos rfl, List.getLast?_cons]
      cases (records.filter fun r => r.path.same path).getLast? <;> rfl

theorem ofRecords_sorted (records : List Record) : Sorted (ofRecords records).records :=
  extend_sorted (c := empty) List.Pairwise.nil records

theorem ofRecords_perm {records : List Record} (h : Distinct records) :
    (ofRecords records).records.Perm records :=
  extend_perm (c := empty) h

theorem get?_ofRecords (records : List Record) (path : Path) :
    (ofRecords records).get? path =
      ((records.filter fun r => r.path.same path).getLast?).map (·.symbols) := by
  rw [ofRecords, get?_extend]
  exact Option.or_none

theorem ofRecords_congr {records records' : List Record} (h : Distinct records)
    (hperm : records.Perm records') : ofRecords records = ofRecords records' := by
  have h' : Distinct records' := hperm.pairwise h fun hab => by rwa [Path.same_comm]
  have hsame : (ofRecords records).records.Perm (ofRecords records').records :=
    (ofRecords_perm h).trans (hperm.trans (ofRecords_perm h').symm)
  have hrecords :=
    Path.eq_of_perm_of_sorted (ofRecords_sorted records) (ofRecords_sorted records') hsame
  exact congrArg Catalogue.mk hrecords

/-- Records in order are those of the catalogue they make. -/
theorem ofRecords_records {c : Catalogue} (h : Sorted c.records) : ofRecords c.records = c := by
  have hperm : (ofRecords c.records).records.Perm c.records := ofRecords_perm (h.imp Path.lt_irrefl)
  exact congrArg Catalogue.mk (Path.eq_of_perm_of_sorted (ofRecords_sorted c.records) h hperm)

theorem symbolCount_eq (c : Catalogue) :
    c.symbolCount = (c.records.map fun r => r.symbols.length).sum := by
  rw [symbolCount]
  induction c.records with
  | nil => rfl
  | cons r rest ih => rw [List.foldr_cons, ih, List.map_cons, List.sum_cons]

end HeaderIndex.Catalogue
