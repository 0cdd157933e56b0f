import HeaderIndex.Path

/-! The order of paths. It is transitive and oriented, and two paths that it does not tell
apart have the same components. So a list of paths has at most one strictly increasing
arrangement (`eq_of_perm_of_sorted`). -/

namespace HeaderIndex

namespace Component

/-- What names are ordered by; of other components only the kind counts. -/
def label : Component → Name
  | name s => s
  | _ => []

theorem order_eq : order = compareLex (compareOn rank) (compareOn label) := by
  funext a b
  cases a <;> cases b <;> rfl

instance : Std.TransCmp order := by
  rw [order_eq]
  infer_instance

instance : Std.LawfulEqCmp order where
  compare_self := by
    intro a
    rw [order_eq]
    exact Std.ReflCmp.compare_self
  eq_of_compare := by
    intro a b h
    rw [order_eq, compareLex, Ordering.then_eq_eq] at h
    have hrank : a.rank = b.rank := Std.LawfulEqCmp.eq_of_compare h.1
    have hlabel : a.label = b.label := Std.LawfulEqCmp.eq_of_compare h.2
    cases a <;> cases b <;> simp_all [rank, label]

end Component

namespace Path

instance : Std.TransCmp order where
  eq_swap := by
    intro p q
    exact @Std.OrientedCmp.eq_swap _ (List.compareLex Component.order) _ p.components q.components
  isLE_trans := by
    intro p q r
    exact @Std.TransCmp.isLE_trans _ (List.compareLex Component.order) _ p.components q.components
      r.components

theorem order_swap (p q : Path) : q.order p = (p.order q).swap := Std.OrientedCmp.eq_swap

theorem order_eq_iff {p q : Path} : p.order q = .eq ↔ p.same q = true := by
  rw [order, same, beq_iff_eq]
  exact Std.LawfulEqCmp.compare_eq_iff_eq

theorem same_self (p : Path) : p.same p = true := beq_self_eq_true _

theorem same_comm (p q : Path) : p.same q = q.same p := Bool.beq_comm

/-- Spellings of one path are spellings of whatever either of them is one of. -/
theorem same_congr {p q : Path} (h : p.same q = true) (r : Path) : p.same r = q.same r := by
  rw [same, same, eq_of_beq h]

theorem same_congr_right {p q : Path} (h : p.same q = true) (r : Path) : r.same p = r.same q := by
  rw [same_comm r p, same_comm r q, same_congr h]

theorem order_congr {p q : Path} (h : p.same q = true) (r : Path) : p.order r = q.order r := by
  rw [order, order, eq_of_beq h]

theorem lt_irrefl {p q : Path} (h : p.order q = .lt) : p.same q = false := by
  rw [← Bool.not_eq_true, ← order_eq_iff, h]
  simp

theorem lt_of_le {p q : Path} (h : p.le q = true) (hne : p.same q = false) : p.order q = .lt := by
  rw [le] at h
  cases horder : p.order q with
  | lt => rfl
  | eq => rw [order_eq_iff.mp horder] at hne; cases hne
  | gt => rw [horder] at h; cases h

theorem le_trans (p q r : Path) (h : p.le q = true) (h' : q.le r = true) : p.le r = true :=
  Std.TransCmp.isLE_trans h h'

theorem le_total (p q : Path) : (p.le q || q.le p) = true := by
  rw [le, le, order_swap p q]
  cases p.order q <;> rfl

section Sorted

variable {α : Type} {key : α → Path}

/-- Whatever has strictly increasing paths is determined by what it holds. -/
theorem eq_of_perm_of_sorted {l l' : List α}
    (h : l.Pairwise fun a b => (key a).order (key b) = .lt)
    (h' : l'.Pairwise fun a b => (key a).order (key b) = .lt) (hperm : l.Perm l') : l = l' := by
  refine List.Perm.eq_of_pairwise (fun a b _ _ hab hba => ?_) h h' hperm
  rw [order_swap, hab] at hba
  cases hba

/-- Sorting puts things with different paths into strictly increasing order. -/
theorem sorted_mergeSort {l : List α} (h : l.Pairwise fun a b => (key a).same (key b) = false) :
    (l.mergeSort fun a b => (key a).le (key b)).Pairwise fun a b =>
      (key a).order (key b) = .lt := by
  have hle : (l.mergeSort fun a b => (key a).le (key b)).Pairwise fun a b =>
      (key a).le (key b) = true :=
    List.pairwise_mergeSort (fun a b c => le_trans (key a) (key b) (key c))
      (fun a b => le_total (key a) (key b)) l
  have hne : (l.mergeSort fun a b => (key a).le (key b)).Pairwise fun a b =>
      (key a).same (key b) = false := by
    refine (List.mergeSort_perm l _).symm.pairwise h fun hab => ?_
    rw [same_comm]
    exact hab
  exact hle.imp₂ (fun a b => lt_of_le) hne

/-- Sorting keeps the order of what has the same path. -/
theorem filter_mergeSort (l : List α) (path : Path) :
    (l.mergeSort fun a b => (key a).le (key b)).filter (fun a => (key a).same path) =
      l.filter fun a => (key a).same path := by
  have hsorted : (l.filter fun a => (key a).same path).Pairwise fun a b =>
      (key a).le (key b) = true := by
    refine List.pairwise_of_forall_mem_list fun a ha b hb => ?_
    have hsame : (key a).same (key b) = true := by
      rw [same_congr (List.mem_filter.mp ha).2, same_comm]
      exact (List.mem_filter.mp hb).2
    rw [le, order_eq_iff.mpr hsame]
    rfl
  have htrans : ∀ a b c, (key a).le (key b) = true → (key b).le (key c) = true →
      (key a).le (key c) = true :=
    fun a b c => le_trans (key a) (key b) (key c)
  have htotal : ∀ a b, ((key a).le (key b) || (key b).le (key a)) = true :=
    fun a b => le_total (key a) (key b)
  have hstable := List.sublist_mergeSort htrans htotal hsorted List.filter_sublist
  have hsub := hstable.filter fun a => (key a).same path
  rw [List.filter_filter] at hsub
  simp only [Bool.and_self] at hsub
  have hlength := ((List.mergeSort_perm l fun a b => (key a).le (key b)).filter fun a =>
    (key a).same path).length_eq
  exact (hsub.eq_of_length hlength.symm).symm

end Sorted

end Path

end HeaderIndex
