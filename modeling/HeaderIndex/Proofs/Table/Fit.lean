import HeaderIndex.Table
import Mathlib.Algebra.GroupWithZero.Nat
import Mathlib.Algebra.Order.BigOperators.Group.List
import Mathlib.Algebra.Order.Group.Nat
import Mathlib.Data.List.Forall2
import Mathlib.Logic.Relation

/-! Fitting columns to a limit. While the columns are over the limit, one of the widest that
can be narrowed loses a character (`Shrinks`). Every step takes exactly one from the total,
so the steps that are allowed suffice, and the total ends at the limit or at the least there
is (`total_fit`). -/

namespace HeaderIndex.Table

open Relation (ReflTransGen)

/-- The length of a line of columns of the given widths, two blanks between neighbours. -/
def span (widths : List Nat) : Nat := widths.sum + 2 * (widths.length - 1)

theorem total_eq_span (cols : List Column) : total cols = span (cols.map (·.width)) := by
  have hsum : cols.foldr (fun col width => col.width + width) 0 = (cols.map (·.width)).sum := by
    rw [List.sum_eq_foldr, List.foldr_map]
  rw [total, span, hsum, List.length_map]

theorem span_least_le {cols : List Column} (h : ∀ c ∈ cols, c.least ≤ c.width) :
    span (cols.map (·.least)) ≤ total cols := by
  rw [total_eq_span]
  simp only [span, List.length_map]
  exact Nat.add_le_add_right (List.sum_le_sum h) _

theorem le_foldl_max (xs : List Nat) (start : Nat) : start ≤ xs.foldl max start := by
  rw [List.foldl_max]
  exact Nat.le_max_left _ _

theorem le_foldl_max_of_mem {xs : List Nat} {x : Nat} (start : Nat) (h : x ∈ xs) :
    x ≤ xs.foldl max start := by
  rw [List.foldl_max_eq_max (List.ne_nil_of_mem h)]
  exact Nat.le_trans (List.le_max_of_mem h) (Nat.le_max_right _ _)

namespace Column

variable {cols : List Column}

theorem le_widest {c : Column} (h : c ∈ cols) (hc : c.canShrink) : c.width ≤ widest cols :=
  le_foldl_max_of_mem 0 (List.mem_map_of_mem (List.mem_filter.mpr ⟨h, hc⟩))

theorem exists_widest (h : cols.any canShrink) :
    ∃ c ∈ cols, c.canShrink ∧ c.width = widest cols := by
  obtain ⟨d, hd, hshrink⟩ := List.any_eq_true.mp h
  have hne : (cols.filter canShrink).map (·.width) ≠ [] :=
    List.ne_nil_of_mem (List.mem_map_of_mem (List.mem_filter.mpr ⟨hd, hshrink⟩))
  obtain ⟨c, hc, hwidth⟩ := List.mem_map.mp (List.max_mem hne)
  obtain ⟨hmem, hcan⟩ := List.mem_filter.mp hc
  refine ⟨c, hmem, hcan, ?_⟩
  rw [widest, List.foldl_max_eq_max hne, hwidth, Nat.zero_max]

/-- Narrowing leaves all columns as they are but one. -/
theorem shrinkFirst_eq {width : Nat} (h : ∃ c ∈ cols, c.canShrink ∧ c.width = width) :
    ∃ before c behind, cols = before ++ c :: behind ∧ c.canShrink ∧ c.width = width ∧
      shrinkFirst width cols = before ++ { c with width := c.width - 1 } :: behind := by
  induction cols with
  | nil => simp at h
  | cons d rest ih =>
    by_cases hd : d.canShrink ∧ d.width = width
    · exact ⟨[], d, rest, rfl, hd.1, hd.2, by simp [shrinkFirst, hd]⟩
    · have hrest : ∃ c ∈ rest, c.canShrink ∧ c.width = width := by
        obtain ⟨c, hc, hcan⟩ := h
        rcases List.mem_cons.mp hc with rfl | hc
        · exact absurd hcan hd
        · exact ⟨c, hc, hcan⟩
      obtain ⟨before, c, behind, rfl, hcan, hwidth, hshrink⟩ := ih hrest
      refine ⟨d :: before, c, behind, rfl, hcan, hwidth, ?_⟩
      rw [shrinkFirst, if_neg (by simpa using hd), hshrink, List.cons_append]

/-- What narrowing can do to a column. -/
structure Narrows (c d : Column) : Prop where
  least : d.least = c.least
  le : d.width ≤ c.width
  floor : c.least ≤ c.width → c.least ≤ d.width

instance : Std.Refl Narrows := ⟨fun _ => ⟨rfl, Nat.le_refl _, id⟩⟩

theorem Narrows.trans {c d e : Column} (h : Narrows c d) (h' : Narrows d e) : Narrows c e where
  least := h'.least.trans h.least
  le := Nat.le_trans h'.le h.le
  floor hc := h.least ▸ h'.floor (h.least.symm ▸ h.floor hc)

theorem Narrows.forall₂_trans {as bs cs : List Column} (h : List.Forall₂ Narrows as bs)
    (h' : List.Forall₂ Narrows bs cs) : List.Forall₂ Narrows as cs := by
  induction h generalizing cs with
  | nil => exact h'
  | cons hab _ ih =>
    cases h' with
    | cons hbc hrest => exact .cons (hab.trans hbc) (ih hrest)

theorem narrows_pred {c : Column} (h : c.canShrink) :
    Narrows c { c with width := c.width - 1 } where
  least := rfl
  le := Nat.sub_le _ _
  floor _ := Nat.le_sub_one_of_lt (of_decide_eq_true h)

end Column

open Column

variable {limit steps : Nat} {cols cols' : List Column}

/-- One step of narrowing: the columns are over the limit, and one that can be narrowed, and is
as wide as any that can, loses a character. -/
inductive Shrinks (limit : Nat) : List Column → List Column → Prop
  | step {before behind : List Column} {c : Column}
      (exceeds : limit < total (before ++ c :: behind))
      (can : c.canShrink) (widest : ∀ d ∈ before ++ c :: behind, d.canShrink →
        d.width ≤ c.width) :
      Shrinks limit (before ++ c :: behind) (before ++ { c with width := c.width - 1 } :: behind)

theorem shrinks_of_over (hover : limit < total cols) (hany : cols.any canShrink) :
    Shrinks limit cols (shrinkFirst (widest cols) cols) := by
  obtain ⟨before, c, behind, hcols, hcan, hwidth, hshrink⟩ :=
    shrinkFirst_eq (exists_widest hany)
  have hwidest : ∀ d ∈ cols, d.canShrink → d.width ≤ c.width :=
    fun d hd hd' => hwidth ▸ le_widest hd hd'
  rw [hshrink]
  subst hcols
  exact .step hover hcan hwidest

theorem Shrinks.exceeds (h : Shrinks limit cols cols') : limit < total cols := by
  cases h with
  | step exceeds _ _ => exact exceeds

theorem Shrinks.total_succ (h : Shrinks limit cols cols') : total cols' + 1 = total cols := by
  cases h with
  | step _ can _ =>
    rw [canShrink, decide_eq_true_eq] at can
    simp only [total_eq_span, span, List.map_append, List.map_cons, List.sum_append, List.sum_cons,
      List.length_append, List.length_cons]
    omega

theorem Shrinks.narrows (h : Shrinks limit cols cols') : List.Forall₂ Narrows cols cols' := by
  cases h with
  | step _ can _ =>
    exact List.rel_append (List.forall₂_refl _) (.cons (narrows_pred can) (List.forall₂_refl _))

theorem narrow_run (limit steps : Nat) (cols : List Column) :
    ReflTransGen (Shrinks limit) cols (narrow limit steps cols) := by
  induction steps generalizing cols with
  | zero => exact .refl
  | succ steps ih =>
    rw [narrow]
    split
    · exact .refl
    · rename_i hover
      split
      · rename_i hany
        exact .head (shrinks_of_over (Nat.lt_of_not_le hover) hany) (ih _)
      · exact .refl

/-- With a step for every character over the limit, narrowing goes on to its end. -/
theorem narrow_done (h : total cols ≤ limit + steps) :
    total (narrow limit steps cols) ≤ limit ∨ ∀ c ∈ narrow limit steps cols,
      ¬ c.canShrink := by
  induction steps generalizing cols with
  | zero => exact .inl h
  | succ steps ih =>
    rw [narrow]
    split
    · rename_i hfits
      exact .inl hfits
    · rename_i hover
      split
      · rename_i hany
        have hstep := (shrinks_of_over (Nat.lt_of_not_le hover) hany).total_succ
        exact ih (by omega)
      · rename_i hnone
        simp only [List.any_eq_true, not_exists, not_and] at hnone
        exact .inr hnone

theorem narrows_of_run (h : ReflTransGen (Shrinks limit) cols cols') :
    List.Forall₂ Narrows cols cols' := by
  induction h with
  | refl => exact List.forall₂_refl _
  | tail _ step ih => exact Narrows.forall₂_trans ih step.narrows

/-- A run never goes below the limit, unless it starts there. -/
theorem limit_le_of_run (h : ReflTransGen (Shrinks limit) cols cols')
    (hover : limit ≤ total cols) : limit ≤ total cols' := by
  induction h with
  | refl => exact hover
  | tail _ step _ =>
    have hsucc := step.total_succ
    have hbefore := step.exceeds
    omega

theorem narrows_fit (limit : Option Nat) (cols : List Column) :
    List.Forall₂ Narrows cols (fit limit cols) := by
  cases limit with
  | none => exact List.forall₂_refl _
  | some m => exact narrows_of_run (narrow_run m _ cols)

theorem least_fit (limit : Option Nat) (cols : List Column) :
    (fit limit cols).map (·.least) = cols.map (·.least) := by
  have h := narrows_fit limit cols
  generalize fit limit cols = cols' at h
  induction h with
  | nil => rfl
  | cons hc _ ih => rw [List.map_cons, List.map_cons, hc.least, ih]

theorem least_le_fit (limit : Option Nat) (h : ∀ c ∈ cols, c.least ≤ c.width) :
    ∀ c ∈ fit limit cols, c.least ≤ c.width := by
  have hfit := narrows_fit limit cols
  generalize fit limit cols = cols' at hfit
  induction hfit with
  | nil => exact h
  | cons hc _ ih =>
    rw [List.forall_mem_cons] at h ⊢
    exact ⟨hc.least ▸ hc.floor h.1, ih h.2⟩

theorem fit_of_total_le {m : Nat} (h : total cols ≤ m) : fit (some m) cols = cols := by
  rcases (narrow_run m (total cols) cols).cases_head with hsame | ⟨_, hstep, _⟩
  · exact hsame.symm
  · exact absurd hstep.exceeds (Nat.not_lt_of_le h)

/-- **The width of a table under a limit.** It is the width that the table asks for, if that
fits, and otherwise the limit or the least width of the columns, whichever is larger. -/
theorem total_fit (m : Nat) (h : ∀ c ∈ cols, c.least ≤ c.width) :
    total (fit (some m) cols) = min (total cols) (max m (span (cols.map (·.least)))) := by
  have hleast := span_least_le h
  by_cases hfits : total cols ≤ m
  · rw [fit_of_total_le hfits]
    omega
  · have hlimit : m ≤ total (fit (some m) cols) :=
      limit_le_of_run (narrow_run m _ cols) (by omega)
    have hfloor := span_least_le (least_le_fit (some m) h)
    rw [least_fit] at hfloor
    have hdone : total (fit (some m) cols) ≤ m ∨ ∀ c ∈ fit (some m) cols, ¬ c.canShrink :=
      narrow_done (Nat.le_add_left _ _)
    rcases hdone with hdone | hdone
    · omega
    · have hsame : (fit (some m) cols).map (·.width) = (fit (some m) cols).map (·.least) := by
        refine List.map_congr_left fun c hc => ?_
        have hcan := hdone c hc
        have hle := least_le_fit (some m) h c hc
        rw [canShrink, decide_eq_true_eq] at hcan
        omega
      rw [total_eq_span, hsame, least_fit] at hlimit hfloor ⊢
      omega

theorem length_fit (limit : Option Nat) (cols : List Column) :
    (fit limit cols).length = cols.length :=
  (narrows_fit limit cols).length_eq.symm

end HeaderIndex.Table
