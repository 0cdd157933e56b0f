import HeaderIndex.Proofs.Table.Fit

/-! Narrowing ends, and is even. Each step takes a character from a column that is as wide as any
that can be narrowed, so a column that has lost one is at most one character behind those that
could still lose more. A step keeps that (`Shrinks.balanced`) and so does a whole run. How many
steps are allowed makes no difference once there is one for every character over the limit
(`narrow_eq_fit`). -/

namespace HeaderIndex.Table

open Column
open Relation (ReflTransGen)

variable {limit : Nat} {start cols cols' : List Column}

/-! ## The end of a run -/

theorem narrow_of_total_le (h : total cols ≤ limit) (steps : Nat) :
    narrow limit steps cols = cols := by
  cases steps with
  | zero => rfl
  | succ steps => rw [narrow, if_pos h]

theorem narrow_congr {steps steps' : Nat} (h : total cols ≤ limit + steps)
    (h' : total cols ≤ limit + steps') : narrow limit steps cols = narrow limit steps' cols := by
  induction steps generalizing steps' cols with
  | zero => rw [narrow_of_total_le (by omega), narrow_of_total_le (by omega)]
  | succ steps ih =>
    cases steps' with
    | zero => rw [narrow_of_total_le (by omega), narrow_of_total_le (by omega)]
    | succ steps' =>
      rw [narrow, narrow]
      split
      · rfl
      · rename_i hover
        split
        · rename_i hany
          have hsucc := (shrinks_of_over (Nat.lt_of_not_le hover) hany).total_succ
          exact ih (by omega) (by omega)
        · rfl

theorem narrow_eq_fit {steps : Nat} (h : total cols ≤ limit + steps) :
    narrow limit steps cols = fit (some limit) cols :=
  narrow_congr h (Nat.le_add_left _ _)

/-! ## Balance -/

/-- A column that can still be narrowed is at most one character wider than one that has been. -/
def Balanced (start cols : List Column) : Prop :=
  ∀ (i j : Nat) (first narrowed other : Column), start[i]? = some first →
  cols[i]? = some narrowed → cols[j]? = some other →
    narrowed.width < first.width → other.canShrink → other.width ≤ narrowed.width + 1

theorem balanced_self (cols : List Column) : Balanced cols cols := by
  intro i j first narrowed other hfirst hnarrowed _ hless _
  rw [Option.some.inj (hfirst.symm.trans hnarrowed)] at hless
  exact absurd hless (Nat.lt_irrefl _)

/-- What a step does to the column at an index. -/
theorem Shrinks.exists_index (h : Shrinks limit cols cols') :
    ∃ (k : Nat) (c : Column), cols[k]? = some c ∧ c.canShrink ∧
      (∀ (j : Nat) (d : Column), cols[j]? = some d → d.canShrink → d.width ≤ c.width) ∧
      ∀ i : Nat, cols'[i]? = if i = k then some { c with width := c.width - 1 }
        else cols[i]? := by
  cases h with
  | @step before behind c _ can widest =>
    refine ⟨before.length, c,
      by simp, can, fun j d hd => widest d (List.mem_of_getElem? hd), fun i => ?_⟩
    have hset : (before ++ c :: behind).set before.length { c with width := c.width - 1 } =
        before ++ { c with width := c.width - 1 } :: behind := by simp
    rw [← hset, List.getElem?_set]
    by_cases hi : before.length = i
    · simp [hi.symm]
    · rw [if_neg hi, if_neg (Ne.symm hi)]

theorem Shrinks.balanced (h : Shrinks limit cols cols') (hb : Balanced start cols) :
    Balanced start cols' := by
  obtain ⟨k, c, hc, hcan, hwidest, hcols'⟩ := h.exists_index
  have hpos : c.least < c.width := of_decide_eq_true hcan
  intro i j first narrowed other hfirst hnarrowed hother hless hshrink
  rw [hcols'] at hnarrowed hother
  by_cases hi : i = k
  · -- the column that was just narrowed had been as wide as any
    rw [if_pos hi] at hnarrowed
    obtain rfl := Option.some.inj hnarrowed
    by_cases hj : j = k
    · rw [if_pos hj] at hother
      obtain rfl := Option.some.inj hother
      exact Nat.le_succ _
    · rw [if_neg hj] at hother
      have hle := hwidest j other hother hshrink
      show other.width ≤ c.width - 1 + 1
      omega
  · rw [if_neg hi] at hnarrowed
    by_cases hj : j = k
    · rw [if_pos hj] at hother
      obtain rfl := Option.some.inj hother
      have hle := hb i k first narrowed c hfirst hnarrowed hc hless hcan
      show c.width - 1 ≤ narrowed.width + 1
      omega
    · rw [if_neg hj] at hother
      exact hb i j first narrowed other hfirst hnarrowed hother hless hshrink

theorem balanced_of_run (h : ReflTransGen (Shrinks limit) start cols) : Balanced start cols := by
  induction h with
  | refl => exact balanced_self start
  | tail _ step ih => exact step.balanced ih

theorem balanced_fit (m : Nat) (cols : List Column) : Balanced cols (fit (some m) cols) :=
  balanced_of_run (narrow_run m _ cols)

/-! ## Columns by their widths -/

def columnsOf (headers : List String) (widths : List Nat) : List Column :=
  headers.zipWith (fun header width => ⟨width, leastWidth header⟩) widths

section

variable {headers : List String} {widths : List Nat}

theorem width_columnsOf (h : headers.length = widths.length) :
    (columnsOf headers widths).map (·.width) = widths := by
  induction headers generalizing widths with
  | nil => exact (List.length_eq_zero_iff.mp h.symm).symm
  | cons header headers ih =>
    cases widths with
    | nil => cases h
    | cons width widths => exact congrArg (width :: ·) (ih (Nat.succ.inj h))

theorem least_columnsOf (h : headers.length = widths.length) :
    (columnsOf headers widths).map (·.least) = headers.map leastWidth := by
  induction headers generalizing widths with
  | nil => rfl
  | cons header headers ih =>
    cases widths with
    | nil => cases h
    | cons width widths => exact congrArg (leastWidth header :: ·) (ih (Nat.succ.inj h))

theorem eq_columnsOf (h : cols.map (·.least) = headers.map leastWidth) :
    cols = columnsOf headers (cols.map (·.width)) := by
  induction cols generalizing headers with
  | nil => rw [List.map_nil, columnsOf, List.zipWith_nil_right]
  | cons c cols ih =>
    cases headers with
    | nil => cases h
    | cons header headers =>
      obtain ⟨hleast, hrest⟩ := List.cons.inj h
      have hc : c = ⟨c.width, leastWidth header⟩ := by rw [← hleast]
      rw [List.map_cons, columnsOf, List.zipWith_cons_cons, ← hc]
      exact congrArg (c :: ·) (ih hrest)

theorem getElem?_columnsOf {i : Nat} {header : String} {width : Nat}
    (hheader : headers[i]? = some header) (hwidth : widths[i]? = some width) :
    (columnsOf headers widths)[i]? = some ⟨width, leastWidth header⟩ := by
  rw [columnsOf, List.getElem?_zipWith, hheader, hwidth]

theorem least_le_columnsOf
    (h : List.Forall₂ (fun header width => leastWidth header ≤ width) headers widths) :
    ∀ c ∈ columnsOf headers widths, c.least ≤ c.width := by
  induction h with
  | nil => simp [columnsOf]
  | cons hle _ ih => exact List.forall_mem_cons.mpr ⟨hle, ih⟩

theorem forall₂_least (h : headers.length = widths.length)
    (hle : ∀ c ∈ columnsOf headers widths, c.least ≤ c.width) :
    List.Forall₂ (fun header width => leastWidth header ≤ width) headers widths := by
  induction headers generalizing widths with
  | nil => rw [List.length_eq_zero_iff.mp h.symm]; exact .nil
  | cons header headers ih =>
    cases widths with
    | nil => cases h
    | cons width widths =>
      obtain ⟨hhead, hrest⟩ := List.forall_mem_cons.mp hle
      exact .cons hhead (ih (Nat.succ.inj h) hrest)

end

/-- **Narrowing ends, is exact and is even.** Let there be a width for each header, none less than
that header and six characters ask for. With a step for every character over the limit, and
with any number more, the columns come to the same final widths. These are between the least
widths and the given ones. If the given ones fit they are the final ones; otherwise the line
is as long as the limit, or as the least widths make it where that is more. And where one
column has been narrowed and another could still be, that one is at most one character wider. -/
theorem fit_exact_balanced (headers : List String) (widths : List Nat) (m : Nat)
    (hwide : List.Forall₂
      (fun header width => max header.utf8ByteSize 6 ≤ width) headers widths) :
    ∃ final : List Nat,
      fit (some m) (columnsOf headers widths) = columnsOf headers final ∧
      (∀ steps, span widths ≤ m + steps →
        narrow m steps (columnsOf headers widths) = columnsOf headers final) ∧
      List.Forall₂ (fun header width => max header.utf8ByteSize 6 ≤ width) headers final ∧
      List.Forall₂ (fun width given => width ≤ given) final widths ∧
      (span widths ≤ m → final = widths) ∧
      (m < span widths →
        span final = max m (span (headers.map fun header => max header.utf8ByteSize 6))) ∧
      ∀ (i j given narrowed other : Nat) (header : String),
        widths[i]? = some given → final[i]? = some narrowed → final[j]? = some other →
        headers[j]? = some header → narrowed < given →
        max header.utf8ByteSize 6 < other → other ≤ narrowed + 1 := by
  have hlength := hwide.length_eq
  have hcols := least_le_columnsOf hwide
  have hwidths := width_columnsOf hlength
  have hleast := least_columnsOf hlength
  have htotal : total (columnsOf headers widths) = span widths := by rw [total_eq_span, hwidths]
  obtain ⟨final, hfinal⟩ : ∃ final,
      final = (fit (some m) (columnsOf headers widths)).map (·.width) :=
    ⟨_, rfl⟩
  have hfit : fit (some m) (columnsOf headers widths) = columnsOf headers final := by
    rw [hfinal]
    exact eq_columnsOf ((least_fit (some m) _).trans hleast)
  have hsame : headers.length = final.length := by
    rw [hfinal, List.length_map, length_fit, columnsOf, List.length_zipWith,
      ← hlength, Nat.min_self]
  refine ⟨final, hfit, fun steps hsteps => ?_, ?_, ?_, fun hfits => ?_, fun hover => ?_, ?_⟩
  · rw [narrow_eq_fit (htotal.symm ▸ hsteps), hfit]
  · exact forall₂_least hsame (hfit ▸ least_le_fit (some m) hcols)
  · have hnarrows := narrows_fit (some m) (columnsOf headers widths)
    rw [← hwidths, hfinal, List.forall₂_map_left_iff, List.forall₂_map_right_iff]
    exact hnarrows.flip.imp fun _ _ hnarrow => hnarrow.le
  · rw [hfinal, fit_of_total_le (htotal.symm ▸ hfits), hwidths]
  · have hexact := total_fit m hcols
    rw [hleast, htotal, total_eq_span, ← hfinal] at hexact
    have hfloor := span_least_le hcols
    rw [hleast, htotal] at hfloor
    have hmost : max m (span (headers.map leastWidth)) ≤ span widths :=
      Nat.max_le.mpr ⟨Nat.le_of_lt hover, hfloor⟩
    exact hexact.trans (Nat.min_eq_right hmost)
  · intro i j given narrowed other header hgiven hnarrowed hother hheader hless hmore
    obtain ⟨own, hown⟩ : ∃ own, headers[i]? = some own := by
      obtain ⟨hi, _⟩ := List.getElem?_eq_some_iff.mp hnarrowed
      exact ⟨_, List.getElem?_eq_getElem (hsame.symm ▸ hi)⟩
    have hbalanced := balanced_fit m (columnsOf headers widths)
    rw [hfit] at hbalanced
    exact hbalanced i j _ _ _ (getElem?_columnsOf hown hgiven) (getElem?_columnsOf hown hnarrowed)
      (getElem?_columnsOf hheader hother) hless (decide_eq_true hmore)

/-- Of three columns two are narrowed under a limit of 27, and none under one of 40. -/
theorem fit_exact_balanced_uneven :
    ∃ headers widths final, headers = ["file", "symbol", "kind"] ∧ widths = [12, 10, 6] ∧
      final = [8, 9, 6] ∧
      List.Forall₂ (fun header width => max header.utf8ByteSize 6 ≤ width) headers widths ∧
      span widths = 32 ∧
      fit (some 27) (columnsOf headers widths) = columnsOf headers final ∧ span final = 27 ∧
      narrow 27 5 (columnsOf headers widths) = columnsOf headers final ∧
      (∃ narrowed other, final[0]? = some narrowed ∧ final[1]? = some other ∧
        narrowed < 12 ∧ 6 < other ∧ other ≤ narrowed + 1) ∧
      fit (some 40) (columnsOf headers widths) = columnsOf headers widths := by
  let headers := ["file", "symbol", "kind"]
  let widths := [12, 10, 6]
  have hwide : List.Forall₂
      (fun header width => max header.utf8ByteSize 6 ≤ width) headers widths :=
    .cons (by decide) (.cons (by decide) (.cons (by decide) .nil))
  obtain ⟨final, hfit, hsteps, hfloor, _, _, hspan, hbalanced⟩ :=
    fit_exact_balanced headers widths 27 hwide
  obtain ⟨whole, hwhole, _, _, _, hfits, _⟩ := fit_exact_balanced headers widths 40 hwide
  have hfinal : final = [8, 9, 6] := by
    rw [← width_columnsOf hfloor.length_eq, ← hfit]
    decide
  refine ⟨headers, widths, final, rfl, rfl, hfinal, hwide, rfl, hfit, hspan (by decide),
    hsteps 5 (by decide), ?_, ?_⟩
  · have hfirst : final[0]? = some 8 := by rw [hfinal]; rfl
    have hsecond : final[1]? = some 9 := by rw [hfinal]; rfl
    exact ⟨8, 9, hfirst, hsecond, by decide, by decide,
      hbalanced 0 1 12 8 9 "symbol" rfl hfirst hsecond rfl (by decide) (by decide)⟩
  · rw [hwhole, hfits (by decide)]

end HeaderIndex.Table
