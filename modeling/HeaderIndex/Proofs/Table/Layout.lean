import HeaderIndex.Proofs.Table.Fit
import Mathlib.Data.List.TakeWhile
import Mathlib.Data.String.Basic

/-! The lines of a table. All lines are of one length before their ends are trimmed, and a column
starts at the same place in each of them (`Shows`). What stands there is the cell itself, or
as much of it as the column has room for (`ShownAs`). Without a limit every column has room for
its cells, and a limit that leaves the columns their least widths is kept (`render_aligned`). -/

namespace HeaderIndex.Table

open HeaderIndex.Text

/-- What a column of some width shows of a cell. -/
structure ShownAs (width : Nat) (cell shown : List Char) : Prop where
  whole : cell.length ≤ width → shown = cell
  exact : width < cell.length → shown.length = width
  path : width < cell.length → cell.head? = some '/' →
    ∃ tail, tail <:+ cell ∧ tail.length = width - 1 ∧ shown = '…' :: tail
  text : width < cell.length → cell.head? ≠ some '/' →
    ∃ head, head <+: cell ∧ head.length = width - 1 ∧ shown = head ++ ['…']

theorem shownAs_cut {width : Nat} (h : 0 < width) (cell : List Char) :
    ShownAs width cell (cut width cell) := by
  by_cases hfits : cell.length ≤ width
  · have hcut : cut width cell = cell := if_pos hfits
    refine ⟨fun _ => hcut, ?_, ?_, ?_⟩ <;> (intro hlong; omega)
  · have hpath (hslash : cell.head? = some '/') :
        cut width cell = '…' :: cell.drop (cell.length - (width - 1)) := by
      by_cases hone : width ≤ 1
      · simp [cut, hfits, hone]
      · simp [cut, hfits, hone, hslash]
    have htext (hslash : cell.head? ≠ some '/') :
        cut width cell = cell.take (width - 1) ++ ['…'] := by
      by_cases hone : width ≤ 1
      · simp [cut, hfits, hone, show width - 1 = 0 by omega]
      · simp [cut, hfits, hone, hslash]
    refine ⟨fun hle => absurd hle hfits, fun _ => ?_, fun _ hslash => ?_, fun _ hslash => ?_⟩
    · by_cases hslash : cell.head? = some '/'
      · rw [hpath hslash, List.length_cons, List.length_drop]
        omega
      · rw [htext hslash, List.length_append, List.length_take, List.length_singleton]
        omega
    · exact ⟨_, List.drop_suffix _ _, by rw [List.length_drop]; omega, hpath hslash⟩
    · exact ⟨_, List.take_prefix _ _, by rw [List.length_take]; omega, htext hslash⟩

theorem ShownAs.length_le {width : Nat} {cell shown : List Char} (h : ShownAs width cell shown) :
    shown.length ≤ width := by
  by_cases hfits : cell.length ≤ width
  · rwa [h.whole hfits]
  · exact Nat.le_of_eq (h.exact (Nat.lt_of_not_le hfits))

theorem mem_cut {width : Nat} {cell : List Char} {x : Char} (h : x ∈ cut width cell) :
    x = '…' ∨ x ∈ cell := by
  rw [cut] at h
  split at h
  · exact .inr h
  · split at h
    · exact .inl (List.mem_singleton.mp h)
    · split at h
      · rw [List.mem_cons] at h
        exact h.imp_right List.mem_of_mem_drop
      · rw [List.mem_append, List.mem_singleton] at h
        exact h.symm.imp_right List.mem_of_mem_take

theorem length_pad {width : Nat} {cell : List Char} (h : cell.length ≤ width) :
    (pad width cell).length = width := by
  rw [pad, List.length_append, List.length_replicate]
  omega

/-- Where a column starts: behind the columns before it and two blanks for each. -/
def offset (widths : List Nat) (index : Nat) : Nat := (widths.take index).sum + 2 * index

section Besides

variable {pieces : List (List Char)}

theorem besides_cons (piece : List Char) (h : pieces ≠ []) :
    besides (piece :: pieces) = piece ++ ' ' :: ' ' :: besides pieces := by
  cases pieces with
  | nil => exact absurd rfl h
  | cons _ _ => rfl

theorem length_besides (pieces : List (List Char)) :
    (besides pieces).length = span (pieces.map List.length) := by
  induction pieces with
  | nil => rfl
  | cons piece rest ih =>
    by_cases hrest : rest = []
    · simp [hrest, besides, span]
    · have hpos : 0 < rest.length := List.length_pos_iff.mpr hrest
      simp only [besides_cons piece hrest, span, List.length_append, List.length_cons, ih,
        List.map_cons, List.sum_cons, List.length_map]
      omega

theorem drop_besides {index : Nat} (h : index < pieces.length) :
    (besides pieces).drop (offset (pieces.map List.length) index) =
      besides (pieces.drop index) := by
  induction pieces generalizing index with
  | nil => exact absurd h (Nat.not_lt_zero _)
  | cons piece rest ih =>
    cases index with
    | zero => rfl
    | succ index =>
      rw [List.length_cons, Nat.add_lt_add_iff_right] at h
      have hrest : rest ≠ [] := List.ne_nil_of_length_pos (Nat.zero_lt_of_lt h)
      have hoffset : offset ((piece :: rest).map List.length) (index + 1) =
          piece.length + (offset (rest.map List.length) index + 2) := by
        simp only [offset, List.map_cons, List.take_succ_cons, List.sum_cons]
        omega
      rw [besides_cons piece hrest, hoffset, List.drop_length_add_append, List.drop_succ_cons,
        List.drop_succ_cons, ih h, List.drop_succ_cons]

theorem drop_besides_of_getElem? {index : Nat} {piece : List Char}
    (h : pieces[index]? = some piece) :
    (besides pieces).drop (offset (pieces.map List.length) index) =
      besides (piece :: pieces.drop (index + 1)) := by
  obtain ⟨hlt, hpiece⟩ := List.getElem?_eq_some_iff.mp h
  rw [drop_besides hlt, List.drop_eq_getElem_cons hlt, hpiece]

theorem take_besides (piece : List Char) (pieces : List (List Char)) :
    (besides (piece :: pieces)).take piece.length = piece := by
  by_cases h : pieces = []
  · simp [h, besides]
  · rw [besides_cons piece h, List.take_left]

theorem mem_besides {c : Char} (h : c ∈ besides pieces) :
    c = ' ' ∨ ∃ piece ∈ pieces, c ∈ piece := by
  induction pieces with
  | nil => exact absurd h List.not_mem_nil
  | cons piece rest ih =>
    by_cases hrest : rest = []
    · exact .inr ⟨piece, List.mem_cons_self, by rwa [hrest] at h⟩
    · simp only [besides_cons piece hrest, List.mem_append, List.mem_cons] at h
      rcases h with h | h | h | h
      · exact .inr ⟨piece, List.mem_cons_self, h⟩
      · exact .inl h
      · exact .inl h
      · obtain hblank | ⟨other, hother, hc⟩ := ih h
        · exact .inl hblank
        · exact .inr ⟨other, List.mem_cons_of_mem _ hother, hc⟩

end Besides

theorem newline_not_mem_besides {cols : List Column} {row : List String}
    (hrow : ∀ cell ∈ row, '\n' ∉ cell.toList) : '\n' ∉ besides (cells row cols) := by
  intro hmem
  obtain hblank | ⟨piece, hpiece, hnewline⟩ := mem_besides hmem
  · exact absurd hblank (by decide)
  · obtain ⟨index, hindex, rfl⟩ := List.mem_mapIdx.mp hpiece
    rw [pad, List.mem_append, List.mem_replicate] at hnewline
    rcases hnewline with hcut | ⟨_, hblank⟩
    · rcases mem_cut hcut with hdots | hcell
      · exact absurd hdots (by decide)
      · cases hget : row[index]? with
        | none => simp [hget] at hcell
        | some cell =>
          rw [hget, Option.getD_some] at hcell
          exact hrow cell (List.mem_of_getElem? hget) hcell
    · exact absurd hblank (by decide)

/-- A line that shows the cells of a row in columns, a dash for each that the row does not have. -/
structure Shows (widths : List Nat) (row : List String) (line : List Char) : Prop where
  length : line.length = span widths
  cell : ∀ index width, widths[index]? = some width →
    ∃ shown, ShownAs width (row[index]?.getD "-").toList shown ∧
      (line.drop (offset widths index)).take width =
        shown ++ List.replicate (width - shown.length) ' '
  gap : ∀ index width, widths[index]? = some width → index + 1 < widths.length →
    (line.drop (offset widths index + width)).take 2 = [' ', ' ']

section Rows

variable {cols : List Column} (hcols : ∀ c ∈ cols, 0 < c.width) (row : List String)

include hcols

theorem length_cells : (cells row cols).map List.length = cols.map (·.width) := by
  refine List.ext_getElem (by simp [cells]) fun index hleft hright => ?_
  have hlt : index < cols.length := by simpa using hright
  have hshown :=
    shownAs_cut (hcols cols[index] (List.getElem_mem hlt)) (row[index]?.getD "-").toList
  simp only [cells, List.getElem_map, List.getElem_mapIdx, length_pad hshown.length_le]

theorem shows_besides : Shows (cols.map (·.width)) row (besides (cells row cols)) := by
  have hlengths := length_cells hcols row
  -- the column at an index, and what the line holds from there on
  have hcell (index width : Nat) (hwidth : (cols.map (·.width))[index]? = some width) :
      ∃ shown, ShownAs width (row[index]?.getD "-").toList shown ∧
      (pad width shown).length = width ∧
        (besides (cells row cols)).drop (offset (cols.map (·.width)) index) =
          besides (pad width shown :: (cells row cols).drop (index + 1)) := by
    rw [List.getElem?_map, Option.map_eq_some_iff] at hwidth
    obtain ⟨c, hc, rfl⟩ := hwidth
    have hshown := shownAs_cut (hcols c (List.mem_of_getElem? hc)) (row[index]?.getD "-").toList
    refine ⟨_, hshown, length_pad hshown.length_le, ?_⟩
    rw [← hlengths]
    exact drop_besides_of_getElem? (by rw [cells, List.getElem?_mapIdx, hc, Option.map_some])
  refine ⟨by rw [length_besides, hlengths], fun index width hwidth => ?_,
    fun index width hwidth hnext => ?_⟩
  · obtain ⟨shown, hshown, hlength, hdrop⟩ := hcell index width hwidth
    refine ⟨shown, hshown, ?_⟩
    rw [hdrop]
    nth_rewrite 1 [← hlength]
    exact take_besides _ _
  · obtain ⟨shown, _, hlength, hdrop⟩ := hcell index width hwidth
    have hrest : (cells row cols).drop (index + 1) ≠ [] := by
      rw [ne_eq, List.drop_eq_nil_iff, cells, List.length_mapIdx, Nat.not_le]
      simpa using hnext
    rw [← List.drop_drop, hdrop, besides_cons _ hrest]
    nth_rewrite 1 [← hlength]
    rw [List.drop_left]
    rfl

end Rows

section Columns

variable {headers : List String} {rows : List (List String)}

theorem length_le_utf8ByteSize (text : String) : text.length ≤ text.utf8ByteSize := by
  rw [← String.utf8Len_toList, ← String.length_toList]
  induction text.toList with
  | nil => exact Nat.le_refl _
  | cons c cs ih =>
    have hpos := c.utf8Size_pos
    rw [List.length_cons, String.utf8Len_cons]
    omega

theorem utf8ByteSize_of_ascii {text : String} (h : ∀ c ∈ text.toList, c.toNat < 0x80) :
    text.utf8ByteSize = text.length := by
  rw [← String.utf8Len_toList, ← String.length_toList]
  generalize text.toList = chars at h
  induction chars with
  | nil => rfl
  | cons c cs ih =>
    rw [List.forall_mem_cons] at h
    have hle : c.val ≤ 0x7f := Nat.le_of_lt_succ h.1
    have hsize : c.utf8Size = 1 := by simp [Char.utf8Size, hle]
    rw [List.length_cons, String.utf8Len_cons, hsize, ih h.2]

theorem column_of_mem {c : Column} (h : c ∈ columns headers rows) :
    6 ≤ c.least ∧ c.least ≤ c.width := by
  obtain ⟨index, hindex, rfl⟩ := List.mem_mapIdx.mp h
  exact ⟨Nat.le_max_right _ _, le_foldl_max _ _⟩

theorem least_columns (hascii : ∀ header ∈ headers, ∀ c ∈ header.toList, c.toNat < 0x80) :
    (columns headers rows).map (·.least) = headers.map fun header => max header.length 6 := by
  refine List.ext_getElem (by simp [columns]) fun index _ hright => ?_
  have hlt : index < headers.length := by simpa using hright
  simp only [columns, List.getElem_map, List.getElem_mapIdx, column, leastWidth,
    utf8ByteSize_of_ascii (hascii headers[index] (List.getElem_mem hlt))]

/-- The widths of the columns of a table that is printed. -/
def finalWidths (headers : List String) (rows : List (List String)) (limit : Option Nat) :
    List Nat :=
  (fit limit (columns headers rows)).map (·.width)

theorem width_pos (limit : Option Nat) :
    ∀ c ∈ fit limit (columns headers rows), 0 < c.width := by
  intro c hc
  have hleast : c.least ∈ (columns headers rows).map (·.least) :=
    least_fit limit _ ▸ List.mem_map_of_mem hc
  obtain ⟨d, hd, hsame⟩ := List.mem_map.mp hleast
  have hsix := (column_of_mem hd).1
  have hle := least_le_fit limit (fun c hc => (column_of_mem hc).2) c hc
  omega

theorem shows_line (headers : List String) (rows : List (List String)) (limit : Option Nat)
    (row : List String) :
    Shows (finalWidths headers rows limit) row (besides (cells row (fit limit
      (columns headers rows)))) :=
  shows_besides (width_pos limit) row

theorem length_finalWidths (headers : List String) (rows : List (List String))
    (limit : Option Nat) : (finalWidths headers rows limit).length = headers.length := by
  rw [finalWidths, List.length_map, length_fit, columns, List.length_mapIdx]

/-- There is a place for every cell of a row that has a column. -/
def HasRoom (widths : List Nat) (row : List String) : Prop :=
  ∀ index width : Nat, widths[index]? = some width → (row[index]?.getD "-").length ≤ width

theorem exists_header {index width : Nat}
    (h : ((columns headers rows).map (·.width))[index]? = some width) :
    ∃ header, headers[index]? = some header ∧ (column header rows index).width = width := by
  rwa [List.getElem?_map, columns, List.getElem?_mapIdx, Option.map_map,
    Option.map_eq_some_iff] at h

theorem hasRoom_headers : HasRoom ((columns headers rows).map (·.width)) headers := by
  intro index width hwidth
  obtain ⟨header, hheader, rfl⟩ := exists_header hwidth
  rw [hheader, Option.getD_some]
  calc header.length
    _ ≤ header.utf8ByteSize := length_le_utf8ByteSize header
    _ ≤ leastWidth header := Nat.le_max_left _ _
    _ ≤ (column header rows index).width := le_foldl_max _ _

theorem hasRoom_row {row : List String} (h : row ∈ rows) :
    HasRoom ((columns headers rows).map (·.width)) row := by
  intro index width hwidth
  obtain ⟨header, _, rfl⟩ := exists_header hwidth
  cases hcell : row[index]? with
  | none =>
    calc (1 : Nat)
      _ ≤ leastWidth header := Nat.le_trans (by decide) (Nat.le_max_right _ 6)
      _ ≤ (column header rows index).width := le_foldl_max _ _
  | some cell =>
    exact le_foldl_max_of_mem _ (List.mem_filterMap.mpr ⟨row, h,
      by rw [hcell, Option.map_some]; rfl⟩)

end Columns

/-- A line without the white space at its end. -/
structure Trims (full line : List Char) : Prop where
  blanks : ∃ rest, full = line ++ rest ∧ ∀ c ∈ rest, isBlank c
  last : ∀ c, line.getLast? = some c → ¬ isBlank c

theorem trims_trimEnd (full : List Char) : Trims full (trimEnd full) where
  blanks := by
    refine ⟨(full.reverse.takeWhile isBlank).reverse, ?_, fun c hc => ?_⟩
    · rw [trimEnd, ← List.reverse_append, List.takeWhile_append_dropWhile, List.reverse_reverse]
    · exact List.mem_takeWhile_imp (List.mem_reverse.mp hc)
  last c hc := by
    rw [trimEnd, List.getLast?_reverse] at hc
    have hlast := List.head?_dropWhile_not isBlank full.reverse
    rw [hc] at hlast
    simp [hlast]

theorem Trims.begins {full line : List Char} (h : Trims full line) : line <+: full := by
  obtain ⟨rest, hfull, _⟩ := h.blanks
  exact ⟨rest, hfull.symm⟩

section Text

variable {headers : List String} {rows : List (List String)}

def printed (headers : List String) (rows : List (List String)) (limit : Option Nat) :
    List (List Char) :=
  (render headers rows limit).toList.splitOn '\n'

theorem forall_mem_lines {cols : List Column} {p : List Char → Prop} :
    (∀ line ∈ lines headers rows cols, p line) ↔ p (besides (cells headers cols)) ∧
      p (List.replicate (besides (cells headers cols)).length '-') ∧ ∀ row ∈ rows,
      p (besides (cells row cols)) := by
  simp only [lines, List.forall_mem_cons, List.forall_mem_map]

theorem printed_eq (limit : Option Nat) (hheaders : ∀ header ∈ headers, '\n' ∉ header.toList)
    (hrows : ∀ row ∈ rows, ∀ cell ∈ row, '\n' ∉ cell.toList) :
    printed headers rows limit =
      (lines headers rows (fit limit (columns headers rows))).map trimEnd := by
  have hnewline : ∀ line ∈ lines headers rows (fit limit (columns headers rows)),
      '\n' ∉ line := by
    refine forall_mem_lines.mpr ⟨newline_not_mem_besides hheaders, ?_, fun row hrow =>
      newline_not_mem_besides (hrows row hrow)⟩
    exact fun hmem => absurd (List.eq_of_mem_replicate hmem) (by decide)
  have htexts (texts : List (List Char)) :
    (texts.map fun text => String.ofList (trimEnd text)).map String.toList =
      texts.map trimEnd := by
    rw [List.map_map]
    exact List.map_congr_left fun text _ => String.toList_ofList
  rw [printed, render, String.toList_intercalate, htexts]
  refine List.splitOn_intercalate '\n' ?_ (by simp [lines])
  rw [List.forall_mem_map]
  exact fun line hline hmem => hnewline line hline ((trims_trimEnd line).begins.subset hmem)

theorem length_of_mem_lines (limit : Option Nat) :
    ∀ line ∈ lines headers rows (fit limit (columns headers rows)),
      line.length = span (finalWidths headers rows limit) := by
  have hlength (row : List String) := (shows_line headers rows limit row).length
  refine forall_mem_lines.mpr ⟨hlength headers, ?_, fun row _ => hlength row⟩
  rw [List.length_replicate, hlength headers]

end Text

/-- **Tables are aligned, and fit where they can.** A table has a line for its headers, a rule and a
line for each row. Before their ends are trimmed, they are all as long as the columns take, and
show each cell where its column starts. A limit of at least what the headers and six characters a
column take is never passed, and without a limit every cell is shown whole. -/
theorem render_aligned (headers : List String) (rows : List (List String)) (limit : Option Nat)
    (hheaders : ∀ header ∈ headers, ∀ c ∈ header.toList, c.toNat < 0x80 ∧ c ≠ '\n')
    (hrows : ∀ row ∈ rows, ∀ cell ∈ row, '\n' ∉ cell.toList) :
    (finalWidths headers rows limit).length = headers.length ∧
    (printed headers rows limit).length = 2 + rows.length ∧
    (∃ head body, List.Forall₂ Trims (head :: List.replicate head.length '-' :: body)
      (printed headers rows limit) ∧
      Shows (finalWidths headers rows limit) headers head ∧
      List.Forall₂ (Shows (finalWidths headers rows limit)) rows body) ∧
    (∀ line ∈ printed headers rows limit,
      line.length ≤ span (finalWidths headers rows limit)) ∧
    (∀ m, limit = some m → span (headers.map fun header => max header.length 6) ≤ m →
      ∀ line ∈ printed headers rows limit, line.length ≤ m) ∧
    (limit = none → ∀ row ∈ headers :: rows,
      HasRoom (finalWidths headers rows limit) row) := by
  have hprinted :=
    printed_eq limit (fun header hheader hmem => (hheaders header hheader _ hmem).2 rfl) hrows
  have hshows := shows_line headers rows limit
  have hspan : ∀ line ∈ printed headers rows limit,
      line.length ≤ span (finalWidths headers rows limit) := by
    rw [hprinted, List.forall_mem_map]
    intro full hfull
    rw [← length_of_mem_lines limit full hfull]
    exact (trims_trimEnd full).begins.length_le
  have hlines : List.Forall₂ Trims (lines headers rows (fit limit (columns headers rows)))
      (printed headers rows limit) := by
    rw [hprinted, List.forall₂_map_right_iff]
    exact List.forall₂_same.mpr fun full _ => trims_trimEnd full
  refine ⟨length_finalWidths headers rows limit, ?_,
    ⟨_, _, hlines, hshows headers, ?_⟩, hspan, ?_, ?_⟩
  · rw [hprinted, List.length_map, lines, List.length_cons, List.length_cons, List.length_map]
    omega
  · exact List.forall₂_map_right_iff.mpr (List.forall₂_same.mpr fun row _ => hshows row)
  · intro m hlimit hm line hline
    subst hlimit
    have hcols : ∀ c ∈ columns headers rows, c.least ≤ c.width :=
      fun c hc => (column_of_mem hc).2
    have htotal := total_fit m hcols
    rw [least_columns fun header hheader c hc => (hheaders header hheader c hc).1,
      total_eq_span] at htotal
    have hlength := hspan line hline
    rw [finalWidths] at hlength
    omega
  · intro hlimit
    subst hlimit
    exact List.forall_mem_cons.mpr ⟨hasRoom_headers, fun row hrow => hasRoom_row hrow⟩

/-- A path that is cut to its end, and a row that has no second cell. -/
theorem render_aligned_narrowed :
    ∃ headers rows, headers = ["file", "symbol"] ∧
      rows = [["/Users/dev/YPApp.h", "YPApp"], ["é"]] ∧
    (∀ header ∈ headers, ∀ c ∈ header.toList, c.toNat < 0x80 ∧ c ≠ '\n') ∧
    (∀ row ∈ rows, ∀ cell ∈ row, '\n' ∉ cell.toList) ∧
    finalWidths headers rows (some 18) = [10, 6] ∧
    render headers rows (some 18) =
      "file        symbol\n------------------\n…v/YPApp.h  YPApp\né           -" ∧
    (∀ line ∈ printed headers rows (some 18), line.length ≤ 18) ∧
    (∃ head body, List.Forall₂ Trims (head :: List.replicate head.length '-' :: body)
      (printed headers rows (some 18)) ∧
      Shows [10, 6] headers head ∧ List.Forall₂ (Shows [10, 6]) rows body) ∧
    ∀ row ∈ headers :: rows, HasRoom (finalWidths headers rows none) row := by
  let headers := ["file", "symbol"]
  let rows := [["/Users/dev/YPApp.h", "YPApp"], ["é"]]
  have hheaders : ∀ header ∈ headers, ∀ c ∈ header.toList,
      c.toNat < 0x80 ∧ c ≠ '\n' := by
    simp [headers]
  have hrows : ∀ row ∈ rows, ∀ cell ∈ row, '\n' ∉ cell.toList := by decide +kernel
  have hwidths : finalWidths headers rows (some 18) = [10, 6] := by decide +kernel
  obtain ⟨_, _, hshows, _, hfits, _⟩ := render_aligned headers rows (some 18) hheaders hrows
  obtain ⟨_, _, _, _, _, hroom⟩ := render_aligned headers rows none hheaders hrows
  rw [hwidths] at hshows
  exact ⟨headers, rows, rfl, rfl, hheaders, hrows, hwidths,
    by decide +kernel, hfits 18 rfl (by decide +kernel), hshows, hroom rfl⟩

end HeaderIndex.Table
