import HeaderIndex.Proofs.FileSystem.Tree

/-! Paths from the root. The form of a path from the root leaves out every `.` of the path, and
whatever a path leads to its form from the root leads to as well (`resolve_absolute`). -/

namespace HeaderIndex

open HeaderIndex.Text

namespace FileSystem

/-! ## Leaving out `.` -/

/-- The second parts are the first ones, some `.` of them left out. -/
inductive DropsHere : List Name → List Name → Prop
  | nil : DropsHere [] []
  | keep {parts parts' : List Name} (part : Name) :
    DropsHere parts parts' → DropsHere (part :: parts) (part :: parts')
  | drop {parts parts' : List Name} : DropsHere parts parts' → DropsHere ([dot] :: parts) parts'

namespace DropsHere

theorem append {parts parts' more more' : List Name} (h : DropsHere parts parts')
    (hmore : DropsHere more more') : DropsHere (parts ++ more) (parts' ++ more') := by
  induction h with
  | nil => exact hmore
  | keep part _ ih => exact .keep part ih
  | drop _ ih => exact .drop ih

theorem refl (parts : List Name) : DropsHere parts parts := by
  induction parts with
  | nil => exact .nil
  | cons part parts ih => exact .keep part ih

theorem filter (parts : List Name) : DropsHere parts (parts.filter (· != [dot])) := by
  induction parts with
  | nil => exact .nil
  | cons part parts ih =>
    by_cases hpart : part = [dot]
    · rw [hpart]
      exact .drop ih
    · rw [List.filter_cons_of_pos (by simpa using hpart)]
      exact .keep part ih

end DropsHere

/-- Without some `.` parts lead to the same place, or the same link. -/
theorem stride_dropsHere {root : Node} {parts parts' : List Name} (h : DropsHere parts parts')
    (place : List Name) :
    (∀ found, stride root place parts = .arrived found →
      stride root place parts' = .arrived found) ∧
    ∀ target folder rest, stride root place parts = .atLink target folder rest →
      ∃ rest', stride root place parts' = .atLink target folder rest' ∧
        DropsHere rest rest' := by
  induction h generalizing place with
  | nil => exact ⟨fun _ hfound => hfound, fun _ _ _ hlink => by cases hlink⟩
  | @keep parts parts' part hparts ih =>
    rw [stride, stride]
    cases root.at? place with
    | none => simp
    | some node =>
      cases node with
      | file contents => simp
      | link target => simp
      | folder entries =>
        dsimp only
        split
        · exact ih place
        split
        · exact ih place.dropLast
        cases Node.entryNamed part entries with
        | none => simp
        | some below =>
          cases below with
          | file contents => exact ih _
          | folder entries => exact ih _
          | link target => simp [hparts]
  | @drop parts parts' hparts ih =>
    rw [stride]
    cases root.at? place with
    | none => simp
    | some node =>
      cases node with
      | file contents => simp
      | link target => simp
      | folder entries => exact ih place

theorem reach_dropsHere {root : Node} {links : Nat} {place parts parts' found : List Name}
    (h : DropsHere parts parts') (hreach : reach root links place parts = .ok (.taken found)) :
    reach root links place parts' = .ok (.taken found) := by
  induction links using Nat.strongRecOn generalizing place parts parts' with
  | ind links ih =>
    obtain ⟨harrived, hlink⟩ := stride_dropsHere h place
    rw [reach_eq_taken_iff]
    obtain hfound | ⟨left, target, folder, rest, rfl, hstop, htarget, hrest⟩ :=
      reach_eq_taken_iff.mp hreach
    · exact .inl (harrived found hfound)
    · obtain ⟨rest', hstop', hdrops⟩ := hlink target folder rest hstop
      exact .inr ⟨left, target, folder, rest', rfl, hstop', htarget,
        ih left (Nat.lt_succ_self left) ((DropsHere.refl _).append hdrops) hrest⟩

/-! ## Going down to the working folder -/

theorem stride_of_folder {root : Node} {place names : List Name}
    (hnames : ∀ name ∈ names, isEntryName name = true) {entries : List (Name × Node)}
    (h : root.at? (place ++ names) = some (.folder entries)) :
    stride root place names = .arrived (place ++ names) := by
  induction names generalizing place with
  | nil => rw [List.append_nil, stride]
  | cons name names ih =>
    obtain ⟨hname, hnames⟩ := List.forall_mem_cons.mp hnames
    rw [List.append_cons] at h
    obtain ⟨below, hbelow, hrest⟩ :=
      Option.bind_eq_some_iff.mp ((Node.at?_append _ _ _).symm.trans h)
    have hlink : ∀ target, below ≠ .link target := by
      rintro target rfl
      cases names <;> cases hrest
    have hstep : stride root place ([name] ++ names) = stride root (place ++ [name]) names := by
      rw [stride_append, stride_below hname hbelow hlink]
    rw [List.append_cons, ← ih hnames h]
    exact hstep

/-- Parts are followed from a folder only. -/
theorem folder_of_reach {root : Node} {links : Nat} {place parts found : List Name}
    (hne : parts ≠ []) (h : reach root links place parts = .ok (.taken found)) :
    ∃ entries, root.at? place = some (.folder entries) := by
  obtain ⟨part, rest, rfl⟩ := List.exists_cons_of_ne_nil hne
  rw [reach, stride] at h
  cases hplace : root.at? place with
  | none => simp [hplace] at h
  | some node =>
    cases node with
    | file contents => simp [hplace] at h
    | link target => simp [hplace] at h
    | folder entries => exact ⟨entries, rfl⟩

/-- Where parts arrive a look-up goes on. -/
theorem reach_of_arrived {root : Node} {place parts mid : List Name}
    (h : stride root place parts = .arrived mid) (links : Nat) (more : List Name) :
    reach root links place (parts ++ more) = reach root links mid more := by
  rw [reach, stride_append, h, reach]

/-! ## The form from the root -/

/-- The form from the root keeps the names of a path, without `.`. -/
theorem absolutePieces_eq (path : Path) :
    absolutePieces path = (named path.bytes).filter (· != [dot]) := by
  have hstart : (Path.start (path.bytes.splitOn slash)).filter
      (fun c => c != .root && c != .here) = [] := by
    rw [Path.start_eq]
    split
    · rfl
    · split <;> rfl
  rw [absolutePieces, named, Path.components, List.filter_append, hstart, List.nil_append]
  generalize path.bytes.splitOn slash = pieces
  induction pieces with
  | nil => rfl
  | cons piece pieces ih =>
    by_cases hempty : piece = []
    · simpa [Component.ofPiece?, hempty] using ih
    by_cases hhere : piece = [dot]
    · simpa [Component.ofPiece?, hhere] using ih
    by_cases hparent : piece = [dot, dot]
    · simpa [Component.ofPiece?, Component.bytes, hparent] using ih
    · simpa [Component.ofPiece?, Component.bytes, hempty, hhere, hparent] using ih

theorem parts_dropsHere (path : Path) : DropsHere (parts path.bytes) (absolutePieces path) := by
  rw [absolutePieces_eq]
  rcases parts_eq path.bytes with hparts | hparts
  · rw [hparts]
    exact .filter _
  · rw [hparts, ← List.append_nil (List.filter _ _)]
    exact (DropsHere.filter _).append (.drop .nil)

theorem named_ne_nil {path : Path} (hne : path.bytes ≠ []) (h : path.isAbsolute = false) :
    named path.bytes ≠ [] := by
  obtain ⟨c, cs, htext⟩ := List.exists_cons_of_ne_nil hne
  obtain ⟨piece, rest, hpiece⟩ := List.exists_cons_of_ne_nil (List.splitOn_ne_nil slash cs)
  have hc : c ≠ slash := by
    rintro rfl
    simp [Path.isAbsolute, htext] at h
  simp [named, htext, List.splitOn_cons_eq_if_modifyHead, hc, hpiece]

section

variable {fs : FileSystem} (hfs : fs.WellFormed) {path : Path}

include hfs

theorem parts_absoluteStart (path : Path) :
    parts (fs.absoluteStart path).bytes = named (fs.absoluteStart path).bytes ∧
      named (fs.absoluteStart path).bytes = origin path.bytes fs.here := by
  have hroot : parts [slash] = [] ∧ named [slash] = [] := by decide
  have hdoubled : parts [slash, slash] = [] ∧ named [slash, slash] = [] := by decide
  rw [absoluteStart, origin]
  cases habsolute : path.isAbsolute with
  | false =>
    have htext : fs.herePath = fs.here.foldl Path.below ⟨[slash]⟩ :=
      Path.intercalate_eq_foldl_below hfs.isPiece_here
    have hparts :=
      parts_foldl_below (p := ⟨[slash]⟩) (hroot.1.trans hroot.2.symm) hfs.isPiece_here
    have hnamed := named_foldl_below hfs.isPiece_here ⟨[slash]⟩
    rw [Path.isAbsolute] at habsolute
    simp only [Bool.not_false, if_true, htext, hparts, hnamed, hroot, habsolute, Bool.false_eq_true,
      if_false, List.nil_append, and_self]
  | true =>
    rw [Path.isAbsolute] at habsolute
    cases startsDoubled path <;> simp [habsolute, hroot, hdoubled]

theorem nul_not_mem_absolute (h : 0 ∉ path.bytes) : 0 ∉ (fs.absolute path).bytes := by
  have hstart : 0 ∉ (fs.absoluteStart path).bytes := by
    rw [absoluteStart]
    split
    · rw [herePath, Path.intercalate_eq_foldl_below hfs.isPiece_here]
      refine Path.not_mem_foldl_below (by decide) (by decide) fun name hname => ?_
      exact (isEntryName_iff.mp (hfs.here name hname)).2.2.2.2
    · split <;> decide
  have hbody : 0 ∉ ((absolutePieces path).foldl Path.below (fs.absoluteStart path)).bytes := by
    refine Path.not_mem_foldl_below (by decide) hstart fun piece hpiece => ?_
    rw [absolutePieces_eq] at hpiece
    exact fun hmem => h (mem_of_mem_named (List.mem_filter.mp hpiece).1 hmem)
  rw [absolute_eq]
  split
  · intro hmem
    rcases Path.mem_below hmem with hmem | hmem | hmem
    · exact hbody hmem
    · cases hmem
    · cases hmem
  · exact hbody

theorem parts_absolute (hne : path.bytes ≠ []) :
    ∃ rest, parts (fs.absolute path).bytes = origin path.bytes fs.here ++ rest ∧
      DropsHere (parts path.bytes) rest := by
  obtain ⟨hstart, horigin⟩ := parts_absoluteStart hfs path
  have hpieces := isPiece_absolutePieces path
  have hbody : parts ((absolutePieces path).foldl Path.below (fs.absoluteStart path)).bytes =
      origin path.bytes fs.here ++ absolutePieces path := by
    rw [parts_foldl_below hstart hpieces, horigin]
  have hnamed : named
    (((absolutePieces path).foldl Path.below (fs.absoluteStart path)).below []).bytes =
      origin path.bytes fs.here ++ absolutePieces path := by
    rw [named_below _ (by simp), named_foldl_below hpieces, horigin]
    simp
  rw [absolute_eq]
  split
  · rename_i hslash
    by_cases hnone : origin path.bytes fs.here ++ absolutePieces path = []
    · obtain ⟨horigin, hnopieces⟩ := List.append_eq_nil_iff.mp hnone
      refine ⟨[], ?_, hnopieces ▸ parts_dropsHere path⟩
      rw [parts_of_named_nil (hnamed.trans hnone), horigin]
      rfl
    · refine ⟨absolutePieces path ++ [[dot]], ?_, ?_⟩
      · have htext := Path.ne_empty_of_isAbsolute
          (Path.isAbsolute_foldl_below (fs.absoluteStart_isAbsolute path) (absolutePieces path))
        rw [parts_of_slash (Path.getLast?_below_empty htext) (hnamed ▸ hnone), hnamed,
          List.append_assoc]
      · have hown : named path.bytes ≠ [] := by
          intro hnil
          refine hnone (List.append_eq_nil_iff.mpr ⟨?_, by rw [absolutePieces_eq, hnil]; rfl⟩)
          by_contra hrelative
          refine named_ne_nil hne ?_ hnil
          rw [← Bool.not_eq_true]
          exact fun habsolute => hrelative (if_pos habsolute)
        rw [parts_of_slash (eq_of_beq hslash) hown, absolutePieces_eq]
        exact (DropsHere.filter _).append (.refl _)
  · exact ⟨absolutePieces path, hbody, parts_dropsHere path⟩

/-- The form of a path from the root leads to what the path leads to. -/
theorem resolve_absolute {place : List Name} (h : fs.resolve path = .ok place) :
    fs.resolve (fs.absolute path) = .ok place := by
  obtain ⟨hnul, hne, hreach⟩ := resolve_eq_ok_iff.mp h
  have habsolute := fs.absolute_isAbsolute path
  -- a relative path leads to the working folder first
  obtain ⟨rest, hparts, hdrops⟩ := parts_absolute hfs hne
  have hhere : stride fs.root [] (origin path.bytes fs.here) =
      .arrived (origin path.bytes fs.here) := by
    cases hrelative : path.isAbsolute with
    | true => rw [origin, ← Path.isAbsolute, hrelative, if_pos rfl, stride]
    | false =>
      have hown : parts path.bytes ≠ [] := by
        rcases parts_eq path.bytes with hown | hown <;> simp [hown, named_ne_nil hne hrelative]
      rw [origin, ← Path.isAbsolute, hrelative, if_neg Bool.false_ne_true] at hreach ⊢
      obtain ⟨entries, hfolder⟩ := folder_of_reach hown hreach
      exact stride_of_folder hfs.here hfolder
  refine resolve_eq_ok_iff.mpr ⟨nul_not_mem_absolute hfs hnul,
    Path.ne_empty_of_isAbsolute habsolute, ?_⟩
  have hroot : origin (fs.absolute path).bytes fs.here = [] := if_pos habsolute
  rw [hroot, hparts, reach_of_arrived hhere]
  exact reach_dropsHere hdrops hreach

end

end FileSystem

end HeaderIndex
