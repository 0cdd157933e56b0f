import HeaderIndex.Proofs.FileSystem.Lookup
import HeaderIndex.Proofs.FileSystem.Spelling

/-! File trees. The entries of a folder have names of their own, and names that a path can
spell (`Node.isTree`). So a file of a tree is found again under the path that is spelled
by going down to it, and a look-up of that path goes through links only as far as the
path it started from does (`resolve_foldl_below`). -/

namespace HeaderIndex

open HeaderIndex.Text

namespace Node

mutual

/-- Whether the entries of every folder have fitting names, and no two of one folder the same. -/
def isTree : Node → Bool
  | folder entries => areTrees entries
  | _ => true

def areTrees : List (Name × Node) → Bool
  | [] => true
  | (name, node) :: rest =>
    isEntryName name && (entryNamed name rest).isNone && node.isTree && areTrees rest

end

/-- Whether names lead from a node to a file, through no link. -/
def HasFile (node : Node) (names : List Name) : Prop :=
  ∃ contents, node.at? names = some (.file contents)

theorem areTrees_cons {name : Name} {node : Node} {rest : List (Name × Node)} :
    areTrees ((name, node) :: rest) = true ↔ isEntryName name = true ∧
      entryNamed name rest = none ∧ node.isTree = true ∧ areTrees rest = true := by
  rw [areTrees]
  simp only [Bool.and_eq_true, Option.isNone_iff_eq_none, and_assoc]

theorem isTree_of_entryNamed {entries : List (Name × Node)} (h : areTrees entries = true)
    {name : Name} {node : Node} (hnode : entryNamed name entries = some node) :
    isEntryName name = true ∧ node.isTree = true := by
  induction entries with
  | nil => cases hnode
  | cons entry rest ih =>
    obtain ⟨n, own⟩ := entry
    obtain ⟨hname, _, hown, hrest⟩ := areTrees_cons.mp h
    rw [entryNamed] at hnode
    split at hnode
    · rename_i hn
      cases hnode
      exact ⟨eq_of_beq hn ▸ hname, hown⟩
    · exact ih hrest hnode

theorem isTree_of_child? {node below : Node} (h : node.isTree = true) {name : Name}
    (hbelow : node.child? name = some below) : isEntryName name = true ∧ below.isTree = true := by
  cases node with
  | folder entries => exact isTree_of_entryNamed h hbelow
  | file contents => cases hbelow
  | link target => cases hbelow

/-- What is below a tree is a tree, and its place is spelled by names of entries. -/
theorem isTree_of_at? {node below : Node} (h : node.isTree = true) {names : List Name}
    (hbelow : node.at? names = some below) :
    (∀ name ∈ names, isEntryName name = true) ∧ below.isTree = true := by
  induction names generalizing node with
  | nil =>
    obtain rfl : node = below := Option.some.inj hbelow
    exact ⟨List.forall_mem_nil _, h⟩
  | cons name names ih =>
    rw [at?_cons] at hbelow
    obtain ⟨next, hnext, hrest⟩ := Option.bind_eq_some_iff.mp hbelow
    obtain ⟨hname, htree⟩ := isTree_of_child? h hnext
    obtain ⟨hnames, hbelow⟩ := ih htree hrest
    exact ⟨List.forall_mem_cons.mpr ⟨hname, hnames⟩, hbelow⟩

theorem hasFile_file {contents : Except FileError (List UInt8)} {names : List Name} :
    (file contents).HasFile names ↔ names = [] := by
  cases names with
  | nil => exact iff_of_true ⟨contents, rfl⟩ rfl
  | cons name rest => exact iff_of_false (by rintro ⟨_, h⟩; cases h) (by simp)

theorem not_hasFile_link (target : Name) (names : List Name) : ¬ (link target).HasFile names := by
  rintro ⟨contents, h⟩
  cases names with
  | nil => cases h
  | cons name rest => cases h

theorem not_hasFile_folder_nil (entries : List (Name × Node)) :
    ¬ (folder entries).HasFile [] := by
  rintro ⟨contents, h⟩
  cases h

theorem hasFile_cons {node : Node} {name : Name} {rest : List Name} :
    node.HasFile (name :: rest) ↔ ∃ below, node.child? name = some below ∧
      below.HasFile rest := by
  simp only [HasFile, at?_cons, Option.bind_eq_some_iff]
  exact ⟨fun ⟨contents, below, h, hfile⟩ => ⟨below, h, contents, hfile⟩,
    fun ⟨below, h, contents, hfile⟩ => ⟨contents, below, h, hfile⟩⟩

theorem not_hasFile_folder_empty (names : List Name) : ¬ (folder []).HasFile names := by
  rintro ⟨contents, h⟩
  cases names with
  | nil => cases h
  | cons name rest => cases h

/-- A file of a folder is below its first entry, or below the others. -/
theorem hasFile_folder_cons {name : Name} {node : Node} {rest : List (Name × Node)}
    (hnew : entryNamed name rest = none) {names : List Name} :
    (folder ((name, node) :: rest)).HasFile names ↔
      (∃ more, names = name :: more ∧ node.HasFile more) ∨ (folder rest).HasFile names := by
  cases names with
  | nil => simp [not_hasFile_folder_nil]
  | cons n more =>
    simp only [hasFile_cons, child?, entries, entryNamed]
    by_cases hn : name = n
    · subst hn
      simp [hnew]
    · simp [hn, Ne.symm hn]

theorem hasFile_append {node below : Node} {place : List Name} (h : node.at? place = some below)
    {names : List Name} : node.HasFile (place ++ names) ↔ below.HasFile names := by
  rw [HasFile, HasFile, at?_append, h, Option.bind_some]

theorem exists_of_hasFile_append {node : Node} {place names : List Name}
    (h : node.HasFile (place ++ names)) :
    ∃ below, node.at? place = some below ∧ below.HasFile names := by
  obtain ⟨contents, hfile⟩ := h
  rw [at?_append] at hfile
  obtain ⟨below, hbelow, hfile⟩ := Option.bind_eq_some_iff.mp hfile
  exact ⟨below, hbelow, contents, hfile⟩

end Node

/-- A file system whose entries have fitting names, as a file system on a disk does. -/
structure FileSystem.WellFormed (fs : FileSystem) : Prop where
  tree : fs.root.isTree = true
  here : ∀ name ∈ fs.here, isEntryName name = true

namespace FileSystem

theorem WellFormed.isPiece_here {fs : FileSystem} (h : fs.WellFormed) :
    ∀ name ∈ fs.here, Path.IsPiece name :=
  fun name hmem => Path.isPiece_of_isEntryName (h.here name hmem)

/-! ## Look-ups that go on below a place -/

/-- A stop when more parts are left. -/
def Stop.before (more : List Name) : Stop → Stop
  | missing folder name rest => missing folder name (rest ++ more)
  | atLink target folder rest => atLink target folder (rest ++ more)
  | stop => stop

theorem stride_append (root : Node) (place parts more : List Name) :
    stride root place (parts ++ more) =
      match stride root place parts with
      | .arrived found => stride root found more
      | stop => stop.before more := by
  induction parts generalizing place with
  | nil => rfl
  | cons part parts ih =>
    rw [List.cons_append, stride, stride]
    cases root.at? place with
    | none => rfl
    | some node =>
      cases node with
      | file contents => rfl
      | link target => rfl
      | folder entries =>
        dsimp only
        by_cases hhere : part == [dot]
        · simp only [hhere, if_true, ih]
        by_cases hparent : part == [dot, dot]
        · simp only [hhere, hparent, if_true, if_false, Bool.false_eq_true, ih]
        simp only [hhere, hparent, if_false, Bool.false_eq_true]
        cases Node.entryNamed part entries with
        | none => rfl
        | some below =>
          cases below with
          | link target => rfl
          | file contents => exact ih _
          | folder entries => exact ih _

/-- A look-up arrives where its parts lead, or where a link and the parts behind it do. -/
theorem reach_eq_taken_iff {root : Node} {links : Nat} {place rest found : List Name} :
    reach root links place rest = .ok (.taken found) ↔
      stride root place rest = .arrived found ∨
      ∃ left target folder more, links = left + 1 ∧
        stride root place rest = .atLink target folder more ∧
        target ≠ [] ∧ reach root left (origin target folder) (parts target ++ more) =
          .ok (.taken found) := by
  rw [reach]
  cases hstride : stride root place rest with
  | arrived place => simp
  | missing folder name more => simp
  | failed e => simp
  | atLink target folder more =>
    cases links with
    | zero => simp
    | succ left => by_cases htarget : target = [] <;> simp [htarget]

/-- A look-up that has arrived goes on from there, if no link is in the way. -/
theorem reach_append {root : Node} {links : Nat} {place parts found more last : List Name}
    (h : reach root links place parts = .ok (.taken found))
    (hmore : stride root found more = .arrived last) :
    reach root links place (parts ++ more) = .ok (.taken last) := by
  induction links using Nat.strongRecOn generalizing place parts with
  | ind links ih =>
    rw [reach_eq_taken_iff, stride_append]
    obtain hfound | ⟨left, target, folder, rest, rfl, hlink, htarget, hreach⟩ :=
      reach_eq_taken_iff.mp h
    · rw [hfound]
      exact .inl hmore
    · rw [hlink]
      refine .inr ⟨left, target, folder, rest ++ more, rfl, rfl, htarget, ?_⟩
      rw [← List.append_assoc]
      exact ih left (Nat.lt_succ_self left) hreach

theorem stride_here (root : Node) (place : List Name) :
    stride root place [[dot]] = .arrived place ∧
      (∃ entries, root.at? place = some (.folder entries)) ∨
      stride root place [[dot]] = .failed .notFolder := by
  rw [stride]
  cases root.at? place with
  | none => exact .inr rfl
  | some node =>
    cases node with
    | file contents => exact .inr rfl
    | link target => exact .inr rfl
    | folder entries => exact .inl ⟨rfl, entries, rfl⟩

/-- Where a path may end in `.` there is a folder, and the path leads there without it too. -/
theorem reach_here {root : Node} {links : Nat} {place parts found : List Name}
    (h : reach root links place (parts ++ [[dot]]) = .ok (.taken found)) :
    reach root links place parts = .ok (.taken found) ∧ ∃ entries,
      root.at? found = some (.folder entries) := by
  induction links using Nat.strongRecOn generalizing place parts with
  | ind links ih =>
    rw [reach_eq_taken_iff, stride_append] at h
    rw [reach_eq_taken_iff]
    cases hstride : stride root place parts with
    | arrived last =>
      obtain ⟨hhere, hfolder⟩ | hfailed := stride_here root last
      · simp_all
      · simp [hstride, hfailed] at h
    | missing folder name rest => simp [hstride, Stop.before] at h
    | failed e => simp [hstride, Stop.before] at h
    | atLink target folder rest =>
      simp only [hstride, Stop.before, reduceCtorEq, false_or] at h ⊢
      obtain ⟨left, _, _, _, rfl, hlink, htarget, hreach⟩ := h
      cases hlink
      rw [← List.append_assoc] at hreach
      obtain ⟨hfound, hfolder⟩ := ih left (Nat.lt_succ_self left) hreach
      exact ⟨⟨left, target, folder, rest, rfl, rfl, htarget, hfound⟩, hfolder⟩

/-- A name leads down to whatever has it, unless that is a link. -/
theorem stride_below {root below : Node} {place : List Name} {name : Name}
    (hname : isEntryName name = true) (h : root.at? (place ++ [name]) = some below)
    (hlink : ∀ target, below ≠ .link target) :
    stride root place [name] = .arrived (place ++ [name]) := by
  obtain ⟨_, hhere, hparent, _⟩ := isEntryName_iff.mp hname
  have hnext : root.faceAt (place ++ [name]) = some below.face := by
    rw [Node.faceAt, h, Option.map_some]
  have hplace : root.faceAt place = some .folder := by
    rw [Node.at?_append] at h
    obtain ⟨node, hnode, hbelow⟩ := Option.bind_eq_some_iff.mp h
    rw [Node.at?_cons] at hbelow
    obtain ⟨_, hchild, _⟩ := Option.bind_eq_some_iff.mp hbelow
    rw [Node.faceAt, hnode, Option.map_some, Node.face_of_child? hchild]
  rw [stride_cons, move, hplace]
  simp only [hnext, beq_iff_eq, hhere, hparent, if_false]
  cases below with
  | link target => exact absurd rfl (hlink target)
  | file contents => rfl
  | folder entries => rfl

theorem resolve_eq_ok_iff {fs : FileSystem} {path : Path} {place : List Name} :
    fs.resolve path = .ok place ↔ 0 ∉ path.bytes ∧ path.bytes ≠ [] ∧
      reach fs.root maxLinks (origin path.bytes fs.here) (parts path.bytes) =
      .ok (.taken place) := by
  rw [resolve, follow]
  by_cases hnul : 0 ∈ path.bytes
  · simp [hnul]
  by_cases hempty : path.bytes = []
  · simp [hempty]
  simp only [hnul, hempty, List.contains_iff_mem, List.isEmpty_iff, if_false, not_false_eq_true,
    true_and, ne_eq, bind, Except.bind]
  cases reach fs.root maxLinks (origin path.bytes fs.here) (parts path.bytes) with
  | error e => simp
  | ok spot => cases spot <;> simp

/-- An entry of a place is found under the path below that of the place, unless it is a link. -/
theorem resolve_below {fs : FileSystem} {path : Path} {place : List Name} {name : Name}
    {below : Node} (h : fs.resolve path = .ok place) (hname : isEntryName name = true)
    (hbelow : fs.root.at? (place ++ [name]) = some below)
    (hlink : ∀ target, below ≠ .link target) :
    fs.resolve (path.below name) = .ok (place ++ [name]) := by
  obtain ⟨_, _, _, _, hnul⟩ := isEntryName_iff.mp hname
  obtain ⟨hpath, hempty, hreach⟩ := resolve_eq_ok_iff.mp h
  have hnamed : reach fs.root maxLinks (origin path.bytes fs.here) (named path.bytes) =
      .ok (.taken place) := by
    rcases parts_eq path.bytes with hparts | hparts
    · rwa [hparts] at hreach
    · rw [hparts] at hreach
      exact (reach_here hreach).1
  refine resolve_eq_ok_iff.mpr ⟨fun hmem => ?_, path.below_text_ne hempty, ?_⟩
  · rcases Path.mem_below hmem with hmem | hmem | hmem
    · exact hpath hmem
    · cases hmem
    · exact hnul hmem
  · rw [origin, path.head?_below name hempty, parts_below path (Path.isPiece_of_isEntryName hname)]
    exact reach_append hnamed (stride_below hname hbelow hlink)

/-- A file is found under the path that is spelled by going down to it. -/
theorem resolve_foldl_below {fs : FileSystem} {path : Path} {place names : List Name}
    (h : fs.resolve path = .ok place) (hnames : ∀ name ∈ names, isEntryName name = true)
    (hfile : fs.root.HasFile (place ++ names)) :
    fs.resolve (names.foldl Path.below path) = .ok (place ++ names) := by
  induction names generalizing path place with
  | nil =>
    rw [List.append_nil]
    exact h
  | cons name names ih =>
    obtain ⟨hname, hnames⟩ := List.forall_mem_cons.mp hnames
    rw [List.append_cons] at hfile ⊢
    obtain ⟨below, hbelow, hrest⟩ := Node.exists_of_hasFile_append hfile
    refine ih (resolve_below h hname hbelow ?_) hnames hfile
    rintro target rfl
    exact Node.not_hasFile_link target names hrest

/-! ## Spellings of files -/

/-- The path of a file has no slash at its end. -/
theorem getLast?_ne_of_hasFile {fs : FileSystem} {path : Path} {place : List Name}
    (h : fs.resolve path = .ok place) (hfile : fs.root.HasFile place)
    (hnamed : named path.bytes ≠ []) : path.bytes.getLast? ≠ some slash := by
  intro hslash
  obtain ⟨_, _, hreach⟩ := resolve_eq_ok_iff.mp h
  rw [parts_of_slash hslash hnamed] at hreach
  obtain ⟨_, entries, hfolder⟩ := reach_here hreach
  obtain ⟨contents, hfile⟩ := hfile
  rw [hfolder] at hfile
  cases hfile

/-- Going down from a path, files have plain paths, unless that path starts with two slashes. -/
theorem isPlain_of_hasFile {fs : FileSystem} (hfs : fs.WellFormed) {path : Path}
    {names place : List Name} (hpath : startsDoubled path = false)
    (hnames : ∀ name ∈ names, isEntryName name = true)
    (h : fs.resolve (names.foldl Path.below (fs.absolute path)) = .ok place)
    (hfile : fs.root.HasFile place) : (names.foldl Path.below (fs.absolute path)).IsPlain := by
  have hpieces : ∀ name ∈ names, Path.IsPiece name :=
    fun name hmem => Path.isPiece_of_isEntryName (hnames name hmem)
  obtain ⟨body, hbody, heq | heq⟩ := exists_plain_absolute hfs.isPiece_here hpath
  · rw [heq]
    exact hbody.foldl_below hpieces
  · rw [heq] at h ⊢
    cases names with
    | cons name names =>
      rw [List.foldl_cons, Path.below_empty_below, ← List.foldl_cons]
      exact hbody.foldl_below hpieces
    | nil =>
      obtain ⟨pieces, hpieces, rfl⟩ := hbody
      rw [List.foldl_nil] at h ⊢
      by_cases hnone : pieces = []
      · rw [hnone]
        exact ⟨[], List.forall_mem_nil _, rfl⟩
      · -- a slash at the end would ask for a folder
        have hnamed : named ((pieces.foldl Path.below ⟨[slash]⟩).below []).bytes = pieces := by
          have hroot : named [slash] = [] := by decide
          rw [named_below _ (by simp), named_foldl_below hpieces, hroot]
          simp
        have hroot : (⟨[slash]⟩ : Path).isAbsolute = true := by decide
        have hlast : ((pieces.foldl Path.below ⟨[slash]⟩).below []).bytes.getLast? =
            some slash :=
          Path.getLast?_below_empty (Path.ne_empty_of_isAbsolute
            (Path.isAbsolute_foldl_below hroot pieces))
        rw [← hnamed] at hnone
        exact absurd hlast (getLast?_ne_of_hasFile h hfile hnone)

end FileSystem

end HeaderIndex
