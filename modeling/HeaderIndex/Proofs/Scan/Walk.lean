import HeaderIndex.Proofs.FileSystem.Tree
import HeaderIndex.Scan.Walk

/-! What a walk finds. A walk goes over the entries of a folder; what it comes to is said here
along the names that lead down to a file (`Finds`): there is no link among them and none
of them is passed over. The walk lists the files that are found and admitted
(`mem_rootFiles`). -/

namespace HeaderIndex

namespace Walk

/-! ## Below a folder -/

/-- Whether a walk gets along names that lead down from a folder, all of them but the last to
folders: none of them is passed over. -/
def isKept (mode : WalkMode) (fs : FileSystem) : List Level → Path → List Name → Bool
  | _, _, [] => true
  | levels, folder, name :: rest =>
    !isSkipped mode fs (levels.map (·.down name)) (folder.below name) name (!rest.isEmpty) &&
      isKept mode fs (added mode fs (folder.below name) ++ levels.map (·.down name))
        (folder.below name) rest

section Below

variable {mode : WalkMode} {filter : ExtensionFilter} {fs : FileSystem}

mutual

theorem mem_entryFiles {levels : List Level} {folder : Path} {name : Name} (node : Node)
    (h : node.isTree = true) {p : Path} :
    p ∈ entryFiles mode filter fs levels folder name node ↔
      ∃ rest, node.HasFile rest ∧ isKept mode fs levels folder (name :: rest) = true ∧
        p = (name :: rest).foldl Path.below folder ∧ filter.admits p = true := by
  match node with
  | .link target =>
    rw [entryFiles]
    exact iff_of_false List.not_mem_nil fun ⟨rest, hfile, _⟩ =>
      Node.not_hasFile_link target rest hfile
  | .file contents =>
    simp only [Node.hasFile_file, exists_eq_left, isKept, List.isEmpty_nil, Bool.not_true,
      Bool.and_true, List.foldl_cons, List.foldl_nil, Bool.not_eq_true', entryFiles]
    split
    · simp_all
    · split <;> grind
  | .folder entries =>
    have hkept : ∀ rest, (Node.folder entries).HasFile rest →
        (isKept mode fs levels folder (name :: rest) = true ↔
          isSkipped mode fs (levels.map (·.down name)) (folder.below name) name true = false ∧
          isKept mode fs (added mode fs (folder.below name) ++ levels.map (·.down name))
            (folder.below name) rest = true) := by
      intro rest hfile
      have hrest : rest.isEmpty = false := by
        rw [← Bool.not_eq_true, List.isEmpty_iff]
        exact fun hnil => Node.not_hasFile_folder_nil entries (hnil ▸ hfile)
      rw [isKept, hrest, Bool.and_eq_true, Bool.not_eq_true', Bool.not_false]
    rw [entryFiles]
    split
    · rename_i hskipped
      refine iff_of_false List.not_mem_nil fun ⟨rest, hfile, hrest, _⟩ => ?_
      rw [hkept rest hfile, hskipped] at hrest
      exact absurd hrest.1 (by decide)
    · rename_i hpassed
      rw [mem_folderFiles entries h]
      refine exists_congr fun rest => and_congr_right fun hfile => ?_
      rw [hkept rest hfile, List.foldl_cons]
      simp [hpassed]

theorem mem_folderFiles {levels : List Level} {folder : Path} (entries : List (Name × Node))
    (h : Node.areTrees entries = true) {p : Path} :
    p ∈ folderFiles mode filter fs levels folder entries ↔
      ∃ names, (Node.folder entries).HasFile names ∧
        isKept mode fs levels folder names = true ∧
        p = names.foldl Path.below folder ∧ filter.admits p = true := by
  match entries with
  | [] =>
    refine iff_of_false List.not_mem_nil fun ⟨names, hfile, _⟩ => ?_
    exact Node.not_hasFile_folder_empty names hfile
  | (name, node) :: rest =>
    obtain ⟨_, hnew, hnode, hrest⟩ := Node.areTrees_cons.mp h
    rw [folderFiles, List.mem_append, mem_entryFiles node hnode, mem_folderFiles rest hrest]
    simp only [Node.hasFile_folder_cons hnew, or_and_right, exists_or]
    refine or_congr ?_ Iff.rfl
    constructor
    · rintro ⟨more, hfile, hfound⟩
      exact ⟨name :: more, ⟨more, rfl, hfile⟩, hfound⟩
    · rintro ⟨_, ⟨more, rfl, hfile⟩, hfound⟩
      exact ⟨more, hfile, hfound⟩

end

/-- Without ignore files nothing is passed over. -/
theorem isKept_raw (fs : FileSystem) (levels : List Level) (folder : Path) (names : List Name) :
    isKept .raw fs levels folder names = true := by
  induction names generalizing levels folder with
  | nil => rfl
  | cons name rest ih =>
    rw [isKept, ih]
    rfl

/-- Where ignore files are respected no walk goes through the folder of its own settings, whatever
the ignore files say. -/
theorem ownFolder_not_mem {levels : List Level} {folder : Path} {names : List Name}
    (h : isKept .respectIgnore fs levels folder names = true) : ownFolder ∉ names.dropLast := by
  induction names generalizing levels folder with
  | nil => exact List.not_mem_nil
  | cons name rest ih =>
    rw [isKept, Bool.and_eq_true, Bool.not_eq_true'] at h
    cases rest with
    | nil => exact List.not_mem_nil
    | cons next rest =>
      rw [List.dropLast_cons_cons, List.mem_cons, not_or]
      refine ⟨?_, ih h.2⟩
      rintro rfl
      have hskipped : isSkipped .respectIgnore fs (levels.map (·.down ownFolder))
          (folder.below ownFolder) ownFolder true = true := by
        rw [isSkipped]
        split <;> simp
      rw [List.isEmpty_cons, Bool.not_false, hskipped] at h
      cases h.1

end Below

/-! ## From a root -/

/-- The rules that hold at a root, given by the names that it leads to. -/
def rootLevels (mode : WalkMode) (fs : FileSystem) (root : Path) (place : List Name) : List Level :=
  added mode fs root ++ parentLevels mode fs place

/-- The walk from a root comes to a file: the root leads to a place, from there names go down to
the file without a link, and none of them is passed over. -/
structure Finds (mode : WalkMode) (fs : FileSystem) (root : Path) (place names : List Name) :
    Prop where
  resolves : fs.resolve root = .ok place
  file : fs.root.HasFile (place ++ names)
  kept : isKept mode fs (rootLevels mode fs root place) root names = true

section Root

variable {mode : WalkMode} {filter : ExtensionFilter} {fs : FileSystem} {root p : Path}

theorem mem_rootFiles (hfs : fs.root.isTree = true) :
    p ∈ rootFiles mode filter fs root ↔ ∃ place names, Finds mode fs root place names ∧
      p = names.foldl Path.below root ∧ filter.admits p = true := by
  constructor
  · intro h
    rw [rootFiles] at h
    split at h
    · cases h
    · rename_i place hplace
      split at h
      · rename_i contents hfile
        split at h
        · rename_i hadmits
          obtain rfl := List.mem_singleton.mp h
          refine ⟨place, [], ⟨hplace, ⟨contents, ?_⟩, rfl⟩, rfl, hadmits⟩
          rw [List.append_nil]
          exact hfile
        · cases h
      · rename_i entries hfolder
        have htree := (Node.isTree_of_at? hfs hfolder).2
        obtain ⟨names, hfile, hkept, hp, hadmits⟩ := (mem_folderFiles entries htree).mp h
        exact ⟨place, names, ⟨hplace, (Node.hasFile_append hfolder).mpr hfile, hkept⟩,
          hp, hadmits⟩
      · cases h
  · rintro ⟨place, names, ⟨hplace, hfile, hkept⟩, hp, hadmits⟩
    obtain ⟨node, hnode, hfile⟩ := Node.exists_of_hasFile_append hfile
    rw [rootFiles, hplace]
    dsimp only
    cases node with
    | link target => exact absurd hfile (Node.not_hasFile_link target names)
    | file contents =>
      obtain rfl := Node.hasFile_file.mp hfile
      rw [List.foldl_nil] at hp
      subst hp
      simp [hnode, hadmits]
    | folder entries =>
      have htree := (Node.isTree_of_at? hfs hnode).2
      rw [hnode]
      exact (mem_folderFiles entries htree).mpr ⟨names, hfile, hkept, hp, hadmits⟩

end Root

end Walk

end HeaderIndex
