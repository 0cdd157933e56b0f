import HeaderIndex.Proofs.FileSystem.Absolute
import HeaderIndex.Proofs.Scan.Accounting
import HeaderIndex.Proofs.Scan.Walk

/-! Collecting files from roots. What is collected are the files that a walk finds from some root
and the filter admits, each once (`mem_keys_collect`). So roots and extensions put
together give what they give apart (`collect_unites`), and ignore files can only take
paths away (`collect_respectIgnore`). Spellings of one path count as one: what is
compared are the components (`Path.keys`). -/

namespace HeaderIndex

open HeaderIndex.Text

/-! ## Lists of paths -/

namespace Path

/-- What a list of paths says, however they are spelled. -/
def keys (paths : List Path) : List (List Component) := paths.map components

/-- Plain paths are known by what they say. -/
theorem eq_of_keys_eq {paths more : List Path} (h : ∀ p ∈ paths, p.IsPlain)
    (h' : ∀ p ∈ more, p.IsPlain) (hkeys : keys paths = keys more) : paths = more := by
  induction paths generalizing more with
  | nil => exact (List.map_eq_nil_iff.mp hkeys.symm).symm
  | cons p paths ih =>
    cases more with
    | nil => cases hkeys
    | cons q more =>
      obtain ⟨hp, hpaths⟩ := List.forall_mem_cons.mp h
      obtain ⟨hq, hmore⟩ := List.forall_mem_cons.mp h'
      obtain ⟨hpq, hrest⟩ := List.cons.inj hkeys
      rw [hp.eq_of_same hq (beq_iff_eq.mpr hpq), ih hpaths hmore hrest]

theorem sublist_of_keys_sublist {paths more : List Path} (h : ∀ p ∈ paths, p.IsPlain)
    (h' : ∀ p ∈ more, p.IsPlain) (hkeys : (keys paths).Sublist (keys more)) :
    paths.Sublist more := by
  obtain ⟨kept, hkept, heq⟩ := List.sublist_map_iff.mp hkeys
  rw [eq_of_keys_eq h (fun p hp => h' p (hkept.subset hp)) heq]
  exact hkept

theorem mem_keys {paths : List Path} {key : List Component} :
    key ∈ keys paths ↔ ∃ p ∈ paths, p.components = key :=
  List.mem_map

/-- The order of paths by their components. -/
def Precedes (a b : List Component) : Prop := List.compareLex Component.order a b = .lt

instance : Std.Irrefl Precedes where
  irrefl a h := by
    have hself : List.compareLex Component.order a a = .eq := Std.ReflCmp.compare_self
    rw [Precedes, hself] at h
    cases h

instance : Std.Antisymm Precedes where
  antisymm a b hab hba := by
    have hswap : List.compareLex Component.order b a = (List.compareLex Component.order a b).swap :=
      Std.OrientedCmp.eq_swap
    rw [Precedes, hswap, hab] at hba
    cases hba

section Sorted

variable {paths more : List Path} (h : paths.Pairwise fun p q => p.order q = .lt)
  (h' : more.Pairwise fun p q => p.order q = .lt)

include h in
theorem keys_sorted : (keys paths).Pairwise Precedes := List.pairwise_map.mpr h

include h h'

/-- Paths in order that are among others in order leave some of them out. -/
theorem keys_sublist (hsub : ∀ key ∈ keys paths, key ∈ keys more) :
    (keys paths).Sublist (keys more) :=
  List.sublist_of_subperm_of_pairwise (List.subperm_of_subset (keys_sorted h).nodup hsub)
    (keys_sorted h) (keys_sorted h')

theorem keys_eq (hmem : ∀ key, key ∈ keys paths ↔ key ∈ keys more) :
    keys paths = keys more :=
  (keys_sorted h).eq_of_mem_iff (keys_sorted h') hmem

end Sorted

end Path

/-! ## Extensions -/

namespace ExtensionFilter

theorem make_eq_ok_iff {extensions : List String} {filter : ExtensionFilter} :
    make extensions = .ok filter ↔
      ((extensions.map stripDots).filter (!·.isEmpty)).mapM patternOf = .ok filter.patterns ∧
      filter.patterns ≠ [] := by
  rw [make, bind_eq_ok]
  constructor
  · rintro ⟨patterns, hpatterns, h⟩
    split at h
    · cases h
    · rename_i hne
      cases h
      exact ⟨hpatterns, by simpa using hne⟩
  · rintro ⟨hpatterns, hne⟩
    exact ⟨filter.patterns, hpatterns, by simp [hne]⟩

/-- Extensions that make filters make one together. -/
theorem make_append {extensions extensions' : List String} {filter filter' : ExtensionFilter}
    (h : make extensions = .ok filter) (h' : make extensions' = .ok filter') :
    make (extensions ++ extensions') = .ok ⟨filter.patterns ++ filter'.patterns⟩ := by
  obtain ⟨hpatterns, hne⟩ := make_eq_ok_iff.mp h
  obtain ⟨hpatterns', _⟩ := make_eq_ok_iff.mp h'
  refine make_eq_ok_iff.mpr ⟨?_, by simp [hne]⟩
  rw [List.map_append, List.filter_append, List.mapM_append, hpatterns, hpatterns']
  rfl

/-- A filter with the patterns of two admits what either of them does. -/
theorem admits_append (patterns patterns' : List (List Glob.Token)) (path : Path) :
    (ExtensionFilter.mk (patterns ++ patterns')).admits path = ((ExtensionFilter.mk patterns).admits
      path || (ExtensionFilter.mk patterns').admits path) := by
  rw [admits, admits, admits]
  cases path.fileName? with
  | none => rfl
  | some name => exact List.any_append

/-- Whether a path is admitted does not depend on its spelling. -/
theorem admits_congr {p q : Path} (h : p.components = q.components) (filter : ExtensionFilter) :
    filter.admits p = filter.admits q := by
  rw [admits, admits, Path.fileName?, Path.fileName?, h]

end ExtensionFilter

/-! ## Collecting -/

namespace Walk

theorem mem_keys_distinct {paths : List Path} {key : List Component} :
    key ∈ Path.keys (distinct paths) ↔ key ∈ Path.keys paths := by
  induction paths with
  | nil => rfl
  | cons p rest ih =>
    cases rest with
    | nil => rfl
    | cons q rest =>
      have hrest : key ∈ Path.keys (p :: q :: rest) ↔ key = p.components ∨
          key ∈ Path.keys (distinct (q :: rest)) := by
        rw [ih]
        exact List.mem_cons
      rw [hrest, distinct]
      split
      · rename_i hnil
        rw [hnil]
        exact List.mem_cons
      · rename_i r more hcons
        rw [hcons]
        split
        · rename_i hsame
          -- the path left out is the one that stays
          have hr : r.components = p.components := (eq_of_beq hsame).symm
          simp [Path.keys, hr]
        · exact List.mem_cons

variable {mode : WalkMode} {fs : FileSystem} {roots paths : List Path} {extensions : List String}

section

variable {filter : ExtensionFilter}

/-- Whether files are collected does not depend on how the roots are walked. -/
theorem exists_collect (mode : WalkMode) (hfilter : ExtensionFilter.make extensions = .ok filter)
    (hthere : ∀ root ∈ roots, fs.exists? root = true) :
    ∃ paths, collect fs roots mode extensions = .ok paths :=
  ⟨_, collect_eq_ok_iff.mpr ⟨filter, hfilter, hthere, rfl⟩⟩

/-- The paths collected are those of the files found from each root, however they are spelled. -/
theorem mem_keys_collect (h : collect fs roots mode extensions = .ok paths)
    (hfilter : ExtensionFilter.make extensions = .ok filter) {key : List Component} :
    key ∈ Path.keys paths ↔ ∃ root ∈ roots,
      key ∈ Path.keys (rootFiles mode filter fs (fs.absolute root)) := by
  obtain ⟨filter', hfilter', _, rfl⟩ := collect_eq_ok_iff.mp h
  cases Except.ok.inj (hfilter'.symm.trans hfilter)
  rw [mem_keys_distinct]
  simp only [Path.mem_keys, List.mem_mergeSort, List.mem_flatten, List.mem_map]
  grind

theorem exists_root_of_mem_collect (h : collect fs roots mode extensions = .ok paths)
    (hfilter : ExtensionFilter.make extensions = .ok filter) {p : Path} (hp : p ∈ paths) :
    ∃ root ∈ roots, p ∈ rootFiles mode filter fs (fs.absolute root) := by
  obtain ⟨filter', hfilter', _, rfl⟩ := collect_eq_ok_iff.mp h
  cases Except.ok.inj (hfilter'.symm.trans hfilter)
  obtain ⟨files, hfiles, hp⟩ :=
    List.mem_flatten.mp (List.mem_mergeSort.mp (mem_of_mem_distinct hp))
  obtain ⟨root, hroot, rfl⟩ := List.mem_map.mp hfiles
  exact ⟨root, hroot, hp⟩

theorem resolve_of_mem_roots (h : collect fs roots mode extensions = .ok paths) {root : Path}
    (hroot : root ∈ roots) : ∃ place, fs.resolve root = .ok place := by
  obtain ⟨_, _, hthere, _⟩ := collect_eq_ok_iff.mp h
  have hexists := hthere root hroot
  cases hplace : fs.resolve root with
  | error e =>
    simp [FileSystem.exists?, FileSystem.find, hplace, bind, Except.bind, Except.isOk,
      Except.toBool] at hexists
  | ok place => exact ⟨place, rfl⟩

end

/-- A path is that of a file, and how it is come to from a root: the root leads to a place, and
names lead down from there through no link. -/
structure IsFileBelow (fs : FileSystem) (root : Path) (place names : List Name) (p : Path) :
    Prop where
  resolves : fs.resolve root = .ok place
  spelled : p = names.foldl Path.below (fs.absolute root)
  file : fs.root.HasFile (place ++ names)
  leads : fs.resolve p = .ok (place ++ names)

section WellFormed

variable (hfs : fs.WellFormed) {filter : ExtensionFilter}

include hfs

theorem Finds.isEntryName {root : Path} {place names : List Name}
    (h : Finds mode fs root place names) : ∀ name ∈ names, isEntryName name = true := by
  obtain ⟨contents, hfile⟩ := h.file
  exact fun name hname => (Node.isTree_of_at? hfs.tree hfile).1 name (List.mem_append_right _ hname)

theorem Finds.leads {root : Path} {place names : List Name} (h : Finds mode fs root place names) :
    fs.resolve (names.foldl Path.below root) = .ok (place ++ names) :=
  FileSystem.resolve_foldl_below h.resolves (h.isEntryName hfs) h.file

theorem exists_finds_of_mem_collect (h : collect fs roots mode extensions = .ok paths)
    (hfilter : ExtensionFilter.make extensions = .ok filter) {p : Path} (hp : p ∈ paths) :
    filter.admits p = true ∧ ∃ root ∈ roots, ∃ place names,
      Finds mode fs (fs.absolute root) place names ∧
      p = names.foldl Path.below (fs.absolute root) := by
  obtain ⟨root, hroot, hp⟩ := exists_root_of_mem_collect h hfilter hp
  obtain ⟨place, names, hfinds, hspelled, hadmits⟩ := (mem_rootFiles hfs.tree).mp hp
  exact ⟨hadmits, root, hroot, place, names, hfinds, hspelled⟩

/-- Listed paths are plain, if no root starts with two slashes. -/
theorem isPlain_of_mem_collect (h : collect fs roots mode extensions = .ok paths)
    (hroots : ∀ root ∈ roots, FileSystem.startsDoubled root = false) :
    ∀ p ∈ paths, p.IsPlain := by
  intro p hp
  obtain ⟨filter, hfilter, _⟩ := collect_eq_ok_iff.mp h
  obtain ⟨_, root, hroot, place, names, hfinds, rfl⟩ :=
    exists_finds_of_mem_collect hfs h hfilter hp
  exact FileSystem.isPlain_of_hasFile hfs (hroots root hroot) (hfinds.isEntryName hfs)
    (hfinds.leads hfs) hfinds.file

theorem isFileBelow_of_mem_collect (h : collect fs roots mode extensions = .ok paths)
    (hfilter : ExtensionFilter.make extensions = .ok filter) {p : Path} (hp : p ∈ paths) :
    p.isAbsolute = true ∧ filter.admits p = true ∧ ∃ root ∈ roots, ∃ place names,
      IsFileBelow fs root place names p := by
  obtain ⟨hadmits, root, hroot, place, names, hfinds, rfl⟩ :=
    exists_finds_of_mem_collect hfs h hfilter hp
  refine ⟨Path.isAbsolute_foldl_below (fs.absolute_isAbsolute root) names, hadmits, root,
    hroot, place, names, ?_⟩
  obtain ⟨own, hown⟩ := resolve_of_mem_roots h hroot
  cases Except.ok.inj ((FileSystem.resolve_absolute hfs hown).symm.trans hfinds.resolves)
  exact ⟨hown, rfl, hfinds.file, hfinds.leads hfs⟩

/-- Where ignore files are not respected, every file below a root that the filter admits is
listed. -/
theorem mem_keys_collect_raw (h : collect fs roots .raw extensions = .ok paths)
    (hfilter : ExtensionFilter.make extensions = .ok filter) {root : Path} (hroot : root ∈ roots)
    {place names : List Name} {p : Path} (hp : IsFileBelow fs root place names p)
    (hadmits : filter.admits p = true) : p.components ∈ Path.keys paths := by
  rw [mem_keys_collect h hfilter]
  refine ⟨root, hroot, List.mem_map_of_mem ((mem_rootFiles hfs.tree).mpr ⟨place, names, ?_,
    hp.spelled, hadmits⟩)⟩
  exact ⟨FileSystem.resolve_absolute hfs hp.resolves, hp.file, isKept_raw fs _ _ names⟩

omit hfs in
/-- The order of the roots and their repetition do not count. -/
theorem collect_roots_congr (h : collect fs roots mode extensions = .ok paths) {roots' : List Path}
    (hroots : ∀ root, root ∈ roots' ↔ root ∈ roots) :
    ∃ paths', collect fs roots' mode extensions = .ok paths' ∧
      Path.keys paths' = Path.keys paths := by
  obtain ⟨filter, hfilter, hthere, _⟩ := collect_eq_ok_iff.mp h
  obtain ⟨paths', h'⟩ :=
    exists_collect mode hfilter fun root hroot => hthere root ((hroots root).mp hroot)
  refine ⟨paths', h', Path.keys_eq (collect_sorted h') (collect_sorted h) fun key => ?_⟩
  simp only [mem_keys_collect h' hfilter, mem_keys_collect h hfilter, hroots]

omit hfs in
theorem collect_roots_append {roots' paths' : List Path}
    (h : collect fs roots mode extensions = .ok paths)
    (h' : collect fs roots' mode extensions = .ok paths') :
    ∃ both, collect fs (roots ++ roots') mode extensions = .ok both ∧ ∀ key,
      key ∈ Path.keys both ↔ key ∈ Path.keys paths ∨ key ∈ Path.keys paths' := by
  obtain ⟨filter, hfilter, hthere, _⟩ := collect_eq_ok_iff.mp h
  obtain ⟨_, _, hthere', _⟩ := collect_eq_ok_iff.mp h'
  obtain ⟨both, hboth⟩ :=
    exists_collect mode hfilter (List.forall_mem_append.mpr ⟨hthere, hthere'⟩)
  refine ⟨both, hboth, fun key => ?_⟩
  simp only [mem_keys_collect hboth hfilter, mem_keys_collect h hfilter,
    mem_keys_collect h' hfilter, List.mem_append, or_and_right, exists_or]

theorem collect_extensions_append {extensions' : List String} {paths' : List Path}
    (h : collect fs roots mode extensions = .ok paths)
    (h' : collect fs roots mode extensions' = .ok paths') :
    ∃ both, collect fs roots mode (extensions ++ extensions') = .ok both ∧ ∀ key,
      key ∈ Path.keys both ↔ key ∈ Path.keys paths ∨ key ∈ Path.keys paths' := by
  obtain ⟨filter, hfilter, hthere, _⟩ := collect_eq_ok_iff.mp h
  obtain ⟨filter', hfilter', _⟩ := collect_eq_ok_iff.mp h'
  have hmake := ExtensionFilter.make_append hfilter hfilter'
  obtain ⟨both, hboth⟩ := exists_collect mode hmake hthere
  refine ⟨both, hboth, fun key => ?_⟩
  simp only [mem_keys_collect hboth hmake, mem_keys_collect h hfilter, mem_keys_collect h' hfilter',
    ← exists_or, ← and_or_left, Path.mem_keys, ← or_and_right, mem_rootFiles hfs.tree,
    ExtensionFilter.admits_append, Bool.or_eq_true]

theorem mem_rootFiles_raw {root p : Path} (h : p ∈ rootFiles mode filter fs root) :
    p ∈ rootFiles .raw filter fs root := by
  obtain ⟨place, names, hfinds, hspelled, hadmits⟩ := (mem_rootFiles hfs.tree).mp h
  exact (mem_rootFiles hfs.tree).mpr
    ⟨place, names, ⟨hfinds.resolves, hfinds.file, isKept_raw fs _ _ names⟩,
      hspelled, hadmits⟩

/-- A file that is a root is listed whether ignore files are respected or not. -/
theorem mem_keys_collect_of_file (h : collect fs roots mode extensions = .ok paths)
    (hfilter : ExtensionFilter.make extensions = .ok filter) {root : Path} (hroot : root ∈ roots)
    {contents : Except FileError (List UInt8)} (hfile : fs.find root = .ok (.file contents))
    (hadmits : filter.admits (fs.absolute root) = true) :
    (fs.absolute root).components ∈ Path.keys paths := by
  obtain ⟨place, hplace, hnode⟩ := bind_eq_ok.mp hfile
  have hcontents : fs.root.at? place = some (.file contents) := by
    cases hat : fs.root.at? place with
    | none => simp [hat] at hnode
    | some node => simpa [hat] using hnode
  rw [mem_keys_collect h hfilter]
  refine ⟨root, hroot, List.mem_map_of_mem ((mem_rootFiles hfs.tree).mpr ⟨place, [],
    ?_, rfl, hadmits⟩)⟩
  refine ⟨FileSystem.resolve_absolute hfs hplace, ⟨contents, ?_⟩, rfl⟩
  rw [List.append_nil]
  exact hcontents

end WellFormed

/-- **Collecting unites.** Files are listed in strictly increasing order of their paths. Each has a
path from the root that the filter of the extensions admits, and lies below a root,
through no link but those that the root itself leads through; all such files are listed
if ignore files are not respected. The order of the roots and their repetition do not
count, and the roots or extensions of two calls together give what the calls do. Paths
are the same here if their components are; where no root starts with two slashes, that
makes them one text. -/
theorem collect_unites (fs : FileSystem) (hfs : fs.WellFormed) (roots : List Path) (mode : WalkMode)
    (extensions : List String) (paths : List Path)
    (h : collect fs roots mode extensions = .ok paths) :
    paths.Pairwise (fun p q => p.order q = .lt) ∧
    (∃ filter, ExtensionFilter.make extensions = .ok filter ∧
      (∀ p ∈ paths, p.isAbsolute = true ∧ filter.admits p = true ∧
        ∃ root ∈ roots, ∃ place names, IsFileBelow fs root place names p) ∧
      (mode = .raw → ∀ root ∈ roots, ∀ place names p, IsFileBelow fs root place names p →
        filter.admits p = true → p.components ∈ Path.keys paths)) ∧
    (∀ roots', (∀ root, root ∈ roots' ↔ root ∈ roots) →
      ∃ paths', collect fs roots' mode extensions = .ok paths' ∧
        Path.keys paths' = Path.keys paths ∧
        ((∀ root ∈ roots, FileSystem.startsDoubled root = false) → paths' = paths)) ∧
    (∀ roots' paths', collect fs roots' mode extensions = .ok paths' →
      ∃ both, collect fs (roots ++ roots') mode extensions = .ok both ∧
        ∀ key, key ∈ Path.keys both ↔ key ∈ Path.keys paths ∨ key ∈ Path.keys paths') ∧
    ∀ extensions' paths', collect fs roots mode extensions' = .ok paths' →
      ∃ both, collect fs roots mode (extensions ++ extensions') = .ok both ∧
        ∀ key, key ∈ Path.keys both ↔ key ∈ Path.keys paths ∨ key ∈ Path.keys paths' := by
  obtain ⟨filter, hfilter, _⟩ := collect_eq_ok_iff.mp h
  refine ⟨collect_sorted h,
    ⟨filter, hfilter, fun p => isFileBelow_of_mem_collect hfs h hfilter, ?_⟩, ?_,
    fun roots' paths' => collect_roots_append h, fun extensions' paths' =>
    collect_extensions_append hfs h⟩
  · rintro rfl root hroot place names p
    exact mem_keys_collect_raw hfs h hfilter hroot
  · intro roots' hroots
    obtain ⟨paths', h', hkeys⟩ := collect_roots_congr h hroots
    refine ⟨paths', h', hkeys, fun hplain => ?_⟩
    have hplain' : ∀ root ∈ roots', FileSystem.startsDoubled root = false :=
      fun root hroot => hplain root ((hroots root).mp hroot)
    exact Path.eq_of_keys_eq (isPlain_of_mem_collect hfs h' hplain')
      (isPlain_of_mem_collect hfs h hplain) hkeys

/-- A root that is a link to a folder, and one that is a file; extensions taken apart and
together. -/
theorem collect_unites_linked :
    ∃ fs : FileSystem, fs.WellFormed ∧
      collect fs [.ofText "/a.h", .ofText "/old"] .raw ["h"] =
        .ok [.ofText "/a.h", .ofText "/old/c.h"] ∧
      collect fs [.ofText "/old", .ofText "/a.h", .ofText "/old"] .raw ["h"] =
        .ok [.ofText "/a.h", .ofText "/old/c.h"] ∧
      ∃ both, collect fs [.ofText "/a.h", .ofText "/old"] .raw ["h", "m"] = .ok both ∧
        ∀ key, key ∈ Path.keys both ↔
          key ∈ Path.keys [.ofText "/a.h", .ofText "/old/c.h"] ∨
          key ∈ Path.keys [.ofText "/old/b.m"] := by
  let lib : Node :=
    .folder [(Utf8.bytes "b.m", .file (.ok [])), (Utf8.bytes "c.h", .file (.ok []))]
  let fs : FileSystem :=
    ⟨.folder [(Utf8.bytes "a.h", .file (.ok [])), (Utf8.bytes "lib", lib),
      (Utf8.bytes "old", .link (Utf8.bytes "lib"))], [], none⟩
  have hfs : fs.WellFormed := ⟨by decide +kernel, by decide⟩
  have hfilter' : ExtensionFilter.make ["m"] = .ok ⟨[[.run, .literal '.', .literal 'm']]⟩ := by
    cbv
  have hthere : ∀ root ∈ [Path.ofText "/a.h", .ofText "/old"], fs.exists? root = true := by
    decide +kernel
  have h : collect fs [.ofText "/a.h", .ofText "/old"] .raw ["h"] =
      .ok [.ofText "/a.h", .ofText "/old/c.h"] := by
    refine collect_eq_ok_iff.mpr ⟨_, ExtensionFilter.make_h, hthere, ?_⟩
    rw [List.mergeSort_of_pairwise (by decide +kernel)]
    decide +kernel
  have h' : collect fs [.ofText "/a.h", .ofText "/old"] .raw ["m"] = .ok [.ofText "/old/b.m"] := by
    refine collect_eq_ok_iff.mpr ⟨_, hfilter', hthere, ?_⟩
    rw [List.mergeSort_of_pairwise (by decide +kernel)]
    decide +kernel
  obtain ⟨_, _, hroots, _, hextensions⟩ := collect_unites fs hfs _ _ _ _ h
  obtain ⟨paths, hpaths, _, heq⟩ :=
    hroots [.ofText "/old", .ofText "/a.h", .ofText "/old"] (by simp [or_comm])
  exact ⟨fs, hfs, h, heq (by decide +kernel) ▸ hpaths, hextensions _ _ h'⟩

/-- **Ignore files only remove.** With them and without them the same calls succeed. What is listed
with them is listed without them, in the same order; a file that is a root itself stays; and no
listed path goes down from its root through the walk's own folder, whatever the ignore
files keep. -/
theorem collect_respectIgnore (fs : FileSystem) (hfs : fs.WellFormed) (roots : List Path)
    (extensions : List String) :
    ((∃ kept, collect fs roots .respectIgnore extensions = .ok kept) ↔
      ∃ all, collect fs roots .raw extensions = .ok all) ∧
    ∀ kept all, collect fs roots .respectIgnore extensions = .ok kept →
      collect fs roots .raw extensions = .ok all →
      (Path.keys kept).Sublist (Path.keys all) ∧
      ((∀ root ∈ roots, FileSystem.startsDoubled root = false) → kept.Sublist all) ∧
      (∀ root ∈ roots, ∀ contents, fs.find root = .ok (.file contents) →
        (fs.absolute root).components ∈ Path.keys all →
          (fs.absolute root).components ∈ Path.keys kept) ∧
      ∀ p ∈ kept, ∃ root ∈ roots, ∃ names : List Name,
        p.components = (fs.absolute root).components ++ names.map .name ∧
          Utf8.bytes ".hsym" ∉ names.dropLast := by
  refine ⟨?_, fun kept all hkept hall => ?_⟩
  · constructor <;> rintro ⟨_, h⟩ <;> obtain ⟨filter, hfilter, hthere, _⟩ :=
      collect_eq_ok_iff.mp h
    · exact exists_collect .raw hfilter hthere
    · exact exists_collect .respectIgnore hfilter hthere
  obtain ⟨filter, hfilter, _⟩ := collect_eq_ok_iff.mp hkept
  have hkeys : (Path.keys kept).Sublist (Path.keys all) := by
    refine Path.keys_sublist (collect_sorted hkept) (collect_sorted hall) fun key hkey => ?_
    rw [mem_keys_collect hkept hfilter] at hkey
    rw [mem_keys_collect hall hfilter]
    obtain ⟨root, hroot, hkey⟩ := hkey
    obtain ⟨p, hp, rfl⟩ := Path.mem_keys.mp hkey
    exact ⟨root, hroot, List.mem_map_of_mem (mem_rootFiles_raw hfs hp)⟩
  refine ⟨hkeys, fun hplain => ?_, fun root hroot contents hfile hlisted => ?_, fun p hp => ?_⟩
  · exact Path.sublist_of_keys_sublist (isPlain_of_mem_collect hfs hkept hplain)
      (isPlain_of_mem_collect hfs hall hplain)
      hkeys
  · obtain ⟨p, hp, hsame⟩ := Path.mem_keys.mp hlisted
    have hadmits := (exists_finds_of_mem_collect hfs hall hfilter hp).1
    rw [ExtensionFilter.admits_congr hsame] at hadmits
    exact mem_keys_collect_of_file hfs hkept hfilter hroot hfile hadmits
  · obtain ⟨_, root, hroot, place, names, hfinds, rfl⟩ :=
      exists_finds_of_mem_collect hfs hkept hfilter hp
    exact ⟨root, hroot, names, Path.components_foldl_below _ (hfinds.isEntryName hfs),
      ownFolder_not_mem hfinds.kept⟩

/-- An ignore file keeps the walk's own folder and ignores a file that is a root; the user's own
ignore file takes another one away. -/
theorem collect_respectIgnore_whitelisted :
    ∃ (fs : FileSystem) (roots kept all : List Path), fs.WellFormed ∧
      roots = [.ofText "/", .ofText "/b.h"] ∧ kept = [.ofText "/a.h", .ofText "/b.h"] ∧
      all = [.ofText "/.hsym/c.h", .ofText "/a.h", .ofText "/aa.h", .ofText "/b.h"] ∧
      collect fs roots .respectIgnore ["h"] = .ok kept ∧
      collect fs roots .raw ["h"] = .ok all ∧ kept.Sublist all ∧
      Path.components (.ofText "/b.h") ∈ Path.keys kept := by
  let own : Node := .folder [(Utf8.bytes "c.h", .file (.ok []))]
  let root : Node := .folder
    [(Utf8.bytes ".gitignore", .file (.ok (Utf8.bytes "!.hsym\nb.h\n"))), (Utf8.bytes ".hsym", own),
      (Utf8.bytes ".user", .file (.ok (Utf8.bytes "/aa.h"))), (Utf8.bytes "a.h", .file (.ok [])),
      (Utf8.bytes "aa.h", .file (.ok [])), (Utf8.bytes "b.h", .file (.ok []))]
  let fs : FileSystem := ⟨root, [], some (.ofText "/.user")⟩
  have hfs : fs.WellFormed := ⟨by decide +kernel, by decide⟩
  have hthere : ∀ root ∈ [Path.ofText "/", .ofText "/b.h"], fs.exists? root = true := by
    decide +kernel
  have hkept : collect fs [.ofText "/", .ofText "/b.h"] .respectIgnore ["h"] =
      .ok [.ofText "/a.h", .ofText "/b.h"] := by
    refine collect_eq_ok_iff.mpr ⟨_, ExtensionFilter.make_h, hthere, ?_⟩
    rw [List.mergeSort_of_pairwise (by decide +kernel)]
    decide +kernel
  have hall : collect fs [.ofText "/", .ofText "/b.h"] .raw ["h"] =
      .ok [.ofText "/.hsym/c.h", .ofText "/a.h", .ofText "/aa.h", .ofText "/b.h"] := by
    refine collect_eq_ok_iff.mpr ⟨_, ExtensionFilter.make_h, hthere, ?_⟩
    rw [List.mergeSort_of_pairwise (by decide +kernel)]
    decide +kernel
  obtain ⟨_, hmodes⟩ := collect_respectIgnore fs hfs _ ["h"]
  obtain ⟨_, hsublist, hroots, _⟩ := hmodes _ _ hkept hall
  have hfile : fs.find (.ofText "/b.h") = .ok (.file (.ok [])) := rfl
  have hroot : fs.absolute (.ofText "/b.h") = .ofText "/b.h" := by decide +kernel
  have hlisted := hroots (.ofText "/b.h") (by simp) _ hfile
  rw [hroot] at hlisted
  exact ⟨fs, _, _, _, hfs, rfl, rfl, rfl, hkept, hall, hsublist (by decide +kernel),
    hlisted (List.mem_map_of_mem (by simp))⟩

end Walk

end HeaderIndex
