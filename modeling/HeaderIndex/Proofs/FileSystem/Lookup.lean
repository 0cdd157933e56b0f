import HeaderIndex.FileSystem.Make

/-! Looking up paths in a file system that changes. A look-up sees of each place only what
kind of node stands there (`Node.faceAt`), so it does not notice what the bytes of a file
are, and it notices that a file is gone only if it comes upon that file. Hence reading a
path gives the same as before unless it leads to the file that changed (`read_put`), or
comes upon the file that is gone (`read_remove`). -/

namespace HeaderIndex

/-- What a node is, apart from the entries of a folder. -/
inductive Face where
  | file (contents : Except FileError (List UInt8))
  | link (target : Name)
  | folder

namespace Node

def face : Node → Face
  | file contents => .file contents
  | link target => .link target
  | folder _ => .folder

/-- What stands at the end of some names. -/
def faceAt (root : Node) (place : List Name) : Option Face := (root.at? place).map face

def remove (node : Node) : List Name → Node
  | [] => node
  | name :: rest =>
    match node.child? name with
    | none => node
    | some below =>
      if rest.isEmpty then folder (node.entries.filter (·.1 != name))
      else folder (setEntry name (below.remove rest) node.entries)

/-! ## Entries -/

theorem entryNamed_setEntry (name other : Name) (node : Node) (entries : List (Name × Node)) :
    entryNamed other (setEntry name node entries) =
      if name == other then some node else entryNamed other entries := by
  induction entries with
  | nil => rfl
  | cons entry entries ih =>
    obtain ⟨n, old⟩ := entry
    rw [setEntry]
    by_cases hn : n = name
    · subst hn
      by_cases hother : n = other <;> simp [entryNamed, hother]
    · by_cases hother : name = other
      · subst hother
        simp [hn, entryNamed, ih]
      · simp [hn, entryNamed, ih, hother]

theorem entryNamed_filter (name other : Name) (entries : List (Name × Node)) :
    entryNamed other (entries.filter (·.1 != name)) =
      if name == other then none else entryNamed other entries := by
  induction entries with
  | nil => simp [entryNamed]
  | cons entry entries ih =>
    obtain ⟨n, node⟩ := entry
    by_cases hn : n = name
    · subst hn
      rw [List.filter_cons_of_neg (by simp), ih, entryNamed]
      cases n == other <;> rfl
    · rw [List.filter_cons_of_pos (by simpa using hn), entryNamed, entryNamed, ih]
      by_cases hother : name = other
      · subst hother
        simp [hn]
      · simp [hother]

theorem at?_cons (node : Node) (name : Name) (rest : List Name) :
    node.at? (name :: rest) = (node.child? name).bind (·.at? rest) := rfl

theorem at?_append (node : Node) (place more : List Name) :
    node.at? (place ++ more) = (node.at? place).bind (·.at? more) := by
  induction place generalizing node with
  | nil => rfl
  | cons name place ih =>
    rw [List.cons_append, at?_cons, at?_cons]
    cases node.child? name with
    | none => rfl
    | some below => exact ih below

/-- What has an entry is a folder. -/
theorem face_of_child? {node below : Node} {name : Name} (h : node.child? name = some below) :
    node.face = .folder := by
  cases node with
  | folder entries => rfl
  | file contents => cases h
  | link target => cases h

/-! ## Changes -/

/-- Two trees that differ at most at one place. -/
def AgreeOff (place : List Name) (root root' : Node) : Prop :=
  ∀ other, other ≠ place → root'.faceAt other = root.faceAt other

theorem child?_setEntry (node below : Node) (name other : Name) :
    (folder (setEntry name below node.entries)).child? other =
      if name == other then some below else node.child? other :=
  entryNamed_setEntry name other below node.entries

theorem at?_setEntry (node below : Node) (name : Name) (rest : List Name) :
    (folder (setEntry name below node.entries)).at? (name :: rest) = below.at? rest := by
  rw [at?_cons, child?_setEntry, if_pos (beq_self_eq_true name)]
  rfl

/-- A tree changes at one place if one of its entries does. -/
theorem agreeOff_setEntry {node below below' : Node} {name : Name} {rest : List Name}
    (hbelow : node.child? name = some below) (h : AgreeOff rest below below') :
    AgreeOff (name :: rest) node (folder (setEntry name below' node.entries)) := by
  intro other hne
  cases other with
  | nil => exact congrArg some (face_of_child? hbelow).symm
  | cons n other =>
    by_cases hn : n = name
    · subst hn
      rw [faceAt, faceAt, at?_setEntry, at?_cons, hbelow]
      exact h other (by simpa using hne)
    · rw [faceAt, faceAt, at?_cons, at?_cons, child?_setEntry, if_neg (by simpa using Ne.symm hn)]

theorem child?_filter (node : Node) (name other : Name) :
    (folder (node.entries.filter (·.1 != name))).child? other =
      if name == other then none else node.child? other :=
  entryNamed_filter name other node.entries

theorem agreeOff_filter {node : Node} {name : Name} {contents : Except FileError (List UInt8)}
    (h : node.child? name = some (file contents)) :
    AgreeOff [name] node (folder (node.entries.filter (·.1 != name))) := by
  intro other hne
  cases other with
  | nil => exact congrArg some (face_of_child? h).symm
  | cons n other =>
    rw [faceAt, faceAt, at?_cons, at?_cons, child?_filter]
    by_cases hn : n = name
    · subst hn
      -- a file has nothing below it
      obtain ⟨m, other, rfl⟩ := List.exists_cons_of_ne_nil (l := other) (by simpa using hne)
      rw [if_pos (beq_self_eq_true n), h]
      rfl
    · rw [if_neg (by simpa using Ne.symm hn)]

theorem put_file {root : Node} {place : List Name} {contents : Except FileError (List UInt8)}
    (h : root.at? place = some (file contents)) (contents' : Except FileError (List UInt8)) :
    (root.put (file contents') place).at? place = some (file contents') ∧
      AgreeOff place root (root.put (file contents') place) := by
  induction place generalizing root with
  | nil =>
    obtain rfl : root = file contents := Option.some.inj h
    refine ⟨rfl, fun other hne => ?_⟩
    obtain ⟨name, other, rfl⟩ := List.exists_cons_of_ne_nil hne
    rfl
  | cons name rest ih =>
    rw [at?_cons] at h
    obtain ⟨below, hbelow, hrest⟩ := Option.bind_eq_some_iff.mp h
    obtain ⟨hat, hagree⟩ := ih hrest
    have hentry : entryNamed name root.entries = some below := hbelow
    have hput : root.put (file contents') (name :: rest) =
        folder (setEntry name (below.put (file contents') rest) root.entries) := by
      rw [put, hentry]
      rfl
    rw [hput, at?_setEntry]
    exact ⟨hat, agreeOff_setEntry hbelow hagree⟩

theorem remove_file {root : Node} {place : List Name} {contents : Except FileError (List UInt8)}
    (hne : place ≠ []) (h : root.at? place = some (file contents)) :
    (root.remove place).at? place = none ∧ AgreeOff place root (root.remove place) := by
  induction place generalizing root with
  | nil => exact absurd rfl hne
  | cons name rest ih =>
    rw [at?_cons] at h
    obtain ⟨below, hbelow, hrest⟩ := Option.bind_eq_some_iff.mp h
    by_cases hlast : rest = []
    · subst hlast
      obtain rfl : below = file contents := Option.some.inj hrest
      have hremove : root.remove [name] = folder (root.entries.filter (·.1 != name)) := by
        rw [remove, hbelow]
        rfl
      rw [hremove, at?_cons, child?_filter, if_pos (beq_self_eq_true name)]
      exact ⟨rfl, agreeOff_filter hbelow⟩
    · obtain ⟨hat, hagree⟩ := ih hlast hrest
      have hremove :
          root.remove (name :: rest) = folder (setEntry name (below.remove rest) root.entries) := by
        rw [remove, hbelow]
        simp [hlast]
      rw [hremove, at?_setEntry]
      exact ⟨hat, agreeOff_setEntry hbelow hagree⟩

end Node

namespace FileSystem

def remove (fs : FileSystem) (place : List Name) : FileSystem :=
  { fs with root := fs.root.remove place }

/-! ## The trail of a look-up -/

/-- Where one part of a path leads, by what stands there: on to a place, or to a stop. -/
def move (root : Node) (place : List Name) (part : Name) (rest : List Name) : Stop ⊕ List Name :=
  match root.faceAt place with
  | some .folder =>
    if part == [dot] then .inr place
    else if part == [dot, dot] then .inr place.dropLast
    else
      match root.faceAt (place ++ [part]) with
      | none => .inl (.missing place part rest)
      | some (.link target) => .inl (.atLink target place rest)
      | some _ => .inr (place ++ [part])
  | _ => .inl (.failed .notFolder)

theorem stride_cons (root : Node) (place : List Name) (part : Name) (rest : List Name) :
    stride root place (part :: rest) =
      match move root place part rest with
      | .inl stop => stop
      | .inr next => stride root next rest := by
  rw [stride, move, Node.faceAt, Node.faceAt, Node.at?_append]
  cases root.at? place with
  | none => rfl
  | some node =>
    cases node with
    | file contents => rfl
    | link target => rfl
    | folder entries =>
      have hchild : (Node.folder entries).at? [part] = Node.entryNamed part entries := by
        rw [Node.at?_cons]
        exact Option.bind_fun_some _
      simp only [Option.map_some, Node.face, Option.bind_some, hchild]
      by_cases hhere : part == [dot]
      · simp only [hhere, if_true]
      by_cases hparent : part == [dot, dot]
      · simp only [hhere, hparent, if_true, if_false, Bool.false_eq_true]
      simp only [hhere, hparent, if_false, Bool.false_eq_true]
      cases Node.entryNamed part entries with
      | none => rfl
      | some below => cases below <;> rfl

/-- The places that following parts up to the first link comes upon. -/
def strideTrail (root : Node) (place : List Name) : List Name → List (List Name)
  | [] => [place]
  | part :: rest =>
    place ::
      match move root place part rest with
      | .inl _ => []
      | .inr next => strideTrail root next rest

/-- The places that following parts through at most `links` links comes upon. -/
def reachTrail (root : Node) : Nat → List Name → List Name → List (List Name)
  | 0, place, rest => strideTrail root place rest
  | left + 1, place, rest =>
    strideTrail root place rest ++
      match stride root place rest with
      | .atLink target folder more =>
        reachTrail root left (origin target folder) (parts target ++ more)
      | _ => []

/-- The places that looking a path up comes upon. -/
def trail (fs : FileSystem) (path : Path) : List (List Name) :=
  reachTrail fs.root maxLinks (origin path.bytes fs.here) (parts path.bytes)

theorem mem_strideTrail_self (root : Node) (place rest : List Name) :
    place ∈ strideTrail root place rest := by
  cases rest with
  | nil => exact List.mem_singleton_self place
  | cons part rest => exact List.mem_cons_self

/-- A look-up that arrives has come upon the place where it does. -/
theorem arrived_mem_strideTrail {root : Node} {place rest found : List Name}
    (h : stride root place rest = .arrived found) : found ∈ strideTrail root place rest := by
  induction rest generalizing place with
  | nil =>
    obtain rfl : place = found := by simpa [stride] using h
    exact List.mem_singleton_self place
  | cons part rest ih =>
    rw [stride_cons] at h
    rw [strideTrail]
    refine List.mem_cons_of_mem _ ?_
    split at h
    · rename_i stop hmove
      subst h
      -- no single part ends a path
      unfold move at hmove
      split at hmove
      · split at hmove
        · cases hmove
        · split at hmove
          · cases hmove
          · split at hmove <;> cases hmove
      · cases hmove
    · exact ih h

theorem strideTrail_subset (root : Node) (links : Nat) (place rest : List Name) :
    strideTrail root place rest ⊆ reachTrail root links place rest := by
  cases links with
  | zero => exact List.Subset.refl _
  | succ left => exact List.subset_append_left _ _

theorem reachTrail_subset {root : Node} {left : Nat} {place rest folder more : List Name}
    {target : Name} (h : stride root place rest = .atLink target folder more) :
    reachTrail root left (origin target folder) (parts target ++ more) ⊆ reachTrail root
      (left + 1) place rest := by
  rw [reachTrail, h]
  exact List.subset_append_right _ _

theorem taken_mem_reachTrail {root : Node} {links : Nat} {place rest found : List Name}
    (h : reach root links place rest = .ok (.taken found)) :
    found ∈ reachTrail root links place rest := by
  induction links generalizing place rest with
  | zero =>
    rw [reach] at h
    split at h
    · rename_i hstride
      cases h
      exact arrived_mem_strideTrail hstride
    · cases h
    · cases h
    · cases h
  | succ left ih =>
    rw [reach] at h
    split at h
    · rename_i hstride
      cases h
      exact strideTrail_subset root _ place rest (arrived_mem_strideTrail hstride)
    · cases h
    · cases h
    · rename_i target folder more hstride
      dsimp only at h
      split at h
      · cases h
      · exact reachTrail_subset hstride (ih h)

theorem resolve_mem_trail {fs : FileSystem} {path : Path} {place : List Name}
    (h : fs.resolve path = .ok place) : place ∈ fs.trail path := by
  unfold resolve at h
  split at h
  · cases h
  · split at h
    · cases h
    · unfold follow at h
      cases hreach : reach fs.root maxLinks (origin path.bytes fs.here) (parts path.bytes) with
      | error e =>
        rw [hreach] at h
        cases h
      | ok spot =>
        rw [hreach] at h
        cases spot with
        | taken found =>
          cases h
          exact taken_mem_reachTrail hreach
        | free folder name rest => cases h

/-! ## Look-ups in a tree that changed -/

section Changed

variable {root root' : Node} {changed : List Name} {contents : Except FileError (List UInt8)}

theorem move_congr (hagree : Node.AgreeOff changed root root')
    (hfile : root.faceAt changed = some (.file contents))
    {place rest : List Name} {part : Name}
    (hkept : (∃ contents', root'.faceAt changed = some (.file contents')) ∨
      root'.faceAt changed = none ∧ move root place part rest ≠ .inr changed) :
    move root' place part rest = move root place part rest := by
  by_cases hplace : place = changed
  · subst hplace
    unfold move
    rw [hfile]
    rcases hkept with ⟨contents', hkept⟩ | ⟨hgone, _⟩
    · rw [hkept]
    · rw [hgone]
  · by_cases hnext : place ++ [part] = changed
    · rcases hkept with ⟨contents', hkept⟩ | ⟨_, hpassed⟩
      · unfold move
        rw [hagree place hplace, hnext, hfile, hkept]
      · unfold move at hpassed ⊢
        rw [hnext, hfile] at hpassed
        rw [hagree place hplace]
        split
        · split
          · rfl
          · split
            · rfl
            · simp_all
        · rfl
    · unfold move
      rw [hagree place hplace, hagree _ hnext]

theorem stride_congr (hagree : Node.AgreeOff changed root root')
    (hfile : root.faceAt changed = some (.file contents)) {place rest : List Name}
    (hkept : (∃ contents', root'.faceAt changed = some (.file contents')) ∨
      root'.faceAt changed = none ∧ changed ∉ strideTrail root place rest) :
    stride root' place rest = stride root place rest := by
  induction rest generalizing place with
  | nil => rfl
  | cons part rest ih =>
    have hmove : move root' place part rest = move root place part rest := by
      refine move_congr hagree hfile (hkept.imp_right fun hgone => ⟨hgone.1,
        fun hnext => hgone.2 ?_⟩)
      rw [strideTrail, hnext]
      exact List.mem_cons_of_mem _ (mem_strideTrail_self root changed rest)
    rw [stride_cons, stride_cons, hmove]
    cases hnext : move root place part rest with
    | inl stop => rfl
    | inr next =>
      refine ih (hkept.imp_right fun hgone => ⟨hgone.1, fun hmem => hgone.2 ?_⟩)
      rw [strideTrail, hnext]
      exact List.mem_cons_of_mem _ hmem

theorem reach_congr (hagree : Node.AgreeOff changed root root')
    (hfile : root.faceAt changed = some (.file contents)) {links : Nat} {place rest : List Name}
    (hkept : (∃ contents', root'.faceAt changed = some (.file contents')) ∨
      root'.faceAt changed = none ∧ changed ∉ reachTrail root links place rest) :
    reach root' links place rest = reach root links place rest := by
  have hstride : stride root' place rest = stride root place rest :=
    stride_congr hagree hfile (hkept.imp_right fun hgone =>
      ⟨hgone.1, fun hmem => hgone.2 (strideTrail_subset root links place rest hmem)⟩)
  induction links generalizing place rest with
  | zero => rw [reach, reach, hstride]
  | succ left ih =>
    rw [reach, reach, hstride]
    cases hstop : stride root place rest with
    | arrived found => rfl
    | missing folder name more => rfl
    | failed e => rfl
    | atLink target folder more =>
      have hkept' := hkept.imp_right fun hgone =>
        And.intro hgone.1 fun hmem => hgone.2 (reachTrail_subset hstop hmem)
      have hnext := ih hkept' (stride_congr hagree hfile (hkept'.imp_right fun hgone =>
        ⟨hgone.1, fun hmem => hgone.2 (strideTrail_subset root left _ _ hmem)⟩))
      simp only [hnext]

end Changed

/-- What reading gives, by what stands where a path leads. -/
theorem read_eq (fs : FileSystem) (path : Path) :
    fs.read path = (fs.resolve path).bind fun place =>
      match fs.root.faceAt place with
      | some (.file contents) => contents
      | some .folder => .error .isFolder
      | _ => .error .notFound := by
  rw [read, find]
  cases fs.resolve path with
  | error e => rfl
  | ok place =>
    simp only [Except.bind, bind, Node.faceAt]
    cases fs.root.at? place with
    | none => rfl
    | some node => cases node <;> rfl

/-- A path reads as before unless it leads to the place that changed, or comes upon it and
nothing is there any more. -/
theorem read_congr {fs fs' : FileSystem} {changed : List Name}
    {contents : Except FileError (List UInt8)} {path : Path}
    (hhere : fs'.here = fs.here) (hagree : Node.AgreeOff changed fs.root fs'.root)
    (hfile : fs.root.faceAt changed = some (.file contents))
    (hkept : (∃ contents', fs'.root.faceAt changed = some (.file contents')) ∨
      fs'.root.faceAt changed = none ∧ changed ∉ fs.trail path)
    (hpath : fs.resolve path ≠ .ok changed) : fs'.read path = fs.read path := by
  have hresolve : fs'.resolve path = fs.resolve path := by
    rw [resolve, resolve, follow, follow, hhere, reach_congr hagree hfile hkept]
  rw [read_eq, read_eq, hresolve]
  cases hfound : fs.resolve path with
  | error e => rfl
  | ok found =>
    have hne : found ≠ changed := by
      intro he
      exact hpath (he ▸ hfound)
    show (match fs'.root.faceAt found with | some (.file _) => _ | some .folder => _ | _ => _) = _
    rw [hagree found hne]
    rfl

/-- **Only what leads to a file sees its bytes.** -/
theorem read_put {fs : FileSystem} {place : List Name} {contents : Except FileError (List UInt8)}
    (h : fs.root.at? place = some (.file contents)) (contents' : Except FileError (List UInt8))
    {path : Path} (hpath : fs.resolve path ≠ .ok place) :
    (fs.put place (.file contents')).read path = fs.read path := by
  obtain ⟨hat, hagree⟩ := Node.put_file h contents'
  refine read_congr rfl hagree (congrArg (Option.map Node.face) h) (.inl ⟨contents', ?_⟩) hpath
  exact congrArg (Option.map Node.face) hat

/-- **Only what comes upon a file sees that it is gone.** -/
theorem read_remove {fs : FileSystem} {place : List Name} {contents : Except FileError (List UInt8)}
    (h : fs.root.at? place = some (.file contents)) (hplace : place ≠ []) {path : Path}
    (hpath : place ∉ fs.trail path) : (fs.remove place).read path = fs.read path := by
  obtain ⟨hat, hagree⟩ := Node.remove_file hplace h
  refine read_congr rfl hagree (congrArg (Option.map Node.face) h)
    (.inr ⟨?_, hpath⟩) fun hfound =>
    hpath (resolve_mem_trail hfound)
  exact congrArg (Option.map Node.face) hat

end FileSystem

end HeaderIndex
