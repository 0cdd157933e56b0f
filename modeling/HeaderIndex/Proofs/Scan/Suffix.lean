import HeaderIndex.Proofs.Glob.Literal
import HeaderIndex.Proofs.Scan.Collection
import HeaderIndex.Proofs.Scan.Usable

/-! Plain extensions. Where no extension has a metacharacter the filter tests how names end, and
that is all it does (`suffix_test`). -/

namespace HeaderIndex.ExtensionFilter

open HeaderIndex.Text

/-- The pattern of a plain extension: a star, a dot and the extension. -/
def plainPattern (extension : String) : List Glob.Token :=
  .run :: ('.' :: extension.toList).map .literal

/-- The end of the names that a plain extension admits. -/
def ending (extension : String) : Name := dot :: Utf8.bytes (stripDots extension)

theorem ending_eq (extension : String) :
    ending extension = Utf8.encode ('.' :: (stripDots extension).toList) := by
  rw [ending, Utf8.encode_cons]
  rfl

theorem patternOf_plain {extension : String} (h : Glob.IsPlain extension.toList) :
    patternOf extension = .ok (plainPattern extension) := by
  have hchars : ("." ++ extension).toList = '.' :: extension.toList := String.toList_append
  have hplain : Glob.IsPlain ("." ++ extension).toList := by
    rw [hchars]
    exact List.forall_mem_cons.mpr ⟨by decide, h⟩
  have hpattern : ScanError.pattern extension = "*" ++ ("." ++ extension) := by
    rw [ScanError.pattern, ← String.append_assoc]
    rfl
  rw [patternOf, hpattern, Glob.parse_run_plain hplain, hchars]
  rfl

theorem isPlain_stripDots {extension : String} (h : Glob.IsPlain extension.toList) :
    Glob.IsPlain (stripDots extension).toList := by
  rw [stripDots, String.toList_ofList]
  exact fun c hc => h c ((List.dropWhile_sublist _).subset hc)

section Plain

variable {extensions : List String}
  (h : ∀ extension ∈ extensions, Glob.IsPlain extension.toList)

include h

/-- Plain extensions all are patterns. -/
theorem patterns_of_plain : ((extensions.map stripDots).filter (!·.isEmpty)).mapM patternOf =
    .ok (((extensions.map stripDots).filter (!·.isEmpty)).map plainPattern) := by
  refine mapM_of_forall_ok fun stripped hmem => patternOf_plain ?_
  obtain ⟨extension, hextension, rfl⟩ := List.mem_map.mp (List.mem_filter.mp hmem).1
  exact isPlain_stripDots (h extension hextension)

theorem make_plain_eq_error_iff {e : ScanError} :
    make extensions = .error e ↔
      e = .noExtensions ∧ ∀ extension ∈ extensions, stripDots extension = "" := by
  simp only [make_eq_error_iff, patterns_of_plain h, reduceCtorEq, false_or,
    ← stripDots_isEmpty_iff, String.isEmpty_iff]

theorem patterns_of_make {filter : ExtensionFilter} (hmake : make extensions = .ok filter) :
    filter.patterns = ((extensions.map stripDots).filter (!·.isEmpty)).map plainPattern :=
  Except.ok.inj ((make_eq_ok_iff.mp hmake).1.symm.trans (patterns_of_plain h))

/-- A name is admitted if it ends in a dot and one of the extensions. -/
theorem admitsName_iff {filter : ExtensionFilter} (hmake : make extensions = .ok filter)
    {name : Name} : filter.admitsName name = true ↔
      ∃ extension ∈ extensions, stripDots extension ≠ "" ∧ ending extension <:+ name := by
  rw [admitsName, patterns_of_make h hmake, List.any_map, List.any_filter, List.any_map,
    List.any_eq_true]
  simp [plainPattern, ending_eq, ← Glob.matchesText_run]

/-- The end of a name that is a text is an end of that text. Matching goes by bytes, and the
star may stop at any of them, inside a character too; that it finds nothing there is owed to
the form of UTF-8. -/
theorem admitsName_bytes_iff {filter : ExtensionFilter} (hmake : make extensions = .ok filter)
    {name : String} : filter.admitsName (Utf8.bytes name) = true ↔
      ∃ extension ∈ extensions, stripDots extension ≠ "" ∧
        '.' :: (stripDots extension).toList <:+ name.toList := by
  simp only [admitsName_iff h hmake, ending_eq, Utf8.bytes, Utf8.encode_suffix_iff]

/-- Which extensions there are is all that counts. -/
theorem make_congr {filter : ExtensionFilter} (hmake : make extensions = .ok filter)
    {extensions' : List String}
    (hsame : ∀ extension, extension ∈ extensions' ↔ extension ∈ extensions) :
    ∃ filter', make extensions' = .ok filter' ∧ ∀ path,
      filter'.admits path = filter.admits path := by
  have h' : ∀ extension ∈ extensions', Glob.IsPlain extension.toList :=
    fun extension hmem => h extension ((hsame extension).mp hmem)
  cases hmake' : make extensions' with
  | error e =>
    obtain ⟨_, hnone⟩ := (make_plain_eq_error_iff h').mp hmake'
    have hfails : make extensions = .error .noExtensions :=
      (make_plain_eq_error_iff h).mpr ⟨rfl, fun extension hmem =>
        hnone extension ((hsame extension).mpr hmem)⟩
    rw [hfails] at hmake
    cases hmake
  | ok filter' =>
    have hnames : ∀ name, filter'.admitsName name = filter.admitsName name := by
      intro name
      rw [Bool.eq_iff_iff, admitsName_iff h' hmake', admitsName_iff h hmake]
      simp only [hsame]
    refine ⟨filter', rfl, fun path => ?_⟩
    rw [admits, admits, funext hnames]

end Plain

/-- **Plain extensions are a suffix test.** There is no filter just if nothing is left of any
extension without the dots it starts with. A filter admits just the paths that have a file
name, and one that ends in a dot and such a rest of an extension; where the name is a text, it
ends so as a text. The order and the repetition of the extensions make no difference, nor does
anything in a path but its last component. -/
theorem suffix_test (extensions : List String)
    (h : ∀ extension ∈ extensions, Glob.IsPlain extension.toList) :
    (∀ e, make extensions = .error e ↔
      e = .noExtensions ∧ ∀ extension ∈ extensions, stripDots extension = "") ∧
    ∀ filter, make extensions = .ok filter →
      (∀ path, filter.admits path = true ↔ ∃ name, path.fileName? = some name ∧
        ∃ extension ∈ extensions, stripDots extension ≠ "" ∧
          dot :: Utf8.bytes (stripDots extension) <:+ name) ∧
      (∀ (path : Path) (name : String), path.fileName? = some (Utf8.bytes name) →
        (filter.admits path = true ↔ ∃ extension ∈ extensions, stripDots extension ≠ "" ∧
          '.' :: (stripDots extension).toList <:+ name.toList)) ∧
      (∀ extensions', (∀ extension, extension ∈ extensions' ↔ extension ∈ extensions) →
        ∃ filter', make extensions' = .ok filter' ∧
          ∀ path, filter'.admits path = filter.admits path) ∧
      ∀ path path' : Path, path.components.getLast? = path'.components.getLast? →
        filter.admits path = filter.admits path' := by
  refine ⟨fun e => make_plain_eq_error_iff h, fun filter hmake => ⟨?_, ?_, ?_, ?_⟩⟩
  · intro path
    rw [admits, Option.any_eq_true]
    simp only [admitsName_iff h hmake, ending]
  · intro path name hname
    rw [admits, hname]
    exact admitsName_bytes_iff h hmake
  · exact fun extensions' => make_congr h hmake
  · intro path path' hlast
    rw [admits, admits, Path.fileName?, Path.fileName?, hlast]

/-- Extensions with dots before and within them, given twice and as nothing but a dot. Names may
have no stem and need not be texts, but they need the dot. -/
theorem suffix_test_dotted :
    ∃ filter, make [".tar.gz", ".", "é", ".tar.gz"] = .ok filter ∧
      filter.admits ⟨0xff :: Utf8.bytes "x.y.tar.gz"⟩ = true ∧
      filter.admits (.ofText "/d/.é") = true ∧ filter.admits (.ofText "/d.é/tar.gz") = false ∧
      ∃ filter', make ["é", ".tar.gz", "."] = .ok filter' ∧
        ∀ path, filter'.admits path = filter.admits path := by
  have hplain : ∀ extension ∈ [".tar.gz", ".", "é", ".tar.gz"],
      Glob.IsPlain extension.toList := by simp [Glob.IsPlain, Glob.metacharacters]
  obtain ⟨hfails, hworks⟩ := suffix_test _ hplain
  cases hmake : make [".tar.gz", ".", "é", ".tar.gz"] with
  | error e =>
    have hnone := ((hfails e).mp hmake).2 "é" (by simp)
    exact absurd hnone (by decide +kernel)
  | ok filter =>
    obtain ⟨hadmits, htext, hsame, _⟩ := hworks filter hmake
    have hname : Path.fileName? (.ofText "/d.é/tar.gz") = some (Utf8.bytes "tar.gz") := by
      decide +kernel
    have hends : ∀ extension ∈ [".tar.gz", ".", "é", ".tar.gz"], stripDots extension ≠ "" →
        ¬ '.' :: (stripDots extension).toList <:+ "tar.gz".toList := by decide +kernel
    refine ⟨filter, rfl, (hadmits _).mpr ?_, (htext _ ".é" (by decide +kernel)).mpr ?_, ?_,
      hsame _ (by grind)⟩
    · exact ⟨0xff :: Utf8.bytes "x.y.tar.gz", by decide +kernel, ".tar.gz", by simp,
        by decide +kernel, by decide +kernel⟩
    · exact ⟨"é", by simp, by decide +kernel, by decide +kernel⟩
    · rw [← Bool.not_eq_true, htext _ _ hname]
      rintro ⟨extension, hmem, hsome, hsuffix⟩
      exact hends extension hmem hsome hsuffix

end HeaderIndex.ExtensionFilter
