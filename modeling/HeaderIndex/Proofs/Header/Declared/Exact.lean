import HeaderIndex.Proofs.Header.Declared.Braced
import HeaderIndex.Proofs.Header.Declared.Constant
import HeaderIndex.Proofs.Header.Declared.Function
import HeaderIndex.Proofs.Header.Declared.Typedef
import HeaderIndex.Proofs.Text.Lines

/-! The searches are exact on well-formed headers: each finds the names of its kind, all
of them and in their order, and none sees a declaration of another kind. -/

namespace HeaderIndex.Header

open HeaderIndex.Text

/-! ## The text of a header -/

/-- Whether a token writes neither the end of a line nor a slash. -/
def Token.isPlain : Token → Bool
  | literal s => s.toList.all fun c => c != '\n' && c != '\r' && c != '/'
  | _ => true

theorem Token.avoids_of_isPlain {c : Char} (hc : c = '\n' ∨ c = '\r' ∨ c = '/') {t : Token}
    (h : t.isPlain = true) : t.avoids c = true := by
  cases t with
  | literal s =>
    have hmem : c ∉ s.toList := by
      intro hm
      have hplain := List.all_eq_true.mp h c hm
      rcases hc with rfl | rfl | rfl <;> exact absurd hplain (by decide)
    simp [Token.avoids, hmem]
  | name i => rfl
  | number n => rfl

theorem Decl.isPlain (d : Decl) : ∀ line ∈ d.lines, line.all Token.isPlain = true := by
  have henumerator : ∀ e : Enumerator, e.line.all Token.isPlain = true := by
    intro e
    obtain ⟨name, value⟩ := e
    cases value <;> rfl
  have hended : ∀ methods, ∀ line ∈ ended methods, line.all Token.isPlain = true :=
    fun methods => forall_mem_closed (fun _ => rfl) rfl
  cases d with
  | staticConstant type name value fraction =>
    cases fraction <;> exact List.forall_mem_singleton.mpr rfl
  | macroEnum call type name body =>
    exact List.forall_mem_cons.mpr ⟨by cases call <;> rfl, forall_mem_closed henumerator rfl⟩
  | plainEnum body => exact List.forall_mem_cons.mpr ⟨rfl, forall_mem_closed henumerator rfl⟩
  | typedefEnum body name =>
    exact List.forall_mem_cons.mpr ⟨rfl, forall_mem_closed henumerator rfl⟩
  | struct body name =>
    exact List.forall_mem_cons.mpr ⟨rfl, forall_mem_closed (fun _ => rfl) rfl⟩
  | callable form result name parameter =>
    exact List.forall_mem_singleton.mpr (by cases form <;> rfl)
  | interface name super methods => exact List.forall_mem_cons.mpr ⟨rfl, hended methods⟩
  | category name extension methods => exact List.forall_mem_cons.mpr ⟨rfl, hended methods⟩
  | protocol name parent methods => exact List.forall_mem_cons.mpr ⟨rfl, hended methods⟩
  | forwardProtocols name more =>
    exact List.forall_mem_singleton.mpr (listed_all (fun _ => rfl) rfl rfl name more)
  | _ => exact List.forall_mem_singleton.mpr rfl

def linesOf (decls : List Decl) : List Line := decls.flatMap Decl.lines

theorem linesOf_avoid {c : Char} (hc : c = '\n' ∨ c = '\r' ∨ c = '/') (decls : List Decl) :
    ∀ line ∈ linesOf decls, line.all (Token.avoids c) = true := by
  intro line hline
  obtain ⟨d, _, hd⟩ := List.mem_flatMap.mp hline
  refine List.all_eq_true.mpr fun t ht => Token.avoids_of_isPlain hc ?_
  exact List.all_eq_true.mp (d.isPlain line hd) t ht

theorem kept_written {ls : List Line} (h : ∀ line ∈ ls, line.all (Token.avoids '\n') = true) :
    Lines.kept (written ls) = ls.map (·.text ++ ['\n']) := by
  have hfeed : ∀ text ∈ ls.map Line.text, '\n' ∉ text := by
    intro text htext
    obtain ⟨line, hline, rfl⟩ := List.mem_map.mp htext
    exact Line.not_mem_text (by decide) (h line hline)
  have hjoined : written ls = Lines.joined (ls.map Line.text) := by
    rw [written, Lines.joined, List.flatMap_map]
  rw [hjoined, Lines.kept_joined hfeed, List.map_map]
  rfl

theorem bare_written {ls : List Line} (h : ∀ line ∈ ls, line.all (Token.avoids '\n') = true)
    (hr : ∀ line ∈ ls, line.all (Token.avoids '\r') = true) :
    Lines.bare (written ls) = ls.map (·.text ++ []) := by
  rw [Lines.bare, kept_written h, List.map_map]
  refine List.map_congr_left fun line hline => ?_
  have hlast : line.text.getLast? ≠ some '\r' := fun he =>
    Line.not_mem_text (by decide) (hr line hline) (List.mem_of_getLast? he)
  rw [List.append_nil]
  exact Lines.dropEnd_line hlast

/-- A header without a slash has no comments. -/
theorem dropComments_render (decls : List Decl) :
    dropComments (render decls).toList = written (linesOf decls) := by
  have hslash : '/' ∉ written (linesOf decls) :=
    not_mem_written (by decide) (by decide) (linesOf_avoid (.inr (.inr rfl)) decls)
  have hfree : Comment.CommentFree (written (linesOf decls)) := by
    refine Comment.commentFree_iff.mpr ⟨fun hwithin => ?_, fun body hwithin => ?_⟩
    · exact hslash (List.IsInfix.subset hwithin (by simp))
    · exact hslash (List.IsInfix.subset hwithin (by simp))
  rw [render, String.toList_ofList]
  exact hfree.dropComments_eq

/-! ## Every kind -/

theorem flatMap_filter {β γ : Type} (p : β → Bool) (f : β → List γ) (l : List β) :
    (l.filter p).flatMap f = l.flatMap fun b => if p b then f b else [] := by
  induction l with
  | nil => rfl
  | cons b l ih =>
    rw [List.filter_cons, List.flatMap_cons, ← ih]
    split <;> rfl

theorem occurrences_map {s : Shape (List Char)} {f : Decl → List String}
    (h : ∀ d : Decl, Yields s (fun w => [String.ofList w]) (written d.lines) (f d))
    (decls : List Decl) :
    (s.occurrences (written (linesOf decls))).map String.ofList = decls.flatMap f := by
  rw [List.map_eq_flatMap]
  exact Yields.occurrences h decls

theorem Typedef.find_written (decls : List Decl) :
    Typedef.find (written (linesOf decls)) = decls.flatMap (Decl.names .typedef) := by
  rw [Typedef.find, List.map_eq_flatMap, flatMap_filter,
    ← Yields.occurrences Typedef.yields decls]
  simp only [decide_eq_true_eq]
  rfl

theorem Protocol.find_written (decls : List Decl) :
    Protocol.find (written (linesOf decls)) = (decls.flatMap (Decl.names .protocol)).eraseDups := by
  rw [Protocol.find, List.map_eq_flatMap, flatMap_filter,
    ← Yields.occurrences Protocol.yields decls]
  rfl

theorem Enumeration.ofForm_written (form : Enumeration.Form) (decls : List Decl) :
    Enumeration.ofForm form (written (linesOf decls)) =
      (decls.filter (·.form? == some form)).flatMap (Decl.names .enum) := by
  rw [flatMap_filter]
  simp only [beq_iff_eq]
  exact Yields.occurrences (Enumeration.yields form) decls

theorem find_written (kind : Kind) (decls : List Decl) :
    find kind (written (linesOf decls)) = declared kind decls := by
  cases kind with
  | constant =>
    show Constant.onLines .outside (Lines.bare (written (linesOf decls))) = declared .constant decls
    rw [bare_written (linesOf_avoid (.inl rfl) decls) (linesOf_avoid (.inr (.inl rfl)) decls)]
    exact GoesByLine.decls Constant.onLines_decl rfl decls
  | define => exact congrArg List.eraseDups (occurrences_map Define.yields decls)
  | enum =>
    exact congrArg Enumeration.Form.all.flatMap (funext fun form =>
      Enumeration.ofForm_written form decls)
  | struct => exact Yields.occurrences Struct.yields decls
  | typedef => exact Typedef.find_written decls
  | function =>
    show Function.onLines .outside (Lines.kept (written (linesOf decls))) = declared .function decls
    rw [kept_written (linesOf_avoid (.inl rfl) decls)]
    exact GoesByLine.decls Function.onLines_decl rfl decls
  | interface => exact congrArg List.eraseDups (occurrences_map Interface.yields decls)
  | protocol => exact Protocol.find_written decls

/-- **Extraction is exact on well-formed headers.** Of every list of declarations, written one
below the other, each kind's search gives the names declared of that kind; together they
give the symbols of the header, kind by kind in report order. -/
theorem extract_render (decls : List Decl) :
    (∀ kind, extract kind (render decls) = declared kind decls) ∧
      extractAll (render decls) = Kind.all.flatMap (declared · decls) ∧
      symbols (render decls) =
        Kind.all.flatMap fun kind => (declared kind decls).map (⟨·, kind⟩) := by
  have hkind : ∀ kind, extract kind (render decls) = declared kind decls := by
    intro kind
    rw [extract_eq, dropComments_render, find_written]
  exact ⟨hkind, by simp only [extractAll, hkind], by simp only [symbols, hkind]⟩

example : symbols (render [
    .typedefEnum ⟨[⟨{ text := "kOff" }, none⟩, ⟨{ text := "kOn" }, some { text := "1" }⟩],
      by simp⟩ { text := "Power" },
    .forwardClass { text := "Lamp" },
    .pointerFunction { text := "Lamp" } { text := "lampNew" }]) =
    [⟨"Power", .enum⟩, ⟨"kOff", .enum⟩, ⟨"kOn", .enum⟩,
      ⟨"lampNew", .function⟩] := by decide +kernel

end HeaderIndex.Header
