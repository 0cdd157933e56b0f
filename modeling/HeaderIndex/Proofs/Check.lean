import HeaderIndex.Check
import HeaderIndex.Proofs.Catalogue.History
import HeaderIndex.Proofs.Text.Reading
import Mathlib.Data.List.Flatten
import Mathlib.Data.List.Forall2

/-! The check, symbol by symbol. What it says about a name is one remark on its length at most, and
then one on the first listed token in it at most (`RemarksOn`). Stricter rules keep both: a name
that was too short stays so, and a longer list begins with the same first token
(`reasons_sublist`). What it says about a file is made of the symbols of that file alone
(`problemsOf_eq`). -/

namespace HeaderIndex

open HeaderIndex.Text

namespace CheckRules

/-! ## One name -/

/-- The first of some tokens that occurs in a name. -/
structure IsFirstIn (tokens : List String) (name token : String) : Prop where
  occurs : token.toList <:+: name.toList
  first : ∃ earlier later, tokens = earlier ++ token :: later ∧ ∀ other ∈ earlier,
    ¬ other.toList <:+: name.toList

inductive RemarksOnLength (rules : CheckRules) (name : String) : List Reason → Prop
  | short : name.length < rules.minLength → RemarksOnLength rules name [.tooShort]
  | fine : rules.minLength ≤ name.length → RemarksOnLength rules name []

inductive RemarksOnToken (rules : CheckRules) (name : String) : List Reason → Prop
  | found {token : String} : IsFirstIn rules.suspicious name token →
      RemarksOnToken rules name [.suspicious token]
  | fine : (∀ token ∈ rules.suspicious, ¬ token.toList <:+: name.toList) →
      RemarksOnToken rules name []

/-- The problems of a name that stands in the file of a path. -/
inductive RemarksOn (rules : CheckRules) (path : Path) (name : String) : List Problem → Prop
  | mk {length token : List Reason} : RemarksOnLength rules name length →
      RemarksOnToken rules name token →
      RemarksOn rules path name ((length ++ token).map fun reason => ⟨path, name, reason⟩)

variable {rules rules' : CheckRules}

theorem token?_eq_some_iff {name token : String} :
    rules.token? name = some token ↔ IsFirstIn rules.suspicious name token := by
  rw [token?, List.find?_eq_some_iff_append, contains_iff]
  simp only [Bool.not_eq_true', ← Bool.not_eq_true, contains_iff]
  constructor
  · intro h
    obtain ⟨hoccurs, earlier, later, hsplit, hearlier⟩ := h
    exact ⟨hoccurs, earlier, later, hsplit, hearlier⟩
  · intro h
    obtain ⟨earlier, later, hsplit, hearlier⟩ := h.first
    exact ⟨h.occurs, earlier, later, hsplit, hearlier⟩

theorem token?_eq_none_iff {name : String} :
    rules.token? name = none ↔ ∀ token ∈ rules.suspicious,
      ¬ token.toList <:+: name.toList := by
  rw [token?, List.find?_eq_none]
  simp only [contains_iff]

theorem remarksOn_reasons (rules : CheckRules) (path : Path) (name : String) :
    RemarksOn rules path name
      ((rules.reasons name).map fun reason => ⟨path, name, reason⟩) := by
  refine .mk ?_ ?_
  · by_cases h : name.length < rules.minLength
    · rw [if_pos (by simpa [isShort] using h)]
      exact .short h
    · rw [if_neg (by simpa [isShort] using h)]
      exact .fine (Nat.le_of_not_lt h)
  · cases h : rules.token? name with
    | none => exact .fine (token?_eq_none_iff.mp h)
    | some token => exact .found (token?_eq_some_iff.mp h)

/-- Rules that ask for no less: names as long at least, and the same tokens before any others. -/
structure Stricter (rules rules' : CheckRules) : Prop where
  minLength : rules.minLength ≤ rules'.minLength
  suspicious : rules.suspicious <+: rules'.suspicious

theorem reasons_sublist (h : Stricter rules rules') (name : String) :
    (rules.reasons name).Sublist (rules'.reasons name) := by
  refine List.Sublist.append ?_ ?_
  · cases hshort : rules.isShort name with
    | false => exact List.nil_sublist _
    | true =>
      have hlt : name.length < rules.minLength := of_decide_eq_true hshort
      have hshort' : rules'.isShort name = true :=
        decide_eq_true (Nat.lt_of_lt_of_le hlt h.minLength)
      rw [hshort']
  · cases htoken : rules.token? name with
    | none => exact List.nil_sublist _
    | some token =>
      -- the tokens that come later are not looked at
      obtain ⟨later, hlater⟩ := h.suspicious
      have htoken' : rules'.token? name = some token := by
        rw [token?, ← hlater, List.find?_append, ← token?, htoken]
        rfl
      rw [htoken']

end CheckRules

/-! ## One file -/

theorem Record.check_sublist {rules rules' : CheckRules} (h : rules.Stricter rules')
    (record : Record) : (record.check rules).Sublist (record.check rules') :=
  List.Sublist.flatMap_right record.symbols fun s _ => (CheckRules.reasons_sublist h s.name).map _

theorem Record.path_of_mem_check {rules : CheckRules} {record : Record} {p : Problem}
    (h : p ∈ record.check rules) : p.path = record.path := by
  obtain ⟨s, _, hp⟩ := List.mem_flatMap.mp h
  obtain ⟨reason, _, rfl⟩ := List.mem_map.mp hp
  rfl

namespace Catalogue

open CheckRules

variable {c c' : Catalogue} {rules rules' : CheckRules}

/-! ## All files -/

/-- The symbols of a catalogue, each name with the path of its file: in path order, and for each
file in the order of its symbols. -/
def entries (c : Catalogue) : List (Path × String) :=
  c.records.flatMap fun r => r.symbols.map fun s => (r.path, s.name)

/-- The problems in the file of a path, however it is spelled. -/
def problemsOf (c : Catalogue) (rules : CheckRules) (path : Path) : List Problem :=
  (c.check rules).filter fun p => p.path.same path

theorem check_eq_flatMap (c : Catalogue) (rules : CheckRules) :
    c.check rules = c.entries.flatMap fun entry => (rules.reasons entry.2).map fun reason =>
      ⟨entry.1, entry.2, reason⟩ := by
  rw [check, entries, List.flatMap_assoc]
  refine List.flatMap_congr fun r _ => ?_
  rw [List.flatMap_map]
  rfl

theorem exists_remarks (c : Catalogue) (rules : CheckRules) :
    ∃ parts, c.check rules = parts.flatten ∧
      List.Forall₂ (fun entry part => RemarksOn rules entry.1 entry.2 part) c.entries parts := by
  refine ⟨c.entries.map fun entry => (rules.reasons entry.2).map fun reason =>
    ⟨entry.1, entry.2, reason⟩, ?_, ?_⟩
  · rw [check_eq_flatMap, List.flatMap_def]
  · exact List.forall₂_map_right_iff.mpr (List.forall₂_same.mpr fun entry _ =>
      remarksOn_reasons rules entry.1 entry.2)

theorem check_sublist (h : rules.Stricter rules') (c : Catalogue) :
    (c.check rules).Sublist (c.check rules') :=
  List.Sublist.flatMap_right c.records fun r _ => r.check_sublist h

/-- A path has one record at most. -/
theorem Sorted.filter_eq {records : List Record} (h : Sorted records) (path : Path) :
    (records.filter fun r => r.path.same path) =
      (records.find? fun r => r.path.same path).toList := by
  induction records with
  | nil => rfl
  | cons r rest ih =>
    obtain ⟨hr, hrest⟩ := List.pairwise_cons.mp h
    cases hsame : r.path.same path with
    | false =>
      rw [List.filter_cons_of_neg (by simp [hsame]),
        List.find?_cons_of_neg (by simp [hsame]), ih hrest]
    | true =>
      have hnone : (rest.filter fun r => r.path.same path) = [] := by
        refine List.filter_eq_nil_iff.mpr fun x hx => ?_
        rw [Path.same_comm, ← Path.same_congr hsame, Path.lt_irrefl (hr x hx)]
        exact Bool.false_ne_true
      rw [List.filter_cons_of_pos (by simpa using hsame),
        List.find?_cons_of_pos (by simpa using hsame), hnone]
      rfl

/-- What is said about a path is said about the symbols of its record. -/
theorem problemsOf_eq (h : Sorted c.records) (rules : CheckRules) (path : Path) :
    c.problemsOf rules path =
      (c.records.find? fun r => r.path.same path).toList.flatMap (Record.check rules) := by
  rw [← h.filter_eq, problemsOf, check]
  clear h
  induction c.records with
  | nil => rfl
  | cons r rest ih =>
    rw [List.flatMap_cons, List.filter_append, ih]
    cases hsame : r.path.same path with
    | true =>
      have hall : (r.check rules).filter (fun p => p.path.same path) = r.check rules :=
        List.filter_eq_self.mpr fun p hp => by rw [Record.path_of_mem_check hp, hsame]
      rw [hall, List.filter_cons_of_pos (by simpa using hsame), List.flatMap_cons]
    | false =>
      have hnone : (r.check rules).filter (fun p => p.path.same path) = [] :=
        List.filter_eq_nil_iff.mpr fun p hp =>
          by rw [Record.path_of_mem_check hp, hsame]; exact Bool.false_ne_true
      rw [hnone, List.filter_cons_of_neg (by simp [hsame])]
      rfl

/-- Without the spelling of the path, the problems of a file are told by its symbols. -/
theorem map_problemsOf (h : Sorted c.records) (rules : CheckRules) (path : Path) :
    (c.problemsOf rules path).map (fun p => (p.symbol, p.reason)) = ((c.get? path).getD []).flatMap
      fun s => (rules.reasons s.name).map fun reason => (s.name, reason) := by
  rw [problemsOf_eq h, get?]
  cases c.records.find? fun r => r.path.same path with
  | none => rfl
  | some r => simp [Record.check, List.map_flatMap, Function.comp_def]

theorem problemsOf_congr (h : Sorted c.records) (h' : Sorted c'.records) (rules : CheckRules)
    {path : Path} (hget : c.get? path = c'.get? path)
    (hspelling : c.spelling? path = c'.spelling? path) :
    c.problemsOf rules path = c'.problemsOf rules path := by
  rw [problemsOf_eq h, problemsOf_eq h']
  rw [get?, get?] at hget
  rw [spelling?, spelling?] at hspelling
  cases hfound : c.records.find? fun r => r.path.same path with
  | none =>
    rw [hfound] at hget
    rw [Option.map_eq_none_iff.mp hget.symm]
  | some r =>
    rw [hfound] at hget hspelling
    obtain ⟨r', hfound', hsymbols⟩ := Option.map_eq_some_iff.mp hget.symm
    rw [hfound', Option.map_some, Option.map_some, Option.some.injEq] at hspelling
    have hsame : r = r' := by
      cases r
      cases r'
      rw [Record.mk.injEq]
      exact ⟨hspelling, hsymbols.symm⟩
    rw [hfound', hsame]

/-- **The check goes symbol by symbol, grows with its rules and is local.** After every history its
problems are those of each symbol in turn, file after file in path order: one for a name of too
few characters, and then one for the first listed token that occurs in the name. To ask for
longer names, or for more tokens behind those listed, loses none of them and changes none. And
about a path it says what the symbols of that path make it say. -/
theorem check_by_symbol (history : List Change) (rules : CheckRules) :
    (after history).paths.Pairwise (fun p q => p.order q = .lt) ∧
    (∃ parts, (after history).check rules = parts.flatten ∧
      List.Forall₂ (fun entry part => RemarksOn rules entry.1 entry.2 part)
        (after history).entries parts) ∧
    (∀ rules' : CheckRules, rules.minLength ≤ rules'.minLength →
      rules.suspicious <+: rules'.suspicious →
      ((after history).check rules).Sublist ((after history).check rules')) ∧
    ∀ (history' : List Change) (path : Path),
      (after history).get? path = (after history').get? path →
      ((after history).problemsOf rules path).map (fun p => (p.symbol, p.reason)) =
        ((after history').problemsOf rules path).map (fun p => (p.symbol, p.reason)) ∧
      ((after history).spelling? path = (after history').spelling? path →
        (after history).problemsOf rules path = (after history').problemsOf rules path) := by
  have hsorted := (after_holds history).sorted
  refine ⟨List.pairwise_map.mpr hsorted, exists_remarks _ rules, fun rules' hlength htokens => ?_,
    fun history' path hget => ⟨?_, ?_⟩⟩
  · exact check_sublist ⟨hlength, htokens⟩ _
  · rw [map_problemsOf hsorted, map_problemsOf (after_holds history').sorted, hget]
  · exact problemsOf_congr hsorted (after_holds history').sorted rules hget

/-- A name that is too short and has a token in it, under rules that ask for more; and the same
file under another spelling, without the other one. -/
theorem check_by_symbol_both :
    ∃ (history history' : List Change) (rules rules' : CheckRules),
      rules = ⟨2, ["void", "#"]⟩ ∧ rules' = ⟨8, ["void", "#", "x"]⟩ ∧
      (after history).records = [⟨.ofText "a.h", [⟨"voidPtr", .function⟩]⟩,
        ⟨.ofText "b.h", [⟨"#", .define⟩, ⟨"x", .enum⟩]⟩] ∧
      (after history).check rules = [⟨.ofText "a.h", "voidPtr", .suspicious "void"⟩,
        ⟨.ofText "b.h", "#", .tooShort⟩, ⟨.ofText "b.h", "#", .suspicious "#"⟩,
        ⟨.ofText "b.h", "x", .tooShort⟩] ∧
      ((after history).check rules).Sublist ((after history).check rules') ∧
      (after history).check rules' ≠ (after history).check rules ∧
      (after history').records = [⟨.ofText "b.h/", [⟨"#", .define⟩, ⟨"x", .enum⟩]⟩] ∧
      ((after history).problemsOf rules (.ofText "b.h")).map (fun p => (p.symbol, p.reason)) =
        ((after history').problemsOf rules (.ofText "b.h")).map (fun p => (p.symbol, p.reason)) ∧
      (after history').problemsOf rules (.ofText "b.h") ≠ [] := by
  let history : List Change :=
    [.insert ⟨.ofText "b.h", [⟨"#", .define⟩, ⟨"x", .enum⟩]⟩, .insert ⟨.ofText "a.h",
      [⟨"voidPtr", .function⟩]⟩]
  let history' : List Change :=
    [.insert ⟨.ofText "b.h/", [⟨"#", .define⟩, ⟨"x", .enum⟩]⟩]
  let rules : CheckRules := ⟨2, ["void", "#"]⟩
  let rules' : CheckRules := ⟨8, ["void", "#", "x"]⟩
  obtain ⟨_, _, hgrows, hlocal⟩ := check_by_symbol history rules
  have hget : (after history).get? (.ofText "b.h") = (after history').get? (.ofText "b.h") := by
    decide +kernel
  exact ⟨history, history', rules, rules', rfl, rfl, by decide +kernel, by decide +kernel,
    hgrows rules' (by decide) ⟨["x"], rfl⟩,
    by decide +kernel, rfl, (hlocal history' (.ofText "b.h") hget).1, by decide +kernel⟩

end Catalogue

end HeaderIndex
