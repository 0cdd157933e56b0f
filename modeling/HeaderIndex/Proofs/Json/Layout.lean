import HeaderIndex.Proofs.Json.RoundTrip

/-! The two layouts of JSON text. The indented text is that of a style with lines
(`indented_eq`), so it is read back as the compact text is. The compact text has no control
characters: those of a string are escaped (`compact_controlFree`). -/

namespace HeaderIndex.Json

open HeaderIndex.Text

/-! ## Indented text -/

def Style.indented : Style := ⟨newLine, [' ']⟩

theorem Style.indented_isBlank : Style.indented.IsBlank where
  line depth c hc := by
    rcases List.mem_cons.mp hc with rfl | hc
    · rfl
    · rw [List.eq_of_mem_replicate hc]
      rfl
  gap c hc := by
    rw [List.mem_singleton.mp hc]
    rfl

mutual

theorem indented_eq (depth : Nat) (j : Json) : indented depth j = written .indented depth j := by
  match j with
  | null | bool true | bool false | nat _ | number _ | string _ => rfl
  | array [] | object [] => rfl
  | array (item :: rest) =>
    show '[' :: indentedItems (depth + 1) (item :: rest) ++ newLine depth ++ [']'] = _
    rw [written_array, indentedItems_eq (depth + 1) (item :: rest)]
    simp [Style.indented]
  | object (member :: rest) =>
    show '\x7b' :: indentedMembers (depth + 1) (member :: rest) ++ newLine depth ++ ['\x7d'] = _
    rw [written_object, indentedMembers_eq (depth + 1) (member :: rest)]
    simp [Style.indented]

theorem indentedItems_eq (depth : Nat) (items : List Json) :
    indentedItems depth items = writtenItems .indented depth items := by
  match items with
  | [] => rfl
  | [item] => simp [indentedItems, writtenItems, indented_eq depth item, Style.indented]
  | item :: next :: rest =>
    simp [indentedItems, writtenItems, indented_eq depth item,
      indentedItems_eq depth (next :: rest), Style.indented]

theorem indentedMembers_eq (depth : Nat) (members : List (String × Json)) :
    indentedMembers depth members = writtenMembers .indented depth members := by
  match members with
  | [] => rfl
  | [(key, value)] =>
    simp [indentedMembers, writtenMembers, indented_eq depth value, Style.indented]
  | (key, value) :: next :: rest =>
    simp [indentedMembers, writtenMembers, indented_eq depth value,
      indentedMembers_eq depth (next :: rest), Style.indented]

end

theorem parse?_renderIndented {j : Json} (h : j.isNatural = true) :
    parse? j.renderIndented = some j := by
  rw [renderIndented, indented_eq 0 j]
  exact parse?_written Style.indented_isBlank h

/-! ## One line -/

def ControlFree (text : List Char) : Prop := ∀ c ∈ text, 0x20 ≤ c.toNat

instance (text : List Char) : Decidable (ControlFree text) :=
  List.decidableBAll (fun c : Char => 0x20 ≤ c.toNat) text

theorem controlFree_append {text more : List Char} :
    ControlFree (text ++ more) ↔ ControlFree text ∧ ControlFree more :=
  List.forall_mem_append

theorem controlFree_cons {c : Char} {text : List Char} :
    ControlFree (c :: text) ↔ 0x20 ≤ c.toNat ∧ ControlFree text :=
  List.forall_mem_cons

theorem controlFree_nil : ControlFree [] := List.forall_mem_nil _

theorem controlFree_digitChar : ∀ n < 16, 0x20 ≤ (Nat.digitChar n).toNat := by decide

theorem controlFree_hexPair {n : Nat} (h : n < 256) : ControlFree (hexPair n) := by
  rw [hexPair, controlFree_cons, controlFree_cons]
  exact ⟨controlFree_digitChar _ (by omega),
    controlFree_digitChar _ (by omega), controlFree_nil⟩

theorem controlFree_escape (c : Char) : ControlFree (escape c) := by
  rw [escape]
  split_ifs with hquote hslash hfeed hreturn htab hback hform hcontrol
  any_goals decide
  · simp only [controlFree_cons]
    exact ⟨by decide, by decide, by decide, by decide, controlFree_hexPair (by omega)⟩
  · exact controlFree_cons.mpr ⟨by omega, controlFree_nil⟩

theorem controlFree_quote (s : String) : ControlFree (quote s) := by
  rw [quote, List.cons_append, controlFree_cons, controlFree_append]
  refine ⟨by decide, fun c hc => ?_, controlFree_cons.mpr ⟨by decide, controlFree_nil⟩⟩
  obtain ⟨d, _, hd⟩ := List.mem_flatMap.mp hc
  exact controlFree_escape d c hd

theorem controlFree_of_isDigit {c : Char} (h : c.isDigit = true) : 0x20 ≤ c.toNat := by
  have hzero : '0'.toNat = 48 := rfl
  rw [Char.isDigit_iff_toNat] at h
  omega

mutual

/-- The compact text of a value stands on one line. -/
theorem compact_controlFree (j : Json) (h : j.isNatural = true) : ControlFree (compact j) := by
  match j with
  | null | bool true | bool false => decide
  | nat n => exact fun c hc => controlFree_of_isDigit (isDigit_of_mem_toDigits hc)
  | number _ => cases h
  | string value => exact controlFree_quote value
  | array items =>
    show ControlFree ('[' :: compactItems items ++ [']'])
    rw [List.cons_append, controlFree_cons, controlFree_append]
    exact ⟨by decide, compactItems_controlFree items h, by decide⟩
  | object members =>
    show ControlFree ('\x7b' :: compactMembers members ++ ['\x7d'])
    rw [List.cons_append, controlFree_cons, controlFree_append]
    exact ⟨by decide, compactMembers_controlFree members h, by decide⟩

theorem compactItems_controlFree (items : List Json) (h : areNatural items = true) :
    ControlFree (compactItems items) := by
  match items with
  | [] => exact controlFree_nil
  | [item] =>
    rw [areNatural, Bool.and_eq_true] at h
    exact compact_controlFree item h.1
  | item :: next :: rest =>
    rw [areNatural, Bool.and_eq_true] at h
    show ControlFree (compact item ++ ',' :: compactItems (next :: rest))
    rw [controlFree_append, controlFree_cons]
    exact ⟨compact_controlFree item h.1, by decide, compactItems_controlFree (next :: rest) h.2⟩

theorem compactMembers_controlFree (members : List (String × Json))
    (h : haveNatural members = true) : ControlFree (compactMembers members) := by
  match members with
  | [] => exact controlFree_nil
  | [(key, value)] =>
    rw [haveNatural, Bool.and_eq_true] at h
    show ControlFree (quote key ++ ':' :: compact value)
    rw [controlFree_append, controlFree_cons]
    exact ⟨controlFree_quote key, by decide, compact_controlFree value h.1⟩
  | (key, value) :: next :: rest =>
    rw [haveNatural, Bool.and_eq_true] at h
    show ControlFree (quote key ++ ':' :: compact value ++ ',' :: compactMembers (next :: rest))
    simp only [controlFree_append, controlFree_cons]
    exact ⟨⟨controlFree_quote key, by decide, compact_controlFree value h.1⟩, by decide,
      compactMembers_controlFree (next :: rest) h.2⟩

end

end HeaderIndex.Json
