import HeaderIndex.Config.Load
import HeaderIndex.Proofs.Text.Utf8

/-! Files without boxes. Where no table below the top has one of the two keys that boxes
are told by, a file gives the members that its text spells (`fileMembers_of_boxless`). -/

namespace HeaderIndex.Config

open HeaderIndex.Text

/-- No table in a value has the key of a box, or the one that no table may have. -/
inductive Value.Boxless : Value → Prop
  | table {members : Members} (value : members.lookup boxKey = none)
      (mark : members.lookup markKey = none)
      (values : ∀ member ∈ members, Boxless member.2) : Boxless (.table members)
  | list {items : List Value} (values : ∀ item ∈ items, Boxless item) : Boxless (.list items)
  | other {value : Value} (table : ∀ members, value ≠ .table members)
      (list : ∀ items, value ≠ .list items) : Boxless value

theorem Value.Boxless.of_table {members : Members} (h : (Value.table members).Boxless) :
    members.lookup boxKey = none ∧ members.lookup markKey = none ∧ ∀ member ∈ members,
      member.2.Boxless := by
  cases h with
  | table value mark values => exact ⟨value, mark, values⟩
  | other table _ => exact absurd rfl (table members)

theorem Value.Boxless.of_list {items : List Value} (h : (Value.list items).Boxless) :
    ∀ item ∈ items, item.Boxless := by
  cases h with
  | list values => exact values
  | other _ list => exact absurd rfl (list items)

/-- Where there are no boxes, opening them changes nothing. -/
theorem unboxMembers?_of_boxless {members : Members}
    (h : ∀ member ∈ members, member.2.Boxless) : unboxMembers? members = some members := by
  revert h
  refine unboxMembers?.induct
    (fun value => value.Boxless → value.unbox? = some value)
    (fun items => (∀ item ∈ items, item.Boxless) → unboxItems? items = some items)
    (fun members => (∀ member ∈ members, member.2.Boxless) →
      unboxMembers? members = some members)
    ?table ?list ?other ?nilItems ?consItems ?nil ?cons members
  case table =>
    intro members ih h
    obtain ⟨hbox, hmark, hvalues⟩ := h.of_table
    rw [Value.unbox?, ih hvalues, Option.bind_some, unboxTable?, hmark, hbox]
    rfl
  case list =>
    intro items ih h
    rw [Value.unbox?, ih h.of_list]
    rfl
  case other =>
    intro value htable hlist _
    rw [Value.unbox?.eq_3 value htable hlist]
  case nilItems =>
    intro _
    rw [unboxItems?]
  case consItems =>
    intro item rest ihitem ihrest h
    obtain ⟨hitem, hrest⟩ := List.forall_mem_cons.mp h
    rw [unboxItems?, ihitem hitem, ihrest hrest]
    rfl
  case nil =>
    intro _
    rw [unboxMembers?]
  case cons =>
    intro key value rest ihvalue ihrest h
    obtain ⟨hvalue, hrest⟩ := List.forall_mem_cons.mp h
    rw [unboxMembers?, ihvalue hvalue, ihrest hrest]
    rfl

theorem fileMembers_of_boxless {text : List Char} {members : Members}
    (hparse : Toml.parse? text = some members) (h : ∀ member ∈ members, member.2.Boxless) :
    fileMembers (some (Utf8.encode text)) = .ok members := by
  have hdecode : Utf8.decode (Utf8.encode text) = .ok text := Utf8.decode_eq_ok_iff.mpr rfl
  simp only [fileMembers, hdecode, hparse, Option.bind_some, unboxMembers?_of_boxless h]

end HeaderIndex.Config
