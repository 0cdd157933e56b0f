import HeaderIndex.Config.Value
import Mathlib.Data.List.Nodup

/-! Tables laid over each other. Members are looked up by their first occurrence and laid
over others one after the other, so the two agree where no key stands twice
(`Value.Distinct`). A key of the result then has its value from the later table if that has
one, merged with the earlier value, else from the earlier table (`Members.lookup_merge`). -/

namespace HeaderIndex.Config

/-- No table has a key twice, nor has any among its values. What lists hold does not matter. -/
inductive Value.Distinct : Value → Prop
  | plain {value : Value} (h : ∀ members, value ≠ .table members) : Distinct value
  | table {members : Members} (keys : (members.map Prod.fst).Nodup)
      (values : ∀ member ∈ members, Distinct member.2) : Distinct (.table members)

namespace Members

/-- The members of a table in which no key stands twice. -/
abbrev Distinct (members : Members) : Prop := (Value.table members).Distinct

theorem distinct_iff {members : Members} : members.Distinct ↔ (members.map Prod.fst).Nodup ∧
      ∀ member ∈ members, member.2.Distinct := by
  constructor
  · intro h
    cases h with
    | plain h => exact absurd rfl (h members)
    | table keys values => exact ⟨keys, values⟩
  · intro h
    exact .table h.1 h.2

theorem distinct_nil : Distinct [] := .table List.nodup_nil (by simp)

theorem distinct_singleton {key : String} {value : Value} (h : value.Distinct) :
    Distinct [(key, value)] :=
  .table (List.nodup_singleton key) (by simpa using h)

theorem mem_of_lookup {key : String} {members : Members} {value : Value}
    (h : lookup key members = some value) : (key, value) ∈ members := by
  induction members with
  | nil => cases h
  | cons head rest ih =>
    obtain ⟨k, v⟩ := head
    rw [lookup] at h
    split at h
    · rename_i hk
      obtain rfl := Option.some.inj h
      rw [beq_iff_eq.mp hk]
      exact List.mem_cons_self
    · exact List.mem_cons_of_mem _ (ih h)

theorem lookup_eq_none {key : String} {members : Members} (h : key ∉ members.map Prod.fst) :
    lookup key members = none := by
  cases hl : lookup key members with
  | none => rfl
  | some value => exact absurd (List.mem_map_of_mem (mem_of_lookup hl)) h

theorem Distinct.of_lookup {key : String} {members : Members} {value : Value} (h : members.Distinct)
    (hl : lookup key members = some value) : value.Distinct :=
  (distinct_iff.mp h).2 _ (mem_of_lookup hl)

theorem mem_set {key : String} {value : Value} {members : Members} {member : String × Value}
    (h : member ∈ set key value members) : member = (key, value) ∨ member ∈ members := by
  induction members with
  | nil => exact .inl (List.mem_singleton.mp h)
  | cons head rest ih =>
    obtain ⟨k, v⟩ := head
    rw [set] at h
    split at h
    · rename_i hk
      rw [beq_iff_eq.mp hk] at h
      exact (List.mem_cons.mp h).imp_right (List.mem_cons_of_mem _)
    · rcases List.mem_cons.mp h with rfl | h
      · exact .inr List.mem_cons_self
      · exact (ih h).imp_right (List.mem_cons_of_mem _)

theorem nodup_set {key : String} {value : Value} {members : Members}
    (h : (members.map Prod.fst).Nodup) : ((set key value members).map Prod.fst).Nodup := by
  induction members with
  | nil => exact List.nodup_singleton key
  | cons head rest ih =>
    obtain ⟨k, v⟩ := head
    obtain ⟨hk, hrest⟩ := List.nodup_cons.mp h
    rw [set]
    split
    · exact h
    · rename_i hne
      refine List.nodup_cons.mpr ⟨fun hm => ?_, ih hrest⟩
      obtain ⟨member, hmem, heq⟩ := List.mem_map.mp hm
      rcases mem_set hmem with rfl | hmem
      · exact hne (beq_iff_eq.mpr heq.symm)
      · exact hk (heq ▸ List.mem_map_of_mem hmem)

theorem Distinct.set {key : String} {value : Value} {members : Members} (h : members.Distinct)
    (hv : value.Distinct) : (set key value members).Distinct := by
  refine .table (nodup_set (distinct_iff.mp h).1) fun member hm => ?_
  rcases mem_set hm with rfl | hm
  · exact hv
  · exact (distinct_iff.mp h).2 member hm

/-- A table laid over another has no key twice, if neither has. -/
theorem Distinct.merge {old new : Members} (hold : old.Distinct) (hnew : new.Distinct) :
    (old.merge new).Distinct := by
  -- the two functions of a merge call each other, so both are followed at once
  revert hold hnew
  refine Members.merge.induct
    (fun old new => old.Distinct → new.Distinct → (old.merge new).Distinct)
    (fun old new => Distinct old → Distinct new → (Members.merge old new).Distinct)
    ?tables ?overTable ?overAny ?nil ?cons old new
  case tables =>
    intro new old ih hold hnew
    rw [Value.merge]
    exact ih hold hnew
  case overTable =>
    intro old new hne _ hnew
    cases old with
    | table members => exact absurd rfl (hne members)
    | _ => exact hnew
  case overAny =>
    intro new old hne _ hnew
    cases new with
    | table members => exact absurd rfl (hne members)
    | _ => exact hnew
  case nil =>
    intro old hold _
    exact hold
  case cons =>
    intro old key new rest value ihvalue ihrest hold hnew
    obtain ⟨hkeys, hvalues⟩ := distinct_iff.mp hnew
    have hhead : new.Distinct := hvalues _ List.mem_cons_self
    have hvalue : Value.Distinct value := by
      cases hl : lookup key old with
      | none => simpa only [value, hl] using hhead
      | some present => simpa only [value, hl] using ihvalue present (hold.of_lookup hl) hhead
    rw [Members.merge]
    exact ihrest (hold.set hvalue)
      (.table (List.nodup_cons.mp hkeys).2 fun member hm =>
        hvalues member (List.mem_cons_of_mem _ hm))

/-- What a key has in a table laid over another. -/
theorem lookup_merge {new : Members} (h : (new.map Prod.fst).Nodup) (old : Members) (key : String) :
    lookup key (old.merge new) =
      match lookup key new with
      | some value => some (((lookup key old).map (·.merge value)).getD value)
      | none => lookup key old := by
  induction new generalizing old with
  | nil => rfl
  | cons head rest ih =>
    obtain ⟨k, v⟩ := head
    obtain ⟨hk, hrest⟩ := List.nodup_cons.mp h
    rw [Members.merge, ih hrest, lookup_set, lookup]
    by_cases hkey : k = key
    · subst hkey
      rw [lookup_eq_none hk]
      cases lookup k old <;> simp
    · simp [hkey]

end Members

end HeaderIndex.Config
