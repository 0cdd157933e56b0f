import HeaderIndex.Config.Load
import HeaderIndex.Proofs.Toml.Distinct
import Mathlib.Data.List.Induction

/-! No source of settings gives a key two values: neither a file, also after its boxes are
opened (`distinct_of_fileMembers`), nor the environment (`distinct_environmentMembers`). -/

namespace HeaderIndex.Config

open HeaderIndex.Text

/-! ## Files -/

theorem distinct_of_unboxTable? {members : Members} {value : Value} (h : members.Distinct)
    (hu : unboxTable? members = some value) : value.Distinct := by
  unfold unboxTable? at hu
  split at hu
  · cases hu
  · obtain rfl := Option.some.inj hu
    cases hl : Members.lookup boxKey members with
    | none => exact h
    | some held => exact h.of_lookup hl

/-- Opening boxes leaves the keys of a table alone. -/
theorem distinct_of_unboxMembers? {members opened : Members} (h : members.Distinct)
    (hu : unboxMembers? members = some opened) :
    opened.Distinct ∧ opened.map Prod.fst = members.map Prod.fst := by
  revert opened h
  refine unboxMembers?.induct
    (fun value => ∀ opened, value.Distinct → value.unbox? = some opened → opened.Distinct)
    (fun _ => True)
    (fun members => ∀ {opened}, Members.Distinct members →
      unboxMembers? members = some opened → Members.Distinct opened ∧
      opened.map Prod.fst = members.map Prod.fst)
    ?table ?list ?other trivial (fun _ _ _ _ => trivial) ?nil ?cons members
  case table =>
    intro members ih opened h hu
    rw [Value.unbox?] at hu
    obtain ⟨inner, hinner, htable⟩ := Option.bind_eq_some_iff.mp hu
    exact distinct_of_unboxTable? (ih h hinner).1 htable
  case list =>
    intro items _ opened _ hu
    rw [Value.unbox?] at hu
    obtain ⟨_, _, rfl⟩ := Option.map_eq_some_iff.mp hu
    exact .plain nofun
  case other =>
    intro value htable hlist opened h hu
    rw [Value.unbox?.eq_3 value htable hlist] at hu
    exact Option.some.inj hu ▸ h
  case nil =>
    intro opened h hu
    rw [unboxMembers?] at hu
    obtain rfl := Option.some.inj hu
    exact ⟨h, rfl⟩
  case cons =>
    intro key value rest ihvalue ihrest opened h hu
    rw [unboxMembers?] at hu
    simp only [Option.bind_eq_bind, Option.bind_eq_some_iff, Option.pure_def,
      Option.some.injEq] at hu
    obtain ⟨first, hfirst, more, hmore, rfl⟩ := hu
    obtain ⟨hkeys, hvalues⟩ := Members.distinct_iff.mp h
    obtain ⟨hvalue, hrest⟩ := List.forall_mem_cons.mp hvalues
    obtain ⟨hopened, hsame⟩ := ihrest (.table (List.nodup_cons.mp hkeys).2 hrest) hmore
    have hall : ((key, first) :: more).map Prod.fst = ((key, value) :: rest).map Prod.fst := by
      rw [List.map_cons, List.map_cons, hsame]
    refine ⟨.table (hall ▸ hkeys) ?_, hall⟩
    exact List.forall_mem_cons.mpr ⟨ihvalue first hvalue hfirst,
      (Members.distinct_iff.mp hopened).2⟩

theorem distinct_of_fileMembers {file : Option (List UInt8)} {members : Members}
    (h : fileMembers file = .ok members) : members.Distinct := by
  unfold fileMembers at h
  split at h
  · obtain rfl := Except.ok.inj h
    exact Members.distinct_nil
  · split at h
    · cases h
    · split at h
      · rename_i found hfound
        obtain rfl := Except.ok.inj h
        obtain ⟨parsed, hparsed, hu⟩ := Option.bind_eq_some_iff.mp hfound
        exact (distinct_of_unboxMembers? (Toml.distinct_of_parse? hparsed) hu).1
      · cases h

/-! ## Variables -/

namespace Literal

theorem distinct_bare (word : List Char) : (bare word).Distinct := by
  unfold bare
  split <;> exact .plain nofun

theorem distinct_of_scalar? {text : List Char} {found : Hit Value} (h : scalar? text = some found) :
    found.value.Distinct := by
  unfold scalar? at h
  split at h
  · obtain rfl := Option.some.inj h
    exact .plain nofun
  · obtain rfl := Option.some.inj h
    exact .plain nofun
  · split at h
    · obtain ⟨_, _, rfl⟩ := Option.map_eq_some_iff.mp h
      exact .plain nofun
    · obtain rfl := Option.some.inj h
      exact .plain nofun
    · cases h
    · obtain rfl := Option.some.inj h
      exact distinct_bare _

/-- Members that are put into a table one after the other. -/
theorem distinct_foldl_set {pairs : List (String × Value)} {members : Members}
    (h : members.Distinct) (hpairs : ∀ pair ∈ pairs, pair.2.Distinct) :
    Members.Distinct (pairs.foldl (fun members (k, v) => Members.set k v members) members) := by
  induction pairs generalizing members with
  | nil => exact h
  | cons pair pairs ih =>
    obtain ⟨hpair, hrest⟩ := List.forall_mem_cons.mp hpairs
    exact ih (h.set hpair) hrest

theorem distinct_of_bound (bound : Nat) :
    (∀ text found, value? bound text = some found → found.value.Distinct) ∧
      (∀ text found, pairs? bound text = some found → ∀ pair ∈ found.value,
        pair.2.Distinct) := by
  induction bound with
  | zero => exact ⟨fun _ _ h => by simp [value?] at h, fun _ _ h => by simp [pairs?] at h⟩
  | succ bound ih =>
    obtain ⟨ihvalue, ihpairs⟩ := ih
    refine ⟨fun text found h => ?_, fun text found h => ?_⟩
    · unfold value? at h
      split at h
      · obtain ⟨inner, hinner, hfound⟩ := Option.bind_eq_some_iff.mp h
        obtain ⟨_, _, rfl⟩ := Option.map_eq_some_iff.mp hinner
        obtain rfl := Option.some.inj hfound
        exact .plain nofun
      · obtain ⟨inner, hinner, hfound⟩ := Option.bind_eq_some_iff.mp h
        obtain ⟨pairs, hpairs, rfl⟩ := Option.map_eq_some_iff.mp hinner
        obtain rfl := Option.some.inj hfound
        exact distinct_foldl_set Members.distinct_nil (ihpairs _ _ hpairs)
      · obtain ⟨inner, hinner, hfound⟩ := Option.bind_eq_some_iff.mp h
        obtain rfl := Option.some.inj hfound
        have hvalue : inner.value.Distinct := distinct_of_scalar? hinner
        exact hvalue
    · unfold pairs? at h
      split at h
      · obtain rfl := Option.some.inj h
        exact List.forall_mem_nil _
      · simp only [Option.bind_eq_bind, Option.bind_eq_some_iff] at h
        obtain ⟨key, _, h⟩ := h
        split at h
        · obtain ⟨value, hvalue, h⟩ := Option.bind_eq_some_iff.mp h
          split at h
          · obtain ⟨more, hmore, rfl⟩ := Option.map_eq_some_iff.mp h
            exact List.forall_mem_cons.mpr ⟨ihvalue _ _ hvalue, ihpairs _ _ hmore⟩
          · obtain rfl := Option.some.inj h
            exact List.forall_mem_singleton.mpr (ihvalue _ _ hvalue)
          · cases h
        · cases h

theorem distinct_read (text : String) : (read text).Distinct := by
  unfold read
  dsimp only
  split
  · rename_i value h
    exact (distinct_of_bound _).1 _ _ h
  · exact .plain nofun

end Literal

theorem distinct_nested (path : List String) {value : Value} (h : value.Distinct) :
    (nested path value).Distinct := by
  induction path with
  | nil => exact h
  | cons key path ih => exact Members.distinct_singleton ih

theorem distinct_variableMembers (name value : String) : (variableMembers name value).Distinct := by
  unfold variableMembers
  split
  · exact Members.distinct_singleton (distinct_nested _ (Literal.distinct_read value))
  · exact Members.distinct_nil

theorem environmentMembers_concat (env : Variables) (name value : String) :
    environmentMembers (env ++ [(name, value)]) =
      (environmentMembers env).merge (variableMembers name value) := by
  rw [environmentMembers, List.foldl_append]
  rfl

theorem distinct_environmentMembers (env : Variables) : (environmentMembers env).Distinct := by
  induction env using List.reverseRecOn with
  | nil => exact Members.distinct_nil
  | append_singleton env v ih =>
    rw [environmentMembers_concat]
    exact ih.merge (distinct_variableMembers v.1 v.2)

end HeaderIndex.Config
