import HeaderIndex.Proofs.Config.Merge
import HeaderIndex.Toml.Parser

/-! A document gives no key two values. Every statement puts what it defines into a table
by its key, and a table that stands as a value is made the same way, so in the tables of a
document no key stands twice (`distinct_of_parse?`). -/

namespace HeaderIndex.Toml

open HeaderIndex.Text HeaderIndex.Config

/-- What every step keeps, a run of steps keeps. -/
theorem foldlM_keeps {α β : Type} (holds : β → Prop) {step : β → α → Option β}
    {items : List α} {start stop : β}
    (hstep : ∀ item ∈ items, ∀ b b', holds b → step b item = some b' → holds b')
    (hstart : holds start) (h : items.foldlM step start = some stop) : holds stop := by
  induction items generalizing start with
  | nil =>
    obtain rfl := Option.some.inj h
    exact hstart
  | cons item items ih =>
    rw [List.foldlM_cons] at h
    obtain ⟨next, hnext, hrest⟩ := Option.bind_eq_some_iff.mp h
    exact ih (fun i hi => hstep i (List.mem_cons_of_mem _ hi))
      (hstep item List.mem_cons_self _ _ hstart hnext) hrest

/-! ## Tables as statements make them -/

namespace Branch

/-- The tables made so far, as the values that they are going to be, have no key twice. -/
abbrev Distinct (branch : Branch) : Prop := Members.Distinct (membersOf branch)

theorem membersOf_set (key : String) (item : Item) (branch : Branch) :
    membersOf (branch.set key item) = Members.set key item.toValue (membersOf branch) := by
  induction branch with
  | nil => simp only [set, membersOf, Members.set]
  | cons head rest ih =>
    obtain ⟨k, old⟩ := head
    simp only [set, membersOf, Members.set]
    split
    · rw [membersOf]
    · rw [membersOf, ih]

theorem lookup_membersOf (key : String) (branch : Branch) :
    Members.lookup key (membersOf branch) = (branch.lookup key).map Item.toValue := by
  induction branch with
  | nil => simp only [lookup, membersOf, Members.lookup, Option.map_none]
  | cons head rest ih =>
    obtain ⟨k, old⟩ := head
    simp only [lookup, membersOf, Members.lookup]
    split
    · rfl
    · exact ih

theorem distinct_nil : Distinct [] := by
  rw [Distinct, membersOf]
  exact Members.distinct_nil

variable {branch : Branch}

theorem Distinct.set {key : String} {item : Item} (h : branch.Distinct)
    (hi : item.toValue.Distinct) : (branch.set key item).Distinct := by
  rw [Distinct, membersOf_set]
  exact Members.Distinct.set h hi

theorem Distinct.of_lookup {key : String} {item : Item} (h : branch.Distinct)
    (hl : branch.lookup key = some item) : item.toValue.Distinct := by
  have hvalue : Members.lookup key (membersOf branch) = some item.toValue := by
    rw [lookup_membersOf, hl]
    rfl
  exact Members.Distinct.of_lookup h hvalue

theorem distinct_table {origin : Origin} {inner : Branch} (h : inner.Distinct) :
    (Item.table origin inner).toValue.Distinct := by
  rw [Item.toValue]
  exact h

theorem Distinct.of_table {origin : Origin} {inner : Branch}
    (h : (Item.table origin inner).toValue.Distinct) : inner.Distinct := by
  rw [Item.toValue] at h
  exact h

theorem distinct_tables (elements : List Branch) : (Item.tables elements).toValue.Distinct := by
  rw [Item.toValue]
  exact .plain nofun

/-- What changes one table and leaves its keys apart does so at the end of any path. -/
theorem Distinct.alter {dotted : Bool} {change : Origin → Branch → Option Branch}
    (hchange : ∀ origin inner inner', Distinct inner →
      change origin inner = some inner' → Distinct inner') {path : List String} {origin : Origin}
    {branch' : Branch} (h : branch.Distinct)
    (halter : alter dotted change path origin branch = some branch') : branch'.Distinct := by
  induction path generalizing origin branch branch' with
  | nil => exact hchange _ _ _ h halter
  | cons key path ih =>
    rw [Branch.alter] at halter
    split at halter
    · obtain ⟨inner, hinner, rfl⟩ := Option.map_eq_some_iff.mp halter
      exact h.set (distinct_table (ih distinct_nil hinner))
    · cases halter
    · rename_i origin members hl
      split at halter
      · cases halter
      · obtain ⟨inner, hinner, rfl⟩ := Option.map_eq_some_iff.mp halter
        exact h.set (distinct_table (ih (Distinct.of_table (h.of_lookup hl)) hinner))
    · obtain ⟨inner, _, rfl⟩ := Option.map_eq_some_iff.mp halter
      exact h.set (distinct_tables _)

theorem Distinct.define {path : List String} {key : String} {value : Value} {branch' : Branch}
    (h : branch.Distinct) (hv : value.Distinct)
    (hdefine : branch.define path key value = some branch') : branch'.Distinct := by
  refine h.alter (fun origin inner inner' hinner hchange => ?_) hdefine
  split at hchange
  · cases hchange
  · split at hchange
    · cases hchange
    · obtain rfl := Option.some.inj hchange
      refine hinner.set ?_
      rw [Item.toValue]
      exact hv

theorem Distinct.openTable {path : List String} {key : String} {branch' : Branch}
    (h : branch.Distinct) (hopen : branch.openTable path key = some branch') :
    branch'.Distinct := by
  refine h.alter (fun origin inner inner' hinner hchange => ?_) hopen
  split at hchange
  · obtain rfl := Option.some.inj hchange
    exact hinner.set (distinct_table distinct_nil)
  · rename_i members hl
    obtain rfl := Option.some.inj hchange
    exact hinner.set (distinct_table (Distinct.of_table (hinner.of_lookup hl)))
  · cases hchange

theorem Distinct.openElement {path : List String} {key : String} {branch' : Branch}
    (h : branch.Distinct) (hopen : branch.openElement path key = some branch') :
    branch'.Distinct := by
  refine h.alter (fun origin inner inner' hinner hchange => ?_) hopen
  split at hchange
  · obtain rfl := Option.some.inj hchange
    exact hinner.set (distinct_tables _)
  · obtain rfl := Option.some.inj hchange
    exact hinner.set (distinct_tables _)
  · cases hchange

end Branch

/-! ## Values -/

theorem distinct_of_integerValue? {n : Int} {value : Value} (h : integerValue? n = some value) :
    value.Distinct := by
  unfold integerValue? at h
  split at h
  · obtain rfl := Option.some.inj h
    exact .plain nofun
  · cases h

theorem distinct_of_realValue? {negative : Bool} {d : Decimal} {value : Value}
    (h : realValue? negative d = some value) : value.Distinct := by
  unfold realValue? at h
  split at h
  · cases h
  · obtain rfl := Option.some.inj h
    exact .plain nofun

theorem distinct_of_based? {base : Nat} {isDigit : Char → Bool} {text : List Char}
    {found : Hit Value} (h : based? base isDigit text = some found) : found.value.Distinct := by
  unfold based? at h
  simp only [Option.bind_eq_bind, Option.bind_eq_some_iff, Option.pure_def, Option.some.injEq] at h
  obtain ⟨_, _, value, hvalue, rfl⟩ := h
  exact distinct_of_integerValue? hvalue

theorem distinct_of_decimalNumber? {text : List Char} {found : Hit Value}
    (h : decimalNumber? text = some found) : found.value.Distinct := by
  unfold decimalNumber? at h
  simp only [Option.bind_eq_bind, Option.bind_eq_some_iff, Option.pure_def] at h
  obtain ⟨whole, _, h⟩ := h
  split at h
  · simp only [Option.bind_eq_some_iff, Option.some.injEq] at h
    obtain ⟨_, _, value, hvalue, rfl⟩ := h
    exact distinct_of_realValue? hvalue
  · split at h
    · simp only [Option.bind_eq_some_iff, Option.some.injEq] at h
      obtain ⟨value, hvalue, rfl⟩ := h
      exact distinct_of_realValue? hvalue
    · simp only [Option.bind_eq_some_iff, Option.some.injEq] at h
      obtain ⟨value, hvalue, rfl⟩ := h
      exact distinct_of_integerValue? hvalue

theorem distinct_of_namedNumber? {text : List Char} {found : Hit Value}
    (h : namedNumber? text = some found) : found.value.Distinct := by
  unfold namedNumber? at h
  dsimp only at h
  split at h
  · obtain rfl := Option.some.inj h
    exact .plain nofun
  · obtain rfl := Option.some.inj h
    exact .plain nofun
  · cases h

theorem distinct_of_number? {text : List Char} {found : Hit Value} (h : number? text = some found) :
    found.value.Distinct := by
  unfold number? at h
  split at h
  · exact distinct_of_based? h
  · exact distinct_of_based? h
  · exact distinct_of_based? h
  · rcases Option.or_eq_some_iff.mp h with h | ⟨_, h⟩
    · exact distinct_of_namedNumber? h
    · exact distinct_of_decimalNumber? h

theorem distinct_of_scalar? {text : List Char} {found : Hit Value} (h : scalar? text = some found) :
    found.value.Distinct := by
  unfold scalar? at h
  split at h
  · cases h
  · split at h
    · obtain ⟨_, _, rfl⟩ := Option.map_eq_some_iff.mp h
      exact .plain nofun
    · split at h
      · obtain ⟨_, _, rfl⟩ := Option.map_eq_some_iff.mp h
        exact .plain nofun
      · split at h
        · obtain ⟨_, _, rfl⟩ := Option.map_eq_some_iff.mp h
          exact .plain nofun
        · split at h
          · obtain rfl := Option.some.inj h
            exact Members.distinct_nil
          · exact distinct_of_number? h

theorem distinct_of_inlineTable? {pairs : List (Key × Value)} {value : Value}
    (hpairs : ∀ pair ∈ pairs, pair.2.Distinct) (h : inlineTable? pairs = some value) :
    value.Distinct := by
  simp only [inlineTable?, Option.bind_eq_bind, Option.bind_eq_some_iff, Option.pure_def,
    Option.some.injEq] at h
  obtain ⟨branch, hfold, rfl⟩ := h
  refine foldlM_keeps Branch.Distinct (fun pair hp inner inner' hinner hdefine => ?_)
    Branch.distinct_nil hfold
  exact hinner.define (hpairs pair hp) hdefine

/-- The readers of values and of pairs call each other with a smaller bound. -/
theorem distinct_of_bound (bound : Nat) :
    (∀ depth text found, value? bound depth text = some found → found.value.Distinct) ∧
      (∀ depth text found, pairs? bound depth text = some found → ∀ pair ∈ found.value,
        pair.2.Distinct) := by
  induction bound with
  | zero => exact ⟨fun _ _ _ h => by simp [value?] at h, fun _ _ _ h => by simp [pairs?] at h⟩
  | succ bound ih =>
    obtain ⟨ihvalue, ihpairs⟩ := ih
    refine ⟨fun depth text found h => ?_, fun depth text found h => ?_⟩
    · unfold value? at h
      split at h
      · split at h
        · cases h
        · obtain ⟨_, _, rfl⟩ := Option.map_eq_some_iff.mp h
          exact .plain nofun
      · split at h
        · cases h
        · split at h
          · obtain rfl := Option.some.inj h
            exact Members.distinct_nil
          · simp only [Option.bind_eq_bind, Option.bind_eq_some_iff, Option.pure_def,
              Option.some.injEq] at h
            obtain ⟨pairs, hpairs, value, hvalue, rfl⟩ := h
            exact distinct_of_inlineTable? (ihpairs _ _ _ hpairs) hvalue
      · exact distinct_of_scalar? h
    · unfold pairs? at h
      simp only [Option.bind_eq_bind, Option.bind_eq_some_iff] at h
      obtain ⟨key, _, h⟩ := h
      split at h
      · obtain ⟨value, hvalue, h⟩ := Option.bind_eq_some_iff.mp h
        split at h
        · obtain ⟨more, hmore, rfl⟩ := Option.map_eq_some_iff.mp h
          exact List.forall_mem_cons.mpr ⟨ihvalue _ _ _ hvalue, ihpairs _ _ _ hmore⟩
        · obtain rfl := Option.some.inj h
          exact List.forall_mem_singleton.mpr (ihvalue _ _ _ hvalue)
        · cases h
      · cases h

/-! ## Documents -/

/-- The value of a statement, if it gives one, has no key twice. -/
def Statement.Distinct : Statement → Prop
  | .pair _ value => value.Distinct
  | _ => True

theorem distinct_of_statement? {text : List Char} {found : Hit Statement}
    (h : statement? text = some found) : found.value.Distinct := by
  unfold statement? at h
  split at h
  · simp only [Option.bind_eq_bind, Option.bind_eq_some_iff, Option.pure_def,
      Option.some.injEq] at h
    obtain ⟨_, _, _, _, rfl⟩ := h
    trivial
  · simp only [Option.bind_eq_bind, Option.bind_eq_some_iff, Option.pure_def,
      Option.some.injEq] at h
    obtain ⟨_, _, _, _, rfl⟩ := h
    trivial
  · simp only [Option.bind_eq_bind, Option.bind_eq_some_iff, Option.pure_def,
      Option.some.injEq] at h
    obtain ⟨_, _, _, _, value, hvalue, rfl⟩ := h
    exact (distinct_of_bound _).1 _ _ _ hvalue

theorem distinct_of_statements? {bound : Nat} {text : List Char} {statements : List Statement}
    (h : statements? bound text = some statements) :
    ∀ statement ∈ statements, statement.Distinct := by
  induction bound generalizing text statements with
  | zero => simp [statements?] at h
  | succ bound ih =>
    unfold statements? at h
    split at h
    · obtain rfl := Option.some.inj h
      exact List.forall_mem_nil _
    · simp only [Option.bind_eq_bind, Option.bind_eq_some_iff, Option.pure_def,
        Option.some.injEq] at h
      obtain ⟨first, hfirst, _, _, more, hmore, rfl⟩ := h
      exact List.forall_mem_cons.mpr ⟨distinct_of_statement? hfirst, ih hmore⟩

theorem Document.distinct_add? {statement : Statement} {d d' : Document} (hs : statement.Distinct)
    (h : d.branch.Distinct) (hadd : d.add? statement = some d') : d'.branch.Distinct := by
  cases statement with
  | table key =>
    obtain ⟨branch, hopen, rfl⟩ := Option.map_eq_some_iff.mp hadd
    exact h.openTable hopen
  | element key =>
    obtain ⟨branch, hopen, rfl⟩ := Option.map_eq_some_iff.mp hadd
    exact h.openElement hopen
  | pair key value =>
    obtain ⟨branch, halter, rfl⟩ := Option.map_eq_some_iff.mp hadd
    exact h.alter (fun _ _ _ hinner hdefine => hinner.define hs hdefine) halter

/-- No table of a document has a key twice. -/
theorem distinct_of_parse? {text : List Char} {members : Members} (h : parse? text = some members) :
    members.Distinct := by
  simp only [parse?, Option.bind_eq_bind, Option.bind_eq_some_iff, Option.pure_def,
    Option.some.injEq] at h
  obtain ⟨statements, hstatements, document, hfold, rfl⟩ := h
  refine foldlM_keeps (fun d : Document => d.branch.Distinct) (fun statement hs d d' hd hadd => ?_)
    Branch.distinct_nil hfold
  exact Document.distinct_add? (distinct_of_statements? hstatements statement hs) hd hadd

end HeaderIndex.Toml
